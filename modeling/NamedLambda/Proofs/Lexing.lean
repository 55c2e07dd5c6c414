import NamedLambda.Token
import Mathlib.Data.List.Infix

/-!
# What a text is made of

`Token.lexemes s` is the list of the words of a text with their kinds, without the places where they
stand.  It obeys equations that speak neither of offsets nor of the bound in `Token.scanFrom`: white
space goes, a parenthesis, a semicolon, `=>` and `:=` are words, and so is a run of name bytes that
has no `:=` or `=>` in it and that something else ends (`lexemes_word`).  Conversely, every word of
a text has the bytes its kind asks for, so what is taken for a name is a valid one
(`proper_of_mem_lexemes`), and words with such bytes can be written so that they are read again
(`lexemes_spell`).
-/

namespace NamedLambda

namespace Token

def lexeme (t : Token) : Kind × Bytes := (t.kind, t.text)

def lexemes (s : Bytes) : List (Kind × Bytes) := (scanFrom s.length 0 s).map lexeme

def Breaks (s : Bytes) : Prop := ∀ b ∈ s.head?, isNameByte b = false

/-- a run of name bytes without `:=` and `=>` -/
def IsWord (w : Bytes) : Prop :=
  w ≠ [] ∧ w.all isNameByte = true ∧ ¬ [58, 61] <:+: w ∧ ¬ [61, 62] <:+: w

instance (w : Bytes) : Decidable (IsWord w) := inferInstanceAs (Decidable (_ ∧ _))

/-- a word that is not `fn` -/
def ValidName (w : Bytes) : Prop := IsWord w ∧ w ≠ [102, 110]

instance (w : Bytes) : Decidable (ValidName w) := inferInstanceAs (Decidable (_ ∧ _))

theorem breaks_nil : Breaks [] := by
  intro b hb
  cases hb

theorem breaks_cons {b : UInt8} (s : Bytes) (hb : isNameByte b = false) : Breaks (b :: s) := by
  intro c hc
  cases hc
  exact hb

/-! ## names at the start of a text -/

/-- two bytes at the start of a word and what follows it stand in the word, if the second is a name
byte -/
theorem infix_of_isPrefixOf {x y : UInt8} {w s : Bytes} (hy : isNameByte y = true) (hs : Breaks s)
    (hw : w ≠ []) (h : [x, y].isPrefixOf (w ++ s) = true) : [x, y] <:+: w := by
  rw [List.isPrefixOf_iff_prefix] at h
  cases w with
  | nil => exact absurd rfl hw
  | cons a w =>
    obtain ⟨hx, hp⟩ := List.cons_prefix_cons.mp h
    subst hx
    cases w with
    | nil =>
      obtain ⟨s', hs'⟩ := hp
      have hys : isNameByte y = false := hs y (by rw [show s = y :: s' from hs'.symm]; rfl)
      rw [hys] at hy
      cases hy
    | cons c w =>
      obtain ⟨hy', -⟩ := List.cons_prefix_cons.mp hp
      subst hy'
      exact (List.prefix_append [x, y] w).isInfix

theorem startsDefine_eq_false {w s : Bytes} (hw : IsWord w) (hs : Breaks s) :
    startsDefine (w ++ s) = false := by
  rw [Bool.eq_false_iff]
  intro h
  exact hw.2.2.1 (infix_of_isPrefixOf (by decide) hs hw.1 h)

theorem startsArrow_eq_false {w s : Bytes} (hw : IsWord w) (hs : Breaks s) :
    startsArrow (w ++ s) = false := by
  rw [Bool.eq_false_iff]
  intro h
  exact hw.2.2.2 (infix_of_isPrefixOf (by decide) hs hw.1 h)

theorem splitName_of_breaks {s : Bytes} (hs : Breaks s) : splitName s = ([], s) := by
  cases s with
  | nil => rfl
  | cons b s =>
    have hb : isNameByte b = false := hs b rfl
    rw [splitName, hb]
    rfl

theorem IsWord.tail {b : UInt8} {w : Bytes} (h : IsWord (b :: w)) (hw : w ≠ []) : IsWord w := by
  obtain ⟨-, hb, hd, ha⟩ := h
  rw [List.all_cons, Bool.and_eq_true] at hb
  refine ⟨hw, hb.2, ?_, ?_⟩
  · exact fun hi => hd (hi.trans (List.suffix_cons b w).isInfix)
  · exact fun hi => ha (hi.trans (List.suffix_cons b w).isInfix)

theorem splitName_word {w s : Bytes} (hw : IsWord w) (hs : Breaks s) :
    splitName (w ++ s) = (w, s) := by
  induction w with
  | nil => exact splitName_of_breaks hs
  | cons b w ih =>
    have hd := startsDefine_eq_false hw hs
    have ha := startsArrow_eq_false hw hs
    have hb : isNameByte b = true := List.all_eq_true.mp hw.2.1 b List.mem_cons_self
    have ih' : splitName (w ++ s) = (w, s) := by
      by_cases he : w = []
      · rw [he]
        exact splitName_of_breaks hs
      · exact ih (hw.tail he)
    rw [List.cons_append] at hd ha ⊢
    rw [splitName, hb, hd, ha, ih']
    rfl

theorem length_splitName (s : Bytes) : (splitName s).2.length ≤ s.length := by
  induction s with
  | nil => exact Nat.le_refl 0
  | cons b s ih =>
    rw [splitName]
    split
    · exact Nat.le_succ_of_le ih
    · exact Nat.le_refl _

/-! ## one word after the other -/

/-- what can be said of a byte where a word starts -/
def Starts (b : UInt8) : Prop := Byte.isBlank b = false ∧ b ≠ 35

instance (b : UInt8) : Decidable (Starts b) := inferInstanceAs (Decidable (_ ∧ _))

theorem length_read {b : UInt8} (s : Bytes) (hb : Starts b) : (read b s).2.2.length ≤ s.length := by
  unfold read
  split_ifs with h40 h41 h59 hd ha hc
  · exact Nat.le_refl _
  · exact Nat.le_refl _
  · exact Nat.le_refl _
  · show (s.drop 1).length ≤ s.length
    rw [List.length_drop]
    omega
  · show (s.drop 1).length ≤ s.length
    rw [List.length_drop]
    omega
  · exact Nat.le_refl _
  · -- the first byte belongs to the word
    have hn : isNameByte b = true := by
      simp [isNameByte, hb.1, hb.2, h40, h41, h59, hc]
    show (splitName (b :: s)).2.length ≤ _
    rw [splitName, hn]
    simp only [hd, ha]
    exact length_splitName s

theorem skipBlank_snd (comment : Bool) (offset offset' : Nat) (s : Bytes) :
    (skipBlank comment offset s).2 = (skipBlank comment offset' s).2 := by
  induction s generalizing comment offset offset' with
  | nil => cases comment <;> rfl
  | cons b s ih =>
    cases comment with
    | true => exact ih _ _ _
    | false =>
      rw [skipBlank, skipBlank]
      split
      · exact ih _ _ _
      · split
        · exact ih _ _ _
        · rfl

theorem length_skipBlank (comment : Bool) (offset : Nat) (s : Bytes) :
    (skipBlank comment offset s).2.length ≤ s.length := by
  induction s generalizing comment offset with
  | nil => cases comment <;> exact Nat.le_refl 0
  | cons b s ih =>
    cases comment with
    | true => exact Nat.le_succ_of_le (ih _ _)
    | false =>
      rw [skipBlank]
      split
      · exact Nat.le_succ_of_le (ih _ _)
      · split
        · exact Nat.le_succ_of_le (ih _ _)
        · exact Nat.le_refl _

theorem starts_of_skipBlank {comment : Bool} {offset offset' : Nat} {s r : Bytes} {b : UInt8}
    (h : skipBlank comment offset s = (offset', b :: r)) : Starts b := by
  induction s generalizing comment offset with
  | nil => cases comment <;> cases h
  | cons c s ih =>
    cases comment with
    | true => exact ih h
    | false =>
      rw [skipBlank] at h
      split at h
      · exact ih h
      · split at h
        · exact ih h
        · next hb hc =>
          cases h
          exact ⟨Bool.eq_false_iff.mpr hb, fun he => hc (beq_iff_eq.mpr he)⟩

theorem scanFrom_succ (n offset : Nat) (s : Bytes) :
    (scanFrom (n + 1) offset s).map lexeme =
      match (skipBlank false 0 s).2 with
      | [] => []
      | b :: r =>
        ((read b r).1, (read b r).2.1) ::
          (scanFrom n ((skipBlank false offset s).1 + (read b r).2.1.length) (read b r).2.2).map
            lexeme := by
  rw [skipBlank_snd false 0 offset s, scanFrom]
  rcases skipBlank false offset s with ⟨offset', _ | ⟨b, r⟩⟩
  · rfl
  · rfl

/-- neither the offset nor the bound changes the words -/
theorem map_lexeme_scanFrom {n m : Nat} (offset offset' : Nat) {s : Bytes} (hn : s.length ≤ n)
    (hm : s.length ≤ m) :
    (scanFrom n offset s).map lexeme = (scanFrom m offset' s).map lexeme := by
  induction n generalizing m offset offset' s with
  | zero =>
    have hs : s = [] := List.length_eq_zero_iff.mp (Nat.le_zero.mp hn)
    subst hs
    cases m <;> rfl
  | succ n ih =>
    cases m with
    | zero =>
      have hs : s = [] := List.length_eq_zero_iff.mp (Nat.le_zero.mp hm)
      subst hs
      rfl
    | succ m =>
      rw [scanFrom_succ, scanFrom_succ]
      have hl := length_skipBlank false 0 s
      rcases hr : skipBlank false 0 s with ⟨k, _ | ⟨b, r⟩⟩
      · rfl
      · rw [hr] at hl
        have hl' : r.length + 1 ≤ s.length := hl
        have hread := length_read r (starts_of_skipBlank hr)
        exact congrArg (List.cons _) (ih _ _ (by omega) (by omega))

theorem map_lexeme_eq_lexemes {n : Nat} (offset : Nat) {s : Bytes} (hn : s.length ≤ n) :
    (scanFrom n offset s).map lexeme = lexemes s :=
  map_lexeme_scanFrom offset 0 hn (Nat.le_refl _)

/-! ## the words of a text, one by one -/

/-- what is skipped at the start does not matter -/
theorem lexemes_eq_of_skipBlank {s s' : Bytes}
    (h : (skipBlank false 0 s).2 = (skipBlank false 0 s').2) : lexemes s = lexemes s' := by
  have hn : s.length ≤ s.length + s'.length + 1 := by omega
  have hm : s'.length ≤ s.length + s'.length + 1 := by omega
  rw [← map_lexeme_eq_lexemes 0 hn, ← map_lexeme_eq_lexemes 0 hm, scanFrom_succ, scanFrom_succ, h]
  have hl := length_skipBlank false 0 s'
  rcases hr : skipBlank false 0 s' with ⟨k, _ | ⟨c, r⟩⟩
  · rfl
  · rw [hr] at hl
    have hl' : r.length + 1 ≤ s'.length := hl
    have hread := length_read r (starts_of_skipBlank hr)
    exact congrArg (List.cons _) (map_lexeme_scanFrom _ _ (by omega) (by omega))

theorem lexemes_blank {b : UInt8} (s : Bytes) (hb : Byte.isBlank b = true) :
    lexemes (b :: s) = lexemes s := by
  apply lexemes_eq_of_skipBlank
  rw [skipBlank, if_pos hb]
  exact skipBlank_snd false 1 0 s

theorem lexemes_cons {b : UInt8} {s : Bytes} (hb : Starts b) :
    lexemes (b :: s) = ((read b s).1, (read b s).2.1) :: lexemes (read b s).2.2 := by
  have hc : ¬ (b == 35) = true := by
    intro h
    exact hb.2 (beq_iff_eq.mp h)
  have hk : (skipBlank false 0 (b :: s)).2 = b :: s := by
    rw [skipBlank, if_neg (Bool.eq_false_iff.mp hb.1), if_neg hc]
  rw [lexemes, List.length_cons, scanFrom_succ, hk]
  exact congrArg (List.cons _) (map_lexeme_eq_lexemes _ (length_read s hb))

theorem lexemes_leftParen (s : Bytes) : lexemes (40 :: s) = (.leftParen, [40]) :: lexemes s :=
  lexemes_cons (by decide)

theorem lexemes_rightParen (s : Bytes) : lexemes (41 :: s) = (.rightParen, [41]) :: lexemes s :=
  lexemes_cons (by decide)

theorem lexemes_semicolon (s : Bytes) : lexemes (59 :: s) = (.semicolon, [59]) :: lexemes s :=
  lexemes_cons (by decide)

theorem lexemes_define (s : Bytes) : lexemes (58 :: 61 :: s) = (.define, [58, 61]) :: lexemes s := by
  rw [lexemes_cons (by decide)]
  have hd : startsDefine (58 :: 61 :: s) = true := by simp [startsDefine, List.isPrefixOf]
  have hr : read 58 (61 :: s) = (.define, [58, 61], s) := by
    unfold read
    rw [hd]
    rfl
  rw [hr]

theorem lexemes_arrow (s : Bytes) : lexemes (61 :: 62 :: s) = (.arrow, [61, 62]) :: lexemes s := by
  rw [lexemes_cons (by decide)]
  have hd : startsDefine (61 :: 62 :: s) = false := by simp [startsDefine, List.isPrefixOf]
  have ha : startsArrow (61 :: 62 :: s) = true := by simp [startsArrow, List.isPrefixOf]
  have hr : read 61 (62 :: s) = (.arrow, [61, 62], s) := by
    unfold read
    rw [hd, ha]
    rfl
  rw [hr]

theorem lexemes_word {w s : Bytes} (hw : IsWord w) (hs : Breaks s) :
    lexemes (w ++ s) = (wordKind w, w) :: lexemes s := by
  cases w with
  | nil => exact absurd rfl hw.1
  | cons b w =>
    have hb : isNameByte b = true := List.all_eq_true.mp hw.2.1 b List.mem_cons_self
    have hd := startsDefine_eq_false hw hs
    have ha := startsArrow_eq_false hw hs
    have hsplit := splitName_word hw hs
    rw [List.cons_append] at hd ha hsplit ⊢
    simp only [isNameByte, Bool.not_eq_true', Bool.or_eq_false_iff] at hb
    obtain ⟨⟨⟨⟨⟨hblank, hctl⟩, h40⟩, h41⟩, h59⟩, h35⟩ := hb
    have hst : Starts b := ⟨hblank, by simpa using h35⟩
    have hr : read b (w ++ s) = (wordKind (b :: w), b :: w, s) := by
      unfold read
      rw [h40, h41, h59, hd, ha, hctl, hsplit]
      rfl
    rw [lexemes_cons hst, hr]

theorem ValidName.wordKind {w : Bytes} (hw : ValidName w) : wordKind w = .name := by
  rw [Token.wordKind, if_neg hw.2]

/-! ## what the words of a text are -/

/-- how a word of each kind is written -/
def Proper : Kind × Bytes → Prop
  | (.invalid, w) => ∃ b : UInt8, Byte.isControl b = true ∧ w = [b]
  | (.endOfInput, _) => False
  | (.leftParen, w) => w = [40]
  | (.rightParen, w) => w = [41]
  | (.fn, w) => w = [102, 110]
  | (.arrow, w) => w = [61, 62]
  | (.define, w) => w = [58, 61]
  | (.semicolon, w) => w = [59]
  | (.name, w) => ValidName w

theorem splitName_fst_prefix (s : Bytes) : (splitName s).1 <+: s := by
  induction s with
  | nil => exact List.prefix_rfl
  | cons b s ih =>
    rw [splitName]
    split
    · exact List.cons_prefix_cons.mpr ⟨rfl, ih⟩
    · exact List.nil_prefix

theorem all_splitName (s : Bytes) : (splitName s).1.all isNameByte = true := by
  induction s with
  | nil => rfl
  | cons b s ih =>
    rw [splitName]
    split
    · next h =>
      simp only [Bool.and_eq_true] at h
      show (b :: (splitName s).1).all isNameByte = true
      rw [List.all_cons, h.1.1, ih]
      rfl
    · rfl

/-- neither `:=` nor `=>` gets into a name, as it is looked for at every byte -/
theorem not_infix_splitName {x y : UInt8} (s : Bytes)
    (hxy : [x, y] = [58, 61] ∨ [x, y] = [61, 62]) : ¬ [x, y] <:+: (splitName s).1 := by
  induction s with
  | nil =>
    intro h
    cases List.infix_nil.mp h
  | cons b s ih =>
    rw [splitName]
    split
    · next hc =>
      simp only [Bool.and_eq_true, Bool.not_eq_true'] at hc
      intro h
      rcases List.infix_cons_iff.mp h with hp | hi
      · have hs : [x, y] <+: b :: s :=
          hp.trans (List.cons_prefix_cons.mpr ⟨rfl, splitName_fst_prefix s⟩)
        rw [← List.isPrefixOf_iff_prefix] at hs
        rcases hxy with he | he
        · rw [he] at hs
          exact absurd hs (Bool.eq_false_iff.mp hc.1.2)
        · rw [he] at hs
          exact absurd hs (Bool.eq_false_iff.mp hc.2)
      · exact ih hi
    · intro h
      cases List.infix_nil.mp h

theorem isWord_splitName {s : Bytes} (h : (splitName s).1 ≠ []) : IsWord (splitName s).1 :=
  ⟨h, all_splitName s, not_infix_splitName s (.inl rfl), not_infix_splitName s (.inr rfl)⟩

theorem proper_wordKind {w : Bytes} (hw : IsWord w) : Proper (wordKind w, w) := by
  unfold wordKind
  split
  · next h => exact h
  · next h => exact ⟨hw, h⟩

theorem proper_read {b : UInt8} (s : Bytes) (hb : Starts b) :
    Proper ((read b s).1, (read b s).2.1) := by
  unfold read
  split_ifs with h40 h41 h59 hd ha hc
  · exact congrArg (fun b => [b]) (beq_iff_eq.mp h40)
  · exact congrArg (fun b => [b]) (beq_iff_eq.mp h41)
  · exact congrArg (fun b => [b]) (beq_iff_eq.mp h59)
  · rfl
  · rfl
  · exact ⟨b, hc, rfl⟩
  · have hn : isNameByte b = true := by
      simp [isNameByte, hb.1, hb.2, h40, h41, h59, hc]
    have hw : (splitName (b :: s)).1 ≠ [] := by
      rw [splitName, hn]
      simp [hd, ha]
    exact proper_wordKind (isWord_splitName hw)

theorem proper_of_mem_scanFrom {n offset : Nat} {s : Bytes} {l : Kind × Bytes}
    (h : l ∈ (scanFrom n offset s).map lexeme) : Proper l := by
  induction n generalizing offset s with
  | zero => cases h
  | succ n ih =>
    rw [scanFrom_succ] at h
    rcases hr : skipBlank false 0 s with ⟨k, _ | ⟨b, r⟩⟩
    · rw [hr] at h
      cases h
    · rw [hr] at h
      rcases List.mem_cons.mp h with rfl | h
      · exact proper_read r (starts_of_skipBlank hr)
      · exact ih h

theorem proper_of_mem_lexemes {s : Bytes} {l : Kind × Bytes} (h : l ∈ lexemes s) : Proper l :=
  proper_of_mem_scanFrom h

/-! ## where the words of a text stand -/

theorem splitName_append (s : Bytes) : (splitName s).1 ++ (splitName s).2 = s := by
  induction s with
  | nil => rfl
  | cons b s ih =>
    rw [splitName]
    split
    · exact congrArg (List.cons b) ih
    · rfl

theorem eq_of_isPrefixOf {x y b : UInt8} {s : Bytes} (h : [x, y].isPrefixOf (b :: s) = true) :
    [x, y] ++ s.drop 1 = b :: s := by
  obtain ⟨r, hr⟩ := List.isPrefixOf_iff_prefix.mp h
  obtain ⟨rfl, rfl⟩ := List.cons.inj hr
  rfl

/-- a word and what is left behind it -/
theorem read_append (b : UInt8) (s : Bytes) : (read b s).2.1 ++ (read b s).2.2 = b :: s := by
  unfold read
  split_ifs with h40 h41 h59 hd ha hc
  · rfl
  · rfl
  · rfl
  · exact eq_of_isPrefixOf hd
  · exact eq_of_isPrefixOf ha
  · rfl
  · exact splitName_append (b :: s)

theorem skipBlank_add_length (comment : Bool) (offset : Nat) (s : Bytes) :
    (skipBlank comment offset s).1 + (skipBlank comment offset s).2.length = offset + s.length := by
  induction s generalizing comment offset with
  | nil => cases comment <;> rfl
  | cons b s ih =>
    have hnext : ∀ c, (skipBlank c (offset + 1) s).1 + (skipBlank c (offset + 1) s).2.length =
        offset + (b :: s).length := by
      intro c
      rw [ih, List.length_cons]
      omega
    cases comment with
    | true => exact hnext _
    | false =>
      rw [skipBlank]
      split
      · exact hnext _
      · split
        · exact hnext _
        · rfl

/-- a word ends within the text -/
theorem offset_add_le_of_mem_scanFrom {n offset : Nat} {s : Bytes} {t : Token}
    (h : t ∈ scanFrom n offset s) : t.offset + t.text.length ≤ offset + s.length := by
  induction n generalizing offset s with
  | zero => cases h
  | succ n ih =>
    have hlen := skipBlank_add_length false offset s
    rw [scanFrom] at h
    rcases hs : skipBlank false offset s with ⟨o, _ | ⟨b, r⟩⟩
    · rw [hs] at h
      cases h
    · rw [hs] at h hlen
      have hread := congrArg List.length (read_append b r)
      simp only [List.length_append] at hread
      rcases List.mem_cons.mp h with rfl | h
      · show o + (read b r).2.1.length ≤ _
        simp only at hlen
        omega
      · have hle : _ ≤ o + (read b r).2.1.length + (read b r).2.2.length := ih h
        simp only at hlen
        omega

/-! ## writing words -/

/-- a word of any kind that no name goes on behind is read as it is written -/
theorem lexemes_proper {l : Kind × Bytes} {s : Bytes} (hl : Proper l) (hne : l.1 ≠ .invalid)
    (hs : Breaks s) : lexemes (l.2 ++ s) = l :: lexemes s := by
  obtain ⟨k, w⟩ := l
  cases k with
  | invalid => exact absurd rfl hne
  | endOfInput => exact hl.elim
  | leftParen =>
    obtain rfl : w = [40] := hl
    exact lexemes_leftParen s
  | rightParen =>
    obtain rfl : w = [41] := hl
    exact lexemes_rightParen s
  | fn =>
    obtain rfl : w = [102, 110] := hl
    exact lexemes_word (by decide) hs
  | arrow =>
    obtain rfl : w = [61, 62] := hl
    exact lexemes_arrow s
  | define =>
    obtain rfl : w = [58, 61] := hl
    exact lexemes_define s
  | semicolon =>
    obtain rfl : w = [59] := hl
    exact lexemes_semicolon s
  | name =>
    have hw : ValidName w := hl
    rw [lexemes_word hw.1 hs, hw.wordKind]

def spell (ws : List (Kind × Bytes)) : Bytes := ws.flatMap fun l => l.2 ++ [32]

theorem lexemes_spell {ws : List (Kind × Bytes)} (h : ∀ l ∈ ws, Proper l ∧ l.1 ≠ .invalid) :
    lexemes (spell ws) = ws := by
  induction ws with
  | nil => rfl
  | cons l ws ih =>
    obtain ⟨⟨hl, hne⟩, hws⟩ := List.forall_mem_cons.mp h
    have hspell : spell (l :: ws) = l.2 ++ 32 :: spell ws := by
      rw [spell, List.flatMap_cons, List.append_assoc]
      rfl
    rw [hspell, lexemes_proper hl hne (breaks_cons _ (by decide)), lexemes_blank _ (by decide), ih hws]

end Token

end NamedLambda
