import NamedLambda.Proofs.Lexing
import Mathlib.Logic.Function.Iterate

/-!
# How a text is laid out

A text is a row of tokens with gaps before, between and behind them.  A gap is white space and
comments (`Gap`); only the last one may end in a comment without a line feed.  `Laid` says that
tokens with their offsets are laid out so in a text, each of the right bytes for its kind and a name
as long as it can be, and the tokens that are read from a text are laid out in it (`laid_scanFrom`).

All that is said of the places of tokens follows from this: they stand in order and apart, and a
byte is outside of them exactly if it is white space or stands in a comment.  Conversely, tokens
that are written with gaps between them are read again (`lexemes_lay`).
-/

namespace NamedLambda

namespace Token

/-! ## comments and gaps -/

/-- whether the byte at a place has a `#` before it on its line, or is one -/
def InComment (s : Bytes) (i : Nat) : Prop :=
  ∃ j ≤ i, s[j]? = some 35 ∧ ∀ k, j ≤ k → k ≤ i → s[k]? ≠ some 10

theorem getElem?_append_add (u s : Bytes) (i : Nat) : (u ++ s)[u.length + i]? = s[i]? := by
  rw [List.getElem?_append_right (Nat.le_add_right _ _), Nat.add_sub_cancel_left]

theorem InComment.append_left {s : Bytes} {i : Nat} (u : Bytes) (h : InComment s i) :
    InComment (u ++ s) (u.length + i) := by
  obtain ⟨j, hj, h35, hk⟩ := h
  refine ⟨u.length + j, by omega, ?_, ?_⟩
  · rw [getElem?_append_add, h35]
  · intro k hjk hki
    obtain ⟨k, rfl⟩ : ∃ k', k = u.length + k' := ⟨k - u.length, by omega⟩
    rw [getElem?_append_add]
    exact hk k (by omega) (by omega)

theorem InComment.append_right {s : Bytes} {i : Nat} (h : InComment s i) (hi : i < s.length)
    (v : Bytes) : InComment (s ++ v) i := by
  obtain ⟨j, hj, h35, hk⟩ := h
  refine ⟨j, hj, ?_, ?_⟩
  · rw [List.getElem?_append_left (by omega), h35]
  · intro k hjk hki
    rw [List.getElem?_append_left (by omega)]
    exact hk k hjk hki

/-- white space and comments; a comment goes from `#` to a line feed, which may be missing in the
`last` gap of a text -/
inductive Gap (last : Bool) : Bytes → Prop where
  | nil : Gap last []
  | blank {b : UInt8} {s : Bytes} (hb : Byte.isBlank b = true) (h : Gap last s) : Gap last (b :: s)
  | comment {c s : Bytes} (hc : 10 ∉ c) (h : Gap last s) : Gap last (35 :: c ++ 10 :: s)
  | cut {c : Bytes} (hl : last = true) (hc : 10 ∉ c) : Gap last (35 :: c)

variable {last : Bool} {g : Bytes}

/-- the bytes of a line from its `#` on are in a comment -/
theorem inComment_line {c : Bytes} (hc : 10 ∉ c) (i : Nat) : InComment (35 :: c) i := by
  refine ⟨0, Nat.zero_le i, rfl, ?_⟩
  intro k _ _ h10
  rcases List.mem_cons.mp (List.mem_of_getElem? h10) with h | h
  · cases h
  · exact hc h

theorem Gap.blank_or_inComment {i : Nat} {b : UInt8} (h : Gap last g) (hi : g[i]? = some b) :
    Byte.isBlank b = true ∨ InComment g i := by
  induction h generalizing i with
  | nil => cases hi
  | @blank b' s hb h ih =>
    cases i with
    | zero =>
      cases hi
      exact .inl hb
    | succ i =>
      rcases ih hi with hb | hc
      · exact .inl hb
      · rw [Nat.add_comm]
        exact .inr (hc.append_left [b'])
  | @comment c s hc h ih =>
    by_cases hlt : i < (35 :: c).length
    · exact .inr ((inComment_line hc i).append_right hlt _)
    · obtain ⟨i, rfl⟩ : ∃ i', i = (35 :: c).length + i' := ⟨i - (35 :: c).length, by omega⟩
      rw [getElem?_append_add] at hi
      cases i with
      | zero =>
        cases hi
        exact .inl rfl
      | succ i =>
        rcases ih hi with hb | hcom
        · exact .inl hb
        · rw [Nat.add_comm i 1]
          exact .inr ((hcom.append_left [10]).append_left (35 :: c))
  | cut hl hc => exact .inr (inComment_line hc i)

/-- in a gap that is not the last, the line of every `#` ends -/
theorem Gap.exists_lineFeed {j : Nat} (h : Gap false g) (hj : g[j]? = some 35) :
    ∃ m, j ≤ m ∧ g[m]? = some 10 := by
  induction h generalizing j with
  | nil => cases hj
  | @blank b s hb h ih =>
    cases j with
    | zero =>
      cases hj
      cases hb
    | succ j =>
      obtain ⟨m, hjm, hm⟩ := ih hj
      exact ⟨m + 1, by omega, hm⟩
  | @comment c s hc h ih =>
    by_cases hle : j ≤ (35 :: c).length
    · exact ⟨(35 :: c).length + 0, hle, by rw [getElem?_append_add]; rfl⟩
    · obtain ⟨j, rfl⟩ : ∃ j', j = (35 :: c).length + (j' + 1) :=
        ⟨j - (35 :: c).length - 1, by omega⟩
      rw [getElem?_append_add] at hj
      obtain ⟨m, hjm, hm⟩ := ih hj
      exact ⟨(35 :: c).length + (m + 1), by omega, by rw [getElem?_append_add]; exact hm⟩
  | cut hl hc => cases hl

/-- a comment goes on with any byte but a line feed -/
theorem Gap.extend {b : UInt8} (h : Gap last (35 :: g)) (hb : b ≠ 10) :
    Gap last (35 :: b :: g) := by
  cases h with
  | blank h35 _ => cases h35
  | @comment c s hc h =>
    exact .comment (c := b :: c) (by simp [hc, hb.symm]) h
  | cut hl hc => exact .cut hl (by simp [hc, hb.symm])

/-! ## tokens and the gaps between them -/

/-- what is skipped is a gap; where a comment is open already, it is one with the `#` before it -/
theorem gap_skipBlank (comment : Bool) (offset : Nat) (s : Bytes) :
    ∃ g, s = g ++ (skipBlank comment offset s).2 ∧
      (skipBlank comment offset s).1 = offset + g.length ∧
      Gap (skipBlank comment offset s).2.isEmpty (if comment then 35 :: g else g) := by
  induction s generalizing comment offset with
  | nil =>
    cases comment with
    | true => exact ⟨[], rfl, rfl, .cut rfl List.not_mem_nil⟩
    | false => exact ⟨[], rfl, rfl, .nil⟩
  | cons b s ih =>
    have hstep : ∀ c : Bool, ∃ g, b :: s = b :: g ++ (skipBlank c (offset + 1) s).2 ∧
        (skipBlank c (offset + 1) s).1 = offset + (b :: g).length ∧
        Gap (skipBlank c (offset + 1) s).2.isEmpty (if c then 35 :: g else g) := by
      intro c
      obtain ⟨g, hs, ho, hg⟩ := ih c (offset + 1)
      refine ⟨g, congrArg (List.cons b) hs, ?_, hg⟩
      rw [ho, List.length_cons]
      omega
    cases comment with
    | true =>
      rw [skipBlank]
      obtain ⟨g, hs, ho, hg⟩ := hstep (b != 10)
      refine ⟨b :: g, hs, ho, ?_⟩
      by_cases hb : b = 10
      · subst hb
        exact .comment (c := []) List.not_mem_nil hg
      · have hne : (b != 10) = true := bne_iff_ne.mpr hb
        rw [hne] at hg ⊢
        exact hg.extend hb
    | false =>
      rw [skipBlank]
      split
      · next hb =>
        obtain ⟨g, hs, ho, hg⟩ := hstep false
        exact ⟨b :: g, hs, ho, .blank hb hg⟩
      · split
        · next h35 =>
          obtain rfl : b = 35 := beq_iff_eq.mp h35
          obtain ⟨g, hs, ho, hg⟩ := hstep true
          exact ⟨35 :: g, hs, ho, hg⟩
        · exact ⟨[], rfl, rfl, .nil⟩

/-- whether a name cannot go on: the text is over, or a byte of no name or a sign follows -/
def Ends (s : Bytes) : Prop :=
  Breaks s ∨ startsDefine s = true ∨ startsArrow s = true

theorem ends_splitName (s : Bytes) : Ends (splitName s).2 := by
  induction s with
  | nil => exact .inl breaks_nil
  | cons b s ih =>
    rw [splitName]
    split
    · exact ih
    · next h =>
      simp only [Bool.and_eq_true, Bool.not_eq_true', not_and, Bool.not_eq_false] at h
      by_cases hb : isNameByte b = true
      · by_cases hd : startsDefine (b :: s) = true
        · exact .inr (.inl hd)
        · exact .inr (.inr (h ⟨hb, Bool.eq_false_iff.mpr hd⟩))
      · exact .inl (breaks_cons s (Bool.eq_false_iff.mpr hb))

/-- a name is read to where it cannot go on -/
theorem ends_read {b : UInt8} {s : Bytes} (hk : (read b s).1 = .name) : Ends (read b s).2.2 := by
  revert hk
  unfold read
  split_ifs with h40 h41 h59 hd ha hc
  iterate 6
    · intro hk
      cases hk
  · intro _
    exact ends_splitName (b :: s)

/-- a word has no white space and no `#` in it -/
theorem starts_of_mem_read {b c : UInt8} {s : Bytes} (hb : Starts b) (hc : c ∈ (read b s).2.1) :
    Starts c := by
  revert hc
  unfold read
  split_ifs with h40 h41 h59 hd ha hctl
  iterate 3
    · intro hc
      obtain rfl := List.mem_singleton.mp hc
      exact hb
  · intro hc
    rcases List.mem_pair.mp hc with rfl | rfl <;> decide
  · intro hc
    rcases List.mem_pair.mp hc with rfl | rfl <;> decide
  · intro hc
    obtain rfl := List.mem_singleton.mp hc
    exact hb
  · intro hc
    have hn : isNameByte c = true := List.all_eq_true.mp (all_splitName (b :: s)) c hc
    simp only [isNameByte, Bool.not_eq_true', Bool.or_eq_false_iff] at hn
    exact ⟨hn.1.1.1.1.1, by simpa using hn.2⟩

/-- tokens laid out in a text that starts at `offset` -/
inductive Laid : Nat → Bytes → List Token → Prop where
  | nil {offset : Nat} {g : Bytes} (hg : Gap true g) : Laid offset g []
  | cons {offset : Nat} {g s : Bytes} {t : Token} {ts : List Token} (hg : Gap false g)
      (ht : t.offset = offset + g.length) (hp : Proper t.lexeme) (hs : ∀ b ∈ t.text, Starts b)
      (he : t.kind = .name → Ends s) (h : Laid (t.offset + t.text.length) s ts) :
      Laid offset (g ++ (t.text ++ s)) (t :: ts)

theorem laid_scanFrom {n offset : Nat} {s : Bytes} (hn : s.length ≤ n) :
    Laid offset s (scanFrom n offset s) := by
  induction n generalizing offset s with
  | zero =>
    obtain rfl : s = [] := List.length_eq_zero_iff.mp (Nat.le_zero.mp hn)
    exact .nil .nil
  | succ n ih =>
    obtain ⟨g, hs, ho, hg⟩ := gap_skipBlank false offset s
    rw [scanFrom]
    rcases hk : skipBlank false offset s with ⟨o, _ | ⟨b, r⟩⟩
    · rw [hk] at hs hg
      rw [hs, List.append_nil]
      exact .nil hg
    · rw [hk] at hs ho hg
      have hb : Starts b := starts_of_skipBlank hk
      have hlen : (read b r).2.2.length ≤ n := by
        have hr := length_read r hb
        have hl := congrArg List.length hs
        rw [List.length_append, List.length_cons] at hl
        omega
      have htext : s = g ++ ((read b r).2.1 ++ (read b r).2.2) := by
        rw [read_append]
        exact hs
      rw [htext]
      exact .cons (t := ⟨(read b r).1, o, (read b r).2.1⟩) hg ho (proper_read r hb)
        (fun c hc => starts_of_mem_read hb hc) ends_read (ih hlen)

/-! ## places of tokens -/

def Outside (ts : List Token) (i : Nat) : Prop :=
  ∀ t ∈ ts, ¬ (t.offset ≤ i ∧ i < t.offset + t.text.length)

variable {offset : Nat} {s : Bytes} {t : Token} {ts : List Token}

theorem text_ne_nil (h : Proper t.lexeme) : t.text ≠ [] := by
  obtain ⟨k, o, w⟩ := t
  rintro rfl
  cases k with
  | invalid =>
    obtain ⟨b, -, hb⟩ := h
    cases hb
  | endOfInput => exact h
  | name => exact h.1.1 rfl
  | _ => cases h

theorem Laid.length_le (h : Laid offset s ts) : ts.length ≤ s.length := by
  induction h with
  | nil => exact Nat.zero_le _
  | cons hg ht hp hs he h ih =>
    have hpos := List.length_pos_iff.mpr (text_ne_nil hp)
    simp only [List.length_append, List.length_cons]
    omega

theorem Laid.exists_of_mem (h : Laid offset s ts) (ht : t ∈ ts) :
    ∃ before after, s = before ++ (t.text ++ after) ∧ t.offset = offset + before.length ∧
      Proper t.lexeme ∧ (∀ b ∈ t.text, Starts b) ∧ (t.kind = .name → Ends after) := by
  induction h with
  | nil => cases ht
  | @cons offset g s u ts hg hu hp hs he h ih =>
    rcases List.mem_cons.mp ht with rfl | ht
    · exact ⟨g, s, rfl, hu, hp, hs, he⟩
    · obtain ⟨before, after, rfl, ho, hp, hs, he⟩ := ih ht
      refine ⟨g ++ (u.text ++ before), after, ?_, ?_, hp, hs, he⟩
      · simp only [List.append_assoc]
      · simp only [List.length_append]
        omega

theorem Laid.offset_le (h : Laid offset s ts) (ht : t ∈ ts) : offset ≤ t.offset := by
  obtain ⟨before, -, -, ho, -⟩ := h.exists_of_mem ht
  omega

theorem Laid.pairwise (h : Laid offset s ts) :
    ts.Pairwise fun t u => t.offset + t.text.length ≤ u.offset := by
  induction h with
  | nil => exact .nil
  | cons hg ht hp hs he h ih => exact .cons (fun u hu => h.offset_le hu) ih

/-- what is outside of all tokens is white space or comment -/
theorem Laid.blank_or_inComment {i : Nat} {b : UInt8} (h : Laid offset s ts) (hi : s[i]? = some b)
    (ho : Outside ts (offset + i)) : Byte.isBlank b = true ∨ InComment s i := by
  induction h generalizing i with
  | nil hg => exact hg.blank_or_inComment hi
  | @cons offset g s t ts hg ht hp hs he h ih =>
    by_cases hlt : i < g.length
    · rw [List.getElem?_append_left hlt] at hi
      rcases hg.blank_or_inComment hi with hb | hc
      · exact .inl hb
      · exact .inr (hc.append_right hlt _)
    · have hnot := ho t List.mem_cons_self
      obtain ⟨i, rfl⟩ : ∃ i', i = g.length + (t.text.length + i') :=
        ⟨i - (g.length + t.text.length), by omega⟩
      rw [getElem?_append_add, getElem?_append_add] at hi
      have ho' : Outside ts (t.offset + t.text.length + i) := by
        intro u hu
        have hnu := ho u (List.mem_cons_of_mem t hu)
        rw [ht]
        have he : offset + (g.length + (t.text.length + i)) =
            offset + g.length + t.text.length + i := by omega
        rwa [he] at hnu
      rcases ih hi ho' with hb | hc
      · exact .inl hb
      · exact .inr ((hc.append_left t.text).append_left g)

/-- what is in a comment is outside of all tokens -/
theorem Laid.outside_of_inComment {i : Nat} (h : Laid offset s ts) (hc : InComment s i) :
    Outside ts (offset + i) := by
  induction h generalizing i with
  | nil => exact fun t ht => by cases ht
  | @cons offset g s t ts hg ht hp hs he h ih =>
    obtain ⟨j, hji, h35, hline⟩ := hc
    by_cases hlt : j < g.length
    · -- the line of the comment ends in the gap
      rw [List.getElem?_append_left hlt] at h35
      obtain ⟨m, hjm, hm⟩ := hg.exists_lineFeed h35
      have hmg : m < g.length := (List.getElem?_eq_some_iff.mp hm).1
      have him : i < m := by
        by_contra hge
        apply hline m hjm (by omega)
        rw [List.getElem?_append_left hmg, hm]
      intro u hu
      have hle : t.offset ≤ u.offset := by
        rcases List.mem_cons.mp hu with rfl | hu
        · exact Nat.le_refl _
        · have := h.offset_le hu
          omega
      omega
    · have hjt : ¬ j < g.length + t.text.length := by
        intro hlt'
        obtain ⟨j, rfl⟩ : ∃ j', j = g.length + j' := ⟨j - g.length, by omega⟩
        rw [getElem?_append_add, List.getElem?_append_left (by omega)] at h35
        exact (hs 35 (List.mem_of_getElem? h35)).2 rfl
      obtain ⟨j, rfl⟩ : ∃ j', j = g.length + (t.text.length + j') :=
        ⟨j - (g.length + t.text.length), by omega⟩
      obtain ⟨i, rfl⟩ : ∃ i', i = g.length + (t.text.length + i') :=
        ⟨i - (g.length + t.text.length), by omega⟩
      have hin : InComment s i := by
        refine ⟨j, by omega, ?_, ?_⟩
        · rw [← h35, getElem?_append_add, getElem?_append_add]
        · intro k hjk hki
          have hk := hline (g.length + (t.text.length + k)) (by omega) (by omega)
          rwa [getElem?_append_add, getElem?_append_add] at hk
      intro u hu
      rcases List.mem_cons.mp hu with rfl | hu
      · omega
      · have hnu := ih hin u hu
        omega

/-- a token has no white space in it -/
theorem Laid.outside_of_blank {i : Nat} {b : UInt8} (h : Laid offset s ts) (hi : s[i]? = some b)
    (hb : Byte.isBlank b = true) : Outside ts (offset + i) := by
  rintro t ht ⟨hle, hlt⟩
  obtain ⟨before, after, rfl, ho, -, hs, -⟩ := h.exists_of_mem ht
  obtain ⟨i, rfl⟩ : ∃ i', i = before.length + i' := ⟨i - before.length, by omega⟩
  rw [getElem?_append_add, List.getElem?_append_left (by omega)] at hi
  have hfalse := (hs b (List.mem_of_getElem? hi)).1
  rw [hb] at hfalse
  cases hfalse

/-! ## writing tokens with gaps -/

theorem lexemes_comment {c : Bytes} (s : Bytes) (hc : 10 ∉ c) :
    lexemes (35 :: c ++ 10 :: s) = lexemes s := by
  have hopen : ∀ offset, (skipBlank true offset (c ++ 10 :: s)).2 = (skipBlank false 0 s).2 := by
    induction c with
    | nil => exact fun offset => skipBlank_snd false _ _ s
    | cons b c ih =>
      obtain ⟨hb, hc⟩ := not_or.mp (mt List.mem_cons.mpr hc)
      intro offset
      have hne : (b != 10) = true := bne_iff_ne.mpr (Ne.symm hb)
      rw [List.cons_append, skipBlank, hne]
      exact ih hc _
  apply lexemes_eq_of_skipBlank
  exact hopen 1

theorem Gap.lexemes_append (hg : Gap false g) (s : Bytes) : lexemes (g ++ s) = lexemes s := by
  induction hg with
  | nil => rfl
  | blank hb _ ih => exact (lexemes_blank _ hb).trans ih
  | @comment c r hc _ ih =>
    have hline : 35 :: c ++ 10 :: r ++ s = 35 :: c ++ 10 :: (r ++ s) := List.append_assoc _ _ _
    rw [hline, lexemes_comment _ hc, ih]
  | cut hl _ => cases hl

/-- no name goes on into a gap -/
theorem Gap.breaks_append (hg : Gap false g) (hne : g ≠ []) (s : Bytes) : Breaks (g ++ s) := by
  cases hg with
  | nil => exact absurd rfl hne
  | @blank b r hb _ =>
    apply breaks_cons
    simp [isNameByte, hb]
  | comment _ _ => exact breaks_cons _ (by decide)
  | cut hl _ => cases hl

/-- words in a row, each with what stands behind it -/
def lay (rows : List ((Kind × Bytes) × Bytes)) : Bytes := rows.flatMap fun r => r.1.2 ++ r.2

/-- words with gaps between them are read again; the gap behind the last one may be empty -/
theorem lexemes_lay {rows : List ((Kind × Bytes) × Bytes)}
    (h : ∀ r ∈ rows, Proper r.1 ∧ r.1.1 ≠ .invalid ∧ Gap false r.2)
    (hne : ∀ r ∈ rows.dropLast, r.2 ≠ []) : lexemes (lay rows) = rows.map Prod.fst := by
  induction rows with
  | nil => rfl
  | cons r rows ih =>
    obtain ⟨⟨hp, hk, hg⟩, hrows⟩ := List.forall_mem_cons.mp h
    have hlay : lay (r :: rows) = r.1.2 ++ (r.2 ++ lay rows) := by
      rw [lay, List.flatMap_cons, List.append_assoc]
      rfl
    have hbreaks : Breaks (r.2 ++ lay rows) := by
      by_cases hr : r.2 = []
      · -- only the last word has nothing behind it
        cases rows with
        | nil =>
          rw [hr]
          exact breaks_nil
        | cons r' rows => exact absurd hr (hne r List.mem_cons_self)
      · exact hg.breaks_append hr _
    have hne' : ∀ r' ∈ rows.dropLast, r'.2 ≠ [] := by
      intro r' hr'
      cases rows with
      | nil => cases hr'
      | cons r'' rows => exact hne r' (List.mem_cons_of_mem r hr')
    rw [hlay, lexemes_proper hp hk hbreaks, hg.lexemes_append, ih hrows hne', List.map_cons]

end Token

/-! ## the tokens of a source -/

namespace TokenStream

/-- what is at hand after some tokens -/
theorem current_discard (ts : TokenStream) (k : Nat) :
    (discard^[k] ts).current = ts.tokens.getD k ts.stop := by
  induction k generalizing ts with
  | zero =>
    rcases ts with ⟨_ | ⟨t, tokens⟩, size⟩
    · rfl
    · rfl
  | succ k ih =>
    rw [Function.iterate_succ_apply, ih]
    rcases ts with ⟨_ | ⟨t, tokens⟩, size⟩
    · rfl
    · rfl

open Token in
/-- **Reading tokens is exact.**  Reading on comes to the end of input after at most as many tokens
as the text has bytes, and stays there.  The tokens stand in the text in order and apart, a name is
a valid one and goes as far as it can, and an invalid token is one control byte; a byte is outside
of all tokens exactly if it is white space or in a comment.  Conversely, valid words with white
space and whole comments between any two are read again. -/
theorem tokens_exact (source : Bytes) :
    ((ofSource source).tokens.length ≤ source.length ∧
      (∀ t ∈ (ofSource source).tokens, t.kind ≠ .endOfInput) ∧
      ∀ k, (discard^[k] (ofSource source)).current =
        (ofSource source).tokens.getD k ⟨.endOfInput, source.length, []⟩) ∧
    (ofSource source).tokens.Pairwise (fun t u => t.offset + t.text.length ≤ u.offset) ∧
    (∀ t ∈ (ofSource source).tokens, ∃ before after, source = before ++ (t.text ++ after) ∧
      t.offset = before.length ∧ Proper t.lexeme ∧
      (t.kind = .name → ValidName t.text ∧ Ends after) ∧
      (t.kind = .invalid → ∃ b, Byte.isControl b = true ∧ t.text = [b])) ∧
    (∀ i b, source[i]? = some b →
      (Outside (ofSource source).tokens i ↔ Byte.isBlank b = true ∨ InComment source i)) ∧
    ∀ (lead : Bytes) (rows : List ((Kind × Bytes) × Bytes)), Gap false lead →
      (∀ r ∈ rows, Proper r.1 ∧ r.1.1 ≠ .invalid ∧ Gap false r.2) →
      (∀ r ∈ rows.dropLast, r.2 ≠ []) →
      (ofSource (lead ++ lay rows)).tokens.map lexeme = rows.map Prod.fst := by
  have hlaid : Laid 0 source (ofSource source).tokens := laid_scanFrom (Nat.le_refl _)
  refine ⟨⟨hlaid.length_le, ?_, ?_⟩, hlaid.pairwise, ?_, ?_, ?_⟩
  · intro t ht hk
    obtain ⟨-, -, -, -, hp, -⟩ := hlaid.exists_of_mem ht
    rw [lexeme, hk] at hp
    exact hp
  · intro k
    exact current_discard _ k
  · intro t ht
    obtain ⟨before, after, hs, ho, hp, -, he⟩ := hlaid.exists_of_mem ht
    refine ⟨before, after, hs, by omega, hp, ?_, ?_⟩
    · intro hk
      have hv := hp
      rw [lexeme, hk] at hv
      exact ⟨hv, he hk⟩
    · intro hk
      rw [lexeme, hk] at hp
      exact hp
  · intro i b hi
    have hzero : 0 + i = i := Nat.zero_add i
    constructor
    · intro ho
      exact hlaid.blank_or_inComment hi (hzero.symm ▸ ho)
    · rintro (hb | hc)
      · exact hzero ▸ hlaid.outside_of_blank hi hb
      · exact hzero ▸ hlaid.outside_of_inComment hc
  · intro lead rows hlead hrows hne
    show lexemes (lead ++ lay rows) = _
    rw [hlead.lexemes_append, lexemes_lay hrows hne]

open Token in
/-- the names `:` and `=` with `:=` between them and a comment that spells `:=`; and a comment
without its line feed -/
theorem tokens_exact_signs :
    (ofSource ([9] ++ lay [((.name, [58]), [35, 58, 61, 10]), ((.define, [58, 61]), [32]),
      ((.name, [61]), [])])).tokens.map lexeme =
        [(.name, [58]), (.define, [58, 61]), (.name, [61])] ∧
    Outside (ofSource [97, 35, 98]).tokens 2 := by
  constructor
  · apply (tokens_exact []).2.2.2.2 [9]
    · exact .blank rfl .nil
    · have hcomment : Gap false [35, 58, 61, 10] := .comment (c := [58, 61]) (by decide) .nil
      have hblank : Gap false [32] := .blank rfl .nil
      have hcolon : Proper (.name, [58]) := show ValidName [58] by decide
      have hequals : Proper (.name, [61]) := show ValidName [61] by decide
      simp only [List.forall_mem_cons]
      exact ⟨⟨hcolon, nofun, hcomment⟩, ⟨rfl, nofun, hblank⟩, ⟨hequals, nofun, .nil⟩, nofun⟩
    · decide
  · apply ((tokens_exact [97, 35, 98]).2.2.2.1 2 98 rfl).mpr
    refine .inr ⟨1, by decide, rfl, ?_⟩
    intro k hk hk'
    have hk : k = 1 ∨ k = 2 := by omega
    rcases hk with rfl | rfl <;> decide

end TokenStream

end NamedLambda
