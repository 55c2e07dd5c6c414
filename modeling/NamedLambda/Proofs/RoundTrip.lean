import NamedLambda.Proofs.Printing
import NamedLambda.Parser

/-!
# Printing and reading are inverse

A reader that has the words of a term ahead reads that term (`Readable.readsAll`).  Most of a term is
read in a loop, one atom after the other, so what the induction carries along for a term that is no
abstraction is that the loop goes on behind it with the term as what has been read so far
(`Term.ReadsOn`).  With the words of printed text at hand, `parse_print` follows.
-/

namespace NamedLambda

open Token

namespace Parser

def ahead (p : Parser) : List (Kind × Bytes) := p.stream.tokens.map lexeme

/-- `p'` is `p` when only the words `ws` are left -/
structure Advances (p p' : Parser) (ws : List (Kind × Bytes)) : Prop where
  ahead : p'.ahead = ws
  names : p'.names = p.names
  mainName : p'.mainName = p.mainName

theorem Advances.trans {p q r : Parser} {ws vs : List (Kind × Bytes)} (h : p.Advances q ws)
    (h' : q.Advances r vs) : p.Advances r vs :=
  ⟨h'.ahead, h'.names.trans h.names, h'.mainName.trans h.mainName⟩

theorem Advances.le {p q : Parser} {ws : List (Kind × Bytes)} {names : NameTable}
    (h : p.Advances q ws) (hn : names ≤ p.names) : names ≤ q.names := by
  rw [h.names]
  exact hn

variable {p : Parser} {k : Kind} {w : Bytes} {ws : List (Kind × Bytes)} {n : Nat}

theorem kind_of_ahead_nil (h : p.ahead = []) : p.kind = .endOfInput := by
  have ht : p.stream.tokens = [] := List.map_eq_nil_iff.mp h
  show (p.stream.tokens.headD p.stream.stop).kind = _
  rw [ht]
  rfl

theorem kind_of_ahead (h : p.ahead = (k, w) :: ws) : p.kind = k := by
  obtain ⟨t, ts, ht, hk, -⟩ := List.map_eq_cons_iff.mp h
  show (p.stream.tokens.headD p.stream.stop).kind = _
  rw [ht]
  exact congrArg Prod.fst hk

theorem advances_discard (h : p.ahead = (k, w) :: ws) : p.Advances p.discard ws := by
  refine ⟨?_, rfl, rfl⟩
  show p.stream.tokens.tail.map lexeme = ws
  rw [List.map_tail]
  exact congrArg List.tail h

theorem atDefinition_of_ahead (h : p.ahead = (k, w) :: ws) :
    p.atDefinition = (k = .name && p.discard.kind = .define : Bool) := by
  show (p.kind = .name && p.discard.kind = .define : Bool) = _
  rw [kind_of_ahead h]

/-- a word that the table has as the text of `x` is read as `x`, and the table stays as it is -/
theorem takeName_of_ahead {x : Name} (h : p.ahead = (k, w) :: ws)
    (hx : p.names.texts[x.index]? = some w) : p.takeName = (x, p.discard) := by
  obtain ⟨t, ts, ht, hk, -⟩ := List.map_eq_cons_iff.mp h
  have hw : p.stream.current.text = w := by
    show (p.stream.tokens.headD p.stream.stop).text = _
    rw [ht]
    exact congrArg Prod.snd hk
  have hi := NameTable.intern_of_find? (NameTable.find?_eq_some_iff.mpr hx)
  rw [takeName, hw, hi]
  rfl

/-! ## the parts of a term -/

/-- words after which a term is complete -/
def Ends (ws : List (Kind × Bytes)) : Prop := ∀ l ∈ ws.head?, l.1 = .rightParen ∨ l.1 = .semicolon

/-- words that do not make a definition of the name before them -/
def NoDefine (ws : List (Kind × Bytes)) : Prop := ∀ l ∈ ws.head?, l.1 ≠ .define

theorem Ends.noDefine (h : Ends ws) : NoDefine ws := by
  intro l hl he
  rcases h l hl with h | h
  · cases he.symm.trans h
  · cases he.symm.trans h

theorem kind_ne_define (h : p.ahead = ws) (hws : NoDefine ws) : p.kind ≠ .define := by
  cases ws with
  | nil =>
    rw [kind_of_ahead_nil h]
    decide
  | cons l ws =>
    rw [kind_of_ahead h]
    exact hws l rfl

theorem termFrom_end {t : Term} (h : p.ahead = ws) (hws : Ends ws) :
    termFrom (n + 1) (some t) p = (.ok t, p) := by
  cases ws with
  | nil =>
    rw [termFrom, kind_of_ahead_nil h]
    rfl
  | cons l ws =>
    have hk := kind_of_ahead h
    rw [termFrom, hk]
    rcases hws l rfl with hl | hl
    · rw [hl]
      rfl
    · rw [hl]
      rfl

theorem termFrom_name {x : Name} {sofar : Option Term} (h : p.ahead = (.name, w) :: ws)
    (hx : p.names.texts[x.index]? = some w) (hws : NoDefine ws) :
    termFrom (n + 1) sofar p = termFrom n (some (extend sofar (.var x))) p.discard := by
  have hd : p.atDefinition = false := by
    rw [atDefinition_of_ahead h]
    simp [kind_ne_define (advances_discard h).ahead hws]
  have hk := kind_of_ahead h
  have ha : p.atomBy (termFrom n none) = (.ok (.var x), p.discard) := by
    rw [atomBy, hk, takeName_of_ahead h hx]
  rw [termFrom, hk, hd, ha]
  rfl

theorem termFrom_paren {t : Term} {q : Parser} {sofar : Option Term}
    (h : p.ahead = (.leftParen, w) :: ws) (ht : termFrom n none p.discard = (.ok t, q))
    (hq : q.kind = .rightParen) :
    termFrom (n + 1) sofar p = termFrom n (some (extend sofar t)) q.discard := by
  have hd : p.atDefinition = false := by
    rw [atDefinition_of_ahead h]
    rfl
  have hk := kind_of_ahead h
  have ha : p.atomBy (termFrom n none) = (.ok t, q.discard) := by
    rw [atomBy, hk, ht]
    exact if_pos hq
  rw [termFrom, hk, hd, ha]
  rfl

theorem termFrom_fn {t : Term} {x : Name} {q : Parser} {v u : Bytes}
    (h : p.ahead = (.fn, w) :: (.name, v) :: (.arrow, u) :: ws)
    (hx : p.names.texts[x.index]? = some v)
    (ht : termFrom n none p.discard.discard.discard = (.ok t, q)) :
    termFrom (n + 1) none p = (.ok (.lam x t), q) := by
  have h₁ := advances_discard h
  have h₂ := advances_discard h₁.ahead
  have hk := kind_of_ahead h
  have ha : p.abstractionBy (termFrom n none) = (.ok (.lam x t), q) := by
    rw [abstractionBy, if_pos hk]
    simp only [kind_of_ahead h₁.ahead, takeName_of_ahead h₁.ahead hx, kind_of_ahead h₂.ahead, ht,
      if_true]
  rw [termFrom, hk, ha]
  rfl

end Parser

/-! ## whole terms -/

theorem NameTable.Valid.getElem? {names names' : NameTable} {x : Name} (hx : names.Valid x)
    (h : names ≤ names') : names'.texts[x.index]? = some (names.text x) := by
  have hi : x.index < names.texts.size := hx.1
  apply h
  rw [NameTable.text, Array.getD_eq_getD_getElem?, Array.getElem?_eq_getElem hi]
  rfl

namespace Term

open NamedLambda.Parser

/-- with its words ahead and nothing to follow, the term is read -/
def ReadsAll (names : NameTable) (t : Term) : Prop :=
  ∀ {n : Nat} {p : Parser} {ws : List (Kind × Bytes)}, names ≤ p.names →
    p.ahead = t.words names ++ ws → Ends ws → (t.words names).length < n →
    ∃ q, termFrom n none p = (.ok t, q) ∧ p.Advances q ws

/-- with its words ahead, the term is what has been read so far when they are done -/
def ReadsOn (names : NameTable) (t : Term) : Prop :=
  ∀ {n : Nat} {p : Parser} {ws : List (Kind × Bytes)}, names ≤ p.names →
    p.ahead = t.words names ++ ws → NoDefine ws → (t.words names).length ≤ n →
    ∃ m q, n ≤ m + (t.words names).length ∧ termFrom n none p = termFrom m (some t) q ∧
      p.Advances q ws

variable {names : NameTable} {t : Term}

theorem ReadsOn.readsAll (h : t.ReadsOn names) : t.ReadsAll names := by
  intro n p ws hn hp hws hl
  obtain ⟨m, q, hm, he, hq⟩ := h hn hp hws.noDefine (Nat.le_of_lt hl)
  obtain ⟨m, rfl⟩ := Nat.exists_eq_add_of_le' (show 1 ≤ m by omega)
  exact ⟨q, he.trans (termFrom_end hq.ahead hws), hq⟩

theorem length_enclose (ws : List (Kind × Bytes)) : (enclose true ws).length = ws.length + 2 := by
  simp [enclose]

theorem length_enclose_pos (need : Bool) {ws : List (Kind × Bytes)} (h : ws ≠ []) :
    0 < (enclose need ws).length := by
  cases need with
  | false => exact List.length_pos_iff.mpr h
  | true =>
    rw [length_enclose]
    omega

/-- a term in parentheses is an atom -/
theorem ReadsAll.enclosed (h : t.ReadsAll names) {n : Nat} {p : Parser} {ws : List (Kind × Bytes)}
    (sofar : Option Term) (hn : names ≤ p.names) (hp : p.ahead = enclose true (t.words names) ++ ws)
    (hl : (enclose true (t.words names)).length ≤ n + 1) :
    ∃ q, termFrom (n + 1) sofar p = termFrom n (some (extend sofar t)) q ∧ p.Advances q ws := by
  rw [length_enclose] at hl
  have hp' : p.ahead = (.leftParen, [40]) :: (t.words names ++ (.rightParen, [41]) :: ws) := by
    rw [hp]
    simp [enclose]
  have h₁ := advances_discard hp'
  have he : Ends ((.rightParen, [41]) :: ws) := by
    intro l hl
    cases hl
    exact .inl rfl
  obtain ⟨q, ht, hq⟩ := h (h₁.le hn) h₁.ahead he (show _ < n by omega)
  exact ⟨q.discard, termFrom_paren hp' ht (kind_of_ahead hq.ahead),
    (h₁.trans hq).trans (advances_discard hq.ahead)⟩

/-- an argument is an atom: a name, or in parentheses -/
theorem reads_arg (ht : t.Readable names) (h : t.ReadsAll names) {n : Nat} {p : Parser}
    {ws : List (Kind × Bytes)} (sofar : Option Term) (hn : names ≤ p.names)
    (hp : p.ahead = enclose t.needsParensAsArg (t.words names) ++ ws) (hws : NoDefine ws)
    (hl : (enclose t.needsParensAsArg (t.words names)).length ≤ n + 1) :
    ∃ q, termFrom (n + 1) sofar p = termFrom n (some (extend sofar t)) q ∧ p.Advances q ws := by
  cases t with
  | hole => exact ht.1.elim
  | var x =>
    have hx := (ht.2 x List.mem_cons_self).getElem? hn
    exact ⟨p.discard, termFrom_name hp hx hws, advances_discard hp⟩
  | lam x b => exact h.enclosed sofar hn hp hl
  | app f a => exact h.enclosed sofar hn hp hl

/-- a function is an atom in parentheses, or read as a term of its own -/
theorem reads_fn (h : t.ReadsAll names) (h' : t.isLam = false → t.ReadsOn names) {n : Nat}
    {p : Parser} {ws : List (Kind × Bytes)} (hn : names ≤ p.names)
    (hp : p.ahead = enclose t.needsParensAsFn (t.words names) ++ ws) (hws : NoDefine ws)
    (hl : (enclose t.needsParensAsFn (t.words names)).length ≤ n) :
    ∃ m q, n ≤ m + (enclose t.needsParensAsFn (t.words names)).length ∧
      termFrom n none p = termFrom m (some t) q ∧ p.Advances q ws := by
  rcases hf : t.needsParensAsFn with _ | _
  · rw [hf] at hp hl
    exact h' hf hn hp hws hl
  · rw [hf] at hp hl
    have hlen := length_enclose (t.words names)
    obtain ⟨n, rfl⟩ := Nat.exists_eq_add_of_le' (show 1 ≤ n by omega)
    obtain ⟨q, he, hq⟩ := h.enclosed none hn hp hl
    exact ⟨n, q, by omega, he, hq⟩

theorem noDefine_enclose {need : Bool} {vs ws : List (Kind × Bytes)} (hne : vs ≠ [])
    (h : NoDefine vs) : NoDefine (enclose need vs ++ ws) := by
  intro l hl
  cases need with
  | true =>
    cases hl
    decide
  | false =>
    obtain ⟨v, vs, rfl⟩ := List.exists_cons_of_ne_nil hne
    exact h l hl

theorem words_head (names : NameTable) (t : Term) : t.words names ≠ [] ∧ NoDefine (t.words names) := by
  induction t with
  | hole =>
    refine ⟨List.cons_ne_nil _ _, fun l hl he => ?_⟩
    cases hl
    cases he
  | var x =>
    refine ⟨List.cons_ne_nil _ _, fun l hl he => ?_⟩
    cases hl
    cases he
  | lam x b =>
    refine ⟨List.cons_ne_nil _ _, fun l hl he => ?_⟩
    cases hl
    cases he
  | app f a ihf iha =>
    refine ⟨?_, noDefine_enclose ihf.1 ihf.2⟩
    intro h
    have hf := (List.append_eq_nil_iff.mp h).1
    cases hn : f.needsParensAsFn with
    | true =>
      rw [hn] at hf
      cases hf
    | false =>
      rw [hn] at hf
      exact ihf.1 hf

theorem Readable.reads (ht : t.Readable names) :
    (t.isLam = false → t.ReadsOn names) ∧ t.ReadsAll names := by
  induction t with
  | hole => exact ht.1.elim
  | var x =>
    have hon : (var x).ReadsOn names := by
      intro n p ws hn hp hws hl
      obtain ⟨n, rfl⟩ := Nat.exists_eq_add_of_le' hl
      have hx := (ht.2 x List.mem_cons_self).getElem? hn
      exact ⟨n, p.discard, Nat.le_refl _, termFrom_name hp hx hws, advances_discard hp⟩
    exact ⟨fun _ => hon, hon.readsAll⟩
  | lam x b ih =>
    refine ⟨fun h => Bool.noConfusion h, ?_⟩
    intro n p ws hn hp hws hl
    have hl' : (b.words names).length + 3 < n := hl
    obtain ⟨n, rfl⟩ := Nat.exists_eq_add_of_le' (show 1 ≤ n by omega)
    have hx := (ht.2 x List.mem_cons_self).getElem? hn
    have h₁ := advances_discard hp
    have h₂ := advances_discard h₁.ahead
    have h₃ := advances_discard h₂.ahead
    have hadv := (h₁.trans h₂).trans h₃
    obtain ⟨q, he, hq⟩ := (ih ht.body).2 (hadv.le hn) hadv.ahead hws (show _ < n by omega)
    exact ⟨q, termFrom_fn hp hx he, hadv.trans hq⟩
  | app f a ihf iha =>
    have hon : (app f a).ReadsOn names := by
      intro n p ws hn hp hws hl
      rw [words, List.append_assoc] at hp
      rw [words, List.length_append] at hl ⊢
      obtain ⟨hne, hnd⟩ := words_head names a
      obtain ⟨m, q, hm, he, hq⟩ := reads_fn (n := n) (ihf ht.fn).2 (ihf ht.fn).1 hn hp
        (noDefine_enclose hne hnd) (by omega)
      have hpos := length_enclose_pos a.needsParensAsArg hne
      obtain ⟨m, rfl⟩ := Nat.exists_eq_add_of_le' (show 1 ≤ m by omega)
      obtain ⟨q', he', hq'⟩ := reads_arg (n := m) ht.arg (iha ht.arg).2 (some f) (hq.le hn)
        hq.ahead hws (by omega)
      exact ⟨m, q', by omega, he.trans he', hq.trans hq'⟩
    exact ⟨fun _ => hon, hon.readsAll⟩

end Term

/-! ## whole programs -/

namespace Parser

variable {p q : Parser} {names : NameTable} {ws : List (Kind × Bytes)} {t : Term}

theorem bound_eq (p : Parser) : p.bound = p.ahead.length + 1 := by
  rw [bound, ahead, List.length_map]

theorem term_of_words (hn : names ≤ p.names) (ht : t.Readable names)
    (hp : p.ahead = t.words names ++ ws) (hws : Ends ws) :
    ∃ q, p.term = (.ok t, q) ∧ p.Advances q ws := by
  have hl : (t.words names).length < p.bound := by
    rw [bound_eq, hp, List.length_append]
    omega
  exact ht.reads.2 hn hp hws hl

theorem endOfInput_of_ahead (h : p.ahead = []) : p.endOfInput = (.ok (), p) := by
  rw [endOfInput, kind_of_ahead_nil h]

theorem advances_semicolon {w : Bytes} (h : p.ahead = (.semicolon, w) :: ws) :
    p.Advances p.semicolon ws := by
  rw [semicolon, if_pos (kind_of_ahead h)]
  exact advances_discard h

/-- a definition, or the main term with its name, is read up to the semicolon behind it -/
theorem programFrom_entry {n : Nat} {x : Name} {w : Bytes} (ds : List Definition)
    (hn : names ≤ p.names) (ht : t.Readable names) (hx : p.names.texts[x.index]? = some w)
    (hp : p.ahead = Program.entryWords names w t ++ ws) :
    ∃ q, p.Advances q ((.semicolon, [59]) :: ws) ∧
      programFrom (n + 1) ds p =
        if x = p.mainName then q.finishProgram ds t
        else programFrom n (⟨x, t⟩ :: ds) q.semicolon := by
  have hp' : p.ahead
      = (.name, w) :: (.define, [58, 61]) :: (t.words names ++ (.semicolon, [59]) :: ws) := by
    rw [hp]
    simp [Program.entryWords]
  have h₁ := advances_discard hp'
  have h₂ := h₁.trans (advances_discard h₁.ahead)
  have he : Ends ((.semicolon, [59]) :: ws) := by
    intro l hl
    cases hl
    exact .inr rfl
  obtain ⟨q, hq, hadv⟩ := term_of_words (h₂.le hn) ht h₂.ahead he
  have hk : ¬ p.kind = .endOfInput := by
    rw [kind_of_ahead hp']
    decide
  have hd : p.atDefinition = true := by
    rw [atDefinition_of_ahead hp', kind_of_ahead h₁.ahead]
    rfl
  refine ⟨q, h₂.trans hadv, ?_⟩
  rw [programFrom, if_neg hk, if_pos hd, takeName_of_ahead hp' hx]
  simp only [hq, (h₂.trans hadv).mainName]

theorem finishProgram_of_ahead {w : Bytes} (ds : List Definition)
    (h : p.ahead = [(.semicolon, w)]) :
    p.finishProgram ds t = (.ok ⟨ds.reverse, t⟩, p.semicolon) := by
  rw [finishProgram, endOfInput_of_ahead (advances_semicolon h).ahead]

/-- the definitions that are left are read one by one, then the main term -/
theorem programFrom_words (sofar : List Definition) {ds : List Definition} {n : Nat}
    (hn : names ≤ p.names)
    (hr : Program.Readable names ⟨ds, t⟩) (hp : p.ahead = Program.words names ⟨ds, t⟩)
    (hm : p.names.texts[p.mainName.index]? = some (Bytes.ascii "main")) (hl : ds.length < n) :
    ∃ q, programFrom n sofar p = (.ok ⟨sofar.reverse ++ ds, t⟩, q) ∧ q.names = p.names := by
  induction ds generalizing p sofar n with
  | nil =>
    obtain ⟨n, rfl⟩ := Nat.exists_eq_add_of_le' (show 1 ≤ n by omega)
    have hp' : p.ahead = Program.entryWords names (Bytes.ascii "main") t ++ [] := by
      rw [hp, List.append_nil]
      rfl
    obtain ⟨q, hq, he⟩ := programFrom_entry (n := n) sofar hn hr.2 hm hp'
    refine ⟨q.semicolon, ?_, (hq.trans (advances_semicolon hq.ahead)).names⟩
    rw [he, if_pos rfl, finishProgram_of_ahead sofar hq.ahead, List.append_nil]
  | cons d ds ih =>
    obtain ⟨n, rfl⟩ := Nat.exists_eq_add_of_le' (show 1 ≤ n by omega)
    obtain ⟨hv, hx, hne⟩ := hr.1 d List.mem_cons_self
    have hxt := hx.getElem? hn
    have hp' : p.ahead = Program.entryWords names (names.text d.name) d.value ++
        Program.words names ⟨ds, t⟩ := by
      rw [hp]
      exact List.append_assoc _ _ _
    obtain ⟨q, hq, he⟩ := programFrom_entry (n := n) sofar hn hv hxt hp'
    have hs := hq.trans (advances_semicolon hq.ahead)
    have hnm : ¬ d.name = p.mainName := by
      intro h
      rw [← h] at hm
      exact hne (Option.some.inj (hxt.symm.trans hm))
    have hr' : Program.Readable names ⟨ds, t⟩ :=
      ⟨fun d' hd' => hr.1 d' (List.mem_cons_of_mem d hd'), hr.2⟩
    have hm' : q.semicolon.names.texts[q.semicolon.mainName.index]? = some (Bytes.ascii "main") := by
      rw [hs.names, hs.mainName]
      exact hm
    obtain ⟨q', he', hq'⟩ := ih (d :: sofar) (hs.le hn) hr' hs.ahead hm'
      (Nat.lt_of_succ_lt_succ hl)
    refine ⟨q', ?_, hq'.trans hs.names⟩
    rw [he, if_neg hnm, he', List.reverse_cons, List.append_assoc]
    rfl

/-! ## the round trip -/

theorem ahead_start (names : NameTable) (source : Bytes) :
    (start names source).ahead = lexemes source := rfl

theorem wholeTerm_of_words (hn : names ≤ p.names) (ht : t.Readable names)
    (hp : p.ahead = t.words names) : ∃ q, p.wholeTerm = (.ok t, q) ∧ q.names = p.names := by
  have he : Ends [] := by
    intro l hl
    cases hl
  obtain ⟨q, hq, hadv⟩ := term_of_words hn ht (hp.trans (List.append_nil _).symm) he
  refine ⟨q, ?_, hadv.names⟩
  rw [wholeTerm, hq]
  simp only [endOfInput_of_ahead hadv.ahead]

end Parser

/-- **Printing and reading are inverse**: a printed term is read as the same term, and a printed program
as the same definitions and main term, if there are no holes and all names are valid.  The table
learns the name `main` and no other. -/
theorem parse_print (names : NameTable) :
    (∀ t : Term, t.Readable names →
      Term.parse names (t.print names) = (.ok t, (names.intern (Bytes.ascii "main")).2)) ∧
    (∀ p : Program, p.Readable names →
      Program.parse names (p.print names) = (.ok p, (names.intern (Bytes.ascii "main")).2)) := by
  have hn := names.le_intern (Bytes.ascii "main")
  constructor
  · intro t ht
    have hw : lexemes (t.print names) = t.words names :=
      (Term.lexemes_printTo ht breaks_nil).trans (List.append_nil _)
    obtain ⟨q, hq, hnames⟩ := Parser.wholeTerm_of_words (p := .start names (t.print names)) hn ht hw
    rw [Term.parse, hq]
    exact congrArg (Prod.mk _) hnames
  · intro p hp
    have hw := Program.lexemes_print hp
    have hm := NameTable.getElem?_intern names (Bytes.ascii "main")
    have hl : p.definitions.length < (Parser.start names (p.print names)).bound := by
      rw [Parser.bound_eq, Parser.ahead_start, hw]
      exact Nat.lt_succ_of_le (Program.length_definitions_le names p)
    obtain ⟨q, hq, hnames⟩ := Parser.programFrom_words (p := .start names (p.print names)) []
      hn hp hw hm hl
    rw [Program.parse, Parser.program, hq]
    exact congrArg (Prod.mk _) hnames

/-- the names `:`, `=`, `x:`, `fnord` and one that is not ASCII, with abstractions and applications in
every place -/
theorem parse_print_odd_names :
    let names := NameTable.empty.internAll
      [[58], [61], [120, 58], [102, 110, 111, 114, 100], [195, 169]]
    let t : Term := .app (.app (.lam ⟨0⟩ (.app (.var ⟨0⟩) (.var ⟨1⟩))) (.var ⟨4⟩))
      (.app (.var ⟨2⟩) (.lam ⟨3⟩ (.lam ⟨2⟩ (.var ⟨4⟩))))
    let p : Program := ⟨[⟨⟨0⟩, t⟩, ⟨⟨3⟩, .var ⟨1⟩⟩], t⟩
    Term.parse names (t.print names) = (.ok t, (names.intern (Bytes.ascii "main")).2) ∧
      Program.parse names (p.print names) = (.ok p, (names.intern (Bytes.ascii "main")).2) := by
  intro names t p
  have ht : t.Readable names := ⟨⟨⟨⟨trivial, trivial⟩, trivial⟩, trivial, trivial⟩, by decide⟩
  have hy : (Term.var ⟨1⟩).Readable names := ⟨trivial, by decide⟩
  have hp : p.Readable names := by
    refine ⟨fun d hd => ?_, ht⟩
    rcases List.mem_pair.mp hd with rfl | rfl
    · exact ⟨ht, by decide⟩
    · exact ⟨hy, by decide⟩
  exact ⟨(parse_print names).1 t ht, (parse_print names).2 p hp⟩

end NamedLambda
