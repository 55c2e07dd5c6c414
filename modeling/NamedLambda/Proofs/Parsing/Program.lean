import NamedLambda.Proofs.Parsing.Term

/-!
# The reader accepts exactly the grammar

For programs as for terms, what is read has a derivation (`programFrom_sound`), and words with a
derivation are read (`programFrom_accepts`).  Together with what is known of terms, and as the grammar is
unambiguous, this makes up the main statement (`parse_iff_derivation`): a source is read if and only if
its words have a derivation, and then it is read as the tree of that derivation.
-/

namespace NamedLambda

open Token

namespace Parser

variable {p q : Parser} {n : Nat} {t : Term} {ds : List Definition} {prog : Program}

/-! ## programs: what is read has a derivation -/

def KnowsMain (p : Parser) : Prop := p.names.find? (Bytes.ascii "main") = some p.mainName

theorem Consumes.knowsMain {ws : List (Kind × Bytes)} (h : p.Consumes ws q) (hm : p.KnowsMain) :
    q.KnowsMain := by
  rw [KnowsMain, h.mainName]
  exact NameTable.find?_mono h.names hm

theorem KnowsMain.eq_iff {w : Bytes} {x : Name} (hm : p.KnowsMain) (hx : p.names.find? w = some x) :
    x = p.mainName ↔ w = Bytes.ascii "main" := by
  constructor
  · rintro rfl
    have h₁ := NameTable.find?_eq_some_iff.mp hx
    have h₂ := NameTable.find?_eq_some_iff.mp hm
    exact Option.some.inj (h₁.symm.trans h₂)
  · rintro rfl
    exact Option.some.inj (hx.symm.trans hm)

theorem consumes_semicolon (hp : p.Lexed) :
    ∃ s, p.Consumes (mark s) p.semicolon ∧
      (s = false → p.semicolon = p ∧ first p.ahead ≠ .semicolon) := by
  unfold semicolon
  split
  · next hk =>
    obtain ⟨_, hc, rfl⟩ := consumes_discard hp hk (by decide)
    exact ⟨true, hc, fun h => Bool.noConfusion h⟩
  · next hk =>
    rw [kind_eq_first] at hk
    exact ⟨false, .refl p, fun _ => ⟨rfl, hk⟩⟩

/-- the semicolon behind an entry is skipped, if there is one -/
theorem ahead_semicolon {s : Bool} {ws : List (Kind × Bytes)} (hp : p.Lexed)
    (h : p.ahead = mark s ++ ws) (hs : s = false → first ws ≠ .semicolon) : p.semicolon.ahead = ws := by
  obtain ⟨s', hc, hns⟩ := consumes_semicolon hp
  refine (Program.Derivation.mark_append_inj (h.symm.trans hc.ahead) hs fun hf => ?_).2.symm
  rw [(hns hf).1]
  exact (hns hf).2

theorem endOfInput_eq_ok {v : Unit} (h : p.endOfInput = (.ok v, q)) :
    p.kind = .endOfInput ∧ q = p := by
  unfold endOfInput at h
  split at h
  · next hk =>
    cases h
    exact ⟨hk, rfl⟩
  · cases h
  · cases h

theorem finishProgram_sound (hp : p.Lexed) (h : p.finishProgram ds t = (.ok prog, q)) :
    prog = ⟨ds.reverse, t⟩ ∧ ∃ s, p.Consumes (mark s) q ∧ q.ahead = [] := by
  unfold finishProgram at h
  split at h
  · cases h
  · next v p' he =>
    cases h
    obtain ⟨s, hc, -⟩ := consumes_semicolon hp
    obtain ⟨hk, rfl⟩ := endOfInput_eq_ok he
    exact ⟨rfl, s, hc, ahead_of_endOfInput (hc.lexed hp) hk⟩

theorem programFrom_cases (h : programFrom (n + 1) ds p = (.ok prog, q)) :
    (startsDefinition p.ahead = true ∧ ∃ t p', p.takeName.2.discard.term = (.ok t, p') ∧
      (if p.takeName.1 = p'.mainName then p'.finishProgram ds t
        else programFrom n (⟨p.takeName.1, t⟩ :: ds) p'.semicolon) = (.ok prog, q)) ∨
    startsDefinition p.ahead = false ∧ ∃ t p', p.term = (.ok t, p') ∧
      p'.finishProgram ds t = (.ok prog, q) := by
  rw [programFrom] at h
  split at h
  · cases h
  · split at h
    · next hd =>
      rw [atDefinition_eq] at hd
      dsimp only at h
      split at h
      · cases h
      · next t p' ht => exact .inl ⟨hd, t, p', ht, h⟩
    · next hd =>
      rw [atDefinition_eq] at hd
      split at h
      · cases h
      · next t p' ht => exact .inr ⟨Bool.eq_false_iff.mpr hd, t, p', ht, h⟩

/-- the name and the sign of a definition -/
theorem consumes_label (hp : p.Lexed) (hd : startsDefinition p.ahead = true) :
    ∃ w, p.Consumes (label w) p.takeName.2.discard ∧
      p.takeName.2.names.find? w = some p.takeName.1 := by
  simp only [startsDefinition, Bool.and_eq_true, decide_eq_true_eq] at hd
  obtain ⟨w, h₁, hx⟩ := takeName_spec hp ((kind_eq_first p).trans hd.1)
  have hk : p.takeName.2.kind = .define := by
    rw [kind_eq_first, ahead_takeName]
    exact hd.2
  obtain ⟨_, h₂, rfl⟩ := consumes_discard (h₁.lexed hp) hk (by decide)
  exact ⟨w, h₁.trans h₂, hx⟩

theorem programFrom_sound (hp : p.Lexed) (hm : p.KnowsMain)
    (h : programFrom n ds p = (.ok prog, q)) :
    ∃ (d : Program.Derivation) (es : List Definition) (t : Term), d.Valid ∧ p.Consumes d.words q ∧
      q.ahead = [] ∧ d.program q.names = some ⟨es, t⟩ ∧ prog = ⟨ds.reverse ++ es, t⟩ := by
  induction n generalizing p ds with
  | zero => cases h
  | succ n ih =>
    rcases programFrom_cases h with ⟨hd, t, p', ht, h⟩ | ⟨hd, t, p', ht, h⟩
    · obtain ⟨w, h₁, hx⟩ := consumes_label hp hd
      obtain ⟨d, h₂, htree, hs⟩ := term_sound (h₁.lexed hp) ht
      have h₁₂ := h₁.trans h₂
      have hp' := h₁₂.lexed hp
      have hx' := NameTable.find?_mono (show p.takeName.2.names ≤ p'.names from h₂.names) hx
      split at h
      · -- the main term
        next he =>
        have hw := ((h₁₂.knowsMain hm).eq_iff hx').mp he
        subst hw
        obtain ⟨rfl, s, h₃, hq⟩ := finishProgram_sound hp' h
        refine ⟨.main true d s, [], t, fun hf => Bool.noConfusion hf, h₁.trans (h₂.trans h₃), hq, ?_,
          by rw [List.append_nil]⟩
        rw [Program.Derivation.program, Derivation.tree_mono h₃.names htree]
        rfl
      · -- a definition, and what follows it
        next he =>
        have hw : w ≠ Bytes.ascii "main" := fun hw => he (((h₁₂.knowsMain hm).eq_iff hx').mpr hw)
        obtain ⟨s, h₃, hns⟩ := consumes_semicolon hp'
        have h₁₃ := h₁₂.trans h₃
        obtain ⟨d', es, t', hv, h₄, hq, hpr, rfl⟩ := ih (h₁₃.lexed hp) (h₁₃.knowsMain hm) h
        have hnext : s = false → startsDefinition d'.words = true := by
          intro hf
          obtain ⟨hsame, hne⟩ := hns hf
          have hw' : p'.ahead = d'.words := by
            have ha := h₄.ahead
            rw [hsame, hq, List.append_nil] at ha
            exact ha
          rw [hw'] at hs hne
          have hfirst := d'.opens_words.ne
          rcases hs with hs | hs | hs | hs
          · exact absurd hs hfirst.1
          · exact absurd hs hfirst.2
          · exact absurd hs hne
          · exact hs
        refine ⟨.define w d s d', ⟨p.takeName.1, t⟩ :: es, t', ⟨hw, hnext, hv⟩,
          h₁.trans (h₂.trans (h₃.trans h₄)), hq, ?_, ?_⟩
        · have h₃₄ := h₃.trans h₄
          rw [Program.Derivation.program, NameTable.find?_mono h₃₄.names hx',
            Derivation.tree_mono h₃₄.names htree, hpr]
          rfl
        · rw [List.reverse_cons, List.append_assoc]
          rfl
    · obtain ⟨d, h₁, htree, -⟩ := term_sound hp ht
      obtain ⟨rfl, s, h₂, hq⟩ := finishProgram_sound (h₁.lexed hp) h
      refine ⟨.main false d s, [], t, fun _ => d.not_startsDefinition, h₁.trans h₂, hq, ?_,
        by rw [List.append_nil]⟩
      rw [Program.Derivation.program, Derivation.tree_mono h₂.names htree]
      rfl

/-! ## programs: words with a derivation are read -/

theorem finishProgram_accepts (ds : List Definition) (t : Term) {s : Bool} (h : p.ahead = mark s) :
    ∃ q, p.finishProgram ds t = (.ok ⟨ds.reverse, t⟩, q) := by
  cases s with
  | true => exact ⟨_, finishProgram_of_ahead ds h⟩
  | false =>
    have hk : ¬ p.kind = .semicolon := by
      rw [kind_eq_first, h]
      decide
    refine ⟨p, ?_⟩
    rw [finishProgram, semicolon, if_neg hk, endOfInput_of_ahead h]

theorem startsDefinition_label (w : Bytes) (ws : List (Kind × Bytes)) :
    startsDefinition (label w ++ ws) = true := rfl

/-- an entry of a program is read up to what follows its value -/
theorem programFrom_label (ds : List Definition) {w : Bytes} {d : Derivation .term}
    {ws : List (Kind × Bytes)} (hp : p.Lexed) (h : p.ahead = label w ++ (d.words ++ ws)) (hws : Stops ws) :
    ∃ x t p', programFrom (n + 1) ds p =
        (if x = p'.mainName then p'.finishProgram ds t
          else programFrom n (⟨x, t⟩ :: ds) p'.semicolon) ∧
      p.Consumes (label w ++ d.words) p' ∧ p'.ahead = ws ∧ p'.names.find? w = some x := by
  have hd : startsDefinition p.ahead = true := by
    rw [h]
    exact startsDefinition_label w _
  obtain ⟨w', h₁, hx⟩ := consumes_label hp hd
  obtain ⟨rfl, he⟩ := Program.Derivation.label_append_inj (h.symm.trans h₁.ahead)
  obtain ⟨t, p', ht, h₂, hp', -⟩ := term_of_derivation d (h₁.lexed hp) he.symm hws
  have hk : ¬ p.kind = .endOfInput := by
    rw [kind_of_ahead h]
    decide
  refine ⟨p.takeName.1, t, p', ?_, h₁.trans h₂, hp', NameTable.find?_mono h₂.names hx⟩
  rw [programFrom, if_neg hk, if_pos ((atDefinition_eq p).trans hd)]
  dsimp only
  rw [ht]

theorem programFrom_accepts (ds : List Definition) {d : Program.Derivation} (hp : p.Lexed)
    (hm : p.KnowsMain) (hv : d.Valid) (h : p.ahead = d.words) (hl : d.words.length < n) :
    ∃ prog q, programFrom n ds p = (.ok prog, q) := by
  induction d generalizing p ds n with
  | main named d s =>
    obtain ⟨n, rfl⟩ := Nat.exists_eq_add_of_le' (show 1 ≤ n by omega)
    cases named with
    | true =>
      obtain ⟨x, t, p', he, hc, hp', hx⟩ := programFrom_label (n := n) ds hp h
        (Program.Derivation.stops_mark s)
      have hxm := ((hc.knowsMain hm).eq_iff hx).mpr rfl
      obtain ⟨q, hq⟩ := finishProgram_accepts ds t hp'
      exact ⟨_, q, by rw [he, if_pos hxm, hq]⟩
    | false =>
      have h' : p.ahead = d.words ++ mark s := h
      obtain ⟨t, p', ht, hp'⟩ := term_accepts d h' (Program.Derivation.stops_mark s)
      obtain ⟨q, hq⟩ := finishProgram_accepts ds t hp'
      have hk : ¬ p.kind = .endOfInput := by
        rw [kind_eq_first, h]
        exact (Program.Derivation.main false d s).opens_words.ne.1
      have hd : ¬ p.atDefinition = true := by
        rw [atDefinition_eq, h', d.startsDefinition_words (Program.Derivation.first_mark_ne_define s)]
        decide
      refine ⟨⟨ds.reverse, t⟩, q, ?_⟩
      rw [programFrom, if_neg hk, if_neg hd, ht]
      exact hq
  | define w d s rest ih =>
    obtain ⟨hw, hs, hv⟩ := hv
    obtain ⟨n, rfl⟩ := Nat.exists_eq_add_of_le' (show 1 ≤ n by omega)
    obtain ⟨x, t, p', he, hc, hp', hx⟩ := programFrom_label (n := n) ds hp h
      (Program.Derivation.stops_mark_append hs)
    have hxm : ¬ x = p'.mainName := fun hx' => hw (((hc.knowsMain hm).eq_iff hx).mp hx')
    obtain ⟨s', hc', -⟩ := consumes_semicolon (hc.lexed hp)
    have hrest : p'.semicolon.ahead = rest.words :=
      ahead_semicolon (hc.lexed hp) hp' fun hf => Program.Derivation.first_ne_semicolon (hs hf)
    have hcc := hc.trans hc'
    have hlen : rest.words.length < n := by
      simp only [Program.Derivation.words, label, List.length_append, List.length_cons] at hl
      omega
    obtain ⟨prog, q, hq⟩ := ih (⟨x, t⟩ :: ds) (hcc.lexed hp) (hcc.knowsMain hm) hv hrest hlen
    exact ⟨prog, q, by rw [he, if_neg hxm, hq]⟩

/-! ## whole sources -/

theorem lexed_start (names : NameTable) (source : Bytes) : (start names source).Lexed :=
  fun _ hl => proper_of_mem_lexemes hl

theorem knowsMain_start (names : NameTable) (source : Bytes) : (start names source).KnowsMain :=
  NameTable.find?_eq_some_iff.mpr (NameTable.getElem?_intern _ _)

theorem wholeTerm_eq_ok (h : p.wholeTerm = (.ok t, q)) :
    p.term = (.ok t, q) ∧ q.kind = .endOfInput := by
  unfold wholeTerm at h
  split at h
  · cases h
  · next u p' hu =>
    split at h
    · cases h
    · next v p'' he =>
      cases h
      obtain ⟨hk, rfl⟩ := endOfInput_eq_ok he
      exact ⟨hu, hk⟩

/-- nothing is left behind a term that is the whole of the source -/
theorem ahead_of_wholeTerm (hp : p.Lexed) (h : p.wholeTerm = (.ok t, q)) : q.ahead = [] := by
  obtain ⟨ht, hk⟩ := wholeTerm_eq_ok h
  obtain ⟨_, hc, -⟩ := term_sound hp ht
  exact ahead_of_endOfInput (hc.lexed hp) hk

theorem wholeTerm_sound (hp : p.Lexed) (h : p.wholeTerm = (.ok t, q)) :
    ∃ d : Derivation .term, p.ahead = d.words ∧ p.names ≤ q.names ∧ d.tree q.names = some t := by
  obtain ⟨d, hc, hd, -⟩ := term_sound hp (wholeTerm_eq_ok h).1
  refine ⟨d, ?_, hc.names, hd⟩
  rw [hc.ahead, ahead_of_wholeTerm hp h, List.append_nil]

theorem wholeTerm_of_derivation {d : Derivation .term} (hp : p.Lexed) (h : p.ahead = d.words) :
    ∃ t q, p.wholeTerm = (.ok t, q) ∧ d.tree q.names = some t := by
  obtain ⟨t, q, ht, -, hq, hd⟩ := term_of_derivation d hp (h.trans (List.append_nil _).symm) (.inl rfl)
  refine ⟨t, q, ?_, hd⟩
  rw [wholeTerm, ht]
  simp only [endOfInput_of_ahead hq]

theorem program_sound (hp : p.Lexed) (hm : p.KnowsMain) (h : p.program = (.ok prog, q)) :
    ∃ d : Program.Derivation, d.Valid ∧ p.ahead = d.words ∧ p.names ≤ q.names ∧
      d.program q.names = some prog := by
  obtain ⟨d, es, t, hv, hc, hq, hd, rfl⟩ := programFrom_sound hp hm h
  refine ⟨d, hv, ?_, hc.names, hd⟩
  rw [hc.ahead, hq, List.append_nil]

theorem ahead_of_program (hp : p.Lexed) (hm : p.KnowsMain) (h : p.program = (.ok prog, q)) :
    q.ahead = [] := by
  obtain ⟨_, _, _, -, -, hq, -⟩ := programFrom_sound hp hm h
  exact hq

theorem program_of_derivation {d : Program.Derivation} (hp : p.Lexed) (hm : p.KnowsMain)
    (hv : d.Valid) (h : p.ahead = d.words) :
    ∃ prog q, p.program = (.ok prog, q) ∧ d.program q.names = some prog := by
  have hl : d.words.length < p.bound := by
    rw [bound_eq, h]
    omega
  obtain ⟨prog, q, hq⟩ := programFrom_accepts [] hp hm hv h hl
  obtain ⟨d', hv', h', -, hd'⟩ := program_sound hp hm hq
  obtain rfl := Program.Derivation.words_injective (h.symm.trans h') hv hv'
  exact ⟨prog, q, hq, hd'⟩

end Parser

/-- **The reader accepts exactly the grammar**: a source is read as a term if and only if its words
have a derivation as a term, and as a program if and only if they have one as a program.  There is one
derivation then, and its tree is what is read. -/
theorem parse_iff_derivation (names : NameTable) (source : Bytes) :
    (((∃ t, (Term.parse names source).1 = .ok t) ↔ ∃ d : Derivation .term, lexemes source = d.words) ∧
      ∀ d : Derivation .term, lexemes source = d.words →
        (∀ d' : Derivation .term, lexemes source = d'.words → d' = d) ∧
          ∃ t names', Term.parse names source = (.ok t, names') ∧ d.tree names' = some t) ∧
    ((∃ p, (Program.parse names source).1 = .ok p) ↔
        ∃ d : Program.Derivation, d.Valid ∧ lexemes source = d.words) ∧
      ∀ d : Program.Derivation, d.Valid → lexemes source = d.words →
        (∀ d' : Program.Derivation, d'.Valid → lexemes source = d'.words → d' = d) ∧
          ∃ p names', Program.parse names source = (.ok p, names') ∧ d.program names' = some p := by
  have hp := Parser.lexed_start names source
  have hm := Parser.knowsMain_start names source
  have term : ∀ d : Derivation .term, lexemes source = d.words →
      ∃ t names', Term.parse names source = (.ok t, names') ∧ d.tree names' = some t := by
    intro d hd
    obtain ⟨t, q, ht, htree⟩ := Parser.wholeTerm_of_derivation hp hd
    exact ⟨t, q.names, by rw [Term.parse, ht], htree⟩
  have program : ∀ d : Program.Derivation, d.Valid → lexemes source = d.words →
      ∃ p names', Program.parse names source = (.ok p, names') ∧ d.program names' = some p := by
    intro d hv hd
    obtain ⟨p, q, hq, hpr⟩ := Parser.program_of_derivation hp hm hv hd
    exact ⟨p, q.names, by rw [Program.parse, hq], hpr⟩
  refine ⟨⟨⟨?_, ?_⟩, ?_⟩, ⟨?_, ?_⟩, ?_⟩
  · rintro ⟨t, ht⟩
    obtain ⟨d, hd, -⟩ := Parser.wholeTerm_sound hp (Prod.ext ht rfl)
    exact ⟨d, hd⟩
  · rintro ⟨d, hd⟩
    obtain ⟨t, names', ht, -⟩ := term d hd
    exact ⟨t, by rw [ht]⟩
  · intro d hd
    exact ⟨fun d' hd' => Derivation.words_injective (hd'.symm.trans hd), term d hd⟩
  · rintro ⟨p, hpr⟩
    obtain ⟨d, hv, hd, -⟩ := Parser.program_sound hp hm (Prod.ext hpr rfl)
    exact ⟨d, hv, hd⟩
  · rintro ⟨d, hv, hd⟩
    obtain ⟨p, names', hpr, -⟩ := program d hv hd
    exact ⟨p, by rw [hpr]⟩
  · intro d hv hd
    refine ⟨fun d' hv' hd' => ?_, program d hv hd⟩
    exact Program.Derivation.words_injective (hd'.symm.trans hd) hv' hv

/-- two definitions, one of them without a semicolon, and an abstraction as the last argument -/
theorem parse_iff_derivation_definitions :
    let source := Bytes.ascii "i := fn x => x k := (i i); k i fn y => y"
    let d : Program.Derivation :=
      .define [105] (.abstraction .nil [120] (.plain (.name [120]) .nil)) false
        (.define [107] (.plain (.parens (.plain (.name [105]) (.cons (.name [105]) .nil))) .nil) true
          (.main false (.abstraction (.cons (.name [107]) (.cons (.name [105]) .nil)) [121]
            (.plain (.name [121]) .nil)) false))
    d.Valid ∧ lexemes source = d.words ∧
      ∃ p names', Program.parse .empty source = (.ok p, names') ∧ d.program names' = some p := by
  intro source d
  have hv : d.Valid := by
    refine ⟨by decide, fun _ => rfl, by decide, fun h => Bool.noConfusion h, fun _ => rfl⟩
  have hd : lexemes source = d.words := by decide
  exact ⟨hv, hd, ((parse_iff_derivation .empty source).2.2 d hv hd).2⟩

end NamedLambda
