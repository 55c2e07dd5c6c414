import NamedLambda.Parser
import NamedLambda.Proofs.FreshNames

/-!
# Reading, move by move

All that a reader does to its state is to pass over a word, to take a word as a name, and to note an
error.  `Parser.Moves` says that one reader comes from another in this way, and every function of the
reader only moves, whatever comes of it (`moves_termFrom`, `moves_programFrom`).

So what is left to read is always an end of what there was (`Moves.tokens`), and the table afterwards has
every name it had before, in its place (`Term.le_parse`, `Program.le_parse`).
-/

namespace NamedLambda

namespace Parser

/-- `q` comes from `p` by moves of a reader -/
inductive Moves : Parser → Parser → Prop where
  | refl (p : Parser) : Moves p p
  | discard {p q : Parser} (hk : p.kind ≠ .name) (h : Moves p.discard q) : Moves p q
  | takeName {p q : Parser} (hk : p.kind = .name) (h : Moves p.takeName.2 q) : Moves p q
  | note {p q : Parser} (e : SyntaxError) (h : Moves { p with error := some e } q) : Moves p q

variable {p q r : Parser}

theorem Moves.trans (h : p.Moves q) (h' : q.Moves r) : p.Moves r := by
  induction h with
  | refl => exact h'
  | discard hk _ ih => exact .discard hk (ih h')
  | takeName hk _ ih => exact .takeName hk (ih h')
  | note e _ ih => exact .note e (ih h')

theorem moves_discard {k : Token.Kind} (hk : p.kind = k) (hne : k ≠ .name) : p.Moves p.discard :=
  .discard (hk ▸ hne) (.refl _)

theorem moves_takeName (hk : p.kind = .name) : p.Moves p.takeName.2 :=
  .takeName hk (.refl _)

theorem moves_fail {α : Type} (p : Parser) (fault : Fault) : p.Moves (p.fail (α := α) fault).2 :=
  .note _ (.refl _)

/-! ## every reader moves -/

/-- whether a reader only moves -/
def Steady {α : Type} (f : Parser → Result α) : Prop := ∀ p : Parser, p.Moves (f p).2

theorem Steady.moves {α : Type} {f : Parser → Result α} {res : Except SyntaxError α}
    (hf : Steady f) (h : f p = (res, q)) : p.Moves q := by
  have hp := hf p
  rw [h] at hp
  exact hp

variable {f : Parser → Result Term}

theorem moves_finish (sofar : Option Term) : Steady fun p => p.finish sofar := by
  intro p
  cases sofar with
  | none => exact moves_fail p _
  | some t => exact .refl p

theorem moves_atomBy (hf : Steady f) : Steady (atomBy f) := by
  intro p
  unfold atomBy
  split
  · next hk =>
    have h₁ := moves_discard hk (by decide)
    split
    · next e q hq => exact h₁.trans (hf.moves hq)
    · next t q hq =>
      have h₂ := h₁.trans (hf.moves hq)
      split
      · next hr => exact h₂.trans (moves_discard hr (by decide))
      · exact h₂.trans (moves_fail q _)
  · next hk => exact moves_takeName hk
  · exact moves_fail p _

theorem moves_abstractionBy (hf : Steady f) : Steady (abstractionBy f) := by
  intro p
  unfold abstractionBy
  dsimp only
  split
  · next hk =>
    have h₁ := moves_discard hk (by decide)
    split
    · next hn =>
      have h₂ := h₁.trans (moves_takeName hn)
      split
      · next ha =>
        have h₃ := h₂.trans (moves_discard ha (by decide))
        split
        · next e q hq => exact h₃.trans (hf.moves hq)
        · next t q hq => exact h₃.trans (hf.moves hq)
      · exact h₂.trans (moves_fail _ _)
    · exact h₁.trans (moves_fail _ _)
  · exact moves_fail p _

theorem moves_termFrom (n : Nat) (sofar : Option Term) : Steady (termFrom n sofar) := by
  induction n generalizing sofar with
  | zero => exact fun p => moves_fail p _
  | succ n ih =>
    intro p
    rw [termFrom]
    split
    · exact moves_fail p _
    iterate 3
      · exact moves_finish sofar p
    · split
      · next e q hq => exact (moves_abstractionBy (ih none)).moves hq
      · next t q hq => exact (moves_abstractionBy (ih none)).moves hq
    iterate 2
      · split
        · exact moves_finish sofar p
        · split
          · next e q hq => exact (moves_atomBy (ih none)).moves hq
          · next t q hq => exact ((moves_atomBy (ih none)).moves hq).trans (ih _ q)
    · exact moves_fail p _
    · exact moves_fail p _

theorem moves_term : Steady term := fun p => moves_termFrom p.bound none p

theorem moves_endOfInput : Steady endOfInput := by
  intro p
  unfold endOfInput
  split
  · exact .refl p
  · exact moves_fail p _
  · exact moves_fail p _

theorem moves_wholeTerm : Steady wholeTerm := by
  intro p
  unfold wholeTerm
  split
  · next e q hq => exact moves_term.moves hq
  · next t q hq =>
    have ht := moves_term.moves hq
    split
    · next e q' hq' => exact ht.trans (moves_endOfInput.moves hq')
    · next u q' hq' => exact ht.trans (moves_endOfInput.moves hq')

theorem moves_semicolon (p : Parser) : p.Moves p.semicolon := by
  unfold semicolon
  split
  · next hk => exact moves_discard hk (by decide)
  · exact .refl p

theorem moves_finishProgram (ds : List Definition) (t : Term) :
    Steady fun p => p.finishProgram ds t := by
  intro p
  have hs := moves_semicolon p
  unfold finishProgram
  dsimp only
  split
  · next e q hq => exact hs.trans (moves_endOfInput.moves hq)
  · next u q hq => exact hs.trans (moves_endOfInput.moves hq)

/-- the name and the sign of a definition -/
theorem moves_label (h : p.atDefinition = true) : p.Moves p.takeName.2.discard := by
  simp only [atDefinition, Bool.and_eq_true, decide_eq_true_eq] at h
  have hk : p.takeName.2.kind = .define := h.2
  exact (moves_takeName h.1).trans (moves_discard hk (by decide))

theorem moves_programFrom (n : Nat) (ds : List Definition) : Steady (programFrom n ds) := by
  induction n generalizing ds with
  | zero => exact fun p => moves_fail p _
  | succ n ih =>
    intro p
    rw [programFrom]
    split
    · exact moves_fail p _
    · split
      · next hd =>
        dsimp only
        split
        · next e q hq => exact (moves_label hd).trans (moves_term.moves hq)
        · next t q hq =>
          have ht := (moves_label hd).trans (moves_term.moves hq)
          split
          · exact ht.trans (moves_finishProgram ds t q)
          · exact (ht.trans (moves_semicolon q)).trans (ih _ _)
      · split
        · next e q hq => exact moves_term.moves hq
        · next t q hq => exact (moves_term.moves hq).trans (moves_finishProgram ds t q)

theorem moves_program : Steady program := fun p => moves_programFrom p.bound [] p

/-! ## what moves keep -/

theorem Moves.names (h : p.Moves q) : p.names ≤ q.names := by
  induction h with
  | refl => exact le_refl _
  | discard _ _ ih => exact ih
  | takeName _ _ ih => exact le_trans (NameTable.le_intern _ _) ih
  | note _ _ ih => exact ih

/-- what is left to read is an end of what there was -/
theorem Moves.tokens (h : p.Moves q) : ∃ ts, p.stream.toList = ts ++ q.stream.toList := by
  have hone : ∀ s : TokenStream, ∃ ts, s.toList = ts ++ s.discard.toList := by
    intro s
    rcases s with ⟨_ | ⟨t, ts⟩, size⟩
    · exact ⟨[], rfl⟩
    · exact ⟨[t], rfl⟩
  induction h with
  | refl => exact ⟨[], rfl⟩
  | @discard p q _ _ ih =>
    obtain ⟨ts, hts⟩ := hone p.stream
    obtain ⟨us, hus⟩ := ih
    exact ⟨ts ++ us, by rw [hts, List.append_assoc, ← hus]; rfl⟩
  | @takeName p q _ _ ih =>
    obtain ⟨ts, hts⟩ := hone p.stream
    obtain ⟨us, hus⟩ := ih
    exact ⟨ts ++ us, by rw [hts, List.append_assoc, ← hus]; rfl⟩
  | note _ _ ih => exact ih

theorem le_start (names : NameTable) (source : Bytes) : names ≤ (start names source).names :=
  NameTable.le_intern _ _

end Parser

theorem Term.le_parse (names : NameTable) (source : Bytes) :
    names ≤ (Term.parse names source).2 :=
  le_trans (Parser.le_start names source) (Parser.moves_wholeTerm _).names

theorem Program.le_parse (names : NameTable) (source : Bytes) :
    names ≤ (Program.parse names source).2 :=
  le_trans (Parser.le_start names source) (Parser.moves_program _).names

end NamedLambda
