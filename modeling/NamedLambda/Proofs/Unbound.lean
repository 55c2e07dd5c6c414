import NamedLambda.Proofs.Facts
import NamedLambda.Proofs.Interning
import NamedLambda.Proofs.Traces
import NamedLambda.Tool.Evaluate

/-!
# Names that nothing binds

The names that are free in a program's one term are those that no definition in front of them binds:
for the main term that is any definition, for a definition's value an earlier one only, neither
itself nor a later one (`Program.free_unroll`).  The evaluator lists them in the order of the table,
which is the order in which the source names them (`Program.unbound_exact`).
-/

namespace NamedLambda

/-! ## free names of programs -/

namespace Term

variable {x y : Name} {b f a : Term}

theorem free_lam : (lam y b).Free x ↔ b.Free x ∧ x ≠ y := by
  rw [free_iff_occurs, nameless_lam, free_iff_occurs]
  exact Nameless.occurs_close

theorem free_app : (app f a).Free x ↔ f.Free x ∨ a.Free x := by
  rw [free_iff_occurs, free_iff_occurs, free_iff_occurs]
  rfl

end Term

namespace Program

/-- whether a name occurs where nothing binds it: in the main term while no definition has it, or in
the value of a definition while no earlier one has it -/
def Unbound (p : Program) (x : Name) : Prop :=
  (p.main.Free x ∧ ∀ d ∈ p.definitions, d.name ≠ x) ∨
    ∃ before d after, p.definitions = before ++ d :: after ∧ d.value.Free x ∧
      ∀ e ∈ before, e.name ≠ x

variable {d : Definition} {ds : List Definition} {m : Term} {x : Name}

theorem unbound_nil : Unbound ⟨[], m⟩ x ↔ m.Free x := by
  constructor
  · rintro (⟨hm, -⟩ | ⟨before, d, after, h, -⟩)
    · exact hm
    · cases before <;> cases h
  · intro hm
    exact .inl ⟨hm, fun d hd => by cases hd⟩

theorem unbound_cons :
    Unbound ⟨d :: ds, m⟩ x ↔ (Unbound ⟨ds, m⟩ x ∧ x ≠ d.name) ∨ d.value.Free x := by
  constructor
  · rintro (⟨hm, hds⟩ | ⟨before, e, after, h, he, hb⟩)
    · obtain ⟨hd, hds⟩ := List.forall_mem_cons.mp hds
      exact .inl ⟨.inl ⟨hm, hds⟩, hd.symm⟩
    · cases before with
      | nil =>
        cases h
        exact .inr he
      | cons d' before =>
        cases h
        obtain ⟨hd, hb⟩ := List.forall_mem_cons.mp hb
        exact .inl ⟨.inr ⟨before, e, after, rfl, he, hb⟩, hd.symm⟩
  · rintro (⟨⟨hm, hds⟩ | ⟨before, e, after, rfl, he, hb⟩, hd⟩ | hd)
    · exact .inl ⟨hm, List.forall_mem_cons.mpr ⟨hd.symm, hds⟩⟩
    · exact .inr ⟨d :: before, e, after, rfl, he, List.forall_mem_cons.mpr ⟨hd.symm, hb⟩⟩
    · exact .inr ⟨[], d, ds, rfl, hd, fun e he => by cases he⟩

/-- a definition binds its name in all that follows it, its own value is outside -/
theorem free_unroll {p : Program} : p.unroll.Free x ↔ p.Unbound x := by
  obtain ⟨ds, m⟩ := p
  induction ds with
  | nil => exact unbound_nil.symm
  | cons d ds ih =>
    show (Term.app (.lam d.name (unroll ⟨ds, m⟩)) d.value).Free x ↔ _
    rw [Term.free_app, Term.free_lam, ih, unbound_cons]

end Program

/-! ## the list of unbound names -/

namespace Heap

theorem isLam_build (h : Heap) (t : Term) : (h.build t).1.isLam = t.isLam := by
  cases t <;> rfl

/-- the facts kept with new nodes for a term do not depend on the heap -/
theorem facts_build (h h' : Heap) (t : Term) : (h.build t).1.facts = (h'.build t).1.facts := by
  induction t generalizing h h' with
  | hole => rfl
  | var x => rfl
  | lam x b ih =>
    show Facts.ofLam x _ = Facts.ofLam x _
    rw [ih h h']
  | app f a ihf iha =>
    show Facts.ofApp _ _ _ = Facts.ofApp _ _ _
    rw [isLam_build, isLam_build, ihf h h', iha (h.build f).2 (h'.build f).2]

end Heap

namespace Evaluate

variable {fuel : Nat} {o : Options} {err : Bytes} {t : Node} {w : World} {out : Outcome}

theorem err_of_evaluateSteps (h : evaluateSteps fuel o err t w = some out) :
    out.exit = 0 ∧ out.err = err ∨ out.exit = 2 ∧ ∃ k, out.err = err ++ noNormalForm k := by
  obtain ⟨⟨lines, tr, w'⟩, -, rfl⟩ := Option.map_eq_some_iff.mp h
  dsimp only
  split
  · exact .inl ⟨rfl, rfl⟩
  · exact .inr ⟨rfl, tr.steps, rfl⟩

theorem err_of_evaluateDescent (h : evaluateDescent fuel o err t w = some out) :
    out.exit = 0 ∧ out.err = err := by
  obtain ⟨⟨u, r⟩, -, rfl⟩ := Option.map_eq_some_iff.mp h
  exact ⟨rfl, rfl⟩

/-- whatever comes of the evaluation, it says no more than the warnings and that it has given up -/
theorem err_of_evaluate {source : Bytes} {p : Program} {names : NameTable}
    (hp : Program.parse .empty source = (.ok p, names)) (h : evaluate fuel o source = some out) :
    out.exit = 0 ∧ out.err = warnings names (p.unbound .empty) ∨
      out.exit = 2 ∧ ∃ k, out.err = warnings names (p.unbound .empty) ++ noNormalForm k := by
  rw [evaluate, hp] at h
  dsimp only at h
  split at h
  · exact err_of_evaluateSteps h
  · exact .inl (err_of_evaluateDescent h)

end Evaluate

/-- **Unbound names are reported exactly, in the order of the source.**  For a source that is read
as a program from an empty table, the free names of its one term are the names that occur where
nothing binds them.  They are listed in the order in which their texts first appear among the names
of the source, whatever these stand for, except that `main` comes first.  The evaluator warns of each in
a line of its own, and says nothing else but that it has given up. -/
theorem Program.unbound_exact {source : Bytes} {p : Program} {names : NameTable}
    (h : Program.parse .empty source = (.ok p, names)) (heap : Heap) :
    let unbound := p.unbound heap
    let order := Bytes.ascii "main" :: Token.namesIn (Token.lexemes source)
    let warned := unbound.flatMap fun x =>
      Bytes.ascii "Warning: " ++ names.text x ++ Bytes.ascii " is never bound.\n"
    (∀ x, x ∈ unbound ↔ p.Unbound x) ∧
    (∀ x ∈ unbound, names.text x ∈ order) ∧
    unbound.Pairwise (fun x y => order.idxOf (names.text x) < order.idxOf (names.text y)) ∧
    ∀ fuel o out, Evaluate.evaluate fuel o source = some out →
      out.exit = 0 ∧ out.err = warned ∨
        out.exit = 2 ∧ ∃ k, out.err = warned ++ (Bytes.ascii "Error: no normal form after " ++
          Bytes.decimal k ++ Bytes.ascii " steps.\n") := by
  intro unbound order warned
  obtain ⟨⟨-, hnames⟩, -⟩ := Program.readable_parse h
  obtain ⟨S, hg, ht, hterm⟩ := (World.knows_empty ⟨names, heap⟩).build p.unroll
    fun x hx => (hnames x hx).1
  have hfacts := (hg.knows.sound _ ht).rightFacts
  obtain rfl : names = NameTable.empty.internAll order := Program.names_parse h
  have hmem : ∀ x ∈ unbound, x ∈ NameTable.empty.internAll order := fun x hx =>
    hg.knows.mem_of_occurs ht (Term.free_iff_occurs.mp ((hfacts.mem_free x).mp hx))
  refine ⟨?_, ?_, ?_, ?_⟩
  · intro x
    show x ∈ (heap.build p.unroll).1.free.toList ↔ _
    rw [hfacts.mem_free, hterm, Program.free_unroll]
  · intro x hx
    exact NameTable.text_mem_of_internAll (hmem x hx)
  · refine hfacts.free_increasing.imp_of_mem ?_
    intro x y hx hy hlt
    exact (NameTable.index_lt_iff (hmem x hx) (hmem y hy)).mp hlt
  · intro fuel o out he
    have hunbound : p.unbound .empty = unbound :=
      congrArg (fun k => k.free.toList) (Heap.facts_build .empty heap p.unroll)
    have herr := Evaluate.err_of_evaluate h he
    rw [hunbound] at herr
    exact herr

/-- a definition that uses its own name, a second one of that name, and `main` as a variable -/
theorem Program.unbound_exact_redefined :
    let source := Bytes.ascii "f := g f; f := f h; main f g"
    let p : Program := ⟨[⟨⟨1⟩, .app (.var ⟨2⟩) (.var ⟨1⟩)⟩, ⟨⟨1⟩, .app (.var ⟨1⟩) (.var ⟨3⟩)⟩],
      .app (.app (.var ⟨0⟩) (.var ⟨1⟩)) (.var ⟨2⟩)⟩
    (Program.parse .empty source).1 = .ok p ∧ p.unbound .empty = [⟨0⟩, ⟨1⟩, ⟨2⟩, ⟨3⟩] ∧
      (∀ x ∈ [(⟨0⟩ : Name), ⟨1⟩, ⟨2⟩, ⟨3⟩], p.Unbound x) ∧
      ∀ fuel o out, Evaluate.evaluate fuel o source = some out → out.exit = 0 →
        out.err = Bytes.ascii "Warning: main is never bound.\nWarning: f is never bound.\n" ++
          Bytes.ascii "Warning: g is never bound.\nWarning: h is never bound.\n" := by
  intro source p
  have hp : Program.parse .empty source = (.ok p, (Program.parse .empty source).2) :=
    Prod.ext (by decide +kernel) rfl
  have hfree : p.unbound .empty = [⟨0⟩, ⟨1⟩, ⟨2⟩, ⟨3⟩] := by decide +kernel
  obtain ⟨hmem, -, -, herr⟩ := Program.unbound_exact hp .empty
  refine ⟨congrArg Prod.fst hp, hfree, fun x hx => (hmem x).mp (hfree ▸ hx), ?_⟩
  intro fuel o out he hexit
  rcases herr fuel o out he with ⟨-, herr⟩ | ⟨htwo, -⟩
  · rw [herr]
    decide +kernel
  · rw [hexit] at htwo
    cases htwo

end NamedLambda
