import NamedLambda.Program
import NamedLambda.Proofs.Repetition

/-!
# Definitions are bindings in sequence

A list of definitions gives an environment, a choice of a term for every variable: each definition in
turn puts its value, as the environment so far has it, for its name.  The term of a whole program is a
nest of redexes, one for each definition, and a step on it contracts the outermost.  The value then
goes under the binders of all later definitions, which may bind the same name again or a name that is
free in the value.  On nameless forms this is the change of the environment by one definition
(`leftmost_unroll`), so once every definition has had its step, what is left is the main term with all
variables replaced at once (`Run.after_unroll`).
-/

namespace NamedLambda

namespace Definition

def extend (σ : Var → Nameless) (d : Definition) : Var → Nameless :=
  Function.update σ (.free d.name) (d.value.nameless.bind σ)

def environment (ds : List Definition) : Var → Nameless := ds.foldl extend Nameless.var

variable {ds es : List Definition} {d : Definition} {σ : Var → Nameless}

theorem foldl_extend_of_ne {v : Var} (h : ∀ e ∈ es, v ≠ .free e.name) :
    es.foldl extend σ v = σ v := by
  induction es generalizing σ with
  | nil => rfl
  | cons e es ih =>
    rw [List.foldl_cons, ih fun e' he => h e' (List.mem_cons_of_mem e he)]
    exact Function.update_of_ne (h e List.mem_cons_self) _ _

/-- a name has the value of its last definition, which sees the definitions before it only -/
theorem environment_last (h : ∀ e ∈ es, e.name ≠ d.name) :
    environment (ds ++ d :: es) (.free d.name) = d.value.nameless.bind (environment ds) := by
  have hes : ∀ e ∈ es, Var.free d.name ≠ .free e.name := by
    intro e he hd
    exact h e he (Var.free.inj hd).symm
  rw [environment, List.foldl_append, List.foldl_cons, foldl_extend_of_ne hes]
  exact Function.update_self _ _ _

theorem environment_of_undefined {x : Name} (h : ∀ d ∈ ds, d.name ≠ x) :
    environment ds (.free x) = .var (.free x) := by
  apply foldl_extend_of_ne
  intro d hd hx
  exact h d hd (Var.free.inj hx).symm

theorem holeFree_extend (hσ : ∀ v, (σ v).HoleFree) (hd : d.value.HoleFree) (v : Var) :
    (extend σ d v).HoleFree := by
  by_cases hv : v = .free d.name
  · rw [hv, extend, Function.update_self]
    exact (Term.holeFree_nameless.mpr hd).bind hσ
  · rw [extend, Function.update_of_ne hv]
    exact hσ v

theorem holeFree_foldl_extend (hσ : ∀ v, (σ v).HoleFree) (h : ∀ d ∈ ds, d.value.HoleFree) (v : Var) :
    (ds.foldl extend σ v).HoleFree := by
  induction ds generalizing σ with
  | nil => exact hσ v
  | cons d ds ih =>
    apply ih
    · exact holeFree_extend hσ (h d List.mem_cons_self)
    · intro e he
      exact h e (List.mem_cons_of_mem d he)

end Definition

/-! ## contraction of one definition -/

namespace Nameless

/-- an argument put under a binder that an environment has gone under is one more entry of it -/
theorem instantiate_bind_close (σ : Var → Nameless) (x : Name) (a t : Nameless) :
    instantiate a ((t.close x).bind (up σ)) = t.bind (Function.update σ (.free x) a) := by
  rw [instantiate, close, bind_rename, bind_bind]
  congr 1
  funext v
  by_cases hv : v = .free x
  · rw [hv, Function.comp, closing_self, Function.update_self]
    rfl
  · rw [Function.comp, closing_of_ne hv, up_shift, Function.update_of_ne hv]
    exact instantiate_lift a (σ v)

end Nameless

namespace Program

open Definition Nameless

variable (ds : List Definition) (d : Definition) (m : Term) (σ : Var → Nameless)

theorem nameless_unroll_cons :
    (unroll ⟨d :: ds, m⟩).nameless =
      .app (.lam ((unroll ⟨ds, m⟩).nameless.close d.name)) d.value.nameless := by
  show (Term.app (.lam d.name (unroll ⟨ds, m⟩)) d.value).nameless = _
  rw [Term.nameless_app, Term.nameless_lam]

theorem leftmost_unroll :
    ((unroll ⟨d :: ds, m⟩).nameless.bind σ).leftmost =
      (unroll ⟨ds, m⟩).nameless.bind (extend σ d) := by
  rw [nameless_unroll_cons]
  exact instantiate_bind_close σ d.name (d.value.nameless.bind σ) _

theorem normal_unroll_cons : ((unroll ⟨d :: ds, m⟩).nameless.bind σ).normal = false := by
  rw [nameless_unroll_cons]
  rfl

theorem iterate_unroll :
    leftmost^[ds.length] ((unroll ⟨ds, m⟩).nameless.bind σ) =
      m.nameless.bind (ds.foldl extend σ) := by
  induction ds generalizing σ with
  | nil => rfl
  | cons d ds ih =>
    rw [List.length_cons, Function.iterate_succ_apply, leftmost_unroll, ih]
    rfl

/-- as long as there are definitions left, there is a redex -/
theorem normal_iterate_unroll {i : Nat} (hi : i < ds.length) :
    (leftmost^[i] ((unroll ⟨ds, m⟩).nameless.bind σ)).normal = false := by
  induction ds generalizing σ i with
  | nil => exact absurd hi (Nat.not_lt_zero i)
  | cons d ds ih =>
    cases i with
    | zero => exact normal_unroll_cons ds d m σ
    | succ i =>
      rw [Function.iterate_succ_apply, leftmost_unroll]
      exact ih _ (Nat.lt_of_succ_lt_succ hi)

end Program

/-! ## the steps of a program -/

namespace Run

open Definition

variable {r : Run} {S : Set Node} {t : Node} {p : Program}

theorem answers_unroll (hw : r.world.Knows S) (ht : t ∈ S) (hp : t.term = p.unroll) :
    answers p.definitions.length t r = List.replicate p.definitions.length true := by
  rw [answers_eq _ hw ht, List.eq_replicate_iff]
  refine ⟨by simp, ?_⟩
  intro b hb
  obtain ⟨i, hi, rfl⟩ := List.mem_map.mp hb
  have h := Program.normal_iterate_unroll p.definitions p.main Nameless.var (List.mem_range.mp hi)
  rw [Nameless.bind_var] at h
  rw [Node.nameless, hp, h]
  rfl

theorem nameless_after_unroll (hw : r.world.Knows S) (ht : t ∈ S) (hp : t.term = p.unroll) :
    (after p.definitions.length t r).1.nameless =
      p.main.nameless.bind (environment p.definitions) := by
  obtain ⟨T, -, -, he⟩ := after_spec p.definitions.length hw ht
  have h := Program.iterate_unroll p.definitions p.main Nameless.var
  rw [Nameless.bind_var] at h
  rw [he, Node.nameless, hp]
  exact h

/-- **Definitions are bindings in sequence.**  The term of a program takes a step for each definition,
and is then the main term under the environment of the definitions.  There a name has the value of
its last definition, taken under the definitions before that one, and a name without a definition
stands for itself. -/
theorem after_unroll (hw : r.world.Knows S) (ht : t ∈ S) (hp : t.term = p.unroll)
    (hd : ∀ d ∈ p.definitions, d.value.HoleFree) (hm : p.main.HoleFree) :
    answers p.definitions.length t r = List.replicate p.definitions.length true ∧
      (after p.definitions.length t r).1.nameless =
        p.main.nameless.bind (environment p.definitions) ∧
      (∀ n : Term, n.nameless = p.main.nameless.bind (environment p.definitions) →
        (after p.definitions.length t r).1.term.alphaEq n = true) ∧
      (∀ ds d es, p.definitions = ds ++ d :: es → (∀ e ∈ es, e.name ≠ d.name) →
        environment p.definitions (.free d.name) = d.value.nameless.bind (environment ds)) ∧
      ∀ x, (∀ d ∈ p.definitions, d.name ≠ x) →
        environment p.definitions (.free x) = .var (.free x) := by
  have he := nameless_after_unroll hw ht hp
  refine ⟨answers_unroll hw ht hp, he, ?_, ?_, fun x hx => environment_of_undefined hx⟩
  · intro n hn
    have hf : (after p.definitions.length t r).1.nameless.HoleFree := by
      rw [he]
      apply (Term.holeFree_nameless.mpr hm).bind
      exact holeFree_foldl_extend (fun _ => trivial) hd
    exact Term.alphaEq_iff.mpr ⟨Term.holeFree_nameless.mp hf, he.trans hn.symm⟩
  · intro ds d es hds hes
    rw [hds]
    exact environment_last hes

/-- `a := y; y := a a; a := fn a => y; main := a y`, where the value `y` goes under a binder `y` and
`a` is defined twice -/
def shadowing : Program :=
  ⟨[⟨⟨0⟩, .var ⟨1⟩⟩, ⟨⟨1⟩, .app (.var ⟨0⟩) (.var ⟨0⟩)⟩, ⟨⟨0⟩, .lam ⟨0⟩ (.var ⟨1⟩)⟩],
    .app (.var ⟨0⟩) (.var ⟨1⟩)⟩

theorem after_unroll_shadowing :
    let t := Heap.empty.build shadowing.unroll
    let r : Run := ⟨.internAll .empty [[97], [121]], t.2, .new, 0⟩
    answers 3 t.1 r = [true, true, true] ∧
      (after 3 t.1 r).1.term.alphaEq
        (.app (.lam ⟨0⟩ (.app (.var ⟨1⟩) (.var ⟨1⟩))) (.app (.var ⟨1⟩) (.var ⟨1⟩))) = true := by
  intro t r
  obtain ⟨S, hk, ht, he⟩ := World.exists_knows_build r.names shadowing.unroll (by decide)
  have hd : ∀ d ∈ shadowing.definitions, d.value.HoleFree := by
    simp [shadowing, Term.HoleFree]
  have h := after_unroll (r := r) (p := shadowing) hk ht he hd ⟨trivial, trivial⟩
  exact ⟨h.1, h.2.2.1 _ (by decide)⟩

end Run

end NamedLambda
