import NamedLambda.Proofs.Nameless.Normalise
import NamedLambda.Proofs.Substitution
import NamedLambda.Reduction.Step

/-!
# Single steps contract the leftmost redex

On nameless forms, a step on nodes is the contraction of the leftmost of the outermost redexes, and
steps repeated until there is none left are a chain of such contractions, counted by the run.
`Run.Reaches` says this of any kind of reduction: the run got from one known node to another, in as
many counted steps as the nameless forms are apart.
-/

namespace NamedLambda

namespace Run

/-- the run `r` came from the node `t` to the node and run `q`, and `R` relates the nameless forms by
the number of steps counted -/
def Reaches (R : Nameless → Nat → Nameless → Prop) (r : Run) (S : Set Node) (t : Node)
    (q : Node × Run) : Prop :=
  ∃ S' k, r.world.Grows S q.2.world S' ∧ q.1 ∈ S' ∧ q.2.steps = r.steps + k ∧
    R t.nameless k q.1.nameless

/-- `StepsTo t r q`: repeated single steps from `t` end, with no step left, in `q` -/
inductive StepsTo : Node → Run → Node × Run → Prop where
  | stop {t : Node} {r : Run} {q : Node × Run} (h : r.step t = (false, q)) : StepsTo t r q
  | step {t u : Node} {r r' : Run} {q : Node × Run} (h : r.step t = (true, u, r'))
    (hq : StepsTo u r' q) : StepsTo t r q

variable {r : Run} {S : Set Node}

/-! ## one contraction -/

theorem contract_app_of_not_lam {i : Nat} {k : Facts} {f a : Node} (hf : f.isLam = false) :
    contract (.app i k f a) r =
      if f.normal then
        ((contract a r).2.hold f).app f (contract a r).1
      else ((contract f r).2.hold a).app (contract f r).1 a := by
  cases f with
  | lam j l x b => cases hf
  | hole j => rfl
  | var j x => rfl
  | app j l g c => rfl

/-- the argument of a redex goes in for the bound variable -/
theorem substitute_body_spec {i : Nat} {k : Facts} {x : Name} {b a : Node} (hw : r.world.Knows S)
    (hf : .lam i k x b ∈ S) (ha : a ∈ S) :
    ∃ u r' S', r.substitute b x a = (u, r') ∧ r.world.Grows S r'.world S' ∧ r'.steps = r.steps ∧
      u ∈ S' ∧ u.nameless = .instantiate a.nameless (b.nameless.close x) := by
  have hb : b ∈ S := hw.body_mem hf
  have hx : x ∈ r.names := hw.binder_mem hf
  obtain ⟨u, r', S', hu, -, hg, hs, hm, he⟩ := substitute_spec hw hx ha hb
  exact ⟨u, r', S', hu, hg, hs, hm, he.trans (Nameless.instantiate_close _ _ _).symm⟩

theorem contract_spec {t : Node} (hw : r.world.Knows S) (ht : t ∈ S) :
    ∃ S', r.world.Grows S (contract t r).2.world S' ∧ (contract t r).2.steps = r.steps ∧
      (contract t r).1 ∈ S' ∧ (contract t r).1.nameless = t.nameless.leftmost := by
  induction t generalizing r S with
  | hole i => exact ⟨S, grows_hold hw _, rfl, ht, rfl⟩
  | var i x => exact ⟨S, grows_hold hw _, rfl, ht, rfl⟩
  | lam i k x b ih =>
    have hb : b ∈ S := hw.body_mem ht
    have hx : x ∈ r.names := hw.binder_mem ht
    obtain ⟨S₁, hg, hs, hm, he⟩ := ih hw hb
    obtain ⟨u, r₂, hu, hgu, hsu, heu⟩ := lam_spec hg.knows hm (NameTable.mem_of_le hg.names hx)
    have hc : contract (.lam i k x b) r = (u, r₂) := hu
    rw [hc]
    refine ⟨_, hg.trans hgu, hsu.trans hs, .inl rfl, ?_⟩
    rw [heu, he, Node.nameless_lam, Nameless.leftmost, Nameless.close, Nameless.close,
      Nameless.leftmost_rename]
  | app i k f a ihf iha =>
    obtain ⟨rfl, hsf, hsa⟩ := hw.sound _ ht
    have hf : f ∈ S := hw.fn_mem ht
    have ha : a ∈ S := hw.arg_mem ht
    by_cases hl : f.isLam = true
    · obtain ⟨j, l, x, b, rfl⟩ := Node.exists_of_isLam hl
      obtain ⟨u, r', S', hu, hg, hs, hm, he⟩ := substitute_body_spec hw hf ha
      rw [contract, hu]
      refine ⟨S', hg, hs, hm, ?_⟩
      rw [he, Node.nameless_app, Node.nameless_lam, Nameless.leftmost]
    · have hl' : f.isLam = false := Bool.eq_false_iff.mpr hl
      have hn : f.nameless.isLam = false := (Node.isLam_nameless f).trans hl'
      rw [contract_app_of_not_lam hl', Node.nameless_app, Nameless.leftmost_app _ hn,
        ← Node.normal_eq hsf]
      split
      · obtain ⟨S₁, hg, hs, hm, he⟩ := iha hw ha
        have hh := grows_hold hg.knows f
        obtain ⟨u, r₂, hu, hgu, hsu, heu⟩ := app_spec hh.knows (hg.subset hf) hm
        rw [hu]
        exact ⟨_, (hg.trans hh).trans hgu, hsu.trans hs, .inl rfl, by rw [heu, he]⟩
      · obtain ⟨S₁, hg, hs, hm, he⟩ := ihf hw hf
        have hh := grows_hold hg.knows a
        obtain ⟨u, r₂, hu, hgu, hsu, heu⟩ := app_spec hh.knows hm (hg.subset ha)
        rw [hu]
        exact ⟨_, (hg.trans hh).trans hgu, hsu.trans hs, .inl rfl, by rw [heu, he]⟩

/-! ## steps -/

theorem step_of_normal {t : Node} (h : t.normal = true) : r.step t = (false, t, r) := by
  rw [step, if_pos h]

theorem normal_of_step {t : Node} {b : Bool} {q : Node × Run} (h : r.step t = (b, q)) :
    t.normal = !b := by
  unfold step at h
  split at h
  · next hn =>
    cases h
    exact hn
  · next hn =>
    cases h
    exact Bool.eq_false_iff.mpr hn

theorem step_of_not_normal {t : Node} (hw : r.world.Knows S) (ht : t ∈ S) (h : t.normal = false) :
    ∃ u r' S', r.step t = (true, u, r') ∧ r.world.Grows S r'.world S' ∧ u ∈ S' ∧
      r'.steps = r.steps + 1 ∧ t.nameless.Leftmost u.nameless := by
  obtain ⟨S', hg, hs, hm, he⟩ := contract_spec hw ht
  have hr := grows_release hg.knows t
  have hn : t.nameless.normal = false := (Node.normal_eq (hw.sound t ht)).symm.trans h
  refine ⟨(contract t r).1, ((contract t r).2.release t).tick, S', ?_, ?_, hm,
    congrArg (· + 1) hs, hn, he.symm⟩
  · rw [step, if_neg (by rw [h]; decide)]
  · exact hg.trans (hr.trans (hr.knows.grows (le_refl _) rfl))

theorem StepsTo.reaches {t : Node} {q : Node × Run} (h : StepsTo t r q) (hw : r.world.Knows S)
    (ht : t ∈ S) :
    Reaches (fun t k u => Nameless.Chain Nameless.Leftmost k t u) r S t q ∧ q.1.normal = true := by
  induction h generalizing S with
  | @stop t r q h =>
    have hn : t.normal = true := normal_of_step h
    rw [step_of_normal hn] at h
    cases h
    exact ⟨⟨S, 0, hw.refl, ht, rfl, .refl _⟩, hn⟩
  | @step t u r r' q h _ ih =>
    have hn : t.normal = false := normal_of_step h
    obtain ⟨_, _, S₁, hu, hg, hm, hs, hl⟩ := step_of_not_normal hw ht hn
    rw [h] at hu
    cases hu
    obtain ⟨⟨S₂, k, hg₂, hm₂, hs₂, hc⟩, hq⟩ := ih hg.knows hm
    exact ⟨⟨S₂, k + 1, hg.trans hg₂, hm₂, by omega, .step hl hc⟩, hq⟩

theorem exists_stepsTo {t : Node} {k : Nat} {n : Nameless} (hw : r.world.Knows S) (ht : t ∈ S)
    (h : Nameless.Chain Nameless.Leftmost k t.nameless n) (hn : n.normal = true) :
    ∃ q, StepsTo t r q := by
  generalize he : t.nameless = t' at h
  induction h generalizing t r S with
  | refl t' =>
    rw [← he, ← Node.normal_eq (hw.sound t ht)] at hn
    exact ⟨_, .stop (step_of_normal hn)⟩
  | step hl _ ih =>
    rw [← he] at hl
    have hnt : t.normal = false := (Node.normal_eq (hw.sound t ht)).trans hl.1
    obtain ⟨u, r', S', hu, hg, hm, -, hl'⟩ := step_of_not_normal hw ht hnt
    obtain ⟨q, hq⟩ := ih hg.knows hm hn (hl'.2.symm.trans hl.2)
    exact ⟨q, .step hu hq⟩

end Run

end NamedLambda
