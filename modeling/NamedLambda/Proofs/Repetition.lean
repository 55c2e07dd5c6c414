import NamedLambda.Proofs.Nameless.Alike
import NamedLambda.Proofs.Step

/-!
# Steps asked for again and again

`Run.after k t r` is where a run stands once `k` steps have been asked for, and `Run.answers k t r` is
what they answered.  A term in normal form answers `false` and stays, so on nameless forms the node
after `k` requests is the `k`-th iterate of `leftmost` (`after_spec`), each answer says whether the
iterate it was given had a redex (`answers_eq`), and the run counts the answers that were `true`
(`steps_after`).

So nothing in a run but the nameless form it starts from has a say in its answers, its count or its
terms up to bound names: two runs with tables, heaps and fresh names of their own, on terms that are
alike, stay in step (`Run.answers_eq_and_alike`).
-/

namespace NamedLambda

namespace Run

def after : Nat → Node → Run → Node × Run
  | 0, t, r => (t, r)
  | k + 1, t, r => after k (r.step t).2.1 (r.step t).2.2

def answers : Nat → Node → Run → List Bool
  | 0, _, _ => []
  | k + 1, t, r => (r.step t).1 :: answers k (r.step t).2.1 (r.step t).2.2

variable {r r' : Run} {S S' : Set Node} {t t' : Node}

/-! ## one run -/

/-- what one request gives, with or without a redex -/
theorem step_spec (hw : r.world.Knows S) (ht : t ∈ S) :
    ∃ T, r.world.Grows S (r.step t).2.2.world T ∧ (r.step t).2.1 ∈ T ∧
      (r.step t).1 = !t.nameless.normal ∧ (r.step t).2.1.nameless = t.nameless.leftmost ∧
        (r.step t).2.2.steps = r.steps + (r.step t).1.toNat := by
  have hn : t.normal = t.nameless.normal := Node.normal_eq (hw.sound t ht)
  cases h : t.normal with
  | true =>
    rw [h] at hn
    rw [step_of_normal h, ← hn]
    exact ⟨S, hw.refl, ht, rfl, (Nameless.leftmost_of_normal hn.symm).symm, rfl⟩
  | false =>
    obtain ⟨u, q, T, hu, hg, hm, hs, hl, he⟩ := step_of_not_normal hw ht h
    rw [hu, hl]
    exact ⟨T, hg, hm, rfl, he.symm, hs⟩

theorem after_spec (k : Nat) (hw : r.world.Knows S) (ht : t ∈ S) :
    ∃ T, r.world.Grows S (after k t r).2.world T ∧ (after k t r).1 ∈ T ∧
      (after k t r).1.nameless = Nameless.leftmost^[k] t.nameless := by
  induction k generalizing r S t with
  | zero => exact ⟨S, hw.refl, ht, rfl⟩
  | succ k ih =>
    obtain ⟨T, hg, hm, -, he, -⟩ := step_spec hw ht
    obtain ⟨T', hg', hm', he'⟩ := ih hg.knows hm
    refine ⟨T', hg.trans hg', hm', ?_⟩
    rw [Function.iterate_succ_apply, ← he]
    exact he'

theorem answers_eq (k : Nat) (hw : r.world.Knows S) (ht : t ∈ S) :
    answers k t r = (List.range k).map fun i => !(Nameless.leftmost^[i] t.nameless).normal := by
  induction k generalizing r S t with
  | zero => rfl
  | succ k ih =>
    obtain ⟨T, hg, hm, ha, he, -⟩ := step_spec hw ht
    rw [answers, ih hg.knows hm, ha, he, List.range_succ_eq_map, List.map_cons, List.map_map]
    rfl

theorem steps_after (k : Nat) (hw : r.world.Knows S) (ht : t ∈ S) :
    (after k t r).2.steps = r.steps + (answers k t r).count true := by
  induction k generalizing r S t with
  | zero => rfl
  | succ k ih =>
    obtain ⟨T, hg, hm, -, -, hs⟩ := step_spec hw ht
    rw [after, ih hg.knows hm, hs, answers]
    cases (r.step t).1 with
    | true =>
      rw [List.count_cons_self, Bool.toNat_true]
      omega
    | false =>
      rw [List.count_cons_of_ne (by decide), Bool.toNat_false]
      omega

/-- without a redex left, requests change nothing -/
theorem after_of_normal (h : t.normal = true) (k : Nat) : after k t r = (t, r) := by
  induction k with
  | zero => rfl
  | succ k ih =>
    rw [after, step_of_normal h]
    exact ih

theorem fst_step (h : t.normal = false) : (r.step t).1 = true := by
  have hd := normal_of_step (r := r) (t := t) Prod.mk.eta.symm
  rw [h] at hd
  cases hs : (r.step t).1 with
  | true => rfl
  | false =>
    rw [hs] at hd
    cases hd

/-- to stop at the normal form is to ask on and get no more steps -/
theorem stepUpTo_eq_after (n : Nat) (t : Node) (r : Run) : stepUpTo n t r = after n t r := by
  induction n generalizing t r with
  | zero => rfl
  | succ n ih =>
    cases h : t.normal with
    | true =>
      rw [stepUpTo, after_of_normal h, step_of_normal h]
    | false =>
      have hd : (r.step t).1 = true := fst_step h
      rcases hs : r.step t with ⟨did, u, r'⟩
      rw [hs] at hd
      cases hd
      rw [stepUpTo, after, hs]
      exact ih u r'

/-! ## two runs -/

theorem answers_congr (k : Nat) (hw : r.world.Knows S) (hw' : r'.world.Knows S') (ht : t ∈ S)
    (ht' : t' ∈ S') (h : Nameless.Alike r.names r'.names t.nameless t'.nameless) :
    answers k t r = answers k t' r' := by
  rw [answers_eq k hw ht, answers_eq k hw' ht']
  apply List.map_congr_left
  intro i _
  rw [(h.iterate i).normal_eq]

theorem alphaEqAcross_after (k : Nat) (hw : r.world.Knows S) (hw' : r'.world.Knows S') (ht : t ∈ S)
    (ht' : t' ∈ S') (h : Term.AlphaEqAcross r.names r'.names t.term t'.term) :
    Term.AlphaEqAcross (after k t r).2.names (after k t' r').2.names
      (after k t r).1.term (after k t' r').1.term := by
  obtain ⟨T, hg, -, he⟩ := after_spec k hw ht
  obtain ⟨T', hg', -, he'⟩ := after_spec k hw' ht'
  show Nameless.Alike _ _ (after k t r).1.nameless (after k t' r').1.nameless
  rw [he, he']
  exact (Nameless.Alike.iterate h k).mono hg.names hg'.names

/-- **Reduction does not depend on names, sharing or the supply of fresh names.**  Two runs that start
from terms equal up to bound names, free names compared by their texts, give the same answers and
count the same steps, and their terms are equal in that way after every request.  With the same table
for both, the comparison of terms says so. -/
theorem answers_eq_and_alike (k : Nat) (hw : r.world.Knows S) (hw' : r'.world.Knows S')
    (ht : t ∈ S) (ht' : t' ∈ S') (h : Term.AlphaEqAcross r.names r'.names t.term t'.term) :
    answers k t r = answers k t' r' ∧
      (∃ n, (after k t r).2.steps = r.steps + n ∧ (after k t' r').2.steps = r'.steps + n) ∧
      Term.AlphaEqAcross (after k t r).2.names (after k t' r').2.names
        (after k t r).1.term (after k t' r').1.term ∧
      ((after k t r).2.names = (after k t' r').2.names →
        (after k t r).1.term.alphaEq (after k t' r').1.term = true) := by
  have ha : answers k t r = answers k t' r' := answers_congr k hw hw' ht ht' h
  have hs := steps_after k hw ht
  have hs' := steps_after k hw' ht'
  rw [← ha] at hs'
  have he := alphaEqAcross_after k hw hw' ht ht' h
  refine ⟨ha, ⟨_, hs, hs'⟩, he, ?_⟩
  intro hn
  rw [← hn] at he
  obtain ⟨T, hg, hm, -⟩ := after_spec k hw ht
  exact (Term.alphaEqAcross_self_iff fun x hx => hg.knows.mem_of_occurs hm hx).mp he

/-- `(fn x => fn y => x) y` and `(fn a => fn b => a) y`, of which only the first has to rename a
binder -/
theorem answers_eq_and_alike_renames :
    let t := Heap.empty.build (.app (.lam ⟨0⟩ (.lam ⟨1⟩ (.var ⟨0⟩))) (.var ⟨1⟩))
    let t' := Heap.empty.build (.app (.lam ⟨1⟩ (.lam ⟨2⟩ (.var ⟨1⟩))) (.var ⟨0⟩))
    let r : Run := ⟨.internAll .empty [[120], [121]], t.2, .new, 0⟩
    let r' : Run := ⟨.internAll .empty [[121], [97], [98]], t'.2, .new, 5⟩
    answers 2 t.1 r = [true, false] ∧ answers 2 t.1 r = answers 2 t'.1 r' ∧
      (∃ n, (after 2 t.1 r).2.steps = 0 + n ∧ (after 2 t'.1 r').2.steps = 5 + n) ∧
        Term.AlphaEqAcross (after 2 t.1 r).2.names (after 2 t'.1 r').2.names
          (after 2 t.1 r).1.term (after 2 t'.1 r').1.term := by
  intro t t' r r'
  obtain ⟨S, hk, hm, he⟩ := World.exists_knows_build r.names
    (.app (.lam ⟨0⟩ (.lam ⟨1⟩ (.var ⟨0⟩))) (.var ⟨1⟩)) (by decide)
  obtain ⟨S', hk', hm', he'⟩ := World.exists_knows_build r'.names
    (.app (.lam ⟨1⟩ (.lam ⟨2⟩ (.var ⟨1⟩))) (.var ⟨0⟩)) (by decide)
  have ha : Term.AlphaEqAcross r.names r'.names t.1.term t'.1.term := by
    rw [he, he']
    exact .app (.lam (.lam (.var (.bound 1)))) (.var (.free (w := [121]) (by decide) (by decide)))
  have hr : r.world.Knows S := hk
  have hr' : r'.world.Knows S' := hk'
  have ht : t.1 ∈ S := hm
  have ht' : t'.1 ∈ S' := hm'
  obtain ⟨hans, hst, hal, -⟩ := answers_eq_and_alike 2 hr hr' ht ht' ha
  refine ⟨?_, hans, hst, hal⟩
  rw [answers_eq 2 hr ht, Node.nameless, he]
  decide

end Run

end NamedLambda
