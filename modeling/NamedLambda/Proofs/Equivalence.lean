import NamedLambda.Node.Heap
import NamedLambda.Proofs.Nameless.Form
import Mathlib.Data.Set.Insert

/-!
# Equality up to bound names is equality of nameless forms

The comparison looks through one stack of pairs and stops at the first pair that has a name of either
side.  Two terms that pass it resolve to the same nameless form, each under its own side of the stack
(`Term.alphaEqWith_iff`); free names that correspond are an outermost layer of binders there.

The comparison of nodes first asks whether the two are one node.  Where an identity belongs to one
node only, this is a shortcut and no more (`Node.alphaEq_eq`), so the comparison is an equivalence
relation on nodes without holes.
-/

namespace NamedLambda

namespace Term

/-- the last correspondence is the innermost binder -/
theorem alphaEqWith_iff {pairs : List (Name × Name)} {s t : Term} (hs : s.HoleFree) :
    s.alphaEqWith pairs t = true ↔
      s.namelessUnder (pairs.map Prod.fst).reverse =
        t.namelessUnder (pairs.map Prod.snd).reverse := by
  unfold alphaEqWith
  rw [alphaUnder_iff, List.map_reverse, List.map_reverse]
  constructor
  · intro h
    exact h.2
  · intro h
    exact ⟨hs, h⟩

end Term

namespace Node

/-- whether no two nodes of a set have one identity -/
def Distinct (S : Set Node) : Prop := ∀ t ∈ S, ∀ u ∈ S, t.id = u.id → t = u

variable {S : Set Node} {s t u : Node}

/-- one node at two places has one nameless form, so that the shortcut changes nothing -/
theorem alphaEq_eq (hS : Distinct S) (hs : s ∈ S) (ht : t ∈ S) (hf : s.term.HoleFree) :
    s.alphaEq t = s.term.alphaEqWith [] t.term := by
  show (s.same t || s.term.alphaEq t.term) = s.term.alphaEq t.term
  cases hsame : s.same t with
  | false => rw [Bool.false_or]
  | true =>
    have hst : s = t := hS s hs t ht (beq_iff_eq.mp hsame)
    have he : s.term.alphaEq t.term = true := Term.alphaEq_iff.mpr ⟨hf, by rw [hst]⟩
    rw [he, Bool.true_or]

theorem alphaEq_iff (hS : Distinct S) (hs : s ∈ S) (ht : t ∈ S) (hf : s.term.HoleFree) :
    s.alphaEq t = true ↔ s.term.nameless = t.term.nameless := by
  rw [alphaEq_eq hS hs ht hf]
  exact Term.alphaEqWith_iff hf

/-- **The comparison decides equality up to bound names.**  For nodes without holes, shared in any
way, the comparison with correspondences answers whether the nameless forms under the two sides of the
list are equal.  The comparison without a list gives the answer for the empty list, and is reflexive,
symmetric and transitive. -/
theorem alphaEq_decides (hS : Distinct S) (hf : ∀ t ∈ S, t.term.HoleFree) :
    (∀ l ∈ S, ∀ r ∈ S, ∀ pairs : List (Name × Name),
      l.term.alphaEqWith pairs r.term = true ↔
        l.term.namelessUnder (pairs.map Prod.fst).reverse =
          r.term.namelessUnder (pairs.map Prod.snd).reverse) ∧
    (∀ l ∈ S, ∀ r ∈ S, l.alphaEq r = l.term.alphaEqWith [] r.term) ∧
    Equivalence fun l r : S => l.1.alphaEq r.1 = true := by
  have key : ∀ l r : S, l.1.alphaEq r.1 = true ↔ l.1.term.nameless = r.1.term.nameless := by
    intro l r
    exact alphaEq_iff hS l.2 r.2 (hf l.1 l.2)
  refine ⟨?_, ?_, ?_, ?_, ?_⟩
  · intro l hl r _ pairs
    exact Term.alphaEqWith_iff (hf l hl)
  · intro l hl r hr
    exact alphaEq_eq hS hl hr (hf l hl)
  · intro l
    exact (key l l).mpr rfl
  · intro l r h
    exact (key r l).mpr ((key l r).mp h).symm
  · intro l m r h h'
    exact (key l r).mpr (((key l m).mp h).trans ((key m r).mp h'))

/-- `fn x => u x` and `fn u => v u` with `u` for `v`, and with a second pair for `u` that hides the
first -/
theorem alphaEq_decides_hidden :
    let l := Heap.empty.build (.lam ⟨0⟩ (.app (.var ⟨1⟩) (.var ⟨0⟩)))
    let r := l.2.build (.lam ⟨1⟩ (.app (.var ⟨2⟩) (.var ⟨1⟩)))
    l.1.term.alphaEqWith [(⟨1⟩, ⟨2⟩)] r.1.term = true ∧
      ¬ l.1.term.alphaEqWith [(⟨1⟩, ⟨2⟩), (⟨1⟩, ⟨3⟩)] r.1.term = true ∧
        l.1.alphaEq r.1 = l.1.term.alphaEqWith [] r.1.term ∧ l.1.alphaEq l.1 = true := by
  intro l r
  have hS : Distinct {l.1, r.1} := by
    rintro t (rfl | rfl) u (rfl | rfl) h
    · rfl
    · exact absurd h (by decide)
    · exact absurd h (by decide)
    · rfl
  have hf : ∀ t ∈ ({l.1, r.1} : Set Node), t.term.HoleFree := by
    rintro t (rfl | rfl)
    · exact ⟨trivial, trivial⟩
    · exact ⟨trivial, trivial⟩
  have hl : l.1 ∈ ({l.1, r.1} : Set Node) := .inl rfl
  have hr : r.1 ∈ ({l.1, r.1} : Set Node) := .inr rfl
  obtain ⟨hwith, heq, hequiv⟩ := alphaEq_decides hS hf
  refine ⟨?_, ?_, heq l.1 hl r.1 hr, hequiv.refl ⟨l.1, hl⟩⟩
  · rw [hwith l.1 hl r.1 hr]
    decide
  · rw [hwith l.1 hl r.1 hr]
    decide

end Node

end NamedLambda
