import NamedLambda.Term.Basic

/-!
# What stands in a term

The names and the parts of a term, and two properties that are said of all its parts: that none lacks
a shape, and that none is a redex.
-/

namespace NamedLambda

namespace Term

/-- the names in a term, as variable or binder, from left to right -/
def names : Term → List Name
  | hole => []
  | var x => [x]
  | lam x b => x :: b.names
  | app f a => f.names ++ a.names

/-- a term and all its parts, each before its own parts and a function before its argument -/
def subterms : Term → List Term
  | hole => [hole]
  | var x => [var x]
  | lam x b => lam x b :: b.subterms
  | app f a => app f a :: (f.subterms ++ a.subterms)

/-- whether no part of the term lacks a shape -/
def HoleFree : Term → Prop
  | hole => False
  | var _ => True
  | lam _ b => b.HoleFree
  | app f a => f.HoleFree ∧ a.HoleFree

def isRedex : Term → Bool
  | app f _ => f.isLam
  | _ => false

def Normal (t : Term) : Prop := ∀ u ∈ t.subterms, u.isRedex = false

theorem normal_lam {x : Name} {b : Term} : (lam x b).Normal ↔ b.Normal := by
  simp [Normal, subterms, isRedex]

theorem normal_app {f a : Term} : (app f a).Normal ↔ f.isLam = false ∧ f.Normal ∧ a.Normal := by
  simp only [Normal, subterms, List.forall_mem_cons, List.forall_mem_append, isRedex]

end Term

end NamedLambda
