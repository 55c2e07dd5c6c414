import NamedLambda.Term.Basic

/-!
# Equality up to the names of bound variables

The binders passed on the way down are kept as pairs, one name from each side, the innermost first.
Two variables match if the first pair that has either of them has both, or if none has and the names
are equal.  A list of correspondences between free names acts as an outermost layer of binders.
-/

namespace NamedLambda

/-- pairs of names that stand for each other, the innermost first -/
abbrev Binders := List (Name × Name)

/-- whether two variables match under the binders -/
def Binders.relates (x y : Name) : Binders → Bool
  | [] => x == y
  | (u, v) :: rest => if u == x || v == y then u == x && v == y else Binders.relates x y rest

namespace Term

/-- equality up to bound names, under binders passed already; a hole equals nothing -/
def alphaUnder : Binders → Term → Term → Bool
  | bs, var x, var y => bs.relates x y
  | bs, lam x s, lam y t => alphaUnder ((x, y) :: bs) s t
  | bs, app f a, app g b => alphaUnder bs f g && alphaUnder bs a b
  | _, _, _ => false

/-- equality up to bound names, where the `free` names of the two sides correspond as listed, the last
pair counting first -/
def alphaEqWith (free : List (Name × Name)) (s t : Term) : Bool :=
  alphaUnder free.reverse s t

def alphaEq (s t : Term) : Bool :=
  alphaUnder [] s t

end Term

end NamedLambda
