import NamedLambda.Name.Set

/-!
# Terms

Terms of the untyped lambda calculus with names, as plain trees.  A hole is a term that was never
given a shape; no source has one.
-/

namespace NamedLambda

inductive Term where
  | hole
  | var (x : Name)
  | lam (x : Name) (body : Term)
  | app (fn arg : Term)
deriving DecidableEq, Repr, Inhabited

namespace Term

def isLam : Term → Bool
  | lam _ _ => true
  | _ => false

def isApp : Term → Bool
  | app _ _ => true
  | _ => false

end Term

end NamedLambda
