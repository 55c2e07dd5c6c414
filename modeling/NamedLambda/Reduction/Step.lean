import NamedLambda.Reduction.Substitution

/-!
# Single steps

One step contracts the leftmost of the outermost redexes.  Parts in normal form are passed over
without being looked into.
-/

namespace NamedLambda

namespace Run

/-- the node after one step in it; a node in normal form stays -/
def contract : Node → Run → Node × Run
  | .hole i, r => r.share (.hole i)
  | .var i x, r => r.share (.var i x)
  | .lam _ _ x b, r =>
    let (b, r) := contract b r
    r.lam x b
  | .app _ _ f a, r =>
    match f with
    | .lam _ _ x b => r.substitute b x a
    | f =>
      if f.normal then
        let (a, r) := contract a r
        (r.hold f).app f a
      else
        let (f, r) := contract f r
        (r.hold a).app f a

/-- one step, unless the node is in normal form, and whether there was one; the use of the node passes
to the result -/
def step (r : Run) (t : Node) : Bool × Node × Run :=
  if t.normal then (false, t, r)
  else
    let (t', r) := contract t r
    (true, t', (r.release t).tick)

/-- steps until the normal form, but at most as many as the first argument says -/
def stepUpTo : Nat → Node → Run → Node × Run
  | 0, t, r => (t, r)
  | n + 1, t, r =>
    match r.step t with
    | (false, t, r) => (t, r)
    | (true, t, r) => stepUpTo n t r

end Run

end NamedLambda
