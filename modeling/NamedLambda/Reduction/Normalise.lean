import NamedLambda.Reduction.Step

/-!
# Normalisation in one descent

The head of a term is reduced first, until it is no longer an abstraction applied to an argument.
What is left is an abstraction, whose body is normalised next, or an application that is stuck, whose
function and then argument are.  The redexes are those of repeated single steps, in the same order,
but the walk down from the root after every step is saved.

A term without a normal form keeps this going for ever, so the functions here take an amount of
fuel and give nothing when it does not suffice.
-/

namespace NamedLambda

namespace Run

/-- contracts head redexes; the result is not an abstraction applied to an argument.  The use of the
node passes to the result. -/
def weakHead : Nat → Node → Run → Option (Node × Run)
  | 0, _, _ => none
  | n + 1, t, r =>
    match t with
    | .app _ k f a =>
      if k.normal then some (t, r)
      else
        match weakHead n f (r.hold f) with
        | none => none
        | some (.lam i k x b, r) =>
          let (u, r) := r.substitute b x a
          weakHead n u ((r.release t).release (.lam i k x b)).tick
        | some (g, r) =>
          if g.same f then some (t, r.release g)
          else
            let (u, r) := (r.hold a).app g a
            some (u, r.release t)
    | _ => some (t, r)

/-- the normal form of a node; a node in normal form is its own -/
def normaliseNode : Nat → Node → Run → Option (Node × Run)
  | 0, _, _ => none
  | n + 1, t, r =>
    if t.normal then some (r.share t)
    else
      match t with
      | .lam _ _ x b =>
        match normaliseNode n b r with
        | none => none
        | some (b, r) => some (r.lam x b)
      | .app _ _ _ _ =>
        match weakHead n t (r.hold t) with
        | none => none
        | some (.app i k f a, r) =>
          match normaliseNode n f r with
          | none => none
          | some (f', r) =>
            match normaliseNode n a r with
            | none => none
            | some (a', r) =>
              if f'.same f && a'.same a then some (.app i k f a, (r.release f').release a')
              else
                let (u, r) := r.app f' a'
                some (u, r.release (.app i k f a))
        | some (u, r) =>
          match normaliseNode n u r with
          | none => none
          | some (v, r) => some (v, r.release u)
      | t => some (r.share t)

/-- normalises a node, whose use passes to the result -/
def normalise (fuel : Nat) (t : Node) (r : Run) : Option (Node × Run) :=
  match normaliseNode fuel t r with
  | none => none
  | some (u, r) => some (u, r.release t)

/-- brings a node to normal form, or as far as a limited number of single steps go; the use of the
node passes to the result -/
def reduce (fuel : Nat) (limit : Option Nat) (t : Node) (r : Run) : Option (Node × Run) :=
  match limit with
  | none => r.normalise fuel t
  | some n => some (stepUpTo n t r)

end Run

end NamedLambda
