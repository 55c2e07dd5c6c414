import NamedLambda.Reduction.Step

/-!
# Traces

The terms of a normal-order reduction on demand: first the term it starts from, then the result of
one more step each time, last the normal form.  Without a normal form a trace never ends.
-/

namespace NamedLambda

/-- a trace: the node it is at, if any, whether that has been handed out, and its context -/
structure Trace where
  current : Option Node
  started : Bool
  context : Context

namespace Trace

/-- a trace from a node, of which it has a use -/
def start (t : Option Node) : Trace := ⟨t, false, .new⟩

/-- moves on to the next term, and says whether there is one -/
def next : Trace → World → Bool × Trace × World
  | ⟨current, false, context⟩, w => (current.isSome, ⟨current, true, context⟩, w)
  | ⟨none, true, context⟩, w => (false, ⟨none, true, context⟩, w)
  | ⟨some t, true, context⟩, w =>
    let (moved, u, r) := (Run.join w context).step t
    (moved, ⟨some u, true, r.context⟩, r.world)

/-- moves on at most `n` times and gives the nodes met, in order, whether the trace ended, and the
trace and the world after it -/
def take : Nat → Trace → World → List Node × Bool × Trace × World
  | 0, tr, w => ([], false, tr, w)
  | n + 1, tr, w =>
    match tr.next w with
    | (false, tr, w) => ([], true, tr, w)
    | (true, tr, w) =>
      let (ts, ended, last, w) := take n tr w
      (tr.current.toList ++ ts, ended, last, w)

def steps (tr : Trace) : Nat := tr.context.steps

def atNormalForm (tr : Trace) : Bool := tr.current.all (·.normal)

/-- moves on until the trace ends, unless it has taken as many steps as the limit says before; what
`line` writes about each term met is put on top of the lines so far.  There is no answer if the fuel
runs out. -/
def follow (limit : Option Nat) (line : Trace → World → Bytes) :
    Nat → List Bytes → Trace → World → Option (List Bytes × Trace × World)
  | 0, _, _, _ => none
  | fuel + 1, lines, tr, w =>
    if limit = some tr.steps then some (lines, tr, w)
    else
      match tr.next w with
      | (false, tr, w) => some (lines, tr, w)
      | (true, tr, w) => follow limit line fuel (line tr w :: lines) tr w

end Trace

end NamedLambda
