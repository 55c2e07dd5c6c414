import NamedLambda.Reduction.Run

/-!
# Substitution

`[s/x] t` puts a node `s` for the free occurrences of a name `x` in a node `t`, without capture:

    [s/x] x           = s
    [s/x] y           = y
    [s/x] (t u)       = ([s/x] t) ([s/x] u)
    [s/x] (fn x => t) = fn x => t
    [s/x] (fn y => t) = fn y => [s/x] t            if y is not free in s
    [s/x] (fn y => t) = fn z => [s/x] ([z/y] t)    otherwise, with z fresh

A part in which `x` is not free is kept as it is, so the result shares it.  A part that has more than
one use is remembered with its result while the substitution lasts, and on meeting it again the
result is shared too.
-/

namespace NamedLambda

/-- the results of one substitution, by the identity of the node they replace, and the nodes kept in
use for them -/
structure Memory where
  results : Std.TreeMap Nat Node
  held : List Node

def Memory.empty : Memory := ⟨∅, []⟩

def Memory.recall (m : Memory) (t : Node) : Option Node := m.results[t.id]?

/-- the result remembered for a node; a node with one use is not looked for -/
def Run.recall (r : Run) (m : Memory) (t : Node) : Option Node :=
  if 2 ≤ r.heap.count t then m.recall t else none

namespace Run

/-- remembers the result for a node that has more than one use -/
def remember (r : Run) (m : Memory) (t result : Node) : Run × Memory :=
  if 2 ≤ r.heap.count t then
    ((r.hold t).hold result, ⟨m.results.insert t.id result, t :: result :: m.held⟩)
  else (r, m)

def releaseAll (r : Run) (ts : List Node) : Run := ts.foldl release r

/-- a way to put a node for a name in a node, as part of one substitution -/
abbrev Replacer := Name → Node → Node → Run → Memory → Node × Run × Memory

/-- substitution of `s` for `x` in `t`, where `replace` does it in a node in which `x` is free -/
def substituteBy (replace : Replacer) (r : Run) (t : Node) (x : Name) (s : Node) : Node × Run :=
  if t.free.contains x then
    let (result, r, m) := replace x s t r .empty
    (result, r.releaseAll m.held)
  else r.share t

/-- the binder and the body below which `s` may be put for `x`, with a use of the body: those of the
abstraction, or a fresh name and the body under it if the binder is free in `s` -/
def openBody (replace : Replacer) (r : Run) (x : Name) (s : Node) (y : Name) (b : Node) :
    Name × Node × Run :=
  let r := r.hold b
  if s.free.contains y then
    let (z, r) := r.freshApart y b.all s.all x
    let (v, r) := r.var z
    let (c, r) := substituteBy replace r b y v
    (z, c, (r.release b).release v)
  else (y, b, r)

/-- puts `s` for `x` in a node, where `replace` does it in the nodes below -/
def replaceBy (replace : Replacer) : Replacer
  | _, _, .hole i, r, m => (.hole i, r.hold (.hole i), m)
  | x, s, .var i y, r, m => if y = x then (s, r.hold s, m) else (.var i y, r.hold (.var i y), m)
  | x, s, .lam i k y b, r, m =>
    let t := Node.lam i k y b
    if k.free.contains x then
      match r.recall m t with
      | some result => (result, r.hold result, m)
      | none =>
        let (z, c, r) := r.openBody replace x s y b
        let (c', r, m) := replace x s c r m
        let (result, r) := r.lam z c'
        let (r, m) := r.remember m t result
        (result, r.release c, m)
    else (t, r.hold t, m)
  | x, s, .app i k f a, r, m =>
    let t := Node.app i k f a
    if k.free.contains x then
      match r.recall m t with
      | some result => (result, r.hold result, m)
      | none =>
        let (f', r, m) := replace x s f r m
        let (a', r, m) := replace x s a r m
        let (result, r) := r.app f' a'
        let (r, m) := r.remember m t result
        (result, r, m)
    else (t, r.hold t, m)

def keep : Replacer := fun _ _ t r m => (t, r.hold t, m)

/-- puts `s` for `x` in a node and in those below, as deep as the bound says; the height of the node is
deep enough, since a renamed body is as high as the body -/
def replaceIn : Nat → Replacer
  | 0, x, s, t, r, m => replaceBy keep x s t r m
  | n + 1, x, s, t, r, m => replaceBy (replaceIn n) x s t r m

/-- the node `[s/x] t`, of which the caller has a use -/
def substitute (r : Run) (t : Node) (x : Name) (s : Node) : Node × Run :=
  substituteBy (replaceIn t.height) r t x s

end Run

end NamedLambda
