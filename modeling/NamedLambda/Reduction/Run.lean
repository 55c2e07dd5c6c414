import NamedLambda.Name.Fresh
import NamedLambda.Node.Heap

/-!
# Runs

A run is the state of a reduction: the name table and the heap, which it shares with all others, and
the supply of fresh names and the count of steps, which are its own.
-/

namespace NamedLambda

/-- what every run shares: all names and all nodes -/
structure World where
  names : NameTable
  heap : Heap

/-- what one run has to itself: its fresh names and the number of steps it has taken -/
structure Context where
  fresh : Fresh
  steps : Nat

structure Run where
  names : NameTable
  heap : Heap
  fresh : Fresh
  steps : Nat

namespace World

def empty : World := ⟨.empty, .empty⟩

instance : Inhabited World := ⟨empty⟩

def intern : World → Bytes → Name × World
  | ⟨names, heap⟩, s =>
    let (x, names) := names.intern s
    (x, ⟨names, heap⟩)

def hold : World → Node → World
  | ⟨names, heap⟩, t => ⟨names, heap.hold t⟩

def release : World → Node → World
  | ⟨names, heap⟩, t => ⟨names, heap.release t⟩

def build : World → Term → Node × World
  | ⟨names, heap⟩, t =>
    let (n, heap) := heap.build t
    (n, ⟨names, heap⟩)

end World

namespace Context

def new : Context := ⟨.new, 0⟩

instance : Inhabited Context := ⟨new⟩

end Context

namespace Run

/-- a context at work in a world -/
def join : World → Context → Run
  | ⟨names, heap⟩, ⟨fresh, steps⟩ => ⟨names, heap, fresh, steps⟩

def world : Run → World
  | ⟨names, heap, _, _⟩ => ⟨names, heap⟩

def context : Run → Context
  | ⟨_, _, fresh, steps⟩ => ⟨fresh, steps⟩

instance : Inhabited Run := ⟨join default default⟩

def hold : Run → Node → Run
  | ⟨names, heap, fresh, steps⟩, t => ⟨names, heap.hold t, fresh, steps⟩

def release : Run → Node → Run
  | ⟨names, heap, fresh, steps⟩, t => ⟨names, heap.release t, fresh, steps⟩

def share (r : Run) (t : Node) : Node × Run := (t, r.hold t)

def var : Run → Name → Node × Run
  | ⟨names, heap, fresh, steps⟩, x =>
    let (t, heap) := heap.var x
    (t, ⟨names, heap, fresh, steps⟩)

def lam : Run → Name → Node → Node × Run
  | ⟨names, heap, fresh, steps⟩, x, b =>
    let (t, heap) := heap.lam x b
    (t, ⟨names, heap, fresh, steps⟩)

def app : Run → Node → Node → Node × Run
  | ⟨names, heap, fresh, steps⟩, f, a =>
    let (t, heap) := heap.app f a
    (t, ⟨names, heap, fresh, steps⟩)

def freshApart : Run → Name → NameSet → NameSet → Name → Name × Run
  | ⟨names, heap, fresh, steps⟩, hint, s, t, excluded =>
    let (pick, fresh) := fresh.generateApart names hint s t excluded
    (pick.name, ⟨pick.names, heap, fresh, steps⟩)

def tick : Run → Run
  | ⟨names, heap, fresh, steps⟩ => ⟨names, heap, fresh, steps + 1⟩

end Run

end NamedLambda
