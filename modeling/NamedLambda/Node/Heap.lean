import NamedLambda.Node.Basic

/-!
# Use counts

Nodes are shared freely, and each counts its uses: one for every place that refers to it, be it the
part of a node in use, a register, or a step of work under way.  Making a node takes over the uses of
its parts.  When the last use of a node is given up, the uses it has of its parts go with it.
-/

namespace NamedLambda

/-- the number of uses of each node made so far, by the node's identity -/
structure Heap where
  uses : Array Nat

namespace Heap

def empty : Heap := ⟨#[]⟩

instance : Inhabited Heap := ⟨empty⟩

def count (h : Heap) (t : Node) : Nat := h.uses.getD t.id 0

def live (h : Heap) : Nat := h.uses.foldl (fun n k => if k = 0 then n else n + 1) 0

def hold (h : Heap) (t : Node) : Heap := ⟨h.uses.modify t.id (· + 1)⟩

/-- gives up one use of a node, and with its last use those it has of its parts -/
def release : Heap → Node → Heap
  | h, .hole i => ⟨h.uses.modify i (· - 1)⟩
  | h, .var i _ => ⟨h.uses.modify i (· - 1)⟩
  | h, .lam i _ _ b =>
    if h.uses.getD i 0 ≤ 1 then release ⟨h.uses.modify i (· - 1)⟩ b
    else ⟨h.uses.modify i (· - 1)⟩
  | h, .app i _ f a =>
    if h.uses.getD i 0 ≤ 1 then release (release ⟨h.uses.modify i (· - 1)⟩ f) a
    else ⟨h.uses.modify i (· - 1)⟩

/-- a heap with room for one more node, which has one use -/
def grow (h : Heap) : Heap := ⟨h.uses.push 1⟩

def next (h : Heap) : Nat := h.uses.size

def hole (h : Heap) : Node × Heap := (.hole h.next, h.grow)

def var (h : Heap) (x : Name) : Node × Heap := (.var h.next x, h.grow)

def lam (h : Heap) (x : Name) (b : Node) : Node × Heap :=
  (.lam h.next (.ofLam x b.facts) x b, h.grow)

def app (h : Heap) (f a : Node) : Node × Heap :=
  (.app h.next (.ofApp f.isLam f.facts a.facts) f a, h.grow)

/-- new nodes for a whole term, none of them shared -/
def build : Heap → Term → Node × Heap
  | h, .hole => h.hole
  | h, .var x => h.var x
  | h, .lam x b =>
    let (b, h) := build h b
    h.lam x b
  | h, .app f a =>
    let (f, h) := build h f
    let (a, h) := build h a
    h.app f a

end Heap

end NamedLambda
