import NamedLambda.Encoding
import NamedLambda.Reduction.Normalise

/-!
# Computing with encodings

Operations on encoded values are applications of the encoded operation, brought to normal form by a
run of their own.
-/

namespace NamedLambda

namespace World

/-- the normal form of a node, by a new run; the use of the node passes to the result -/
def normalise (fuel : Nat) (w : World) (t : Node) : Option (Node × World) :=
  ((Run.join w .new).normalise fuel t).map fun (u, r) => (u, r.world)

/-- a new application of two nodes, of which it has a use each -/
def applyTo : World → Node → Node → Node × World
  | ⟨names, heap⟩, f, a =>
    let (t, heap) := heap.app f a
    (t, ⟨names, heap⟩)

/-- new nodes for an encoding -/
def encode (w : World) (e : NameTable → Term × NameTable) : Node × World :=
  let (t, names) := e w.names
  World.build ⟨names, w.heap⟩ t

def successor (fuel : Nat) (w : World) (n : Node) : Option (Node × World) :=
  let (s, w) := w.encode Encoding.succ
  let (t, w) := (w.hold n).applyTo s n
  w.normalise fuel t

def conjunction (fuel : Nat) (w : World) (a b : Node) : Option (Node × World) :=
  let (c, w) := w.encode Encoding.and
  let (t, w) := (w.hold a).applyTo c a
  let (t, w) := (w.hold b).applyTo t b
  w.normalise fuel t

end World

end NamedLambda
