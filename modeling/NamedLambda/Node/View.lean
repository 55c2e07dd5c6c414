import NamedLambda.Node.Basic
import NamedLambda.Term.Print

/-!
# Views of nodes

All there is to see of a node, with names as texts.
-/

namespace NamedLambda

/-- a node as shown: its text, its term, its free names, all its names, and whether it is normal -/
structure View where
  text : Bytes
  term : Term
  free : List Bytes
  all : List Bytes
  normal : Bool

def Node.view (names : NameTable) (t : Node) : View :=
  ⟨t.term.print names, t.term, t.free.toList.map names.text, t.all.toList.map names.text, t.normal⟩

end NamedLambda
