import NamedLambda.Parser
import NamedLambda.Reduction.Trace
import NamedLambda.Tool.Outcome

/-!
# Line tools

Two filters that read one term a line: one prints it back, the other shows every step of its
reduction.  Names stay known from line to line.
-/

namespace NamedLambda

namespace Lines

def isVoid (line : Bytes) : Bool :=
  line.all fun b => b == 32 || b == 9 || b == 13

/-- the name under which errors in a line are reported -/
def title : Bytes := Bytes.ascii "<stdin>"

/-- runs a tool on each line that has something on it: `act` gets the term -/
def eachTerm {m : Type → Type} [Monad m] (act : Term → World → m (Outcome × World)) :
    World → List Bytes → m (List Outcome)
  | _, [] => pure []
  | w, line :: lines =>
    if isVoid line then eachTerm act w lines
    else
      match Term.parse w.names line with
      | (.error e, names) => do
        let os ← eachTerm act ⟨names, w.heap⟩ lines
        pure (⟨0, [], (e.diagnostic line).render title line⟩ :: os)
      | (.ok t, names) => do
        let (o, w) ← act t ⟨names, w.heap⟩
        let os ← eachTerm act w lines
        pure (o :: os)

def echo (input : Bytes) : Outcome :=
  .concat (eachTerm (m := Id) (fun t w => (⟨0, t.printTo w.names [10], []⟩, w)) .empty
    (Bytes.lines input))

def stepLimit : Nat := 65536

def stepLine (tr : Trace) (w : World) : Bytes :=
  tr.line w.names (Bytes.ascii "Beta-reduction: ")

def reduceTerm (fuel : Nat) (t : Term) (w : World) : Option (Outcome × World) :=
  let (t, w) := w.build t
  let (_, tr, w) := (Trace.start (some t)).next w
  let first := tr.line w.names (Bytes.ascii "     Formatted: ")
  (tr.follow (some stepLimit) stepLine fuel [first] w).map fun (lines, tr, w) =>
    let o : Outcome :=
      if tr.atNormalForm then
        ⟨0, (tr.line w.names (Bytes.ascii "   Normal form: ") :: lines).reverse.flatten, []⟩
      else ⟨0, lines.reverse.flatten, noNormalForm tr.steps⟩
    (o, tr.current.elim w w.release)

def reduce (fuel : Nat) (input : Bytes) : Option Outcome :=
  (eachTerm (reduceTerm fuel) .empty (Bytes.lines input)).map .concat

end Lines

end NamedLambda
