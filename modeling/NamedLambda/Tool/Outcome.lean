import NamedLambda.Encoding
import NamedLambda.Reduction.Trace
import NamedLambda.Term.Print

/-!
# Outcomes of tools

What a command-line tool leaves behind: its exit code and what it has written.
-/

namespace NamedLambda

structure Outcome where
  exit : Nat
  out : Bytes
  err : Bytes
deriving DecidableEq, Repr, Inhabited

namespace Outcome

/-- one outcome after another; the exit code is the last one's -/
def append (a b : Outcome) : Outcome := ⟨b.exit, a.out ++ b.out, a.err ++ b.err⟩

/-- all outcomes in turn; the exit code is zero -/
def concat (os : List Outcome) : Outcome :=
  ⟨0, os.flatMap (·.out), os.flatMap (·.err)⟩

end Outcome

def Node.line (names : NameTable) (hint : Bytes) (t : Node) : Bytes :=
  hint ++ t.term.printTo names [10]

def Trace.line (names : NameTable) (hint : Bytes) (tr : Trace) : Bytes :=
  tr.current.elim [] (Node.line names hint)

def noNormalForm (steps : Nat) : Bytes :=
  Bytes.ascii "Error: no normal form after " ++ Bytes.decimal steps ++ Bytes.ascii " steps.\n"

def Value.report : List Value → Bytes
  | [] => []
  | [v] => Bytes.ascii "\nAlpha-equivalent to: " ++ v.describe ++ [10]
  | vs =>
    Bytes.ascii "\nAlpha-equivalent to: " ++
      vs.flatMap (fun v => Bytes.ascii "\n - " ++ v.describe) ++ [10]

end NamedLambda
