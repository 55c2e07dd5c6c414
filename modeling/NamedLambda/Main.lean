import NamedLambda.Tool.Evaluate

/-!
# The evaluator's command line

Gets at the arguments and the input, runs the evaluator, and writes what it says.
-/

namespace NamedLambda

def Bytes.ofString (s : String) : Bytes := s.toUTF8.toList

/-- reads everything from a stream -/
partial def readAll (stream : IO.FS.Stream) (sofar : ByteArray) : IO ByteArray := do
  let chunk ← stream.read 8192
  if chunk.isEmpty then return sofar else readAll stream (sofar ++ chunk)

/-- reads the input of a name; `-` is standard input -/
def readInput (path : String) : IO Evaluate.Input := do
  if path == "-" then
    return .contents (← readAll (← IO.getStdin) .empty).toList
  match ← (IO.FS.Handle.mk path .read).toBaseIO with
  | .error _ => return .cannotOpen
  | .ok handle =>
    match ← (readAll (.ofHandle handle) .empty).toBaseIO with
    | .error _ => return .cannotRead
    | .ok contents => return .contents contents.toList

/-- runs the evaluator with more and more fuel -/
partial def evaluateWith (fuel : Nat) (args : List Bytes) (input : Evaluate.Input) : Outcome :=
  match Evaluate.run fuel args fun _ => input with
  | some o => o
  | none => evaluateWith (2 * fuel) args input

def evaluateMain (args : List String) : IO UInt32 := do
  let bytes := args.map Bytes.ofString
  let input ← match Evaluate.parse bytes with
    | .ok o =>
      match args.find? fun a => Bytes.ofString a == o.path with
      | some path => readInput path
      | none => pure .cannotOpen
    | .error _ => pure .cannotOpen
  let o := evaluateWith 65536 bytes input
  (← IO.getStdout).write ⟨o.out.toArray⟩
  (← IO.getStderr).write ⟨o.err.toArray⟩
  return o.exit.toUInt32

end NamedLambda

def main (args : List String) : IO UInt32 :=
  NamedLambda.evaluateMain args
