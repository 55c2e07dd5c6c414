import NamedLambda.Parser
import NamedLambda.Reduction.Normalise
import NamedLambda.Tool.Numeral
import NamedLambda.Tool.Outcome

/-!
# The evaluator

Reads a program, warns of names that nothing binds, reduces the program to normal form and prints
it, with a guess at what it encodes.  On request it prints every step or gives up after a number of
steps.
-/

namespace NamedLambda

namespace Evaluate

/-! ## options -/

structure Options where
  path : Bytes
  verbose : Bool
  guess : Bool
  limit : Option Nat
deriving DecidableEq, Repr, Inhabited

/-- what can be wrong with the arguments; a request for help counts as well -/
inductive Misuse where
  | help
  | missingNumber (option : Bytes)
  | badLimit (argument : Bytes)
  | unknownOption (option : Bytes)
  | secondFile
  | noFile
deriving DecidableEq, Repr, Inhabited

namespace Misuse

def message : Misuse → Bytes
  | help => []
  | missingNumber o => Bytes.ascii "Error: " ++ o ++ Bytes.ascii " expects a number.\n"
  | badLimit a => Bytes.ascii "Error: invalid step limit " ++ a ++ Bytes.ascii ".\n"
  | unknownOption o => Bytes.ascii "Error: unrecognised option " ++ o ++ Bytes.ascii ".\n"
  | secondFile => Bytes.ascii "Error: more than one input file.\n"
  | noFile => Bytes.ascii "Error: no input file.\n"

end Misuse

def usage : Bytes :=
  Bytes.ascii "Usage: fnlc [-v|--verbose] [-n|--max-steps N] [-q|--no-guess] FILE|-\n" ++
    Bytes.ascii "  -v, --verbose      print the term after every beta step\n" ++
    Bytes.ascii "  -n, --max-steps N  give up after N beta steps\n" ++
    Bytes.ascii "  -q, --no-guess     do not report familiar encodings\n"

structure Draft where
  path : Option Bytes
  verbose : Bool
  guess : Bool
  limit : Option Nat
deriving DecidableEq, Repr, Inhabited

def isOption (short long : String) (arg : Bytes) : Bool :=
  arg == Bytes.ascii short || arg == Bytes.ascii long

/-- whether an argument looks like an option: a minus sign with something after it -/
def looksLikeOption : Bytes → Bool
  | b :: _ :: _ => b == 45
  | _ => false

def parseFrom (d : Draft) : List Bytes → Except Misuse Options
  | [] =>
    match d.path with
    | none => .error .noFile
    | some path => .ok ⟨path, d.verbose, d.guess, d.limit⟩
  | arg :: args =>
    if isOption "-v" "--verbose" arg then parseFrom { d with verbose := true } args
    else if isOption "-q" "--no-guess" arg then parseFrom { d with guess := false } args
    else if isOption "-n" "--max-steps" arg then
      match args with
      | [] => .error (.missingNumber arg)
      | number :: args =>
        match Numeral.stepLimit? number with
        | none => .error (.badLimit number)
        | some n => parseFrom { d with limit := some n } args
    else if isOption "-h" "--help" arg then .error .help
    else if looksLikeOption arg then .error (.unknownOption arg)
    else
      match d.path with
      | some _ => .error .secondFile
      | none => parseFrom { d with path := some arg } args

def parse (args : List Bytes) : Except Misuse Options :=
  parseFrom ⟨none, false, true, none⟩ args

/-! ## evaluation -/

/-- what opening and reading the input comes to -/
inductive Input where
  | contents (source : Bytes)
  | cannotOpen
  | cannotRead
deriving DecidableEq, Repr, Inhabited

def warnings (names : NameTable) (free : List Name) : Bytes :=
  free.flatMap fun x =>
    Bytes.ascii "Warning: " ++ names.text x ++ Bytes.ascii " is never bound.\n"

/-- the text of a result: the term, and what it may encode -/
def result (guess : Bool) (t : Node) (names : NameTable) : Bytes :=
  t.line names [] ++ (if guess then Value.report (Value.classify t.term names).1 else [])

/-- the line about a term that a trace has moved on to -/
def traceLine (verbose : Bool) (tr : Trace) (w : World) : Bytes :=
  if verbose then
    tr.line w.names (Bytes.ascii "[" ++ Bytes.decimal tr.steps ++ Bytes.ascii "] ")
  else []

/-- evaluates a term step by step; without a limit the fuel has to reach the normal form, and with one
it has to reach the limit or the normal form -/
def evaluateSteps (fuel : Nat) (o : Options) (err : Bytes) (t : Node) (w : World) :
    Option Outcome :=
  let (_, tr, w) := (Trace.start (some t)).next w
  let first := if o.verbose then tr.line w.names (Bytes.ascii "[0] ") else []
  (tr.follow o.limit (traceLine o.verbose) fuel [first] w).map fun (lines, tr, w) =>
    let out := lines.reverse.flatten
    if tr.atNormalForm then
      ⟨0, out ++ (if o.verbose then [10] else []) ++
        tr.current.elim [] fun u => result o.guess u w.names, err⟩
    else ⟨2, out, err ++ noNormalForm tr.steps⟩

/-- evaluates a term in one descent -/
def evaluateDescent (fuel : Nat) (o : Options) (err : Bytes) (t : Node) (w : World) :
    Option Outcome :=
  ((Run.join w .new).normalise fuel t).map fun (u, r) => ⟨0, result o.guess u r.names, err⟩

/-- evaluates the program in a source.  The uses that the program and the caller keep of the term's nodes
are left out: a count of uses decides no more than what a substitution remembers. -/
def evaluate (fuel : Nat) (o : Options) (source : Bytes) : Option Outcome :=
  match Program.parse .empty source with
  | (.error e, _) => some ⟨1, [], (e.diagnostic source).render o.path source⟩
  | (.ok p, names) =>
    let (t, w) := World.build ⟨names, .empty⟩ p.unroll
    let err := warnings names t.free.toList
    if o.verbose || o.limit.isSome then evaluateSteps fuel o err t w
    else evaluateDescent fuel o err t w

/-- the whole tool: its arguments, and how to get at the input of a name -/
def run (fuel : Nat) (args : List Bytes) (input : Bytes → Input) : Option Outcome :=
  match parse args with
  | .error m => some ⟨1, [], m.message ++ usage⟩
  | .ok o =>
    match input o.path with
    | .cannotOpen => some ⟨1, [], Bytes.ascii "Error: cannot open " ++ o.path ++ Bytes.ascii ".\n"⟩
    | .cannotRead => some ⟨1, [], Bytes.ascii "Error: cannot read " ++ o.path ++ Bytes.ascii ".\n"⟩
    | .contents source => evaluate fuel o source

end Evaluate

end NamedLambda
