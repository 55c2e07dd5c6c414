import NamedLambda.Parser
import NamedLambda.Reduction.Normalise
import NamedLambda.Tool.Numeral
import NamedLambda.Tool.Outcome

/-!
# The benchmark

Normalises one program, the tenth Fibonacci number by way of pairs, a number of times over.  The time
that this takes is measured outside and comes in as a text.
-/

namespace NamedLambda

namespace Benchmark

def source : Bytes :=
  Bytes.ascii "true := fn t => fn e => t\n" ++
    Bytes.ascii "false := fn t => fn e => e\n" ++
    Bytes.ascii "pair := fn a => fn b => fn s => s a b\n" ++
    Bytes.ascii "fst := fn p => p true\n" ++
    Bytes.ascii "snd := fn p => p false\n" ++
    Bytes.ascii "succ := fn n => fn f => fn x => f (n f x)\n" ++
    Bytes.ascii "add := fn m => fn n => m succ n\n" ++
    Bytes.ascii "zero := fn f => fn x => x\n" ++
    Bytes.ascii "ten := fn f => fn x => f (f (f (f (f (f (f (f (f (f x)))))))))\n" ++
    Bytes.ascii "step := fn p => pair (snd p) (add (fst p) (snd p))\n" ++
    Bytes.ascii "fibbit := fn n => fst (n step (pair zero (succ zero)))\n" ++
    Bytes.ascii "main := fibbit ten\n"

def defaultRounds : Int := 20

def rounds : List Bytes → Int
  | [] => defaultRounds
  | arg :: _ => Numeral.count arg

/-- normalises a node `n` times, each time by a new run, and gives the last result, with the number
of steps it took -/
def repeatNormalise (fuel : Nat) (t : Node) : Nat → Nat → Node → World →
    Option (Nat × Node × World)
  | 0, steps, u, w => some (steps, u, w)
  | n + 1, _, u, w =>
    match (Run.join ((w.hold t).release u) .new).normalise fuel t with
    | none => none
    | some (u, r) => repeatNormalise fuel t n r.steps u r.world

/-- the report, with the milliseconds of a round given as a text -/
def report (time : Bytes) (rounds steps : Nat) (vs : List Value) : Bytes :=
  Bytes.ascii "fibbit 10: " ++ Bytes.decimal rounds ++ Bytes.ascii " rounds, " ++
    Bytes.decimal steps ++ Bytes.ascii " steps each, " ++ time ++ Bytes.ascii " ms per round\n" ++
    vs.flatMap fun v => Bytes.ascii "result: " ++ v.describe ++ [10]

def measure (fuel : Nat) (time : Bytes) (n : Nat) : Option Outcome :=
  match Program.parse .empty source with
  | (.error e, _) => some ⟨1, [], (e.diagnostic source).render (Bytes.ascii "fibbit") source⟩
  | (.ok p, names) =>
    let (t, w) := World.build ⟨names, .empty⟩ p.unroll
    match repeatNormalise fuel t n 0 t (w.hold t) with
    | none => none
    | some (steps, u, w) =>
      some ⟨0, report time n steps (Value.classify u.term w.names).1, []⟩

def run (fuel : Nat) (time : Bytes) (args : List Bytes) : Option Outcome :=
  let n := rounds args
  if n ≤ 0 then some ⟨1, [], Bytes.ascii "Usage: fibbit-bench [ROUNDS]\n"⟩
  else measure fuel time n.toNat

end Benchmark

end NamedLambda
