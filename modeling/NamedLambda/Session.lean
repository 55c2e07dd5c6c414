import NamedLambda.Node.View
import NamedLambda.Parser
import NamedLambda.Reduction.Compute
import NamedLambda.Reduction.Trace

/-!
# Sessions

A session keeps nodes in registers, works on them with one context, and may have one trace going.
Its commands reach every operation on terms: reading, building from parts, substitution, reduction,
comparison.
-/

namespace NamedLambda

/-- a session: the world, the nodes in the registers, the context, and the trace, if any; a register
that is not listed is empty -/
structure Session where
  world : World
  registers : Std.TreeMap Bytes Node
  context : Context
  trace : Option Trace

namespace Session

def new : Session := ⟨.empty, ∅, .new, none⟩

instance : Inhabited Session := ⟨new⟩

/-- what a command puts into a register; names of registers are byte strings -/
inductive Source where
  | term (source : Bytes)
  | program (source : Bytes)
  | var (name : Bytes)
  | lam (name body : Bytes)
  | app (fn arg : Bytes)
  | hole
  | empty
  | copy (register : Bytes)
  | fnOf (register : Bytes)
  | argOf (register : Bytes)
  | bodyOf (register : Bytes)
  | bool (b : Bool)
  | church (n : Nat)
  | and
  | succ
  | successorOf (register : Bytes)
  | conjunctionOf (a b : Bytes)
  | substitution (target param replacement : Bytes)
deriving Repr, Inhabited

inductive Command where
  | put (register : Bytes) (source : Source)
  | drop (register : Bytes)
  | step (register : Bytes)
  | normalise (register : Bytes) (limit : Option Nat)
  | context
  | fresh (hint : Bytes)
  | alpha (a b : Bytes) (free : Option (List (Bytes × Bytes)))
  | same (a b : Bytes)
  | classify (register : Bytes)
  | show (register : Bytes)
  | trace (register : Bytes)
  | next
  | live
  | table
deriving Repr, Inhabited

inductive Answer where
  | nothing
  | text (s : Bytes)
  | failed (error : SyntaxError) (source : Bytes)
  | stepped (did : Bool) (steps : Nat) (text : Bytes)
  | normalised (normal : Bool) (steps : Nat) (text : Bytes) (same : Bool)
  | flag (b : Bool)
  | values (vs : List Value)
  | view (v : View)
  | moved (moved : Bool) (steps : Nat) (current : Option (Bytes × Bool))
  | number (n : Nat)
  | names (texts : List Bytes)

def get? (s : Session) (register : Bytes) : Option Node := s.registers[register]?

/-- puts a node, of which the register takes over a use, or nothing into a register, and gives up
what was there -/
def set : Session → Bytes → Option Node → Session
  | ⟨world, registers, context, trace⟩, register, t =>
    let world := (registers[register]?).elim world world.release
    match t with
    | none => ⟨world, registers.erase register, context, trace⟩
    | some t => ⟨world, registers.insert register t, context, trace⟩

def withWorld (s : Session) (w : World) : Session := { s with world := w }

def share (s : Session) (t : Option Node) : Option Node × Session :=
  match t with
  | none => (none, s)
  | some t => (some t, s.withWorld (s.world.hold t))

def build (s : Session) (names : NameTable) (t : Term) : Option Node × Session :=
  let (n, w) := World.build ⟨names, s.world.heap⟩ t
  (some n, s.withWorld w)

/-- the node a source stands for, of which the caller has a use; the session learns the names that
come up even if there is an error -/
def make (fuel : Nat) (s : Session) :
    Source → Option (Except (SyntaxError × Bytes) (Option Node) × Session)
  | .term source =>
    match Term.parse s.world.names source with
    | (.error e, names) => some (.error (e, source), s.withWorld ⟨names, s.world.heap⟩)
    | (.ok t, names) => let (n, s) := s.build names t; some (.ok n, s)
  | .program source =>
    match Program.parse s.world.names source with
    | (.error e, names) => some (.error (e, source), s.withWorld ⟨names, s.world.heap⟩)
    | (.ok p, names) => let (n, s) := s.build names p.unroll; some (.ok n, s)
  | .var name =>
    let (x, w) := s.world.intern name
    let (n, s) := s.build w.names (.var x)
    some (.ok n, s)
  | .lam name body =>
    let (x, w) := s.world.intern name
    match s.get? body with
    | none => some (.ok none, s.withWorld w)
    | some b =>
      let (t, heap) := (w.heap.hold b).lam x b
      some (.ok (some t), s.withWorld ⟨w.names, heap⟩)
  | .app fn arg =>
    match s.get? fn, s.get? arg with
    | some f, some a =>
      let (t, w) := ((s.world.hold f).hold a).applyTo f a
      some (.ok (some t), s.withWorld w)
    | _, _ => some (.ok none, s)
  | .hole => let (n, s) := s.build s.world.names .hole; some (.ok n, s)
  | .empty => some (.ok none, s)
  | .copy r => let (n, s) := s.share (s.get? r); some (.ok n, s)
  | .fnOf r => let (n, s) := s.share ((s.get? r).bind Node.fn?); some (.ok n, s)
  | .argOf r => let (n, s) := s.share ((s.get? r).bind Node.arg?); some (.ok n, s)
  | .bodyOf r => let (n, s) := s.share ((s.get? r).bind Node.body?); some (.ok n, s)
  | .bool b => let (n, w) := s.world.encode (Encoding.bool b); some (.ok (some n), s.withWorld w)
  | .church n => let (n, w) := s.world.encode (Encoding.church n); some (.ok (some n), s.withWorld w)
  | .and => let (n, w) := s.world.encode Encoding.and; some (.ok (some n), s.withWorld w)
  | .succ => let (n, w) := s.world.encode Encoding.succ; some (.ok (some n), s.withWorld w)
  | .successorOf r =>
    match s.get? r with
    | none => some (.ok none, s)
    | some n => (s.world.successor fuel n).map fun (t, w) => (.ok (some t), s.withWorld w)
  | .conjunctionOf a b =>
    match s.get? a, s.get? b with
    | some a, some b => (s.world.conjunction fuel a b).map fun (t, w) => (.ok (some t), s.withWorld w)
    | _, _ => some (.ok none, s)
  | .substitution target param replacement =>
    let (x, w) := s.world.intern param
    match s.get? target, s.get? replacement with
    | some t, some u =>
      let (t, r) := (Run.join w s.context).substitute t x u
      some (.ok (some t), { s with world := r.world, context := r.context })
    | _, _ => some (.ok none, s.withWorld w)

def textOf (s : Session) (t : Node) : Bytes := t.term.print s.world.names

/-- puts a node at which the run `r` has arrived into its register -/
def arrive (s : Session) (register : Bytes) (t : Node) (r : Run) : Session :=
  { s with world := r.world, context := r.context, registers := s.registers.insert register t }

/-- learns the texts of pairs of names, in order -/
def internPairs (names : NameTable) : List (Bytes × Bytes) → List (Name × Name) × NameTable
  | [] => ([], names)
  | (u, v) :: rest =>
    let (x, names) := names.intern u
    let (y, names) := names.intern v
    let (pairs, names) := internPairs names rest
    ((x, y) :: pairs, names)

/-- whether two registers hold terms that are equal up to bound names -/
def compare (s : Session) (a b : Bytes) (free : Option (List (Bytes × Bytes))) : Bool × Session :=
  match free with
  | none =>
    (match s.get? a, s.get? b with
      | some t, some u => t.alphaEq u
      | none, none => true
      | _, _ => false, s)
  | some free =>
    let (pairs, names) := internPairs s.world.names free
    (match s.get? a, s.get? b with
      | some t, some u => t.term.alphaEqWith pairs u.term
      | _, _ => false, s.withWorld ⟨names, s.world.heap⟩)

/-- carries out a command; the answer is missing if the fuel does not suffice -/
def exec (fuel : Nat) (s : Session) : Command → Option (Answer × Session)
  | .put register source =>
    match s.make fuel source with
    | none => none
    | some (.error (e, source), s) => some (.failed e source, s)
    | some (.ok none, s) => some (.nothing, s.set register none)
    | some (.ok (some t), s) => some (.text (s.textOf t), s.set register (some t))
  | .drop register => some (.nothing, s.set register none)
  | .step register =>
    match s.get? register with
    | none => some (.nothing, s)
    | some t =>
      let (did, u, r) := (Run.join s.world s.context).step t
      some (.stepped did r.steps (u.term.print r.names), s.arrive register u r)
  | .normalise register limit =>
    match s.get? register with
    | none => some (.nothing, s)
    | some t =>
      match Run.reduce fuel limit t ((Run.join s.world s.context).hold t) with
      | none => none
      | some (u, r) =>
        let same := u.same t
        some (.normalised u.normal r.steps (u.term.print r.names) same,
          s.arrive register u (r.release t))
  | .context => some (.nothing, { s with context := .new })
  | .fresh hint =>
    let (x, w) := s.world.intern hint
    let (pick, fresh) := s.context.fresh.generate w.names x fun _ => false
    some (.text (pick.names.text pick.name),
      { s with world := ⟨pick.names, w.heap⟩, context := ⟨fresh, s.context.steps⟩ })
  | .alpha a b free => let (equal, s) := s.compare a b free; some (.flag equal, s)
  | .same a b => some (.flag ((s.get? a).map (·.id) = (s.get? b).map (·.id)), s)
  | .classify register =>
    match s.get? register with
    | none => some (.nothing, s)
    | some t =>
      let (vs, names) := Value.classify t.term s.world.names
      some (.values vs, s.withWorld ⟨names, s.world.heap⟩)
  | .show register =>
    match s.get? register with
    | none => some (.nothing, s)
    | some t => some (.view (t.view s.world.names), s)
  | .trace register =>
    let (t, s) := s.share (s.get? register)
    let old := s.trace.bind (·.current)
    let w := old.elim s.world s.world.release
    some (.nothing, { s with world := w, trace := some (.start t) })
  | .next =>
    match s.trace with
    | none => some (.nothing, s)
    | some tr =>
      let (moved, tr, w) := tr.next s.world
      some (.moved moved tr.context.steps
          (tr.current.map fun t => (t.term.print w.names, t.normal)),
        { s with world := w, trace := some tr })
  | .live => some (.number s.world.heap.live, s)
  | .table => some (.names s.world.names.texts.toList, s)

def execAll (fuel : Nat) (s : Session) : List Command → Option (List Answer × Session)
  | [] => some ([], s)
  | c :: cs =>
    match s.exec fuel c with
    | none => none
    | some (a, s) => (execAll fuel s cs).map fun (as, s) => (a :: as, s)

end Session

end NamedLambda
