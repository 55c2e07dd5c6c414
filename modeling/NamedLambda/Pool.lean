import NamedLambda.Bytes
import Std.Data.TreeMap

/-!
# A pool of counted cells

Cells hold a number and may refer to a next cell; registers refer to cells.  Every cell counts the
registers and cells that refer to it and goes back to the pool with the last of them, taking its own
reference along.  The pool gets its cells in blocks, which grow up to a fixed size.  Cells that refer
to each other in a circle never come back.
-/

namespace NamedLambda

/-- a cell that has been handed out: how many refer to it, its number, and the next cell -/
structure Cell where
  uses : Nat
  value : Nat
  next : Option Nat
deriving DecidableEq, Repr, Inhabited

/-- a pool: its entries, of which those that are no cell are free, the free entries in the order in which
they are handed out, the sizes of its blocks, the size of the next block, the numbers of free entries and
of cells handed out, and how many cells have ever been handed out and given back -/
structure Pool where
  entries : Array (Option Cell)
  free : List Nat
  blocks : List Nat
  nextBlock : Nat
  available : Nat
  live : Nat
  allocated : Nat
  finalised : Nat
deriving DecidableEq, Repr, Inhabited

namespace Pool

def defaultBlock : Nat := 64

def new (suggested : Nat) : Pool :=
  ⟨#[], [], [], max 64 (min suggested 4096), 0, 0, 0, 0⟩

/-! ## blocks -/

/-- the largest block that memory has room for -/
def largestBlock : Nat := 1099511627776

/-- which blocks can be had: the answer by the blocks so far and the size asked for -/
abbrev Memory := List Nat → Nat → Bool

def blockAfter (size : Nat) : Nat :=
  if size < 32768 then 2 * size else 65536

/-- a new block, whose entries are the first to be handed out -/
def addBlock (p : Pool) (size : Nat) : Pool :=
  { p with
    entries := p.entries ++ Array.replicate size none
    free := List.range' p.entries.size size ++ p.free
    blocks := size :: p.blocks
    nextBlock := blockAfter size
    available := p.available + size }

/-- makes sure of `n` free entries.  A refused block counts for the size of the next one. -/
def reserve (memory : Memory) (p : Pool) (n : Nat) : Bool × Pool :=
  if n ≤ p.available then (true, p)
  else
    let size := max (n - p.available) p.nextBlock
    if memory p.blocks size then (true, p.addBlock size)
    else (false, { p with nextBlock := blockAfter size })

/-! ## cells -/

def cell? (p : Pool) (c : Nat) : Option Cell := p.entries.getD c none

def store (p : Pool) (c : Nat) (e : Option Cell) : Pool :=
  { p with entries := p.entries.setIfInBounds c e }

def handedOut (p : Pool) : Nat := p.entries.countP Option.isSome

def allocate (memory : Memory) (p : Pool) (value : Nat) (next : Option Nat) : Option Nat × Pool :=
  match p.reserve memory 1 with
  | (false, p) => (none, p)
  | (true, p) =>
    match p.free with
    | [] => (none, p)
    | c :: free =>
      (some c,
        { p.store c (some ⟨1, value, next⟩) with
          free := free
          available := p.available - 1
          live := p.live + 1
          allocated := p.allocated + 1 })

def hold (p : Pool) : Option Nat → Pool
  | none => p
  | some c =>
    match p.cell? c with
    | none => p
    | some k => p.store c (some { k with uses := k.uses + 1 })

/-- the entries of cells that have been finalised become free; the list has the last one first, and the
first one is the next to be handed out -/
def giveBack (p : Pool) (done : List Nat) : Pool :=
  { p with
    free := done.reverse ++ p.free
    available := p.available + done.length
    live := p.live - done.length }

theorem cell?_of_lt {p : Pool} {c : Nat} (hc : c < p.entries.size) :
    p.cell? c = p.entries[c] := by
  rw [cell?, Array.getD_eq_getD_getElem?, Array.getElem?_eq_getElem hc, Option.getD_some]

theorem lt_of_cell? {p : Pool} {c : Nat} {k : Cell} (h : p.cell? c = some k) :
    c < p.entries.size := by
  rcases Nat.lt_or_ge c p.entries.size with hc | hc
  · exact hc
  · rw [cell?, Array.getD_eq_getD_getElem?, Array.getElem?_eq_none hc] at h
    cases h

/-- what is stored in an entry counts in place of what was there -/
theorem countP_store {p : Pool} {c : Nat} (hc : c < p.entries.size) (e : Option Cell)
    (f : Option Cell → Bool) :
    (p.store c e).entries.countP f + (f (p.cell? c)).toNat = p.entries.countP f + (f e).toNat := by
  have hpos : f p.entries[c] = true → 0 < p.entries.countP f := by
    intro h
    exact Array.countP_pos_iff.mpr ⟨p.entries[c], Array.getElem_mem hc, h⟩
  unfold store
  rw [Array.setIfInBounds, dif_pos hc, Array.countP_set hc, cell?_of_lt hc]
  cases hf : f p.entries[c] with
  | false => cases f e <;> simp
  | true =>
    have := hpos hf
    cases f e <;> simp <;> omega

theorem handedOut_store_none {p : Pool} {c : Nat} {k : Cell} (h : p.cell? c = some k) :
    (p.store c none).handedOut + 1 = p.handedOut := by
  have hs := countP_store (lt_of_cell? h) none Option.isSome
  rw [h] at hs
  exact hs

/-- gives up a use of a cell, and with its last use the one it has of the next cell; `done` are the cells
finalised on the way -/
def releaseFrom (done : List Nat) (c : Option Nat) (p : Pool) : Pool :=
  match c with
  | none => p.giveBack done
  | some c =>
    match _h : p.cell? c with
    | none => p.giveBack done
    | some k =>
      if k.uses ≤ 1 then
        releaseFrom (c :: done) k.next { p.store c none with finalised := p.finalised + 1 }
      else (p.store c (some { k with uses := k.uses - 1 })).giveBack done
termination_by p.handedOut
decreasing_by
  have := handedOut_store_none _h
  show (p.store c none).handedOut < p.handedOut
  omega

def release (p : Pool) (c : Option Nat) : Pool := releaseFrom [] c p

/-- puts another next cell into a cell, and gives the old one -/
def exchangeNext (p : Pool) (c : Nat) (next : Option Nat) : Option Nat × Pool :=
  match p.cell? c with
  | none => (none, p)
  | some k => (k.next, p.store c (some { k with next := next }))

/-! ## registers -/

/-- a pool with registers, by their names; a register that is not listed is empty -/
structure Bank where
  pool : Pool
  registers : Std.TreeMap Bytes Nat

namespace Bank

def new (suggested : Nat) : Bank := ⟨Pool.new suggested, ∅⟩

def get? (b : Bank) (p : Bytes) : Option Nat := b.registers[p]?

/-- the registers after a cell or nothing is written to one of them -/
def write (registers : Std.TreeMap Bytes Nat) (p : Bytes) : Option Nat → Std.TreeMap Bytes Nat
  | none => registers.erase p
  | some c => registers.insert p c

/-- puts a cell, of which the register takes over a use, or nothing into a register, and gives up what
was there -/
def put : Bank → Bytes → Option Nat → Bank
  | ⟨pool, registers⟩, p, c =>
    let old := registers[p]?
    ⟨pool.release old, write registers p c⟩

inductive Command where
  | reserve (n : Nat)
  | new (p : Bytes) (value : Nat)
  | many (p : Bytes) (n : Nat)
  | copy (p source : Bytes)
  | move (p source : Bytes)
  | clear (p : Bytes)
  | link (p target : Bytes)
  | next (p source : Bytes)
  | value (p : Bytes)
  | uses (p : Bytes)
  | equal (p q : Bytes)
  | isEmpty (p : Bytes)
deriving DecidableEq, Repr, Inhabited

inductive Answer where
  | nothing
  | refused
  | number (n : Option Nat)
  | flag (b : Bool)
deriving DecidableEq, Repr, Inhabited

/-- puts a new cell into a register, whose old cell is given up first -/
def newCell (memory : Memory) (b : Bank) (p : Bytes) (value : Nat) : Bool × Bank :=
  match b.put p none with
  | ⟨pool, registers⟩ =>
    match pool.allocate memory value none with
    | (none, pool) => (false, ⟨pool, registers⟩)
    | (some c, pool) => (true, ⟨pool, write registers p (some c)⟩)

/-- puts `n` new cells in front of the cell in a register, numbered from `i` -/
def newCells (memory : Memory) (p : Bytes) : Nat → Nat → Bank → Bool × Bank
  | 0, _, b => (true, b)
  | n + 1, i, ⟨pool, registers⟩ =>
    match pool.allocate memory i registers[p]? with
    | (none, pool) => (false, ⟨pool, registers⟩)
    | (some c, pool) => newCells memory p n (i + 1) ⟨pool, write registers p (some c)⟩

/-- makes a register refer to what a cell or register refers to -/
def assign : Bank → Bytes → Option Nat → Bank
  | ⟨pool, registers⟩, p, c => put ⟨pool.hold c, registers⟩ p c

/-- empties a register into another; a register moved to itself has its cell again in the end -/
def moveInto : Bank → Bytes → Bytes → Bank
  | ⟨pool, registers⟩, p, source =>
    let c := registers[source]?
    put ⟨pool, registers.erase source⟩ p c

/-- makes the cell in a register refer to the cell in another as its next -/
def linkTo : Bank → Bytes → Bytes → Bank
  | ⟨pool, registers⟩, p, target =>
    match registers[p]? with
    | none => ⟨pool, registers⟩
    | some c =>
      let next := registers[target]?
      let (old, pool) := (pool.hold next).exchangeNext c next
      ⟨pool.release old, registers⟩

def cellAt? (b : Bank) (p : Bytes) : Option Cell :=
  (b.get? p).bind b.pool.cell?

def granted : Bool × Bank → Answer × Bank
  | (true, b) => (.nothing, b)
  | (false, b) => (.refused, b)

def execIn (memory : Memory) (b : Bank) : Command → Answer × Bank
  | .reserve n =>
    match b with
    | ⟨pool, registers⟩ =>
      let (ok, pool) := pool.reserve memory n
      granted (ok, ⟨pool, registers⟩)
  | .new p value => granted (b.newCell memory p value)
  | .many p n => granted (newCells memory p n 0 b)
  | .copy p source =>
    let c := b.get? source
    (.nothing, b.assign p c)
  | .move p source => (.nothing, b.moveInto p source)
  | .clear p => (.nothing, b.put p none)
  | .link p target => (.nothing, b.linkTo p target)
  | .next p source =>
    let c := (b.cellAt? source).bind (·.next)
    (.nothing, b.assign p c)
  | .value p => (.number ((b.cellAt? p).map (·.value)), b)
  | .uses p => (.number (some (((b.cellAt? p).map (·.uses)).getD 0)), b)
  | .equal p q => (.flag (b.get? p = b.get? q), b)
  | .isEmpty p => (.flag (b.get? p).isNone, b)

/-- a request where memory decides by the size of a block alone -/
def exec (grants : Nat → Bool) (b : Bank) (c : Command) : Answer × Bank :=
  b.execIn (fun _ => grants) c

end Bank

end Pool

end NamedLambda
