import NamedLambda.Bytes

/-!
# Positions and diagnostics

A position in a source is an offset in bytes, with the line and the column it falls on, both counted
from one.  Columns count characters: a byte that continues a UTF-8 sequence does not advance them.  A
diagnostic shows the line it is about with a caret under the position.
-/

namespace NamedLambda

structure Position where
  offset : Nat
  line : Nat
  column : Nat
deriving DecidableEq, Repr, Inhabited

namespace Position

def advance (p : Position) (b : UInt8) : Position :=
  if b == 10 then ⟨p.offset + 1, p.line + 1, 1⟩
  else if Byte.isContinuation b then ⟨p.offset + 1, p.line, p.column⟩
  else ⟨p.offset + 1, p.line, p.column + 1⟩

def ofOffset (source : Bytes) (offset : Nat) : Position :=
  (source.take offset).foldl advance ⟨0, 1, 1⟩

end Position

/-- a message about a source, at a position if it has one -/
structure Diagnostic where
  message : Bytes
  position : Option Position
deriving DecidableEq, Repr, Inhabited

namespace Diagnostic

def lineBefore (source : Bytes) (offset : Nat) : Bytes :=
  ((source.take offset).reverse.takeWhile (· != 10)).reverse

def lineAfter (source : Bytes) (offset : Nat) : Bytes :=
  (source.drop offset).takeWhile (· != 10)

/-- what stands before the caret: a tab under each tab and a blank under each other character -/
def padding (before : Bytes) : Bytes :=
  (before.filter (!Byte.isContinuation ·)).map fun b => if b == 9 then 9 else 32

/-- the line an offset falls on, and a caret under the offset -/
def excerpt (source : Bytes) (offset : Nat) : Bytes :=
  lineBefore source offset ++ lineAfter source offset ++ [10] ++
    padding (lineBefore source offset) ++ Bytes.ascii "^\n"

def render (title source : Bytes) (d : Diagnostic) : Bytes :=
  match d.position with
  | none => title ++ Bytes.ascii ": Error: " ++ d.message ++ [10]
  | some p =>
    title ++ Bytes.ascii ":" ++ Bytes.decimal p.line ++ Bytes.ascii ":" ++ Bytes.decimal p.column ++
      Bytes.ascii ": Error: " ++ d.message ++ [10] ++ excerpt source p.offset

end Diagnostic

end NamedLambda
