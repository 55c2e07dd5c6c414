/-!
# Byte strings

Source text, names and all that is printed are byte strings, so that text in any encoding, valid or
not, passes through unchanged.  Here are the byte classes of the surface language and the few texts
that are computed: ASCII literals and decimal numerals.
-/

namespace NamedLambda

abbrev Bytes := List UInt8

namespace Byte

def isDigit (b : UInt8) : Bool :=
  48 ≤ b && b ≤ 57

/-- white space: blank, tab, line feed, vertical tab, form feed, carriage return -/
def isBlank (b : UInt8) : Bool :=
  b == 32 || (9 ≤ b && b ≤ 13)

def isControl (b : UInt8) : Bool :=
  b < 32 || b == 127

/-- a byte that continues a UTF-8 sequence and so starts no character of its own -/
def isContinuation (b : UInt8) : Bool :=
  128 ≤ b && b < 192

end Byte

namespace Bytes

def ascii (s : String) : Bytes :=
  s.toList.map fun c => c.toNat.toUInt8

def decimal (n : Nat) : Bytes :=
  (Nat.toDigits 10 n).map fun c => c.toNat.toUInt8

def untilZero (s : Bytes) : Bytes :=
  s.takeWhile (· != 0)

/-- the lines of a text, where some bytes of its first line, in reverse, have been read already -/
def linesFrom : Bytes → Bytes → List Bytes
  | [], [] => []
  | b :: sofar, [] => [(b :: sofar).reverse]
  | sofar, b :: s => if b == 10 then sofar.reverse :: linesFrom [] s else linesFrom (b :: sofar) s

/-- the lines of a text; a line feed ends a line, and a last line may lack it -/
def lines (s : Bytes) : List Bytes :=
  linesFrom [] s

end Bytes

end NamedLambda
