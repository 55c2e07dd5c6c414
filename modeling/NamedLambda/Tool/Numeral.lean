import NamedLambda.Bytes

/-!
# Numbers on the command line

A number may have white space and a sign before its digits.  Step limits are words of 64 bits: what
is too large becomes the largest word, and a minus sign negates modulo the word size.
-/

namespace NamedLambda

namespace Numeral

def digitsValue (digits : Bytes) : Nat :=
  digits.foldl (fun n d => 10 * n + (d.toNat - 48)) 0

/-- takes a sign off the start of a text, and says whether it is a minus sign -/
def splitSign : Bytes → Bool × Bytes
  | [] => (false, [])
  | b :: s => if b == 45 then (true, s) else if b == 43 then (false, s) else (false, b :: s)

/-- a number at the start of a text: its sign, its digits, and what follows them -/
def split (s : Bytes) : Bool × Bytes × Bytes :=
  let (negative, s) := splitSign (s.dropWhile Byte.isBlank)
  (negative, s.takeWhile Byte.isDigit, s.dropWhile Byte.isDigit)

def wordSize : Nat := 18446744073709551616

/-- the word that a sign and digits write -/
def word (negative : Bool) (digits : Bytes) : Nat :=
  let n := digitsValue digits
  if wordSize ≤ n then wordSize - 1
  else if negative then (wordSize - n) % wordSize
  else n

/-- the step limit that an argument writes; the argument must not be empty, start with a minus sign,
lack digits or go on after them -/
def stepLimit? (s : Bytes) : Option Nat :=
  match s with
  | [] => none
  | b :: _ =>
    if b == 45 then none
    else
      match split s with
      | (_, [], _) => none
      | (negative, digits, []) => some (word negative digits)
      | _ => none

/-- a number held within the bounds of a signed word of 64 bits -/
def clamp (n : Int) : Int :=
  max (-9223372036854775808) (min n 9223372036854775807)

/-- the count at the start of an argument, zero if there is none; only its low 32 bits matter, as a
signed number -/
def count (s : Bytes) : Int :=
  let (negative, digits, _) := split s
  let n : Int := digitsValue digits
  (clamp (if negative then -n else n)).bmod 4294967296

end Numeral

end NamedLambda
