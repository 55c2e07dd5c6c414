import NamedLambda.Term.Basic

/-!
# Printing terms

Terms in the surface language.  Parentheses stand only where the grammar needs them: round an
abstraction in function place, whose body would take in the argument, and round an application or
abstraction in argument place, as application associates to the left.
-/

namespace NamedLambda

namespace Term

/-- puts parentheses round what `print` writes, if asked to; the last argument is the text to follow -/
def parenthesise (need : Bool) (print : Bytes → Bytes) (rest : Bytes) : Bytes :=
  if need then 40 :: print (41 :: rest) else print rest

def needsParensAsFn (t : Term) : Bool := t.isLam

def needsParensAsArg (t : Term) : Bool := t.isApp || t.isLam

/-- a term's text, followed by `rest` -/
def printTo (names : NameTable) : Term → Bytes → Bytes
  | hole, rest => Bytes.ascii "[invalid]" ++ rest
  | var x, rest => names.text x ++ rest
  | lam x body, rest =>
    Bytes.ascii "fn " ++ names.text x ++ Bytes.ascii " => " ++ body.printTo names rest
  | app fn arg, rest =>
    parenthesise fn.needsParensAsFn (fn.printTo names)
      (32 :: parenthesise arg.needsParensAsArg (arg.printTo names) rest)

def print (names : NameTable) (t : Term) : Bytes :=
  t.printTo names []

end Term

end NamedLambda
