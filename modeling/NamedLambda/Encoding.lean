import NamedLambda.Term.Alpha

/-!
# Numbers and truth values as terms

The usual encodings: a truth value picks one of two arguments, a numeral applies a function a number
of times.  A closed term is recognised as a value if it equals the encoding up to bound names.
-/

namespace NamedLambda

namespace Encoding

/-- a truth value: `fn t => fn e => t` or `fn t => fn e => e` -/
def bool (b : Bool) (names : NameTable) : Term × NameTable :=
  let (t, names) := names.intern (Bytes.ascii "t")
  let (e, names) := names.intern (Bytes.ascii "e")
  (.lam t (.lam e (.var (if b then t else e))), names)

/-- conjunction: `fn a => fn b => a b false` -/
def and (names : NameTable) : Term × NameTable :=
  let (a, names) := names.intern (Bytes.ascii "a")
  let (b, names) := names.intern (Bytes.ascii "b")
  let (no, names) := bool false names
  (.lam a (.lam b (.app (.app (.var a) (.var b)) no)), names)

/-- the term `f (f (... a))`, with `f` applied `n` times -/
def iterate (f a : Name) : Nat → Term
  | 0 => .var a
  | n + 1 => .app (.var f) (iterate f a n)

/-- a numeral: `fn f => fn a => f (f (... a))`, with `f` applied `n` times -/
def church (n : Nat) (names : NameTable) : Term × NameTable :=
  let (f, names) := names.intern (Bytes.ascii "f")
  let (a, names) := names.intern (Bytes.ascii "a")
  (.lam f (.lam a (iterate f a n)), names)

/-- the successor: `fn n => fn f => fn a => f (n f a)` -/
def succ (names : NameTable) : Term × NameTable :=
  let (n, names) := names.intern (Bytes.ascii "n")
  let (f, names) := names.intern (Bytes.ascii "f")
  let (a, names) := names.intern (Bytes.ascii "a")
  (.lam n (.lam f (.lam a (.app (.var f) (.app (.app (.var n) (.var f)) (.var a))))), names)

end Encoding

inductive Value where
  | truth (b : Bool)
  | numeral (n : Nat)
deriving DecidableEq, Repr, Inhabited

namespace Value

def describe : Value → Bytes
  | truth true => Bytes.ascii "boolean true"
  | truth false => Bytes.ascii "boolean false"
  | numeral n => Bytes.ascii "Church numeral " ++ Bytes.decimal n

/-- how often arguments of applications are nested in each other -/
def argumentDepth : Term → Nat
  | .app _ a => argumentDepth a + 1
  | _ => 0

/-- the only number that a term can encode, if it has two binders at its head -/
def candidate? : Term → Option Nat
  | .lam _ (.lam _ body) => some (argumentDepth body)
  | _ => none

def numeral? (t : Term) (names : NameTable) : Option Value × NameTable :=
  match candidate? t with
  | none => (none, names)
  | some n =>
    let (c, names) := Encoding.church n names
    (if t.alphaEq c then some (numeral n) else none, names)

def truth? (t : Term) (names : NameTable) : Option Value × NameTable :=
  let (yes, names) := Encoding.bool true names
  let (no, names) := Encoding.bool false names
  (if t.alphaEq yes then some (truth true) else if t.alphaEq no then some (truth false) else none,
    names)

/-- all values a term encodes, a number first; false is also zero -/
def classify (t : Term) (names : NameTable) : List Value × NameTable :=
  let (n, names) := numeral? t names
  let (b, names) := truth? t names
  (n.toList ++ b.toList, names)

end Value

end NamedLambda
