import NamedLambda.Name.Set

/-!
# Fresh names

A fresh name is made from a hint: the hint's base (its text without trailing digits) followed by a
counter.  Each base has a counter of its own, which only moves forward.  A candidate that the table
has never seen occurs nowhere and is accepted at once; about any other the caller is asked.
-/

namespace NamedLambda

/-- a supply of fresh names: the counter of each base that has one, by the base's place in the table -/
structure Fresh where
  counters : Std.TreeMap Nat Nat

namespace Fresh

def new : Fresh := ⟨∅⟩

instance : Inhabited Fresh := ⟨new⟩

def counter (fresh : Fresh) (base : Name) : Nat :=
  fresh.counters.getD base.index 0

/-- a text without its trailing digits -/
def stem (s : Bytes) : Bytes :=
  (s.reverse.dropWhile Byte.isDigit).reverse

/-- the base of a name; a name of digits only, or without trailing digits, is its own base.  A supply
keeps no bases: each request finds its base anew, and interning gives the same name every time. -/
def base (names : NameTable) (hint : Name) : Name × NameTable :=
  let text := names.text hint
  let s := stem text
  if s.isEmpty || s.length == text.length then (hint, names) else names.intern s

/-- what a request for a fresh name gives: the name, the candidates the caller was asked about, in
order, the counter after it, and the table -/
structure Pick where
  name : Name
  asked : List Name
  counter : Nat
  names : NameTable

/-- tries the candidates from `c` on, at most `n` of which may be refused -/
def pickFrom (taken : Name → Bool) (baseText : Bytes) : Nat → Nat → NameTable → Pick
  | 0, c, names =>
    let (x, names) := names.intern (baseText ++ Bytes.decimal c)
    ⟨x, [], c + 1, names⟩
  | n + 1, c, names =>
    match names.find? (baseText ++ Bytes.decimal c) with
    | none =>
      let (x, names) := names.intern (baseText ++ Bytes.decimal c)
      ⟨x, [], c + 1, names⟩
    | some x =>
      if taken x then
        let p := pickFrom taken baseText n (c + 1) names
        { p with asked := x :: p.asked }
      else ⟨x, [x], c + 1, names⟩

/-- a fresh name for `hint` that `taken` does not refuse.  The candidates differ, so no more of them
than the table has names can be refused. -/
def generate (fresh : Fresh) (names : NameTable) (hint : Name) (taken : Name → Bool) :
    Pick × Fresh :=
  let (b, names) := base names hint
  let p := pickFrom taken (names.text b) names.size (fresh.counter b) names
  (p, ⟨fresh.counters.insert b.index p.counter⟩)

def clashes (s t : NameSet) (excluded x : Name) : Bool :=
  x == excluded || s.contains x || t.contains x

def generateApart (fresh : Fresh) (names : NameTable) (hint : Name) (s t : NameSet)
    (excluded : Name) : Pick × Fresh :=
  fresh.generate names hint (clashes s t excluded)

end Fresh

end NamedLambda
