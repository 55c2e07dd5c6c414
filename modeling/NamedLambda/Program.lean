import NamedLambda.Node.Heap
import NamedLambda.Term.Print

/-!
# Programs

A program is a list of definitions and a main term.  It stands for one term, in which every
definition is a binder applied to its value.
-/

namespace NamedLambda

structure Definition where
  name : Name
  value : Term
deriving DecidableEq, Repr, Inhabited

/-- a program: definitions in source order, then the main term -/
structure Program where
  definitions : List Definition
  main : Term
deriving DecidableEq, Repr, Inhabited

def Definition.print (names : NameTable) (d : Definition) : Bytes :=
  names.text d.name ++ Bytes.ascii " := " ++ d.value.print names

namespace Program

/-- one term for the whole program: each definition binds its name in all that follows it, and a
later definition of a name hides an earlier one -/
def unroll (p : Program) : Term :=
  p.definitions.foldr (fun d rest => .app (.lam d.name rest) d.value) p.main

/-- the names that neither a definition nor an abstraction binds, read off a new node for the
program's one term -/
def unbound (p : Program) (h : Heap) : List Name := (h.build p.unroll).1.free.toList

def print (names : NameTable) (p : Program) : Bytes :=
  p.definitions.flatMap (fun d => d.print names ++ Bytes.ascii ";\n") ++
    Bytes.ascii "main := " ++ p.main.print names ++ Bytes.ascii ";"

end Program

end NamedLambda
