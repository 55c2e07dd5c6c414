import NamedLambda.Term.Alpha

/-!
# Nodes

A node is a term with an identity, so that a part reached on two ways can be told to be one and the
same node.  With each node are kept the facts about its term that reduction asks for again and again:
its free names, all its names, whether it is in normal form, and its height.
-/

namespace NamedLambda

/-- facts about a term: the names free in it, all names in it as variable or binder, whether it has
no redex, and the height of its tree -/
structure Facts where
  free : NameSet
  all : NameSet
  normal : Bool
  height : Nat

namespace Facts

def ofHole : Facts := ⟨.empty, .empty, true, 0⟩

def ofVar (x : Name) : Facts := ⟨.singleton x, .singleton x, true, 0⟩

def ofLam (x : Name) (body : Facts) : Facts :=
  ⟨body.free.erase x, body.all.insert x, body.normal, body.height + 1⟩

def ofApp (fnIsLam : Bool) (fn arg : Facts) : Facts :=
  ⟨fn.free.union arg.free, fn.all.union arg.all, !fnIsLam && fn.normal && arg.normal,
    max fn.height arg.height + 1⟩

end Facts

/-- a term whose nodes have identities -/
inductive Node where
  | hole (id : Nat)
  | var (id : Nat) (x : Name)
  | lam (id : Nat) (facts : Facts) (x : Name) (body : Node)
  | app (id : Nat) (facts : Facts) (fn arg : Node)

namespace Node

instance : Inhabited Node := ⟨hole 0⟩

def id : Node → Nat
  | hole i => i
  | var i _ => i
  | lam i _ _ _ => i
  | app i _ _ _ => i

def facts : Node → Facts
  | hole _ => .ofHole
  | var _ x => .ofVar x
  | lam _ k _ _ => k
  | app _ k _ _ => k

def free (t : Node) : NameSet := t.facts.free

def all (t : Node) : NameSet := t.facts.all

def normal (t : Node) : Bool := t.facts.normal

def height (t : Node) : Nat := t.facts.height

def isLam : Node → Bool
  | lam _ _ _ _ => true
  | _ => false

def term : Node → Term
  | hole _ => .hole
  | var _ x => .var x
  | lam _ _ x b => .lam x b.term
  | app _ _ f a => .app f.term a.term

def same (s t : Node) : Bool := s.id == t.id

/-- equality up to the names of bound variables; a node equals itself, even if it has holes -/
def alphaEq (s t : Node) : Bool := s.same t || s.term.alphaEq t.term

def body? : Node → Option Node
  | lam _ _ _ b => some b
  | _ => none

def fn? : Node → Option Node
  | app _ _ f _ => some f
  | _ => none

def arg? : Node → Option Node
  | app _ _ _ a => some a
  | _ => none

end Node

end NamedLambda
