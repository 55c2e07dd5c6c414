import NamedLambda.Diagnostic
import NamedLambda.Program
import NamedLambda.Token

/-!
# Reading terms and programs

The grammar, with `ident` for a name:

    Program    → (Definition ;?)* Main
    Definition → ident := Term
    Main       → (main :=)? Term ;?
    Term       → Atom* fn ident => Term  |  Atom+
    Atom       → ident  |  ( Term )

Application associates to the left, and an abstraction reaches to the end of its term.  A name
directly before `:=` starts the next definition, so two tokens are in view.  Names enter the table as
they are read.  Reading stops at the first token that cannot be right and reports it.
-/

namespace NamedLambda

/-- what can be wrong with a token -/
inductive Fault where
  | unrecognised
  | missingMain
  | emptyTerm
  | strayArrow
  | strayDefine
  | expectedEnd
  | expectedClosing
  | expectedParameter
  | expectedArrow
  | noAtom
  | noAbstraction
deriving DecidableEq, Repr, Inhabited

namespace Fault

def message : Fault → Bytes
  | unrecognised => Bytes.ascii "Unrecognised character."
  | missingMain => Bytes.ascii "Missing main term."
  | emptyTerm => Bytes.ascii "(Sub)expression is empty."
  | strayArrow => Bytes.ascii "Unexpected '=>'. Expecting a term."
  | strayDefine => Bytes.ascii "Unexpected ':='. Expecting a term."
  | expectedEnd => Bytes.ascii "Unexpected token. Expecting end of input."
  | expectedClosing => Bytes.ascii "Unexpected token. Expecting closing parenthesis."
  | expectedParameter => Bytes.ascii "Unexpected token. Expecting a parameter name after 'fn'."
  | expectedArrow => Bytes.ascii "Unexpected token. Expecting '=>'."
  | noAtom => Bytes.ascii "Internal parser error: unexpected call to ParseAtom at this token."
  | noAbstraction =>
    Bytes.ascii "Internal parser error: unexpected call to ParseAbstraction at this token."

end Fault

structure SyntaxError where
  fault : Fault
  offset : Nat
deriving DecidableEq, Repr, Inhabited

namespace SyntaxError

def position (source : Bytes) (e : SyntaxError) : Position :=
  Position.ofOffset source e.offset

def diagnostic (source : Bytes) (e : SyntaxError) : Diagnostic :=
  ⟨e.fault.message, some (e.position source)⟩

end SyntaxError

/-- a reader at work: the tokens ahead, the names met so far, the name `main`, and the last error -/
structure Parser where
  stream : TokenStream
  names : NameTable
  mainName : Name
  error : Option SyntaxError

namespace Parser

abbrev Result (α : Type) := Except SyntaxError α × Parser

/-- a reader at the start of a source; it knows the name `main` -/
def start (names : NameTable) (source : Bytes) : Parser :=
  let (main, names) := names.intern (Bytes.ascii "main")
  ⟨TokenStream.ofSource source, names, main, none⟩

def kind (p : Parser) : Token.Kind := p.stream.current.kind

/-- whether a definition starts here -/
def atDefinition (p : Parser) : Bool :=
  p.kind = .name && p.stream.next.kind = .define

def discard (p : Parser) : Parser :=
  { p with stream := p.stream.discard }

/-- reports a fault of the token at hand -/
def fail {α : Type} (p : Parser) (fault : Fault) : Result α :=
  let e := ⟨fault, p.stream.current.offset⟩
  (.error e, { p with error := some e })

/-- consumes the token at hand as a name -/
def takeName (p : Parser) : Name × Parser :=
  let (x, names) := p.names.intern p.stream.current.text
  (x, { p with names := names, stream := p.stream.discard })

/-! ## terms -/

/-- applies what has been read so far, if anything, to the next part -/
def extend (sofar : Option Term) (t : Term) : Term :=
  match sofar with
  | none => t
  | some f => .app f t

def finish (p : Parser) (sofar : Option Term) : Result Term :=
  match sofar with
  | none => p.fail .emptyTerm
  | some t => (.ok t, p)

/-- reads an atom; `term` reads the term in parentheses -/
def atomBy (term : Parser → Result Term) (p : Parser) : Result Term :=
  match p.kind with
  | .leftParen =>
    match term p.discard with
    | (.error e, p) => (.error e, p)
    | (.ok t, p) => if p.kind = .rightParen then (.ok t, p.discard) else p.fail .expectedClosing
  | .name =>
    let (x, p) := p.takeName
    (.ok (.var x), p)
  | _ => p.fail .noAtom

/-- reads an abstraction; `term` reads its body -/
def abstractionBy (term : Parser → Result Term) (p : Parser) : Result Term :=
  if p.kind = .fn then
    let p := p.discard
    if p.kind = .name then
      let (x, p) := p.takeName
      if p.kind = .arrow then
        match term p.discard with
        | (.error e, p) => (.error e, p)
        | (.ok t, p) => (.ok (.lam x t), p)
      else p.fail .expectedArrow
    else p.fail .expectedParameter
  else p.fail .noAbstraction

/-- reads the rest of a term; every part takes a token at least, and the first argument bounds their
number -/
def termFrom : Nat → Option Term → Parser → Result Term
  | 0, _, p => p.fail .emptyTerm
  | n + 1, sofar, p =>
    match p.kind with
    | .invalid => p.fail .unrecognised
    | .endOfInput | .rightParen | .semicolon => p.finish sofar
    | .fn =>
      match p.abstractionBy (termFrom n none) with
      | (.error e, p) => (.error e, p)
      | (.ok t, p) => (.ok (extend sofar t), p)
    | .name | .leftParen =>
      if p.atDefinition then p.finish sofar
      else
        match p.atomBy (termFrom n none) with
        | (.error e, p) => (.error e, p)
        | (.ok t, p) => termFrom n (some (extend sofar t)) p
    | .arrow => p.fail .strayArrow
    | .define => p.fail .strayDefine

/-- a bound on the number of parts ahead -/
def bound (p : Parser) : Nat := p.stream.tokens.length + 1

def term (p : Parser) : Result Term := termFrom p.bound none p

def atom (p : Parser) : Result Term := p.atomBy (termFrom p.bound none)

def abstraction (p : Parser) : Result Term := p.abstractionBy (termFrom p.bound none)

/-- requires the end of the source -/
def endOfInput (p : Parser) : Result Unit :=
  match p.kind with
  | .endOfInput => (.ok (), p)
  | .invalid => p.fail .unrecognised
  | _ => p.fail .expectedEnd

def wholeTerm (p : Parser) : Result Term :=
  match p.term with
  | (.error e, p) => (.error e, p)
  | (.ok t, p) =>
    match p.endOfInput with
    | (.error e, p) => (.error e, p)
    | (.ok _, p) => (.ok t, p)

/-! ## programs -/

def semicolon (p : Parser) : Parser :=
  if p.kind = .semicolon then p.discard else p

def finishProgram (p : Parser) (definitions : List Definition) (main : Term) : Result Program :=
  match p.semicolon.endOfInput with
  | (.error e, p) => (.error e, p)
  | (.ok _, p) => (.ok ⟨definitions.reverse, main⟩, p)

/-- reads the rest of a program after some definitions, the last of which comes first; the first
argument bounds the number of definitions -/
def programFrom : Nat → List Definition → Parser → Result Program
  | 0, _, p => p.fail .missingMain
  | n + 1, definitions, p =>
    if p.kind = .endOfInput then p.fail .missingMain
    else if p.atDefinition then
      let (x, p) := p.takeName
      match p.discard.term with
      | (.error e, p) => (.error e, p)
      | (.ok t, p) =>
        if x = p.mainName then p.finishProgram definitions t
        else programFrom n (⟨x, t⟩ :: definitions) p.semicolon
    else
      match p.term with
      | (.error e, p) => (.error e, p)
      | (.ok t, p) => p.finishProgram definitions t

def program (p : Parser) : Result Program := programFrom p.bound [] p

end Parser

def Term.parse (names : NameTable) (source : Bytes) : Except SyntaxError Term × NameTable :=
  let (t, p) := (Parser.start names source).wholeTerm
  (t, p.names)

/-- reads a source that is one term and ends at the first zero byte, if it has one -/
def Term.parseTerminated (names : NameTable) (source : Bytes) :
    Except SyntaxError Term × NameTable :=
  Term.parse names (Bytes.untilZero source)

def Program.parse (names : NameTable) (source : Bytes) : Except SyntaxError Program × NameTable :=
  let (t, p) := (Parser.start names source).program
  (t, p.names)

end NamedLambda
