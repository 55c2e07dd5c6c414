import NamedLambda.Bytes

/-!
# Tokens

The words of the surface language: parentheses, `fn`, `=>`, `:=`, `;` and names.  Anything that is not
a control byte, white space or one of `( ) ; #` may stand in a name, so names in UTF-8 work; only `:=`
and `=>` break a name off.  White space and comments, from `#` to the end of the line, separate.
A control byte that is not white space is a token of its own, which no construct accepts.
-/

namespace NamedLambda

namespace Token

inductive Kind where
  | invalid
  | endOfInput
  | leftParen
  | rightParen
  | fn
  | arrow
  | define
  | semicolon
  | name
deriving DecidableEq, Repr, Inhabited

end Token

/-- a token: what it is, where it starts, and the bytes it is made of -/
structure Token where
  kind : Token.Kind
  offset : Nat
  text : Bytes
deriving DecidableEq, Repr, Inhabited

namespace Token

/-- why a token of this kind can never be accepted, if so -/
def Kind.reason? : Kind → Option Bytes
  | .invalid => some (Bytes.ascii "Unrecognised character.")
  | _ => none

/-! ## words -/

def isNameByte (b : UInt8) : Bool :=
  !(Byte.isBlank b || Byte.isControl b || b == 40 || b == 41 || b == 59 || b == 35)

def startsDefine (s : Bytes) : Bool :=
  [58, 61].isPrefixOf s

def startsArrow (s : Bytes) : Bool :=
  [61, 62].isPrefixOf s

def splitName : Bytes → Bytes × Bytes
  | [] => ([], [])
  | b :: s =>
    if isNameByte b && !startsDefine (b :: s) && !startsArrow (b :: s) then
      let (word, rest) := splitName s
      (b :: word, rest)
    else ([], b :: s)

/-- the kind of a word: `fn` is no name -/
def wordKind (word : Bytes) : Kind :=
  if word = [102, 110] then .fn else .name

/-- the token at the start of a text, its bytes, and the rest of the text; the text starts with `b`,
which is neither white space nor `#` -/
def read (b : UInt8) (s : Bytes) : Kind × Bytes × Bytes :=
  if b == 40 then (.leftParen, [b], s)
  else if b == 41 then (.rightParen, [b], s)
  else if b == 59 then (.semicolon, [b], s)
  else if startsDefine (b :: s) then (.define, [58, 61], s.drop 1)
  else if startsArrow (b :: s) then (.arrow, [61, 62], s.drop 1)
  else if Byte.isControl b then (.invalid, [b], s)
  else
    let (word, rest) := splitName (b :: s)
    (wordKind word, word, rest)

/-- drops white space and comments, counting the bytes dropped on top of `offset`; the flag says
whether a comment is open -/
def skipBlank : Bool → Nat → Bytes → Nat × Bytes
  | _, offset, [] => (offset, [])
  | true, offset, b :: s => skipBlank (b != 10) (offset + 1) s
  | false, offset, b :: s =>
    if Byte.isBlank b then skipBlank false (offset + 1) s
    else if b == 35 then skipBlank true (offset + 1) s
    else (offset, b :: s)

/-- the tokens of a text that starts at `offset`; each takes a byte at least, and the first argument
bounds their number -/
def scanFrom : Nat → Nat → Bytes → List Token
  | 0, _, _ => []
  | n + 1, offset, s =>
    match skipBlank false offset s with
    | (_, []) => []
    | (offset, b :: s) =>
      let (kind, text, rest) := read b s
      ⟨kind, offset, text⟩ :: scanFrom n (offset + text.length) rest

end Token

/-! ## streams of tokens -/

/-- the tokens not yet consumed, and the length of the source, where the end of input stands -/
structure TokenStream where
  tokens : List Token
  size : Nat
deriving DecidableEq, Repr, Inhabited

namespace TokenStream

def ofSource (source : Bytes) : TokenStream where
  tokens := Token.scanFrom source.length 0 source
  size := source.length

/-- the token that stands behind all others -/
def stop (ts : TokenStream) : Token :=
  ⟨.endOfInput, ts.size, []⟩

def current (ts : TokenStream) : Token :=
  ts.tokens.headD ts.stop

def next (ts : TokenStream) : Token :=
  ts.tokens.tail.headD ts.stop

/-- consumes the token at hand; the end of input stays -/
def discard (ts : TokenStream) : TokenStream :=
  { ts with tokens := ts.tokens.tail }

def toList (ts : TokenStream) : List Token :=
  ts.tokens ++ [ts.stop]

end TokenStream

end NamedLambda
