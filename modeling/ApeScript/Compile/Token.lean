import ApeScript.Bytes

/-!
# Places and tokens

Lines and columns of a script count from zero, and a column is a number of bytes. A token is a kind,
the bytes it was read from and the place where they start. What the next token is depends on how it
is read: a `ReadMode` and the `ReadFlags` that go with it.
-/

namespace ApeScript

/-! ### Places -/

structure Location where
  file : Bytes
  line : Nat
  col : Nat
  deriving DecidableEq, Repr, Inhabited

namespace Location

def start (file : Bytes) : Location := ⟨file, 0, 0⟩

def after (l : Location) (b : UInt8) : Location :=
  if b = 10 then ⟨l.file, l.line + 1, 0⟩ else ⟨l.file, l.line, l.col + 1⟩

def advance (l : Location) (text : Bytes) : Location := text.foldl after l

def ofOffset (file text : Bytes) (offset : Nat) : Location :=
  (start file).advance (text.take offset)

def text (l : Location) : Bytes :=
  l.file ++ utf8 "(" ++ Bytes.ofNat (l.line + 1) ++ utf8 "," ++ Bytes.ofNat (l.col + 1) ++ utf8 ")"

end Location

/-! ### Tokens -/

inductive TokenType where
  | endOfLine | endOfFile | identifier | number | colon | string | comma | operator | openParen
  | closeParen | openBrace | closeBrace | hash | assign | raw
  deriving DecidableEq, Repr, Inhabited

namespace TokenType

def all : List TokenType :=
  [endOfLine, endOfFile, identifier, number, colon, string, comma, operator, openParen, closeParen,
   openBrace, closeBrace, hash, assign, raw]

def name : TokenType → Bytes
  | endOfLine => utf8 "EndOfLine" | endOfFile => utf8 "EndOfFile"
  | identifier => utf8 "Identifier" | number => utf8 "NumericLiteral" | colon => utf8 "Colon"
  | string => utf8 "StringLiteral" | comma => utf8 "Comma" | operator => utf8 "ExprOperator"
  | openParen => utf8 "OpenParen" | closeParen => utf8 "CloseParen"
  | openBrace => utf8 "OpenBrace" | closeBrace => utf8 "CloseBrace"
  | hash => utf8 "TopLevelDirective" | assign => utf8 "Assign" | raw => utf8 "AbstractString"

def nameOfNumber (n : Nat) : Bytes :=
  ((all[n]?).map name).getD (utf8 "TokenType(" ++ Bytes.ofNat n ++ utf8 ")")

def endsLine (t : TokenType) : Bool := t = endOfLine || t = endOfFile

end TokenType

/-- A token; a string literal keeps its quotes. -/
structure Token where
  type : TokenType
  text : Bytes
  loc : Location
  deriving DecidableEq, Repr, Inhabited

def Token.is (t : Token) (word : Bytes) : Bool := t.type = .identifier && t.text = word

/-- How the next token is read: as a token of the grammar, as a quoted string, or as everything up
to the next blank. -/
inductive ReadMode where
  | normal | quoted | raw
  deriving DecidableEq, Repr

structure ReadFlags where
  stopNewline : Bool := false
  ignoreEscapes : Bool := false
  allowNewline : Bool := false
  stopParen : Bool := false
  ignoreSpace : Bool := false
  ignoreQuotes : Bool := false
  stopComma : Bool := false
  stopAssign : Bool := false
  noMacros : Bool := false
  deriving DecidableEq, Repr

def isBlankByte (b : UInt8) : Bool := b ≤ 32

/-- A byte of an identifier: a letter, a digit, or one of `_`, `$` and `@`. -/
def isIdentifierByte (b : UInt8) : Bool :=
  Bytes.isDigit b || b = 95 || b = 36 || b = 64 || Bytes.isLower b || Bytes.isUpper b

end ApeScript
