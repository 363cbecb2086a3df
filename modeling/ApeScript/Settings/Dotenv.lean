import ApeScript.Settings.Basic
import ApeScript.Text.Letter
import ApeScript.Text.Utf8

/-!
# Environment files

A file of variables: names, an equals sign or a colon, and values, one to a line, with comments
after number signs. A value in double quotes may have escapes and span lines, one in single quotes
is taken as it is, and any other value ends with its line. Values in double quotes and bare values
may mention earlier variables of the file after a dollar sign. A malformed file sets nothing.
-/

namespace ApeScript.Dotenv

def isBlank (c : Nat) : Bool :=
  c == 9 || c == 11 || c == 12 || c == 13 || c == 32 || c == 0x85 || c == 0xa0

def isBlankPiece : Text.Piece → Bool
  | .char c => isBlank c
  | .stray _ => false

def trimLeft (s : Bytes) : Bytes := Text.flatten ((Text.pieces s).dropWhile isBlankPiece)

def trimPieces (ps : List Text.Piece) : List Text.Piece :=
  ((ps.dropWhile isBlankPiece).reverse.dropWhile isBlankPiece).reverse

def joinReturns : Bytes → Bytes
  | 13 :: 10 :: rest => 10 :: joinReturns rest
  | b :: rest => b :: joinReturns rest
  | [] => []

/-- The text from its next statement on, past white space and comments; `fuel` is at least the
number of bytes. -/
def statementStart : (fuel : Nat) → Bytes → Option Bytes
  | 0, _ => none
  | fuel + 1, s =>
    match Text.flatten ((Text.pieces s).dropWhile Text.Piece.isBlank) with
    | [] => none
    | 35 :: rest => statementStart fuel (rest.dropWhile (· ≠ 10))
    | s => some s

def isNameByte (b : UInt8) : Bool :=
  let c := b.toNat
  isBlank c || b = 95 || b = 46 || Bytes.isDigit b || Text.isLetter c ||
    c == 0xb2 || c == 0xb3 || c == 0xb9 || (0xbc ≤ c && c ≤ 0xbe)

def isAssign (b : UInt8) : Bool := b = 61 || b = 58

def skipExport (s : Bytes) : Bytes :=
  match Bytes.after? (utf8 "export") s with
  | some rest => if trimLeft rest = rest then s else trimLeft rest
  | none => s

/-- A name and what follows the sign after it. Without such a sign the name is empty and nothing is
skipped. -/
def name? (s : Bytes) : Option (Bytes × Bytes) :=
  let s := skipExport (trimLeft s)
  let read := s.takeWhile fun b => !isAssign b
  if s.isEmpty || !read.all isNameByte then none
  else
    match s.drop read.length with
    | _ :: rest =>
      let trimmed := Text.flatten
        ((Text.pieces read).reverse.dropWhile Text.Piece.isBlank).reverse
      some (trimmed, trimLeft rest)
    | [] => some ([], trimLeft s)

/-! ### Values -/

def isVariableByte (b : UInt8) : Bool := Bytes.isDigit b || Bytes.isUpper b || b = 95

def optionalByte (b : UInt8) : Bytes → Bytes × Bytes
  | c :: rest => if c = b then ([c], rest) else ([], c :: rest)
  | [] => ([], [])

/-- What a dollar sign and the text after it stand for, and how much of that text belongs to the
mention. A dollar sign that names no variable stands for itself. -/
def mention (values : Environment) (s : Bytes) : Bytes × Nat :=
  let (paren, s1) := optionalByte 40 s
  let (brace, s2) := optionalByte 123 s1
  let named := s2.takeWhile isVariableByte
  let (close, _) := optionalByte 125 (s2.drop named.length)
  let size := paren.length + brace.length + named.length + close.length
  if named.isEmpty then (36 :: s.take size, size) else ((values.get? named).getD [], size)

/-- Replaces mentioned variables; a backslash before the dollar sign keeps it. `skip` bytes belong
to the last mention. -/
def expandFrom (values : Environment) : (skip : Nat) → Bytes → Bytes
  | _, [] => []
  | skip + 1, _ :: rest => expandFrom values skip rest
  | 0, 92 :: 36 :: rest =>
    let size := (mention ⟨[]⟩ rest).2
    36 :: (rest.take size ++ expandFrom values (size + 1) (36 :: rest))
  | 0, 36 :: rest =>
    let (replacement, size) := mention values rest
    replacement ++ expandFrom values size rest
  | 0, b :: rest => b :: expandFrom values 0 rest

def expand (values : Environment) (s : Bytes) : Bytes := expandFrom values 0 s

/-- Escapes for line feeds and carriage returns; other escapes stay. -/
def lineEscapes : Bytes → Bytes
  | 92 :: 10 :: rest => 92 :: 10 :: lineEscapes rest
  | 92 :: b :: rest =>
    if b = 110 then 10 :: lineEscapes rest
    else if b = 114 then 13 :: lineEscapes rest
    else 92 :: b :: lineEscapes rest
  | b :: rest => b :: lineEscapes rest
  | [] => []

/-- Drops a backslash before any byte but a dollar sign. -/
def dropEscapes : Bytes → Bytes
  | 92 :: b :: rest => if b = 36 then 92 :: dropEscapes (b :: rest) else b :: dropEscapes rest
  | b :: rest => b :: dropEscapes rest
  | [] => []

/-- The number of bytes before the quote that closes a text; a quote after a backslash does not. -/
def closing? (quote : UInt8) : (index : Nat) → (previous : UInt8) → Bytes → Option Nat
  | _, _, [] => none
  | index, previous, b :: rest =>
    if b = quote && previous ≠ 92 then some index else closing? quote (index + 1) b rest

def trimQuotes (quote : UInt8) (s : Bytes) : Bytes :=
  ((s.dropWhile (· = quote)).reverse.dropWhile (· = quote)).reverse

/-- The number of pieces before a comment: a number sign after a blank, the last one of a line. -/
def beforeComment (ps : List Text.Piece) : List Text.Piece :=
  let marks := (ps.zip (ps.drop 1)).zipIdx.filter fun ((a, b), _) =>
    isBlankPiece a && b = .char 35
  match marks.getLast? with
  | some (_, i) => ps.take (i + 1)
  | none => ps

/-- A value and what follows it. A value without quotes is read as characters, a stray byte as the
replacement character. -/
def value? (values : Environment) (s : Bytes) : Option (Bytes × Bytes) :=
  match s with
  | [] => some ([], [])
  | first :: rest =>
    if first = 34 || first = 39 then
      (closing? first 0 first rest).map fun size =>
        let inside := trimQuotes first (rest.take size)
        let value := if first = 34 then expand values (dropEscapes (lineEscapes inside)) else inside
        (value, rest.drop (size + 1))
    else
      let line := s.takeWhile fun b => b ≠ 10 && b ≠ 13
      let text := Text.mend (trimPieces (beforeComment (Text.pieces line)))
      some (expand values text, s.drop line.length)

/-- The variables of the statements from `s` on; `fuel` is at least the number of bytes. -/
def statements : (fuel : Nat) → Environment → Bytes → Option Environment
  | 0, values, _ => some values
  | fuel + 1, values, s =>
    match statementStart (s.length + 1) s with
    | none => some values
    | some s => do
      let (name, rest) ← name? s
      let (value, rest) ← value? values rest
      statements fuel (values.set name value) rest

/-- The variables of a file, unless it is malformed. -/
def parse? (s : Bytes) : Option Environment :=
  let s := joinReturns s
  statements (s.length + 1) ⟨[]⟩ s

/-- The environment after loading a file; variables that are set stay as they are. -/
def load (e : Environment) (s : Bytes) : Environment :=
  match parse? s with
  | some values => values.entries.foldl (fun e (name, value) => e.setIfMissing name value) e
  | none => e

end ApeScript.Dotenv
