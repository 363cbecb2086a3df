import ApeScript.Charset.CodePage
import ApeScript.Text.Lower
import ApeScript.Text.Quoted

/-!
# Character sets of game text

Game text is stored in a legacy code page and shown as UTF-8. `Charset.decode` reads stored bytes,
`Charset.encode` writes a text back and fails on a character outside the page. The raw character
set passes bytes through untouched.
-/

namespace ApeScript

inductive Charset where
  | raw
  | page (p : CodePage)
  deriving DecidableEq, Repr

inductive CharsetError where
  | unknown (name : Bytes)
  | unencodable (p : CodePage)
  deriving DecidableEq, Repr

def CharsetError.message : CharsetError → Bytes
  | unknown name => utf8 "unknown charset " ++ Text.quoted name
  | unencodable p =>
      utf8 "encode to " ++ p.name ++ utf8 ": encoding: rune not supported by encoding."

namespace CodePage

def char (p : CodePage) (b : UInt8) : Nat :=
  if b < 128 then b.toNat else p.upper.getD (b.toNat - 128) undefinedChar

def byte? (p : CodePage) (c : Nat) : Option UInt8 :=
  if c < 128 then some (UInt8.ofNat c)
  else if c = undefinedChar then none
  else (p.upper.findIdx? (· = c)).map fun i => UInt8.ofNat (i + 128)

def decode (p : CodePage) (s : Bytes) : Bytes :=
  let upper := p.upper.toArray
  s.flatMap fun b =>
    if b < 128 then [b] else Text.encodeChar (upper.getD (b.toNat - 128) undefinedChar)

def pieceByte? (p : CodePage) : Text.Piece → Option UInt8
  | .char c => p.byte? c
  | .stray _ => none

end CodePage

namespace Charset

def name : Charset → Bytes
  | raw => utf8 "raw"
  | page p => p.name

def aliases : List (Bytes × CodePage) :=
  [(utf8 "cp1252", .windows1252), (utf8 "latin1", .iso1)]

/-- The character set with a name, whatever its case and the blanks around it. -/
def lookup (name : Bytes) : Except CharsetError Charset :=
  let key := Text.lower (Text.trim name)
  if key.isEmpty || key = utf8 "raw" then .ok raw
  else
    match aliases.find? (·.1 = key) with
    | some (_, p) => .ok (page p)
    | none =>
      match CodePage.all.find? (·.name = key) with
      | some p => .ok (page p)
      | none => .error (.unknown name)

def decode : Charset → Bytes → Bytes
  | raw, s => s
  | page p, s => p.decode s

def encode : Charset → Bytes → Except CharsetError Bytes
  | raw, s => .ok s
  | page p, s =>
    match (Text.pieces s).mapM p.pieceByte? with
    | some stored => .ok stored
    | none => .error (.unencodable p)

end Charset

end ApeScript
