import ApeScript.Text.Printable
import ApeScript.Text.Utf8

/-!
# Text quoted for messages

Double quotes around the text; quotes and backslashes take a backslash, control characters their
short escape or two hexadecimal digits, stray bytes two digits, and other characters that cannot be
shown four or eight.
-/

namespace ApeScript.Text

/-- The letter that follows the backslash in a short escape. -/
def shortEscape? (c : Nat) : Option Char :=
  match c with
  | 7 => some 'a'
  | 8 => some 'b'
  | 9 => some 't'
  | 10 => some 'n'
  | 11 => some 'v'
  | 12 => some 'f'
  | 13 => some 'r'
  | 34 => some '"'
  | 92 => some '\\'
  | _ => none

def Piece.quoted : Piece → Bytes
  | .stray b => utf8 "\\x" ++ Bytes.hex 2 b.toNat
  | .char c =>
    match shortEscape? c with
    | some e => [Bytes.ofChar '\\', Bytes.ofChar e]
    | none =>
      if isPrintable c then encodeChar c
      else if c < 0x20 || c == 0x7f then utf8 "\\x" ++ Bytes.hex 2 c
      else if c < 0x10000 then utf8 "\\u" ++ Bytes.hex 4 c
      else utf8 "\\U" ++ Bytes.hex 8 c

def quoted (s : Bytes) : Bytes :=
  utf8 "\"" ++ (pieces s).flatMap Piece.quoted ++ utf8 "\""

end ApeScript.Text
