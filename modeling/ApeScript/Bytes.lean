/-!
# Byte strings

Script text, file contents and messages are all byte strings: game text is written in legacy code
pages, so none of them need be valid Unicode. `utf8` gives the bytes of a fixed text; the rest are
the few operations on byte strings that several modules share.
-/

namespace ApeScript

abbrev Bytes := List UInt8

def utf8 (s : String) : Bytes := s.toByteArray.data.toList

namespace Bytes

def ofChar (c : Char) : UInt8 := UInt8.ofNat c.toNat

def ofNat (n : Nat) : Bytes := (Nat.toDigits 10 n).map ofChar

/-- Decimal digits of an integer, a minus sign before a negative one. -/
def ofInt : Int → Bytes
  | .ofNat n => ofNat n
  | .negSucc n => ofChar '-' :: ofNat (n + 1)

/-- The lower-case hexadecimal digit of a number below sixteen. -/
def hexDigit (n : Nat) : UInt8 := ofChar (Nat.digitChar n)

/-- `width` lower-case hexadecimal digits of `n`, the highest first. -/
def hex : (width : Nat) → (n : Nat) → Bytes
  | 0, _ => []
  | width + 1, n => hex width (n / 16) ++ [hexDigit (n % 16)]

def toHex (s : Bytes) : Bytes := s.flatMap fun b => hex 2 b.toNat

/-- The pieces of `s` between separators; a text without one is a single piece. -/
def split (sep : UInt8) (s : Bytes) : List Bytes :=
  s.foldr
    (fun b pieces => if b = sep then [] :: pieces else
      match pieces with
      | piece :: more => (b :: piece) :: more
      | [] => [[b]])
    [[]]

def cut? (sep : UInt8) (s : Bytes) : Option (Bytes × Bytes) :=
  match s.span (· != sep) with
  | (_, []) => none
  | (before, _ :: after) => some (before, after)

def joinWith (sep : Bytes) (pieces : List Bytes) : Bytes := sep.intercalate pieces

/-- The text after `lead`, when the text starts with it. -/
def after? : (lead : Bytes) → Bytes → Option Bytes
  | [], s => some s
  | _ :: _, [] => none
  | a :: lead, b :: s => if a = b then after? lead s else none

def startsWith (lead s : Bytes) : Bool := lead.isPrefixOf s

/-- Whether `part` occurs in `s`. -/
def contains (part : Bytes) : Bytes → Bool
  | [] => part.isEmpty
  | b :: s => part.isPrefixOf (b :: s) || contains part s

def isDigit (b : UInt8) : Bool := 48 ≤ b && b ≤ 57

def isUpper (b : UInt8) : Bool := 65 ≤ b && b ≤ 90

def isLower (b : UInt8) : Bool := 97 ≤ b && b ≤ 122

/-- ASCII letters in lower case; other bytes as they are. -/
def lower (b : UInt8) : UInt8 := if isUpper b then b + 32 else b

def digitsValue (s : Bytes) : Nat := s.foldl (fun n b => 10 * n + (b.toNat - 48)) 0

/-- Byte order: the first difference decides, and a proper beginning comes first. -/
def le : Bytes → Bytes → Bool
  | [], _ => true
  | _ :: _, [] => false
  | a :: s, b :: t => if a = b then le s t else a < b

end Bytes

end ApeScript
