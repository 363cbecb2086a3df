import ApeScript.Bytes

/-!
# UTF-8

`pieces` cuts a byte string into well-formed characters and stray bytes, from left to right: a
byte that does not start a well-formed sequence is stray, and reading goes on at the next byte.
`encodeChar` writes a character; `flatten` puts pieces back together, and `mend` does so with a
replacement character for each stray byte. `inRanges` looks a code point up in a table.
-/

namespace ApeScript.Text

/-- Whether a code point lies in one of the ranges, which are increasing and hold both their ends. -/
def inRanges (c : Nat) : List (Nat × Nat) → Bool
  | [] => false
  | (lo, hi) :: more => if c < lo then false else if c ≤ hi then true else inRanges c more

inductive Piece where
  | char (code : Nat)
  | stray (b : UInt8)
  deriving DecidableEq, Repr

def encodeChar (c : Nat) : Bytes :=
  if c < 0x80 then [UInt8.ofNat c]
  else if c < 0x800 then [UInt8.ofNat (0xc0 + c / 64), UInt8.ofNat (0x80 + c % 64)]
  else if c < 0x10000 then
    [UInt8.ofNat (0xe0 + c / 4096), UInt8.ofNat (0x80 + c / 64 % 64), UInt8.ofNat (0x80 + c % 64)]
  else
    [UInt8.ofNat (0xf0 + c / 262144), UInt8.ofNat (0x80 + c / 4096 % 64),
     UInt8.ofNat (0x80 + c / 64 % 64), UInt8.ofNat (0x80 + c % 64)]

namespace Piece

def bytes : Piece → Bytes
  | char c => encodeChar c
  | stray b => [b]

/-- The code point of the piece; a stray byte counts as the replacement character. -/
def code : Piece → Nat
  | char c => c
  | stray _ => 0xfffd

def size : Piece → Nat
  | char c => if c < 0x80 then 1 else if c < 0x800 then 2 else if c < 0x10000 then 3 else 4
  | stray _ => 1

end Piece

/-- The value of a continuation byte at least `lo` and at most `hi`. -/
def continuation? (lo hi : UInt8) : Bytes → Option Nat
  | [] => none
  | b :: _ => if lo ≤ b && b ≤ hi then some (b.toNat - 0x80) else none

/-- The piece that starts with byte `a`, before the bytes `rest`. The second byte's range rules out
overlong forms, surrogates and values past U+10FFFF. -/
def firstPiece (a : UInt8) (rest : Bytes) : Piece :=
  let found : Option Nat :=
    if a < 0x80 then some a.toNat
    else if 0xc2 ≤ a && a ≤ 0xdf then do
      let x ← continuation? 0x80 0xbf rest
      pure ((a.toNat - 0xc0) * 64 + x)
    else if 0xe0 ≤ a && a ≤ 0xef then do
      let x ← continuation? (if a = 0xe0 then 0xa0 else 0x80) (if a = 0xed then 0x9f else 0xbf) rest
      let y ← continuation? 0x80 0xbf (rest.drop 1)
      pure ((a.toNat - 0xe0) * 4096 + x * 64 + y)
    else if 0xf0 ≤ a && a ≤ 0xf4 then do
      let x ← continuation? (if a = 0xf0 then 0x90 else 0x80) (if a = 0xf4 then 0x8f else 0xbf) rest
      let y ← continuation? 0x80 0xbf (rest.drop 1)
      let z ← continuation? 0x80 0xbf (rest.drop 2)
      pure ((a.toNat - 0xf0) * 262144 + x * 4096 + y * 64 + z)
    else none
  match found with
  | some c => .char c
  | none => .stray a

/-- Collects pieces; `skip` bytes still belong to the piece found last. -/
def piecesFrom (found : List Piece) : (skip : Nat) → Bytes → List Piece
  | _, [] => found.reverse
  | skip + 1, _ :: rest => piecesFrom found skip rest
  | 0, a :: rest =>
    let piece := firstPiece a rest
    piecesFrom (piece :: found) (piece.size - 1) rest

def pieces (s : Bytes) : List Piece := piecesFrom [] 0 s

def flatten (ps : List Piece) : Bytes := ps.flatMap Piece.bytes

/-- The pieces as well-formed text, with a replacement character for each stray byte. -/
def mend (ps : List Piece) : Bytes := ps.flatMap fun p => encodeChar p.code

def isUtf8 (s : Bytes) : Bool :=
  (pieces s).all fun
    | .char _ => true
    | .stray _ => false

def isBlankChar (c : Nat) : Bool :=
  (9 ≤ c && c ≤ 13) || c == 0x20 || c == 0x85 || c == 0xa0 || c == 0x1680 ||
  (0x2000 ≤ c && c ≤ 0x200a) || c == 0x2028 || c == 0x2029 || c == 0x202f || c == 0x205f ||
  c == 0x3000

def Piece.isBlank : Piece → Bool
  | .char c => isBlankChar c
  | .stray _ => false

def trim (s : Bytes) : Bytes :=
  flatten ((((pieces s).dropWhile Piece.isBlank).reverse.dropWhile Piece.isBlank).reverse)

end ApeScript.Text
