import ApeScript.Text.Letter
import ApeScript.Text.Utf8

/-!
# Letters and excerpts

Whether a text has a letter at all, and how a text is shortened for display: never inside a
character, with three dots where something was cut off.
-/

namespace ApeScript.Text

def Piece.isLetter : Piece → Bool
  | .char c => Text.isLetter c
  | .stray _ => false

def hasLetters (s : Bytes) : Bool := (pieces s).any Piece.isLetter

def isContinuation (b : UInt8) : Bool := 0x80 ≤ b && b ≤ 0xbf

/-- The largest place up to `n` where the text can be cut: its start, or in front of a byte that
does not continue a character. -/
def boundary (s : Bytes) : (n : Nat) → Nat
  | 0 => 0
  | n + 1 =>
    match s[n + 1]? with
    | some b => if isContinuation b then boundary s n else n + 1
    | none => n + 1

/-- The text when it has at most `limit` bytes, and otherwise its beginning and three dots. -/
def truncate (s : Bytes) (limit : Nat) : Bytes :=
  if s.length ≤ limit then s else s.take (boundary s limit) ++ utf8 "..."

def replaceStrayFrom (replacement : Bytes) : (inRun : Bool) → List Piece → Bytes
  | _, [] => []
  | _, .char c :: rest => encodeChar c ++ replaceStrayFrom replacement false rest
  | true, .stray _ :: rest => replaceStrayFrom replacement true rest
  | false, .stray _ :: rest => replacement ++ replaceStrayFrom replacement true rest

def replaceStray (replacement s : Bytes) : Bytes := replaceStrayFrom replacement false (pieces s)

end ApeScript.Text
