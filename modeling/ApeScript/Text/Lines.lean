import ApeScript.Bytes

/-!
# Lines of a text

A line ends with a line feed or with the text, and a carriage return before its end is not part of
it. Reading stops at a line that is too long; the lines before it count.
-/

namespace ApeScript.Text

/-- The lines read, and whether reading stopped at a line that is too long. -/
structure Lines where
  lines : List Bytes
  overlong : Bool
  deriving DecidableEq, Repr

namespace Lines

def limit : Nat := 1048576

def overlongMessage : Bytes := utf8 "bufio.Scanner: token too long"

def dropReturn (s : Bytes) : Bytes := if s.getLast? = some 13 then s.dropLast else s

/-- The pieces between line feeds; an empty piece after the last one is no line. -/
def rawLines (s : Bytes) : List Bytes :=
  let pieces := Bytes.split 10 s
  if pieces.getLast? = some [] then pieces.dropLast else pieces

def ofBytes (s : Bytes) : Lines :=
  let raw := rawLines s
  let short := raw.takeWhile fun line => line.length < limit
  ⟨short.map dropReturn, short.length < raw.length⟩

end Lines

end ApeScript.Text
