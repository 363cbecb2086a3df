import ApeScript.Bytes

/-!
# Paths

Slash-separated path texts, handled without looking at any file. `Path.clean` is the shortest text
of a path: single slashes, no dots, and no double dots behind a name.
-/

namespace ApeScript.Path

def slash : UInt8 := 47

def dot : Bytes := utf8 "."

def dotDot : Bytes := utf8 ".."

def isRooted (p : Bytes) : Bool := p.head? = some slash

/-- The names of a path after one more step; `names` holds the earlier ones, the latest first. -/
def step (rooted : Bool) (names : List Bytes) (part : Bytes) : List Bytes :=
  if part.isEmpty || part = dot then names
  else if part = dotDot then
    match names with
    | name :: rest => if name = dotDot then dotDot :: names else rest
    | [] => if rooted then [] else [dotDot]
  else part :: names

def names (p : Bytes) : List Bytes :=
  ((Bytes.split slash p).foldl (step (isRooted p)) []).reverse

def ofNames (rooted : Bool) (l : List Bytes) : Bytes :=
  let text := Bytes.joinWith [slash] l
  if rooted then slash :: text else if text.isEmpty then dot else text

def clean (p : Bytes) : Bytes := ofNames (isRooted p) (names p)

/-- A path below another one; an empty part is left out. -/
def join (parent child : Bytes) : Bytes :=
  if parent.isEmpty then (if child.isEmpty then [] else clean child)
  else clean (parent ++ slash :: child)

def lastPart (p : Bytes) : Bytes := (p.reverse.takeWhile (· ≠ slash)).reverse

def base (p : Bytes) : Bytes :=
  let bare := (p.reverse.dropWhile (· = slash)).reverse
  if p.isEmpty then dot else if bare.isEmpty then [slash] else lastPart bare

def parent (p : Bytes) : Bytes := clean (p.take (p.length - (lastPart p).length))

/-- The last dot of the last part and what follows it; nothing when it has no dot. -/
def extension (p : Bytes) : Bytes :=
  let part := lastPart p
  let tail := (part.reverse.takeWhile (· ≠ 46)).reverse
  if tail.length = part.length then [] else 46 :: tail

def withExtension (p ext : Bytes) : Bytes := p.take (p.length - (extension p).length) ++ ext

def absolute (cwd p : Bytes) : Bytes := if isRooted p then clean p else join cwd p

end ApeScript.Path
