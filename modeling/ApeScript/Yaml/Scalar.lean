import ApeScript.Text.Utf8
import ApeScript.Yaml.Resolve

/-!
# YAML scalars and documents

How a string is written as a scalar: as it is, in single or double quotes, or as a literal block.
Text with a line feed asks for a literal block, and text that would read as something other than a
string for double quotes; all other text asks to stand as it is. What stands in the text may rule
the wish out: then single quotes are next, and double quotes can write anything. Bytes that are not
UTF-8 are written in base 64 under a tag.
-/

namespace ApeScript.Yaml

/-! ### Characters -/

def isPlainChar (c : Nat) : Bool :=
  c == 10 || (0x20 ≤ c && c ≤ 0x7e) || (0xa0 ≤ c && c ≤ 0xfffd && c != 0xfeff)

def isBreak (c : Nat) : Bool := c == 10 || c == 13 || c == 0x85 || c == 0x2028 || c == 0x2029

def isSpace (c : Nat) : Bool := c == 32

/-- A character that cannot stand unescaped; a tab is judged apart. -/
def isSpecial (c : Nat) : Bool := !isPlainChar c && c != 9

def isIndicator (c : Nat) : Bool :=
  (utf8 "#,[]\x7b\x7d&*!|>'\"%@`").any fun b => b.toNat = c

def hasPair (p : Nat → Nat → Bool) (cs : List Nat) : Bool :=
  (cs.zip (cs.drop 1)).any fun (a, b) => p a b

/-- Whether the text holds something that has a meaning of its own where a block collection
stands. -/
def hasIndicators (cs : List Nat) : Bool :=
  let blankOrEnd (c : Option Nat) : Bool := (c.map fun c => c == 32 || c == 9).getD true
  let leading := match cs with
    | [] => false
    | c :: rest => isIndicator c || ((c == 63 || c == 45) && blankOrEnd rest.head?)
  leading || cs.take 3 = [45, 45, 45] || cs.take 3 = [46, 46, 46] ||
    cs.getLast? = some 58 || hasPair (fun a b => a == 58 && (b == 32 || b == 9)) cs ||
    hasPair (fun a b => b == 35 && (a == 32 || a == 9 || a == 0 || isBreak a)) cs

/-! ### Styles -/

inductive Style where
  | plain | single | double | literal
  deriving DecidableEq, Repr

def hasSpaceAtBreak (cs : List Nat) : Bool :=
  hasPair (fun a b => isBreak a && isSpace b) cs || hasPair (fun a b => isSpace a && isBreak b) cs

def allowsSingle (cs : List Nat) : Bool :=
  !hasSpaceAtBreak cs && !cs.any fun c => c == 9 || isSpecial c

def allowsPlain (cs : List Nat) : Bool :=
  let edge (c : Option Nat) : Bool := (c.map isSpace).getD false
  allowsSingle cs && !cs.any isBreak && !edge cs.head? && !edge cs.getLast? && !hasIndicators cs

def allowsLiteral (cs : List Nat) : Bool :=
  !hasPair (fun a b => isSpace a && isBreak b) cs && !cs.any isSpecial &&
    !(cs.getLast?.map isSpace).getD false

def Style.settle (cs : List Nat) : Style → Style
  | plain => if allowsPlain cs then plain else if allowsSingle cs then single else double
  | single => if allowsSingle cs then single else double
  | literal => if allowsLiteral cs then literal else double
  | double => double

def wish (s : Bytes) : Style :=
  if s.any (· = 10) then .literal else if readsOtherwise s then .double else .plain

/-! ### Writing -/

def spaces (n : Nat) : Bytes := List.replicate n 32

/-- Text between single quotes: a quote is doubled, and a line starts at `indent`. -/
def singleBody (indent : Nat) : (newLine : Bool) → List Nat → Bytes
  | _, [] => []
  | newLine, c :: rest =>
    if isBreak c then Text.encodeChar c ++ singleBody indent true rest
    else (if newLine then spaces indent else []) ++ (if c = 39 then [39] else []) ++
      Text.encodeChar c ++ singleBody indent false rest

/-- `width` upper-case hexadecimal digits. -/
def upperHex (width n : Nat) : Bytes :=
  (Bytes.hex width n).map fun b => if Bytes.isLower b then b - 32 else b

/-- The escape of a character in double quotes. -/
def escapeChar (c : Nat) : Bytes :=
  utf8 "\\" ++ match c with
    | 0 => utf8 "0"
    | 7 => utf8 "a"
    | 8 => utf8 "b"
    | 9 => utf8 "t"
    | 10 => utf8 "n"
    | 11 => utf8 "v"
    | 12 => utf8 "f"
    | 13 => utf8 "r"
    | 27 => utf8 "e"
    | 34 => utf8 "\""
    | 92 => utf8 "\\"
    | 0x85 => utf8 "N"
    | 0xa0 => utf8 "_"
    | 0x2028 => utf8 "L"
    | 0x2029 => utf8 "P"
    | c =>
      if c ≤ 0xff then utf8 "x" ++ upperHex 2 c
      else if c ≤ 0xffff then utf8 "u" ++ upperHex 4 c
      else utf8 "U" ++ upperHex 8 c

/-- Text between double quotes. In a text that starts with a byte order mark every character is
escaped. -/
def doubleBody (cs : List Nat) : Bytes :=
  let marked := cs.head? = some 0xfeff
  cs.flatMap fun c =>
    if marked || !isPlainChar c || isBreak c || c = 34 || c = 92 then escapeChar c
    else Text.encodeChar c

/-- What follows the bar of a literal block: the indentation, where the text starts with a space
or a line break, and how its end is to be read. -/
def literalHints (cs : List Nat) : Bytes :=
  let first := (cs.head?.map fun c => isSpace c || isBreak c).getD false
  let chomp := match cs.reverse with
    | last :: before :: _ =>
      if !isBreak last then utf8 "-" else if isBreak before then utf8 "+" else []
    | [last] => if isBreak last then utf8 "+" else utf8 "-"
    | [] => utf8 "-"
  (if first then utf8 "2" else []) ++ chomp

/-- The lines of a literal block, each starting at `indent`. -/
def literalBody (indent : Nat) : (newLine : Bool) → List Nat → Bytes
  | _, [] => []
  | newLine, c :: rest =>
    if isBreak c then Text.encodeChar c ++ literalBody indent true rest
    else (if newLine then spaces indent else []) ++ Text.encodeChar c ++
      literalBody indent false rest

/-- A literal block. A line break at the start of the text takes the place of the one that ends
the line of the bar. -/
def literal (indent : Nat) (cs : List Nat) : Bytes :=
  let started := (cs.head?.map isBreak).getD false
  utf8 "|" ++ literalHints cs ++ (if started then [] else [10]) ++ literalBody indent true cs

def codePoints (s : Bytes) : List Nat := (Text.pieces s).map Text.Piece.code

/-- A valid text in the style it comes to, and the line break that ends it. -/
def validText (indent : Nat) (s : Bytes) (style : Style) : Bytes :=
  let cs := codePoints s
  match style.settle cs with
  | .plain => s ++ [10]
  | .single => utf8 "'" ++ singleBody indent false cs ++ utf8 "'\n"
  | .double => utf8 "\"" ++ doubleBody cs ++ utf8 "\"\n"
  | .literal =>
    literal indent cs ++ if (cs.getLast?.map isBreak).getD false then [] else [10]

/-! ### Base 64 -/

def base64Char (n : Nat) : UInt8 :=
  (utf8 "ABCDEFGHIJKLMNOPQRSTUVWXYZabcdefghijklmnopqrstuvwxyz0123456789+/").getD (n % 64) 0

/-- Four characters for every three bytes, the last group filled up with equals signs. -/
def base64 : Bytes → Bytes
  | a :: b :: c :: rest =>
    let n := a.toNat * 65536 + b.toNat * 256 + c.toNat
    base64Char (n / 262144) :: base64Char (n / 4096) :: base64Char (n / 64) :: base64Char n
      :: base64 rest
  | [a, b] =>
    let n := a.toNat * 1024 + b.toNat * 4
    [base64Char (n / 4096), base64Char (n / 64), base64Char n, 61]
  | [a] => [base64Char (a.toNat / 4), base64Char (a.toNat * 16), 61, 61]
  | [] => []

/-- Pieces of `width` bytes, each ended by a line feed. -/
def breakLines (width : Nat) : (fuel : Nat) → Bytes → Bytes
  | 0, _ => []
  | fuel + 1, s =>
    if s.isEmpty then [] else s.take width ++ [10] ++ breakLines width fuel (s.drop width)

def base64Width : Nat := 70

def base64Text (s : Bytes) : Bytes :=
  let text := base64 s
  if text.length < base64Width then text else breakLines base64Width text.length text

/-- A string as a scalar, with the line break that ends it; further lines start at `indent`. -/
def scalar (indent : Nat) (s : Bytes) : Bytes :=
  if Text.isUtf8 s then validText indent s (wish s)
  else
    let text := base64Text s
    utf8 "!!binary " ++ validText indent text (if text.any (· = 10) then .literal else .plain)

/-! ### Documents

A document is a tree of strings, numbers, lists and records. Lists and records are written as
blocks, each level two columns further in; a list item starts with a dash, and the entries of a
record in a list line up behind it. An empty list is written in brackets. -/

inductive Node where
  | text (s : Bytes)
  | number (n : Nat)
  | list (items : List Node)
  | record (fields : List (Bytes × Node))

namespace Node

def texts (l : List Bytes) : Node := list (l.map text)

def key (name : Bytes) : Bytes :=
  match (wish name).settle (codePoints name) with
  | .plain => name
  | _ => utf8 "\"" ++ doubleBody (codePoints name) ++ utf8 "\""

mutual

/-- What follows a key and its colon, for a record at column `indent`. -/
def afterKey (indent : Nat) : Node → Bytes
  | text s => utf8 " " ++ scalar (indent + 2) s
  | number n => utf8 " " ++ Bytes.ofNat n ++ [10]
  | list [] => utf8 " []\n"
  | list items => [10] ++ listItems (indent + 2) items
  | record fields => [10] ++ recordFields (indent + 2) true fields

/-- What follows the dash of a list item at column `indent`. -/
def afterDash (indent : Nat) : Node → Bytes
  | text s => scalar (indent + 2) s
  | number n => Bytes.ofNat n ++ [10]
  | list [] => utf8 "[]\n"
  | list items => listItems (indent + 2) items
  | record fields => recordFields (indent + 2) false fields

def listItems (indent : Nat) : List Node → Bytes
  | [] => []
  | item :: rest => spaces indent ++ utf8 "- " ++ afterDash indent item ++ listItems indent rest

/-- The entries of a record; the first one may already stand at its column. -/
def recordFields (indent : Nat) : (indented : Bool) → List (Bytes × Node) → Bytes
  | _, [] => []
  | indented, (name, value) :: rest =>
    (if indented then spaces indent else []) ++ key name ++ utf8 ":" ++ afterKey indent value ++
      recordFields indent true rest

end

def document (fields : List (Bytes × Node)) : Bytes := recordFields 0 true fields

end Node

end ApeScript.Yaml
