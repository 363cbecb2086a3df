import ApeScript.Text.Lines
import ApeScript.Text.Utf8

/-!
# Localization tables

A table is a text of rows, one a line, with four columns between tabs: file, key, source text and
translated text, under a heading. A field spells a tab, a line break and a backslash with a
backslash, and reading keeps an escape it does not know. Writing leaves the last column empty for
the translator; reading collects the pairs whose localized text is filled in, the last row of a
source text winning.
-/

namespace ApeScript.Localization

/-! ### Fields -/

def escapeByte (b : UInt8) : Bytes :=
  if b = 92 then utf8 "\\\\"
  else if b = 9 then utf8 "\\t"
  else if b = 10 then utf8 "\\n"
  else if b = 13 then utf8 "\\r"
  else [b]

def escapeField (s : Bytes) : Bytes := s.flatMap escapeByte

def unescapePair (b : UInt8) : Bytes :=
  if b = 92 then [92]
  else if b = 116 then [9]
  else if b = 110 then [10]
  else if b = 114 then [13]
  else [92, b]

/-- The bytes a field stands for; `out` holds those already read, the latest first. -/
def unescapeFrom (out : Bytes) : Bytes → Bytes
  | [] => out.reverse
  | 92 :: b :: rest => unescapeFrom ((unescapePair b).reverse ++ out) rest
  | b :: rest => unescapeFrom (b :: out) rest

def unescapeField (s : Bytes) : Bytes := unescapeFrom [] s

/-! ### Glossaries and tables -/

/-- Localized texts by source text; each source text occurs once. -/
structure Glossary where
  entries : List (Bytes × Bytes)
  deriving DecidableEq, Repr

namespace Glossary

def empty : Glossary := ⟨[]⟩

def get? (g : Glossary) (source : Bytes) : Option Bytes :=
  (g.entries.find? (·.1 = source)).map (·.2)

def insert (g : Glossary) (source translated : Bytes) : Glossary :=
  ⟨(source, translated) :: g.entries.filter (·.1 ≠ source)⟩

def ofList (pairs : List (Bytes × Bytes)) : Glossary :=
  pairs.foldl (fun g (source, translated) => g.insert source translated) empty

def toList (g : Glossary) : List (Bytes × Bytes) := g.entries.mergeSort fun a b => Bytes.le a.1 b.1

end Glossary

/-- What a row says about a text: the file and the place in it where it stands. -/
structure Row where
  file : Bytes
  key : Bytes
  text : Bytes
  deriving DecidableEq, Repr

def heading : Bytes := utf8 "file\tkey\tsource_text\ttranslated_text"

def Row.line (r : Row) (translated : Bytes) : Bytes :=
  escapeField r.file ++ [9] ++ escapeField r.key ++ [9] ++ escapeField r.text ++ [9] ++
    escapeField translated ++ [10]

def writeTable (rows : List Row) : Bytes := heading ++ [10] ++ rows.flatMap (·.line [])

inductive TableError where
  | columns (line count : Nat)
  | overlong
  deriving DecidableEq, Repr

def TableError.message : TableError → Bytes
  | columns line count => utf8 "line " ++ Bytes.ofNat line ++ utf8 ": expected 4 columns, got "
      ++ Bytes.ofNat count
  | overlong => utf8 "read translations: " ++ Text.Lines.overlongMessage

/-- What a line adds to the glossary: a heading on the first line, a blank line and a row without
a localized text add nothing. -/
def readLine (g : Glossary) (number : Nat) (line : Bytes) : Except TableError Glossary :=
  if (number = 1 ∧ line = heading) ∨ Text.trim line = [] then .ok g
  else
    match Bytes.split 9 line with
    | [_, _, source, translated] =>
      if translated.isEmpty then .ok g
      else .ok (g.insert (unescapeField source) (unescapeField translated))
    | columns => .error (.columns number columns.length)

def readLines (g : Glossary) : (number : Nat) → List Bytes → Except TableError Glossary
  | _, [] => .ok g
  | number, line :: rest =>
    match readLine g number (Text.Lines.dropReturn line) with
    | .ok g => readLines g (number + 1) rest
    | .error e => .error e

def readTable (table : Bytes) : Except TableError Glossary :=
  let lines := Text.Lines.ofBytes table
  match readLines .empty 1 lines.lines with
  | .ok g => if lines.overlong then .error .overlong else .ok g
  | .error e => .error e

end ApeScript.Localization
