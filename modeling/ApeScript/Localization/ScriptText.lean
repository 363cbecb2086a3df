import ApeScript.Script.Literal
import ApeScript.Localization.Extract

/-!
# Texts of scripts

The first string literal of a title, body, choice or print directive, where it closes on the line
it starts on. `extractScript` lists the texts that hold a letter together with the lines of the
script; `rebuildScript` writes localized texts in the place of the literals.
-/

namespace ApeScript.Localization

structure ScriptTexts where
  file : Bytes
  lines : List Bytes
  texts : List Extract
  deriving DecidableEq, Repr

def textDirectives : List Bytes :=
  [utf8 "title", utf8 "body", utf8 "choice", utf8 "xyprint", utf8 "xyprintfx"]

def isLineBlank (b : UInt8) : Bool := b = 9 || b = 10 || b = 12 || b = 13 || b = 32

def isWordByte (b : UInt8) : Bool :=
  Bytes.isDigit b || Bytes.isUpper b || Bytes.isLower b || b = 95

def textDirective? (line : Bytes) : Option (Bytes × Nat × Bytes) :=
  let blanks := line.takeWhile isLineBlank
  let rest := line.drop blanks.length
  let word := rest.takeWhile isWordByte
  if textDirectives.contains word then
    some (word, blanks.length + word.length, rest.drop word.length)
  else none

/-- The inside of a literal whose opening quote was read, and what follows its closing quote; a
backslash keeps the byte after it, which is no newline. `inside` holds what was read, the latest
byte first. -/
def literalFrom (inside : Bytes) : Bytes → Option (Bytes × Bytes)
  | [] => none
  | 34 :: rest => some (inside.reverse, rest)
  | 92 :: b :: rest => if b = 10 then none else literalFrom (b :: 92 :: inside) rest
  | b :: rest => if b = 92 then none else literalFrom (b :: inside) rest

def literal? : Bytes → Option (Bytes × Bytes)
  | 34 :: rest => literalFrom [] rest
  | _ => none

def literalEscape (b : UInt8) : Bytes :=
  if b = 110 then [10] else if b = 92 || b = 34 then [b] else [92, b]

/-- The bytes that the inside of a literal stands for; `out` holds those read, the latest first. -/
def unescapeLiteralFrom (out : Bytes) : Bytes → Bytes
  | [] => out.reverse
  | 92 :: b :: rest => unescapeLiteralFrom ((literalEscape b).reverse ++ out) rest
  | b :: rest => unescapeLiteralFrom (b :: out) rest

def unescapeLiteral (s : Bytes) : Bytes := unescapeLiteralFrom [] s

def lineText? (charset : Charset) (file : Bytes) (number : Nat) (line : Bytes) :
    Option Extract := do
  let (directive, stop, rest) ← textDirective? line
  let between := rest.takeWhile (· ≠ 34)
  let (inside, _) ← literal? (rest.drop between.length)
  let text := charset.decode (unescapeLiteral inside)
  if Text.hasLetters text then
    some ⟨text, file, .line number (stop + between.length) directive⟩
  else none

/-- The texts of the lines from number `number` on; `inComment` when an earlier line opened a
comment that is still open. A line that starts with a comment has no text. `found` holds the texts
of earlier lines, the latest first. -/
def textsFrom (charset : Charset) (file : Bytes) (found : List Extract) :
    (inComment : Bool) → (number : Nat) → List Bytes → List Extract
  | _, _, [] => found.reverse
  | true, number, line :: rest =>
    textsFrom charset file found (!Bytes.contains (utf8 "*/") line) (number + 1) rest
  | false, number, line :: rest =>
    match Bytes.after? (utf8 "/*") (Text.trim line) with
    | some opened =>
      textsFrom charset file found (!Bytes.contains (utf8 "*/") opened) (number + 1) rest
    | none =>
      textsFrom charset file ((lineText? charset file number line).toList ++ found) false
        (number + 1) rest

def extractScript (charset : Charset) (file src : Bytes) : Except ExtractError ScriptTexts :=
  let lines := Text.Lines.ofBytes src
  if lines.overlong then .error .overlongLine
  else .ok ⟨file, lines.lines, textsFrom charset file [] false 1 lines.lines⟩

def readScript (charset : Charset) (t : FileTree) (path : Bytes) :
    Except ExtractError ScriptTexts := do
  extractScript charset path (← (t.read path).mapError .scriptFile)

/-- A line with the literal at a column replaced by another text. -/
def translateLine (charset : Charset) (place : Bytes) (column : Nat)
    (source translated line : Bytes) : Except RebuildError Bytes := do
  if let .error m := verify source translated then throw (.mismatch place m)
  if line.length < column then throw (.shortLine column line.length)
  match literal? (line.drop column) with
  | none => throw (.changedLine place)
  | some (_, rest) =>
    let stored ← (charset.encode translated).mapError (.unencodable place)
    return line.take column ++ Script.quote stored ++ rest

def translateText (charset : Charset) (g : Glossary) (file : Bytes) (lines : List Bytes)
    (e : Extract) : Except RebuildError (List Bytes) :=
  let number := e.place.lineNumber
  match lines[number - 1]?, g.get? e.text with
  | some line, some translated => do
    let place := file ++ utf8 " line " ++ Bytes.ofNat number
    let line ← translateLine charset place e.place.column e.text translated line
    return lines.set (number - 1) line
  | _, _ => .ok lines

def rebuildScript (charset : Charset) (s : ScriptTexts) (g : Glossary) :
    Except RebuildError Bytes := do
  let lines ← s.texts.foldlM (translateText charset g s.file) s.lines
  return Bytes.joinWith [10] lines ++ [10]

end ApeScript.Localization
