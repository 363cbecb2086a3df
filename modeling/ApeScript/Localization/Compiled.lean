import ApeScript.Localization.Extract

/-!
# Texts of compiled files

The texts of titles, bodies, choices and print commands, in stored order. `extractCompiled` lists
those that hold a letter; `rebuildCompiled` puts localized texts in the place of all texts that have
one and stores the file anew.
-/

namespace ApeScript.Localization

/-- The slot and the text of a command that shows text. -/
def commandSlot? : Command → Option (Slot × Bytes)
  | .formattedText code _ text _ =>
      some (if code = CommandCode.title then .title else .body, text)
  | .choice _ text _ _ => some (.choice, text)
  | .print p => some (.print, p.message)
  | _ => none

def setText (text : Bytes) : Command → Command
  | .formattedText code condition _ format => .formattedText code condition text format
  | .choice condition _ format label => .choice condition text format label
  | .print p => .print { p with message := text }
  | c => c

def fileSlots (f : File) : List (Place × Bytes) :=
  f.windows.flatMap fun w =>
    w.commands.zipIdx.filterMap fun (c, index) =>
      (commandSlot? c).map fun (slot, text) => (.command w.id slot index, text)

def extractFile (charset : Charset) (path : Bytes) (f : File) : List Extract :=
  (fileSlots f).filterMap fun (place, stored) =>
    let text := charset.decode stored
    if Text.hasLetters text then some ⟨text, path, place⟩ else none

def extractCompiled (charset : Charset) (path data : Bytes) : Except ExtractError (List Extract) :=
  match File.decode data with
  | .error e => .error (.decode path e)
  | .ok f => .ok (extractFile charset path f)

def readCompiled (charset : Charset) (t : FileTree) (path : Bytes) :
    Except ExtractError (Bytes × List Extract) := do
  let data ← (t.read path).mapError .compiledFile
  return (data, ← extractCompiled charset path data)

/-- A command with its text replaced, where the glossary knows it. -/
def translateCommand (charset : Charset) (g : Glossary) (window : Label) (c : Command)
    (index : Nat) : Except RebuildError Command :=
  match commandSlot? c with
  | none => .ok c
  | some (slot, stored) =>
    let source := charset.decode stored
    match g.get? source with
    | none => .ok c
    | some translated => do
      let text ← storedText charset (Place.command window slot index).key source translated
      return setText text c

def translateFile (charset : Charset) (g : Glossary) (f : File) : Except RebuildError File := do
  let windows ← f.windows.mapM fun w => do
    let commands ← w.commands.zipIdx.mapM fun (c, index) =>
      translateCommand charset g w.id c index
    return { w with commands }
  return { f with windows }

def rebuildCompiled (charset : Charset) (path data : Bytes) (g : Glossary) :
    Except RebuildError Bytes :=
  match File.decode data with
  | .error e => .error (.decode path e)
  | .ok f => do
    let translated ← translateFile charset g f
    match translated.encode with
    | .bytes b => return b
    | .refused e => throw (.refused e)
    | .halted => throw .halted

end ApeScript.Localization
