import ApeScript.Cli.Job
import ApeScript.Localization.Compiled
import ApeScript.Localization.ScriptText

/-!
# Localizing files

`extractTexts` writes the texts of all files below a directory to a table, and `applyTable` puts
the texts of a filled-in table in their place. A file that cannot be read is noted in the log and
left out.
-/

namespace ApeScript.Cli

open ApeScript.Localization

structure TextFile where
  texts : List Extract
  rebuild : Glossary → Except RebuildError Bytes

def textExtensions (a : Arguments) : List Bytes :=
  compiledExtension :: if a.truth "scripts" then [scriptExtension] else []

def readTexts (charset : Charset) (t : FileTree) (entry : FileTree.Entry) :
    Except ExtractError TextFile :=
  if entry.extension = scriptExtension then do
    let found ← readScript charset t entry.path
    return ⟨found.texts, rebuildScript charset found⟩
  else do
    let (data, texts) ← readCompiled charset t entry.path
    return ⟨texts, rebuildCompiled charset entry.path data⟩

def readAllTexts (charset : Charset) (entries : List FileTree.Entry) :
    Job (List (Work.Result CommandError FileTree.Entry TextFile)) := do
  let results ← Job.pool
    (fun entry => do Job.ofExcept .extract (readTexts charset (← get).tree entry)) entries
  results.forM fun r => match r.output with
    | .error e => Job.note (.parseFailed r.input.path e)
    | .ok _ => pure ()
  return results

def tableRows (r : Work.Result CommandError FileTree.Entry TextFile) : List Row :=
  match r.output with
  | .ok file => file.texts.map fun text => text.row r.input.relative
  | .error _ => []

def extractTexts (a : Arguments) (directory table : Bytes) : Job Unit := do
  let charset ← Job.charset a (← Job.settings)
  let entries ← Job.walk .walk (textExtensions a) directory
  let results ← readAllTexts charset entries
  Job.writeFile table (writeTable (results.flatMap tableRows))

/-- Puts one file together anew below `directory`; whether that worked. -/
def applyFile (g : Glossary) (directory : Bytes)
    (r : Work.Result CommandError FileTree.Entry TextFile) : Job Bool :=
  match r.output with
  | .error _ => return false
  | .ok file =>
    match file.rebuild g with
    | .error e => do
      Job.note (.rebuildFailed r.input.path (.rebuild e))
      return false
    | .ok data => do
      match ← Job.attempt (Job.writeFile (Path.join directory r.input.relative) data) with
      | .ok () => return true
      | .error e => do
        Job.note (.writeFailed r.input.path e)
        return false

def applyTable (a : Arguments) (source table target : Bytes) : Job Unit := do
  let charset ← Job.charset a (← Job.settings)
  let contents ← Job.ofExcept .table ((← get).tree.read table)
  let glossary ← Job.ofExcept .tableLine (readTable contents)
  let entries ← Job.walk .walk (textExtensions a) source
  let results ← readAllTexts charset entries
  let applied ← results.mapM (applyFile glossary target)
  let failed := (applied.filter (! ·)).length
  if 0 < failed then throw (.filesFailed failed entries.length)

end ApeScript.Cli
