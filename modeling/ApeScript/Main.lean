import ApeScript.Cli.Run

/-!
# The command line

Loads the files that the arguments name and the environment, runs the command, and brings its
changes, its output and its log to the outside.
-/

namespace ApeScript.Cli

abbrev Loaded := List (List Bytes × Bytes) × List (List Bytes)

def pathText (p : Bytes) : String := (String.fromUTF8? ⟨p.toArray⟩).getD ""

/-- What is at a directory entry and below it; `place` are the names that lead there. What cannot
be read is left out. -/
partial def filesAt (entry : IO.FS.DirEntry) (place : List Bytes) : IO Loaded := do
  if ← entry.path.isDir then
    let children ← try entry.path.readDir catch _ => pure #[]
    let mut files := []
    let mut directories := [place]
    for child in children do
      let (more, below) ← filesAt child (place ++ [utf8 child.fileName])
      files := files ++ more
      directories := directories ++ below
    return (files, directories)
  else if ← entry.path.pathExists then
    try
      let data ← IO.FS.readBinFile entry.path
      return ([(place, data.data.toList)], [])
    catch _ => return ([], [])
  else return ([], [])

/-- What is at a path and below it, and the files that stand where it needs directories. -/
def filesFor (t : FileTree) (path : Bytes) : IO Loaded := do
  let root ← IO.currentDir
  let place := t.locate path
  let mut files := []
  let mut directories := []
  for n in List.range (place.length + 1) do
    let here := place.take n
    let entry : IO.FS.DirEntry := ⟨root, pathText (Path.ofNames true here)⟩
    if n = place.length || !(← entry.path.isDir) then
      let (more, below) ← filesAt entry here
      files := files ++ more
      directories := directories ++ below
  return (files, directories)

def loadTree (arguments : List Bytes) : IO FileTree := do
  let cwd := Path.names (utf8 (← IO.currentDir).toString)
  let mut tree : FileTree := { cwd, files := [] }
  for path in Job.variablesFile :: arguments.filter fun a => isOperand a do
    let (files, directories) ← filesFor tree path
    for (place, data) in files do
      tree := tree.put place data
    tree := { tree with directories := tree.directories ++ directories }
  return tree

def loadEnvironment : IO Environment := do
  let mut environment : Environment := ⟨[]⟩
  for name in Settings.variableNames do
    if let some value ← IO.getEnv name then
      environment := environment.set (utf8 name) (utf8 value)
  return environment

/-- Makes the directories of a tree that an earlier one does not list and writes the files that
differ from its files, each beside its place first so that no half-written file is seen. -/
def storeTree (before after : FileTree) : IO Unit := do
  for place in after.directories do
    if !before.directories.contains place then
      IO.FS.createDirAll (pathText (Path.ofNames true place))
  for (place, data) in after.files do
    if before.contents? place ≠ some data then
      let path := pathText (Path.ofNames true place)
      IO.FS.createDirAll (pathText (Path.ofNames true place.dropLast))
      IO.FS.writeBinFile (path ++ ".tmp") ⟨data.toArray⟩
      IO.FS.rename (path ++ ".tmp") path

def LogEntry.line (e : LogEntry) : Bytes :=
  let field : Bytes × LogValue → Bytes
    | (name, .text s) => utf8 " " ++ name ++ utf8 "=" ++ Text.quoted s
    | (name, .number n) => utf8 " " ++ name ++ utf8 "=" ++ Bytes.ofNat n
  e.level.name ++ utf8 ": " ++ e.message ++ e.fields.flatMap field ++ utf8 "\n"

end ApeScript.Cli

open ApeScript Cli in
def main (arguments : List String) : IO UInt32 := do
  let arguments := arguments.map utf8
  let tree ← loadTree arguments
  let (result, world) := run arguments { tree, environment := ← loadEnvironment }
  storeTree tree world.tree
  (← IO.getStdout).write ⟨world.printed.toArray⟩
  let errors ← IO.getStderr
  errors.write ⟨(world.log.flatMap LogEntry.line).toArray⟩
  match result with
  | .ok () => return 0
  | .error e =>
    errors.write ⟨(utf8 "Error: " ++ e.message ++ utf8 "\n").toArray⟩
    return 1
