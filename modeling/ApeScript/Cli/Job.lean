import ApeScript.Cli.Log
import ApeScript.Settings.Dotenv
import ApeScript.Work.Pool

/-!
# Jobs

A job is a run of a command over a `World`: it reads and writes files, takes settings from the
environment, prints, and notes entries in the log. What it changed before it failed stays changed.
`pool` runs a task for every entry of a directory and keeps going after a failure.
-/

namespace ApeScript.Cli

structure World where
  tree : FileTree
  environment : Environment
  /-- The entries noted so far, the oldest first. -/
  log : List LogEntry := []
  /-- What was printed so far. -/
  printed : Bytes := []

abbrev Job := ExceptT CommandError (StateM World)

namespace Job

/-- Turns a result into a job, with the cause of a failure put in its place. -/
def ofExcept {ε α : Type} (cause : ε → CommandError) (r : Except ε α) : Job α :=
  match r with
  | .ok a => pure a
  | .error e => throw (cause e)

def note (entry : LogEntry) : Job Unit := modify fun w => { w with log := w.log ++ [entry] }

def print (text : Bytes) : Job Unit := modify fun w => { w with printed := w.printed ++ text }

def readFile (path : Bytes) : Job Bytes := do ofExcept (.read path) ((← get).tree.read path)

def writeFile (path data : Bytes) : Job Unit := do
  let (tree, result) := (← get).tree.write path data
  modify fun w => { w with tree }
  ofExcept .write result

/-- The result of a job, be it a failure. -/
def attempt {α : Type} (job : Job α) : Job (Except CommandError α) := fun w =>
  let (result, w) := ExceptT.run job w
  (.ok result, w)

def variablesFile : Bytes := utf8 ".env"

/-- The settings, once the variables of the file for them are in the environment. -/
def settings : Job Settings := do
  if let .ok data := (← get).tree.read variablesFile then
    modify fun w => { w with environment := Dotenv.load w.environment data }
  let environment := (← get).environment
  if let some value := Settings.ignoredWorkers? environment then note (.workersIgnored value)
  return .ofEnvironment environment

def charset (a : Arguments) (s : Settings) : Job Charset :=
  let flag := a.text "charset"
  ofExcept .charset (Charset.lookup (if flag.isEmpty then s.charset else flag))

def walk (cause : FileTree.WalkError → CommandError) (extensions : List Bytes) (root : Bytes) :
    Job (List FileTree.Entry) := do
  ofExcept cause ((← get).tree.walk extensions root)

/-- Runs a task for every entry from index `index` on, noting those that fail. -/
def poolFrom {α : Type} (task : FileTree.Entry → Job α) :
    (index : Nat) → List FileTree.Entry → Job (List (Work.Result CommandError FileTree.Entry α))
  | _, [] => return []
  | index, entry :: rest => do
    let output ← attempt (task entry)
    if let .error e := output then note (.taskFailed index e)
    return ⟨entry, output⟩ :: (← poolFrom task (index + 1) rest)

/-- Runs a task for every entry; the results are in the order of the entries. -/
def pool {α : Type} (task : FileTree.Entry → Job α) (entries : List FileTree.Entry) :
    Job (List (Work.Result CommandError FileTree.Entry α)) :=
  poolFrom task 0 entries

end Job

def compiledExtension : Bytes := utf8 ".ape"

def scriptExtension : Bytes := utf8 ".txt"

end ApeScript.Cli
