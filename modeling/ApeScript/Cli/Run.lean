import ApeScript.Cli.Compile
import ApeScript.Cli.Render
import ApeScript.Cli.Texts
import ApeScript.Graph.Query

/-!
# Running commands

`run` finds the command among the arguments, takes its flags apart, and does its work. Asking for
help does nothing. Commands that need a store outside the file system check their arguments and
then fail, for this program reaches no such store.
-/

namespace ApeScript.Cli

/-- The job of a command with its flags and arguments. The number of arguments was checked, so the
last case is for help alone. -/
def Verb.job (v : Verb) (a : Arguments) : Job Unit :=
  match v, a.positional with
  | .compile, [source, target] => runCompile a source target
  | .batch, [source, target] => runBatch a source target
  | .disasm, [source, target] => runDisasm a source target
  | .decompile, [source, target] => runDecompile a source target
  | .check, [path] => checkFile path
  | .extract, [directory, table] => extractTexts a directory table
  | .apply, [source, table, target] => applyTable a source table target
  | .index, [_] => do
    let _ ← Job.charset a (← Job.settings)
    throw (.unavailable .catalog)
  | .similar, [_, window] => do
    let _ ← Job.ofExcept .label (Label.parse window)
    let _ ← Job.settings
    throw (.unavailable .catalog)
  | .graph, [_] | .unresolved, [] => do
    let _ ← Job.settings
    throw (.unavailable .graph)
  | .referrers, [kind, label] => do
    let _ ← Job.ofExcept .nodeKind (Graph.kindOfWord kind)
    let _ ← Job.ofExcept .label (Label.parse label)
    let _ ← Job.settings
    throw (.unavailable .graph)
  | _, _ => return ()

/-- Refuses arguments to a command that takes none, as if they named commands below it. -/
def checkNone (command : Bytes) (given : List Bytes) : Except CommandError Unit :=
  match given with
  | [] => .ok ()
  | name :: _ => .error (.unknownCommand name (toolName ++ utf8 " " ++ command) [])

def Verb.checkArity (v : Verb) (given : List Bytes) : Except CommandError Unit :=
  match v.arity? with
  | none => .ok ()
  | some 0 => checkNone v.name given
  | some wanted =>
    if given.length = wanted then .ok () else .error (.arity wanted given.length)

/-- Takes the flags of a command apart; nothing when help is asked for. -/
def parseCommand (flags : List Flag) (arguments : List Bytes) : Job (Option Arguments) := do
  let a ← Job.ofExcept .usage (parseArguments (flags ++ sharedFlags ++ [helpFlag]) arguments)
  return if a.truth "help" then none else some a

/-- Checks the arguments of a request for a completion script, which this program does not give. -/
def runCompletion (arguments : List Bytes) : Job Unit :=
  match findShell? arguments with
  | none => do
    let _ ← parseCommand [] arguments
  | some (shell, rest) => do
    if let some a ← parseCommand [truthFlag "no-descriptions"] rest then
      Job.ofExcept id (checkNone (Verb.name .completion ++ utf8 " " ++ shell) a.positional)

def run (arguments : List Bytes) : Job Unit :=
  match findVerb arguments with
  | .unknown name => throw (.unknownCommand name toolName (suggestions name))
  | .tool arguments => do
    let _ ← parseCommand [] arguments
  | .verb .completion rest => runCompletion rest
  | .verb v rest => do
    if let some a ← parseCommand v.ownFlags rest then
      Job.ofExcept id (v.checkArity a.positional)
      v.job a

end ApeScript.Cli
