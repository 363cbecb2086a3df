import ApeScript.Cli.Verb
import ApeScript.File.Validation
import ApeScript.Localization.Extract
import ApeScript.Script.Writer

/-!
# Failures of commands

Why a command fails, from arguments that cannot be taken apart to files that cannot be read or
written. `CommandError.message` is the text that the tool reports.
-/

namespace ApeScript.Cli

inductive RenderError where
  | decode (e : DecodeError)
  | invalid (e : ValidationError)
  | unwritable (e : Script.Unwritable)
  deriving DecidableEq, Repr

def RenderError.message : RenderError → Bytes
  | decode e => e.message
  | invalid e => e.message
  | unwritable e => e.message

inductive Store where
  | catalog | graph
  deriving DecidableEq, Repr

def Store.name : Store → Bytes
  | catalog => utf8 "PostgreSQL"
  | graph => utf8 "Neo4j"

inductive CommandError where
  | usage (e : UsageError)
  | unknownCommand (name parent : Bytes) (suggested : List Bytes)
  | arity (wanted given : Nat)
  | options (e : CompileFailure)
  | charset (e : CharsetError)
  | twoFormats
  | nodeKind (text : Bytes)
  | label (e : LabelError)
  | read (path : Bytes) (e : PathError)
  | decode (path : Bytes) (e : DecodeError)
  | compile (e : CompileFailure)
  | encode (path : Bytes) (e : EncodeError)
  | halted
  | render (path : Bytes) (e : RenderError)
  | write (e : FileTree.WriteError)
  | references (path : Bytes) (problems : Nat)
  | walkInput (e : FileTree.WalkError)
  | walk (e : FileTree.WalkError)
  | table (e : PathError)
  | tableLine (e : Localization.TableError)
  | extract (e : Localization.ExtractError)
  | rebuild (e : Localization.RebuildError)
  | scriptsFailed (failed total : Nat)
  | filesFailed (failed total : Nat)
  | unavailable (store : Store)
  deriving DecidableEq, Repr

def suggestionText (names : List Bytes) : Bytes :=
  if names.isEmpty then []
  else utf8 "\n\nDid you mean this?\n" ++ names.flatMap fun name => utf8 "\t" ++ name ++ utf8 "\n"

def countText (failed total : Nat) : Bytes := Bytes.ofNat failed ++ utf8 " of " ++ Bytes.ofNat total

namespace CommandError

def message : CommandError → Bytes
  | usage e => e.message
  | unknownCommand name parent suggested => utf8 "unknown command " ++ Text.quoted name ++
      utf8 " for " ++ Text.quoted parent ++ suggestionText suggested
  | arity wanted given => utf8 "accepts " ++ Bytes.ofNat wanted ++ utf8 " arg(s), received " ++
      Bytes.ofNat given
  | options e => e.report
  | charset e => e.message
  | twoFormats => utf8 "--src and --yaml are mutually exclusive"
  | nodeKind text => text
  | label e => e.message
  | read path e => utf8 "read " ++ path ++ utf8 ": " ++ e.message
  | decode path e => utf8 "decode " ++ path ++ utf8 ": " ++ e.message
  | compile e => e.message
  | encode path e => utf8 "encode " ++ path ++ utf8 ": " ++ e.message
  | halted => haltedMessage
  | render path e => path ++ utf8 ": " ++ e.message
  | write e => e.message
  | references path problems =>
      path ++ utf8 ": " ++ Bytes.ofNat problems ++ utf8 " reference problems"
  | walkInput e => utf8 "walk input directory: " ++ e.message
  | walk e => utf8 "walk directory: " ++ e.message
  | table e => (if e.cause = .isDirectory then utf8 "read translations: "
      else utf8 "open translations: ") ++ e.message
  | tableLine e => e.message
  | extract e => e.message
  | rebuild e => e.message
  | scriptsFailed failed total => countText failed total ++ utf8 " scripts failed to compile"
  | filesFailed failed total => countText failed total ++ utf8 " files failed"
  | unavailable store => store.name ++ utf8 " is not available"

end CommandError

end ApeScript.Cli
