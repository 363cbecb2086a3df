import ApeScript.Cli.Failure
import ApeScript.Settings.Basic

/-!
# The log

What a command notes while it runs, apart from its answer: diagnostics of scripts and files it had
to leave out. An entry has a level, a message and named fields.
-/

namespace ApeScript.Cli

inductive LogLevel where
  | warn | error
  deriving DecidableEq, Repr

def LogLevel.name : LogLevel → Bytes
  | warn => utf8 "warn"
  | error => utf8 "error"

inductive LogValue where
  | text (s : Bytes)
  | number (n : Nat)
  deriving DecidableEq, Repr

inductive LogEntry where
  | diagnostic (d : Diagnostic)
  | taskFailed (index : Nat) (e : CommandError)
  | parseFailed (file : Bytes) (e : CommandError)
  | rebuildFailed (file : Bytes) (e : CommandError)
  | writeFailed (file : Bytes) (e : CommandError)
  | workersIgnored (value : Bytes)
  deriving DecidableEq, Repr

/-- Text as a log holds it: each byte that is not UTF-8 becomes a replacement character. -/
def logText (s : Bytes) : Bytes := Text.mend (Text.pieces s)

namespace LogEntry

def level : LogEntry → LogLevel
  | diagnostic d => if d.severity = .error then .error else .warn
  | taskFailed .. | rebuildFailed .. | writeFailed .. => .error
  | parseFailed .. | workersIgnored .. => .warn

def message : LogEntry → Bytes
  | diagnostic d => logText d.text
  | taskFailed .. => utf8 "Task failed"
  | parseFailed .. => utf8 "Failed to parse file"
  | rebuildFailed .. => utf8 "Failed to rebuild file"
  | writeFailed .. => utf8 "Failed to write file"
  | workersIgnored .. => utf8 "Ignoring invalid integer setting"

/-- The named fields of an entry; lines and columns are shown from one, and tasks are shown as
done by the first worker. -/
def fields : LogEntry → List (Bytes × LogValue)
  | diagnostic d =>
      [(utf8 "file", .text (logText d.loc.file)), (utf8 "line", .number (d.loc.line + 1)),
       (utf8 "col", .number (d.loc.col + 1))]
  | taskFailed index e =>
      [(utf8 "error", .text (logText e.message)), (utf8 "worker", .number 0),
       (utf8 "index", .number index)]
  | parseFailed file e | rebuildFailed file e | writeFailed file e =>
      [(utf8 "error", .text (logText e.message)), (utf8 "file", .text (logText file))]
  | workersIgnored value =>
      [(utf8 "key", .text Settings.workersName), (utf8 "value", .text (logText value))]

end LogEntry

end ApeScript.Cli
