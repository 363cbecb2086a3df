import ApeScript.Cli.Flag
import ApeScript.Compile.Program
import ApeScript.Text.Lower

/-!
# Commands

The commands of the tool, the flags each accepts and the number of arguments it wants, and how the
command is found among the arguments. The first argument that is no flag, and no value of one,
names the command.
-/

namespace ApeScript.Cli

def toolName : Bytes := utf8 "apetools"

inductive Verb where
  | compile | batch | disasm | decompile | check | extract | apply | index | similar | graph
  | unresolved | referrers | help | completion
  deriving DecidableEq, Repr

def optionFlags : List (Bytes × (Options → Bool → Options)) :=
  [(utf8 "legacy-top-level", fun o b => { o with legacyTopLevel := b }),
   (utf8 "legacy-labeled-commands", fun o b => { o with legacyLabeledCommands := b }),
   (utf8 "legacy-comments", fun o b => { o with legacyComments := b }),
   (utf8 "legacy-macros", fun o b => { o with legacyMacros := b }),
   (utf8 "legacy-cam", fun o b => { o with legacyCam := b }),
   (utf8 "legacy-precedence", fun o b => { o with legacyPrecedence := b }),
   (utf8 "legacy-set-naming", fun o b => { o with legacySetNaming := b }),
   (utf8 "allow-malformed-exprs", fun o b => { o with allowMalformedExprs := b }),
   (utf8 "allow-exp-floats", fun o b => { o with allowExpFloats := b }),
   (utf8 "allow-expr-escapes", fun o b => { o with allowExprEscapes := b }),
   (utf8 "allow-empty-blocks", fun o b => { o with allowEmptyBlocks := b }),
   (utf8 "optimize", fun o b => { o with optimize := b }),
   (utf8 "werror", fun o b => { o with warningsAsErrors := b })]

def truthFlag (name : String) : Flag := { name := utf8 name, kind := .truth }

def numberFlag (name : String) : Flag := { name := utf8 name, kind := .number }

def textFlag (name : String) : Flag := { name := utf8 name, kind := .text }

def compilerFlags : List Flag :=
  truthFlag "legacy" ::
    (optionFlags.map fun (name, _) => ({ name, kind := .truth } : Flag)) ++ [numberFlag "hash"]

/-- The options that flags ask for: the plain or the legacy dialect, changed by the toggles that
were given. A hash that is not negative replaces the one of the file name; it is cut to 32 bits
before it is checked. -/
def optionsOf (a : Arguments) : Except CompileFailure Options := do
  let start := if a.truth "legacy" then Options.legacy else Options.defaults
  let toggled := optionFlags.foldl
    (fun o (name, toggle) =>
      match a.value? name with
      | some (.truth b) => toggle o b
      | _ => o)
    start
  let hash := a.number "hash" (-1)
  if hash < 0 then return toggled
  let o := { toggled with hash := some (UInt32.ofInt hash) }
  match effectiveHash o with
  | .ok _ => return o
  | .error e => throw e

namespace Verb

def all : List Verb :=
  [compile, batch, disasm, decompile, check, extract, apply, index, similar, graph, unresolved,
   referrers, help, completion]

def name : Verb → Bytes
  | compile => utf8 "compile"
  | batch => utf8 "batch"
  | disasm => utf8 "disasm"
  | decompile => utf8 "decompile"
  | check => utf8 "check"
  | extract => utf8 "extract"
  | apply => utf8 "apply"
  | index => utf8 "index"
  | similar => utf8 "similar"
  | graph => utf8 "graph"
  | unresolved => utf8 "unresolved"
  | referrers => utf8 "referrers"
  | help => utf8 "help"
  | completion => utf8 "completion"

def ownFlags : Verb → List Flag
  | compile => compilerFlags
  | batch => compilerFlags ++ [numberFlag "workers"]
  | disasm => [truthFlag "dir", truthFlag "validate", truthFlag "src", truthFlag "yaml",
      numberFlag "workers", textFlag "charset"]
  | decompile => [truthFlag "validate"]
  | extract | apply => [truthFlag "scripts", numberFlag "workers", textFlag "charset"]
  | index => [numberFlag "workers", textFlag "charset"]
  | similar => [numberFlag "limit"]
  | graph => [numberFlag "workers"]
  | check | unresolved | referrers | help | completion => []

/-- How many arguments a command wants; the last two take any. -/
def arity? : Verb → Option Nat
  | compile | batch | disasm | decompile | extract | similar | referrers => some 2
  | check | index | graph => some 1
  | apply => some 3
  | unresolved => some 0
  | help | completion => none

end Verb

def sharedFlags : List Flag := [truthFlag "verbose"]

def helpFlag : Flag := { name := utf8 "help", kind := .truth, letter := some 104 }

/-! ### Finding the command -/

variable (flags : List Flag)

/-- Whether an argument is a flag whose value is the next argument. Single letters count as such
flags here. -/
def takesNext (argument : Bytes) : Bool :=
  !argument.any (· = 61) &&
    if Bytes.startsWith (utf8 "--") argument then
      ((findFlag? flags (argument.drop 2)).map fun f => f.kind != .truth).getD true
    else argument.head? = some 45 && argument.length = 2

def isOperand (argument : Bytes) : Bool := !argument.isEmpty && argument.head? ≠ some 45

/-- The arguments that are neither flags nor values of flags. A flag that would take the last
argument ends the search. -/
def operands : List Bytes → List Bytes
  | [] => []
  | argument :: rest =>
    if argument = utf8 "--" then []
    else if takesNext flags argument then
      match rest with
      | _ :: next :: more => operands (next :: more)
      | _ => []
    else if isOperand argument then argument :: operands rest
    else operands rest

/-- The arguments without the first operand equal to `name`. -/
def withoutOperand (name : Bytes) : List Bytes → List Bytes
  | [] => []
  | argument :: rest =>
    if argument = utf8 "--" then argument :: rest
    else if takesNext flags argument then
      match rest with
      | value :: more => argument :: value :: withoutOperand name more
      | [] => [argument]
    else if argument = name then rest
    else argument :: withoutOperand name rest

inductive Found where
  | verb (v : Verb) (rest : List Bytes)
  | tool (arguments : List Bytes)
  | unknown (name : Bytes)
  deriving DecidableEq, Repr

def findVerb (arguments : List Bytes) : Found :=
  match operands sharedFlags arguments with
  | [] => .tool arguments
  | name :: _ =>
    match Verb.all.find? (·.name = name) with
    | some v => .verb v (withoutOperand sharedFlags name arguments)
    | none => .unknown name

def shells : List Bytes := [utf8 "bash", utf8 "zsh", utf8 "fish", utf8 "powershell"]

def findShell? (arguments : List Bytes) : Option (Bytes × List Bytes) :=
  match operands sharedFlags arguments with
  | [] => none
  | name :: _ =>
    if shells.contains name then some (name, withoutOperand sharedFlags name arguments) else none

/-! ### Suggestions -/

/-- One row of the table of edit distances: `above` is the row of the shorter text, `left` the
last number of this row. -/
def distanceRow (b : UInt8) : (left : Nat) → (s : Bytes) → (above : List Nat) → List Nat
  | left, a :: s, corner :: up :: above =>
    let best := if a = b then corner else 1 + min corner (min left up)
    best :: distanceRow b best s (up :: above)
  | _, _, _ => []

/-- The number of insertions, deletions and replacements of bytes between two texts. -/
def editDistance (s t : Bytes) : Nat :=
  let first := List.range (s.length + 1)
  let last := t.foldl
    (fun row b =>
      let left := row.headD 0 + 1
      left :: distanceRow b left s row)
    first
  last.getLastD 0

/-- Commands whose names start like a text or are at most two edits away from it. -/
def suggestions (typed : Bytes) : List Bytes :=
  let typed := Text.lower typed
  ((Verb.all.filter (· ≠ .help)).map Verb.name).filter fun name =>
    editDistance typed name ≤ 2 || Bytes.startsWith typed name

end ApeScript.Cli
