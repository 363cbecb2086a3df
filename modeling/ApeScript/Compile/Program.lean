import ApeScript.Compile.Preprocess
import ApeScript.Compile.WindowBody
import ApeScript.File.Basic

/-!
# Compiling a script

A script is a sequence of windows, switches and macro definitions, each after a number sign.
`compile` prepares the text, reads it and returns the file or the failure, with the diagnostics
reported on the way. Switches from inline blocks come after all others.
-/

namespace ApeScript

inductive CompileFailure where
  | script (e : CompileError)
  | hashRange (hash : UInt32)
  | fileName (name : Bytes)
  deriving DecidableEq, Repr

namespace CompileFailure

/-- Where a failure is reported; one that concerns no place is reported at the start of the file. -/
def loc (file : Bytes) : CompileFailure → Location
  | script e => e.loc
  | _ => .start file

def report : CompileFailure → Bytes
  | script e => e.cause.message
  | hashRange hash => utf8 "inline switch hash " ++ Bytes.ofNat hash.toNat
      ++ utf8 " is out of range 0-" ++ Bytes.ofNat Options.maxHash
  | fileName name => utf8 "file name " ++ Text.quoted name
      ++ utf8 " for computing inline switch hash contained non-ASCII characters"

/-- The whole message, with the place of a failure that has one. -/
def message : CompileFailure → Bytes
  | script e => e.message
  | other => other.report

end CompileFailure

def scriptStem (file : Bytes) : Bytes :=
  let base := (file.reverse.takeWhile fun b => b != 47 && b != 92).reverse
  match base.reverse.dropWhile (· != 46) with
  | [] => base
  | _ :: stem => stem.reverse

/-- The hash of a script's name, which numbers its inline switches. Directories, the last extension
and the case of letters do not matter; names outside ASCII have none. -/
def inlineHash (file : Bytes) : Except CompileFailure Nat :=
  let stem := scriptStem file
  if stem.any (0x80 ≤ ·) then .error (.fileName file)
  else
    let mix (h : UInt32) (b : UInt8) : UInt32 := (h &&& 0x7ffffff) * 31 + (Bytes.lower b).toUInt32
    .ok ((stem.foldl mix 0).toNat % (Options.maxHash + 1))

namespace Compiler

/-- Drops tokens before the first number sign; strings among them end with their line. -/
def skipToHash : Compiler Unit :=
  repeatFrom () fun _ => do
    let token ← Lexer.peek .normal { stopNewline := true }
    if token.type = .hash ∨ token.type = .endOfFile then return .inr ()
    Lexer.consume
    return .inl ()

/-- What a script has defined so far, and whether the number sign of the next directive has been
read. -/
structure ProgramDraft where
  windows : List Window := []
  switches : List Switch := []
  afterHash : Bool := false

/-- The number sign of the next directive; false at the end of the script. -/
def findHash : Compiler Bool := do
  Lexer.skipLineEnds
  let token ← Lexer.next
  if token.type = .endOfFile then return false
  if token.type ≠ .hash then fail token.loc .expectedDirective
  return true

/-- A directive, after its number sign. -/
def parseTopDirective (p : ProgramDraft) : Compiler ProgramDraft := do
  let kind ← Lexer.next
  if kind.type ≠ .identifier then fail kind.loc .directiveName
  if kind.text = utf8 "window" then
    let (window, afterHash) ← compileWindow
    return { p with windows := p.windows ++ [window], afterHash := afterHash }
  if kind.text = utf8 "switch" then
    let label ← parseDefinitionLabel
    let (switch, afterHash) ← compileSwitch label false
    return { p with switches := p.switches ++ [switch], afterHash := afterHash }
  if kind.text = utf8 "define" then
    Lexer.defineMacro
    return { p with afterHash := false }
  fail kind.loc .unknownTopDirective

def compileProgram : Compiler File := do
  if (← options).legacyTopLevel then skipToHash
  let p ← repeatFrom ({} : ProgramDraft) fun p => do
    if !p.afterHash then
      if !(← findHash) then return .inr p
    return .inl (← parseTopDirective p)
  return ⟨p.windows, p.switches ++ (← getThe CompileState).inline⟩

end Compiler

/-- What a compilation reported, and its file or its failure. -/
structure CompileOutcome where
  diagnostics : List Diagnostic
  result : Except CompileFailure File

namespace CompileOutcome

def ofFailure (file : Bytes) (warnings : List Diagnostic) (e : CompileFailure) : CompileOutcome :=
  ⟨warnings ++ [⟨.error, e.loc file, e.report⟩], .error e⟩

def warningCount (o : CompileOutcome) : Nat :=
  (o.diagnostics.filter (·.severity = .warning)).length

end CompileOutcome

/-- The hash of the inline switches: the given one, which must be in range, or the name's. -/
def effectiveHash (o : Options) : Except CompileFailure Nat :=
  match o.hash with
  | some h => if Options.maxHash < h.toNat then .error (.hashRange h) else .ok h.toNat
  | none => inlineHash o.file

def prepareSource (o : Options) (src : Bytes) : Except CompileError Bytes := do
  let src := Preprocess.normalizeNewlines src
  let src ← if o.legacyComments then Preprocess.stripComments o.file src else pure src
  if o.legacyMacros then Preprocess.applyMacros o.file src else pure src

def compile (src : Bytes) (o : Options) : CompileOutcome :=
  let options := o.effective
  match effectiveHash options with
  | .error e => .ofFailure o.file [] e
  | .ok hash =>
    match prepareSource options src with
    | .error e => .ofFailure o.file [] (.script e)
    | .ok text =>
      let start : CompileState := ⟨.ofSource text options.file options.allowExpFloats, [], 0, []⟩
      let report (s : CompileState) : List Diagnostic :=
        s.warnings.map fun (loc, w) => ⟨.warning, loc, w.message⟩
      match Compiler.compileProgram ⟨options, hash⟩ start with
      | .error e s => .ofFailure o.file (report s) (.script e)
      | .ok file s =>
        match s.warnings with
        | (loc, w) :: _ =>
          if options.warningsAsErrors then ⟨report s, .error (.script ⟨loc, .promoted w⟩)⟩
          else ⟨report s, .ok file⟩
        | [] => ⟨[], .ok file⟩

end ApeScript
