import ApeScript.Compile.Diagnostic

/-!
# Text stages

What happens to a script's text before it is read as tokens. `normalizeNewlines` leaves line feeds
only. `stripComments` blanks comments of legacy scripts in place, so that no byte moves.
`applyMacros` blanks the definitions of legacy macros and replaces their names by their values.
-/

namespace ApeScript.Preprocess

/-- Carriage returns, alone or before a line feed, become one line feed. -/
def normalizeNewlines (s : Bytes) : Bytes :=
  (s.zip (s.drop 1 ++ [(0 : UInt8)])).filterMap fun (b, next) =>
    if b = 13 then (if next = 10 then none else some 10) else some b

/-! ### Comments -/

/-- What a byte belongs to: plain text, a line comment, a block comment that was opened somewhere,
or the slash that closes one. -/
inductive Zone where
  | plain
  | line
  | block (opened : Location)
  | closing
  deriving DecidableEq, Repr

def stripByte (zone : Zone) (loc : Location) (b : UInt8) (next : Option UInt8) : UInt8 × Zone :=
  match zone with
  | .closing => (32, .plain)
  | .block opened =>
      if b = 42 ∧ next = some 47 then (32, .closing)
      else (if b = 10 then 10 else 32, .block opened)
  | .line => if b = 10 then (10, .plain) else (32, .line)
  | .plain =>
      if b = 47 ∧ next = some 42 then (32, .block loc)
      else if b = 47 ∧ next = some 47 then (32, .line)
      else (b, .plain)

/-- The text with its comments blanked, and the zone at its end. -/
def stripFrom : Zone → Location → Bytes → Bytes × Zone
  | zone, _, [] => ([], zone)
  | zone, loc, b :: rest =>
    let (out, next) := stripByte zone loc b rest.head?
    let (tail, last) := stripFrom next (loc.after b) rest
    (out :: tail, last)

/-- The text with its comments blanked; an open block comment is reported where it was opened. -/
def stripComments (file s : Bytes) : Except CompileError Bytes :=
  match stripFrom .plain (.start file) s with
  | (_, .block opened) => .error ⟨opened, .unterminatedComment⟩
  | (out, _) => .ok out

/-! ### Macros -/

structure TextMacro where
  name : Bytes
  value : Bytes
  deriving DecidableEq, Repr

def defineKeyword : Bytes := utf8 "define"

/-- The text after blanks other than newlines, which must not end the line or the file. -/
def skipBlanks (loc : Location) (s : Bytes) : Except CompileError Bytes :=
  match s.dropWhile fun b => isBlankByte b && b != 10 with
  | [] => .error ⟨loc, .defineNameMissing true⟩
  | 10 :: _ => .error ⟨loc, .defineNameMissing false⟩
  | rest => .ok rest

/-- The name and quoted value after the keyword, and the text after them. -/
def parseDefine (loc : Location) (s : Bytes) : Except CompileError (TextMacro × Bytes) := do
  let (name, rest) := (← skipBlanks loc s).span fun b => !isBlankByte b
  match ← skipBlanks loc rest with
  | 34 :: body =>
    match body.span fun b => b != 34 && b != 10 with
    | (value, 34 :: after) => return (⟨name, value⟩, after)
    | (_, []) => throw ⟨loc, .defineValueEnd true⟩
    | _ => throw ⟨loc, .defineValueEnd false⟩
  | _ => throw ⟨loc, .defineUnquoted⟩

/-- The definition that starts here, if the keyword stands here as a word of its own, and how many
bytes it takes up. -/
def defineHere? (before : UInt8) (loc : Location) (s : Bytes) :
    Except CompileError (Option (TextMacro × Nat)) :=
  match Bytes.after? defineKeyword s with
  | none => .ok none
  | some rest =>
    if isIdentifierByte before || !(rest.head?.map isBlankByte).getD true then .ok none
    else (parseDefine loc rest).map fun (found, after) => some (found, s.length - after.length)

def definesHere (s : Bytes) : Bool :=
  match defineHere? 35 (.start []) s with
  | .ok (some _) => true
  | _ => false

/-- Blanks every definition, with a number sign right before it, and collects the macros. `skip`
bytes still belong to the definition found last. -/
def collectDefines : (before : UInt8) → (skip : Nat) → Location → Bytes →
    Except CompileError (Bytes × List TextMacro)
  | _, _, _, [] => .ok ([], [])
  | _, skip + 1, loc, b :: rest => do
    let (out, macros) ← collectDefines 32 skip (loc.after b) rest
    return (32 :: out, macros)
  | before, 0, loc, b :: rest => do
    match ← defineHere? before loc (b :: rest) with
    | some (found, size) =>
      let (out, macros) ← collectDefines 32 (size - 1) (loc.after b) rest
      return (32 :: out, found :: macros)
    | none =>
      let (out, macros) ← collectDefines b 0 (loc.after b) rest
      return ((if b = 35 ∧ definesHere rest then 32 else b) :: out, macros)

/-- Replaces macro names, the first-defined one that matches at a byte that is not blank; values
are not searched again. `skip` bytes still belong to the name replaced last. -/
def substitute (macros : List TextMacro) : (skip : Nat) → Bytes → Bytes
  | _, [] => []
  | skip + 1, _ :: rest => substitute macros skip rest
  | 0, b :: rest =>
    match if isBlankByte b then none else macros.find? fun m => m.name.isPrefixOf (b :: rest) with
    | some m => m.value ++ substitute macros (m.name.length - 1) rest
    | none => b :: substitute macros 0 rest

def applyMacros (file s : Bytes) : Except CompileError Bytes := do
  let (blanked, macros) ← collectDefines 0 0 (.start file) s
  return if macros.isEmpty then blanked else substitute macros 0 blanked

end ApeScript.Preprocess
