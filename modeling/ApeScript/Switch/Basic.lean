import ApeScript.FormatValue
import ApeScript.Label

/-!
# Switches

A switch is a labelled list of statements. Every statement has the same payload, of which its type
decides what is used; `if` and `while` have statements nested under them. A statement's `cc` value
is its place in the tree of statements: four times the place of a statement, plus one for the
first statement it governs, plus two for the first of its alternative, plus three for the
statement after it.
-/

namespace ApeScript

inductive StatementType where
  | noOp | ifThen | setFloat | setString | goto | goSub | console | echo | target | pathTarget
  | externCall | while | playAmbient | loopAmbient | stopAmbient | playScene | loopScene
  | stopScene | chainScripts | closeWindow | loadApe | setFocus
  deriving DecidableEq, Repr

namespace StatementType

def all : List StatementType :=
  [noOp, ifThen, setFloat, setString, goto, goSub, console, echo, target, pathTarget, externCall,
   .while, playAmbient, loopAmbient, stopAmbient, playScene, loopScene, stopScene, chainScripts,
   closeWindow, loadApe, setFocus]

def code : StatementType → UInt8
  | noOp => 0 | ifThen => 1 | setFloat => 2 | setString => 3 | goto => 4 | goSub => 5
  | console => 6 | echo => 7 | target => 8 | pathTarget => 9 | externCall => 10 | .while => 11
  | playAmbient => 12 | loopAmbient => 13 | stopAmbient => 14 | playScene => 15 | loopScene => 16
  | stopScene => 17 | chainScripts => 18 | closeWindow => 19 | loadApe => 20 | setFocus => 21

def ofCode? (code : UInt8) : Option StatementType := all[code.toNat]?

def name : StatementType → Bytes
  | noOp => utf8 "NoOpCommand" | ifThen => utf8 "IfCommand" | setFloat => utf8 "SetFloatCommand"
  | setString => utf8 "SetStringCommand" | goto => utf8 "GotoCommand"
  | goSub => utf8 "GoSubCommand" | console => utf8 "ConsoleCommand" | echo => utf8 "EchoCommand"
  | target => utf8 "TargetCommand" | pathTarget => utf8 "PathTargetCommand"
  | externCall => utf8 "ExternCommand" | .while => utf8 "WhileCommand"
  | playAmbient => utf8 "PlayAmbientCommand" | loopAmbient => utf8 "LoopAmbientCommand"
  | stopAmbient => utf8 "StopAmbientCommand" | playScene => utf8 "PlaySceneCommand"
  | loopScene => utf8 "LoopSceneCommand" | stopScene => utf8 "StopSceneCommand"
  | chainScripts => utf8 "ChainScriptsCommand" | closeWindow => utf8 "CloseWindowCommand"
  | loadApe => utf8 "LoadAPECommand" | setFocus => utf8 "SetFocusCommand"

def nameOfCode (code : UInt8) : Bytes :=
  match ofCode? code with
  | some t => t.name
  | none => utf8 "SwitchCommandType(" ++ Bytes.ofNat code.toNat ++ utf8 ")"

def isControl (code : UInt8) : Bool := code = ifThen.code || code = StatementType.while.code

end StatementType

/-- One switch statement; its type says which of the other fields matter. -/
structure Statement where
  type : UInt8
  str : Option Bytes
  format : List FormatValue
  expr : Option Expr
  deriving DecidableEq, Repr

structure Placed where
  cc : UInt64
  statement : Statement
  deriving DecidableEq, Repr

def Placed.binary (cc : UInt64) : Bytes := (Nat.toDigits 2 cc.toNat).map Bytes.ofChar

structure Switch where
  label : Label
  commands : List Placed
  deriving DecidableEq, Repr

/-! ### Stored statements

Each statement is its place, its type code, an optional string, formatting values and an optional
expression. The list of a switch's statements ends with place zero and the end code. -/

def Switch.endCode : UInt8 := 69

namespace Placed

def encode (p : Placed) : Encoded :=
  Encoded.u64 p.cc ++ (Encoded.u8 p.statement.type ++
    (CountedString.encode? p.statement.str ++ (FormatValue.encodeList p.statement.format ++
      Expr.encode? p.statement.expr)))

/-- The next statement of a switch, or none at its end record. -/
def decodeNext (fuel limit : Nat) : Decoder (Option Placed) := do
  let cc ← Decoder.u64
  let code ← Decoder.u8
  if (StatementType.ofCode? code).isNone then
    if code ≠ Switch.endCode then Decoder.fail (.statementCode code)
    if cc ≠ 0 then Decoder.fail .endPosition
    return none
  return some ⟨cc, code, ← CountedString.decode?, ← FormatValue.decodeList fuel,
    ← Expr.decode? limit⟩

end Placed

namespace Switch

/-- The statements and the end record. A statement of unknown type ends the walk. -/
def encodeCommands : List Placed → Encoded
  | [] => Encoded.u64 0 ++ Encoded.u8 endCode
  | p :: rest =>
    if (StatementType.ofCode? p.statement.type).isNone then
      .refused (.statementCode (StatementType.nameOfCode p.statement.type))
    else p.encode ++ encodeCommands rest

def decodeCommands (fuel limit : Nat) : Decoder (List Placed) :=
  Decoder.listUntilEnd (Placed.decodeNext fuel limit) fuel

end Switch

end ApeScript
