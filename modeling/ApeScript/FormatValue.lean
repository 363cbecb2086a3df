import ApeScript.Expr.Codec

/-!
# Formatting values

Displayed text is followed by the values interpolated into it: numbers, variable names, strings
and names of string variables. On disk each value follows a zero byte and the list ends with two
bytes of 255.
-/

namespace ApeScript

inductive FormatType where
  | float | variableName | string | stringVariableName
  deriving DecidableEq, Repr

namespace FormatType

def all : List FormatType := [float, variableName, string, stringVariableName]

def code : FormatType → UInt8
  | float => 4 | variableName => 5 | string => 16 | stringVariableName => 17

def ofCode? (code : UInt8) : Option FormatType := all.find? (·.code = code)

def name : FormatType → Bytes
  | float => utf8 "Float" | variableName => utf8 "VariableName" | string => utf8 "String"
  | stringVariableName => utf8 "StringVariableName"

def nameOfCode (code : UInt8) : Bytes :=
  match ofCode? code with
  | some t => t.name
  | none => utf8 "FormatType(" ++ Bytes.ofNat code.toNat ++ utf8 ")"

def operandType : FormatType → OperandType
  | float => .floatConst | variableName => .floatVar | string => .stringConst
  | stringVariableName => .stringVar

/-- The operand type of a code; a code without one is taken for a string variable. -/
def operandTypeOfCode (code : UInt8) : OperandType :=
  ((ofCode? code).map operandType).getD .stringVar

end FormatType

structure FormatValue where
  type : UInt8
  value : Operand
  deriving DecidableEq, Repr

namespace FormatValue

def decode : Decoder FormatValue := do
  let tag ← Decoder.u8
  match FormatType.ofCode? tag with
  | some .float => return ⟨tag, .float ⟨← Decoder.u32⟩⟩
  | some .variableName | some .stringVariableName => return ⟨tag, .name (← CountedString.decode)⟩
  | some .string => return ⟨tag, .quoted (← CountedString.decode)⟩
  | none => Decoder.fail .formatType

/-- The next value of a list, or none at its first end byte. -/
def decodeNext : Decoder (Option FormatValue) := do
  let lead ← Decoder.u8
  if lead = 0 then return some (← decode)
  if lead ≠ 0xff then Decoder.fail .formatEnd
  return none

def decodeList (fuel : Nat) : Decoder (List FormatValue) := do
  let values ← Decoder.listUntilEnd decodeNext fuel
  let last ← Decoder.u8
  if last ≠ 0xff then Decoder.fail .formatEnd
  return values

def encode (v : FormatValue) : Encoded :=
  match FormatType.ofCode? v.type with
  | none => .refused (.formatCode v.type)
  | some t =>
    match v.value with
    | .missing | .invalid => .halted
    | value =>
      if value.fits t.operandType then Encoded.u8 v.type ++ value.encode
      else .refused (.formatMismatch t.name value.kindName)

def encodeList (values : List FormatValue) : Encoded :=
  Encoded.concat (values.map fun v => Encoded.u8 0 ++ v.encode) ++ .bytes [0xff, 0xff]

end FormatValue

end ApeScript
