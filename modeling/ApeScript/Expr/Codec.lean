import ApeScript.Binary.CountedString
import ApeScript.Expr.Basic

/-!
# Stored expressions

An expression is its operator code, a flag byte that packs both operand types, and then each side
as a tree position followed by the operand. An expression that may be absent is a zero double word
when it is, and otherwise a one, the expression and a zero. Reading takes a limit on the levels of
nesting below the root; files have at most `maxNesting`.
-/

namespace ApeScript

def typeFlags (left right : UInt8) : UInt8 := left ||| (right <<< 1)

namespace Operand

def encodeSide (type : UInt8) (pos : UInt64) (value : Operand) (payload : Encoded) : Encoded :=
  match value with
  | missing | invalid => .halted
  | value =>
    if ((OperandType.ofCode? type).map value.fits).getD false then Encoded.u64 pos ++ payload
    else .refused (.operandMismatch (OperandType.nameOfCode type) value.kindName)

def encodeNode (op leftType rightType : UInt8) (left right : Encoded) : Encoded :=
  match Operator.ofCode? op with
  | none => .refused (.operatorCode (Operator.nameOfCode op))
  | some _ => .bytes [op, typeFlags leftType rightType] ++ (left ++ right)

def encode : Operand → Encoded
  | missing | invalid | hollow => .halted
  | float x => Encoded.u32 x.bits
  | name s | quoted s => CountedString.encode s
  | nested op lt lp l rt rp r =>
      encodeNode op lt rt (encodeSide lt lp l l.encode) (encodeSide rt rp r r.encode)

end Operand

namespace Expr

def encode (e : Expr) : Encoded := e.toOperand.encode

def encode? : Option Expr → Encoded
  | none => Encoded.u64 0
  | some e => Encoded.u64 1 ++ (e.encode ++ Encoded.u64 0)

def maxNesting : Nat := 64

def decodeType (code : UInt8) : Decoder OperandType :=
  match OperandType.ofCode? code with
  | some t => return t
  | none =>
    if code = 0x01 then Decoder.fail .untypedVariable
    else if code = 0x14 then Decoder.fail .floatAndString
    else Decoder.fail (.operandType code)

/-- A side of a known type; `nested` reads an expression one level down. -/
def decodeSide (nested : Decoder Expr) (type : OperandType) : Decoder Side := do
  let pos ← Decoder.u64
  let value : Operand ← match type with
    | .expression => return ⟨type.code, pos, (← nested).toOperand⟩
    | .floatConst => pure (.float ⟨← Decoder.u32⟩)
    | .floatVar | .stringVar => pure (.name (← CountedString.decode))
    | .stringConst => pure (.quoted (← CountedString.decode))
  return ⟨type.code, pos, value⟩

def decodeWithin : (levels : Nat) → Decoder Expr
  | 0 => Decoder.fail .nesting
  | levels + 1 => do
    let op ← Decoder.u8
    let flags ← Decoder.u8
    if (Operator.ofCode? op).isNone then Decoder.fail (.operatorCode op)
    if flags &&& 0xc0 ≠ 0 then Decoder.fail .operandFlags
    let leftType ← decodeType (flags &&& 0x15)
    let rightType ← decodeType ((flags >>> 1) &&& 0x15)
    let left ← decodeSide (decodeWithin levels) leftType
    let right ← decodeSide (decodeWithin levels) rightType
    return ⟨op, left, right⟩

/-- An expression with at most `limit` levels below its root. -/
def decode (limit : Nat) : Decoder Expr := decodeWithin (limit + 1)

def decode? (limit : Nat) : Decoder (Option Expr) := do
  let flag ← Decoder.u64
  if flag = 0 then return none
  if flag ≠ 1 then Decoder.fail (.presenceFlag flag)
  let e ← decode limit
  Decoder.expect32 0
  Decoder.expect32 0
  return some e

end Expr

end ApeScript
