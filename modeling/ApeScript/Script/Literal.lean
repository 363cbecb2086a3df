import ApeScript.FormatValue
import ApeScript.Number.Decimal

/-!
# Literals and expressions in scripts

How numbers, strings, names and expressions are spelled in a script. String literals escape
newlines, backslashes and double quotes; names are read without escapes, so a name with a quote or
a newline has no spelling.
-/

namespace ApeScript.Script

def escapeByte (b : UInt8) : Bytes :=
  if b = 10 then utf8 "\\n"
  else if b = 92 then utf8 "\\\\"
  else if b = 34 then utf8 "\\\""
  else [b]

def quote (s : Bytes) : Bytes := 34 :: (s.flatMap escapeByte ++ [34])

/-- A name in double quotes, if it holds neither a quote nor a newline. -/
def quoteName? (s : Bytes) : Option Bytes :=
  if s.any fun b => b = 34 || b = 10 then none else some (34 :: (s ++ [34]))

def invalidText : Bytes := utf8 "<invalid>"

def joinSides (op : UInt8) (left right : Bytes) : Bytes :=
  left ++ utf8 " " ++ Operator.symbolOfCode op ++ utf8 " " ++ right

/-- An operand of a type code, nested expressions in parentheses. -/
def operandSource (type : UInt8) : Operand → Bytes
  | .float x => if type = OperandType.floatConst.code then x.sourceText else invalidText
  | .name s =>
      if type = OperandType.floatVar.code ∨ type = OperandType.stringVar.code then s
      else invalidText
  | .quoted s => if type = OperandType.stringConst.code then quote s else invalidText
  | .nested op lt _ l rt _ r =>
      if type = OperandType.expression.code then
        utf8 "(" ++ joinSides op (operandSource lt l) (operandSource rt r) ++ utf8 ")"
      else invalidText
  | .missing | .invalid | .hollow => invalidText

/-- Whether an expression adds a number or a variable to zero, as lone operands are stored. -/
def isLoneOperand (e : Expr) : Bool :=
  let zero := match e.left.value with
    | .float x => x.isZero
    | _ => false
  e.op = Operator.add.code && e.left.type = OperandType.floatConst.code && zero &&
    (e.right.type = OperandType.floatConst.code || e.right.type = OperandType.floatVar.code)

def expressionSource (e : Expr) : Bytes :=
  if isLoneOperand e then operandSource e.right.type e.right.value
  else joinSides e.op (operandSource e.left.type e.left.value)
    (operandSource e.right.type e.right.value)

def formatValueSource (v : FormatValue) : Bytes :=
  operandSource (FormatType.operandTypeOfCode v.type).code v.value

def formatSource (values : List FormatValue) : Bytes :=
  values.flatMap fun v => utf8 ", " ++ formatValueSource v

end ApeScript.Script
