import ApeScript.Bytes
import ApeScript.Number.Binary32

/-!
# Expressions of a file

An expression is a binary operator over two sides. Each side has a type code, a position in the
expression tree and an operand: a number, a variable name, a string literal or a nested
expression. Codes are kept as stored, so a model may hold codes and operands that no file can:
`missing` is a side without an operand, `invalid` one that was never filled in, and `hollow` a
nested expression that is not there.
-/

namespace ApeScript

inductive Operator where
  | or | and | xor | gt | lt | ge | le | eq | add | sub | mul | div | neq
  deriving DecidableEq, Repr

namespace Operator

def all : List Operator := [or, and, xor, gt, lt, ge, le, eq, add, sub, mul, div, neq]

def code : Operator → UInt8
  | or => 1 | and => 2 | xor => 3 | gt => 4 | lt => 5 | ge => 6 | le => 7 | eq => 8
  | add => 9 | sub => 10 | mul => 11 | div => 12 | neq => 13

def ofCode? (code : UInt8) : Option Operator := all.find? (·.code = code)

def symbol : Operator → Bytes
  | or => utf8 "||" | and => utf8 "&&" | xor => utf8 "^^" | gt => utf8 ">" | lt => utf8 "<"
  | ge => utf8 ">=" | le => utf8 "<=" | eq => utf8 "==" | neq => utf8 "!=" | add => utf8 "+"
  | sub => utf8 "-" | mul => utf8 "*" | div => utf8 "/"

def name : Operator → Bytes
  | or => utf8 "Or" | and => utf8 "And" | xor => utf8 "Xor" | gt => utf8 "Gt" | lt => utf8 "Lt"
  | ge => utf8 "Ge" | le => utf8 "Le" | eq => utf8 "Eq" | add => utf8 "Add" | sub => utf8 "Sub"
  | mul => utf8 "Mul" | div => utf8 "Div" | neq => utf8 "Neq"

/-- The name of an operator code; zero is the invalid operator. -/
def nameOfCode (code : UInt8) : Bytes :=
  match ofCode? code with
  | some op => op.name
  | none => if code = 0 then utf8 "Invalid"
      else utf8 "Operator(" ++ Bytes.ofNat code.toNat ++ utf8 ")"

/-- The script spelling of an operator code, a question mark for a code without one. -/
def symbolOfCode (code : UInt8) : Bytes := ((ofCode? code).map symbol).getD (utf8 "?")

end Operator

inductive OperandType where
  | expression | floatConst | floatVar | stringConst | stringVar
  deriving DecidableEq, Repr

namespace OperandType

def all : List OperandType := [expression, floatConst, floatVar, stringConst, stringVar]

def code : OperandType → UInt8
  | expression => 0 | floatConst => 4 | floatVar => 5 | stringConst => 16 | stringVar => 17

def ofCode? (code : UInt8) : Option OperandType := all.find? (·.code = code)

def name : OperandType → Bytes
  | expression => utf8 "Expression" | floatConst => utf8 "FloatConst"
  | floatVar => utf8 "FloatVar" | stringConst => utf8 "StringConst"
  | stringVar => utf8 "StringVar"

def nameOfCode (code : UInt8) : Bytes :=
  match ofCode? code with
  | some t => t.name
  | none => utf8 "OperandType(" ++ Bytes.ofNat code.toNat ++ utf8 ")"

end OperandType

inductive Operand where
  | missing
  | invalid
  | float (value : Binary32)
  | name (text : Bytes)
  | quoted (text : Bytes)
  | hollow
  | nested (op : UInt8) (leftType : UInt8) (leftPos : UInt64) (left : Operand)
      (rightType : UInt8) (rightPos : UInt64) (right : Operand)
  deriving DecidableEq, Repr, Inhabited

structure Side where
  type : UInt8
  pos : UInt64
  value : Operand
  deriving DecidableEq, Repr, Inhabited

structure Expr where
  op : UInt8
  left : Side
  right : Side
  deriving DecidableEq, Repr

namespace Operand

/-- Whether an operand is of the kind that a type code announces. -/
def fits (type : OperandType) : Operand → Bool
  | float _ => type = .floatConst
  | name _ => type = .floatVar || type = .stringVar
  | quoted _ => type = .stringConst
  | hollow | nested .. => type = .expression
  | missing | invalid => false

def kindName : Operand → Bytes
  | float _ => utf8 "ape.FloatOperand"
  | name _ => utf8 "ape.StringOperand"
  | quoted _ => utf8 "ape.QuotedStringOperand"
  | hollow | nested .. => utf8 "ape.ExpressionOperand"
  | missing => utf8 "<nil>"
  | invalid => utf8 "ape.InvalidOperand"

def expr? : Operand → Option Expr
  | nested op lt lp l rt rp r => some ⟨op, ⟨lt, lp, l⟩, ⟨rt, rp, r⟩⟩
  | _ => none

end Operand

namespace Expr

def toOperand (e : Expr) : Operand :=
  .nested e.op e.left.type e.left.pos e.left.value e.right.type e.right.pos e.right.value

/-- A number as an expression: zero plus the number, under the root position. -/
def constant (x : Binary32) : Expr :=
  ⟨Operator.add.code, ⟨OperandType.floatConst.code, 5, .float .zero⟩,
    ⟨OperandType.floatConst.code, 6, .float x⟩⟩

end Expr

/-- The result of an arithmetic operator on numbers. Division by zero, a result that is not finite
and every other operator have none. -/
def Operator.arithmetic? (op : Operator) (x y : Binary32) : Option Binary32 :=
  let result := match op with
    | .add => some (x.add y)
    | .sub => some (x.sub y)
    | .mul => some (x.mul y)
    | .div => if y.isZero then none else some (x.div y)
    | _ => none
  result.filter Binary32.isFinite

namespace Operand

/-- The value of an operand of the given type whose leaves are all numbers joined by arithmetic. -/
def constant? (type : UInt8) : Operand → Option Binary32
  | float x => if type = OperandType.floatConst.code then some x else none
  | nested op lt _ l rt _ r => do
      let x ← l.constant? lt
      let y ← r.constant? rt
      let operator ← Operator.ofCode? op
      operator.arithmetic? x y
  | _ => none

end Operand

def Expr.constant? (e : Expr) : Option Binary32 := e.toOperand.constant? 0

end ApeScript
