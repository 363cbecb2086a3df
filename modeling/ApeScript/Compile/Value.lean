import ApeScript.Compile.Diagnostic
import ApeScript.Expr.Basic

/-!
# Parsed expressions

A `Value` is an expression as parsed. Its `result` says whether it is a number, a string or
neither. `invert` negates a condition, `fold` evaluates what is constant, and `layout` gives every
operator of the tree its position and turns it into a stored expression: the root is at position
one, and the sides of the operator at `p` are at `4p + 1` and `4p + 2`.
-/

namespace ApeScript

/-! ### String literals

A literal's text stands between its quotes, with escapes still in place; `unescape` decodes them. -/

/-- The text of a string literal without its quotes; an unterminated one has only the first. -/
def Token.unquoted (t : Token) : Bytes :=
  match t.text with
  | 34 :: rest => if rest.getLast? = some 34 then rest.dropLast else rest
  | s => s

namespace Escape

def resolve? (b : UInt8) : Option UInt8 :=
  if b = 116 then some 9
  else if b = 110 then some 10
  else if b = 34 then some 34
  else if b = 92 then some 92
  else none

/-- The text with its escapes decoded, if `escapes` is set, and its newlines made spaces, if
`newlineToSpace` is. -/
def unescape (escapes newlineToSpace : Bool) : Bytes → Except Cause Bytes
  | [] => .ok []
  | b :: rest =>
    if escapes && b = 92 then
      match rest with
      | [] => .error .escapeAtEnd
      | c :: more =>
        match resolve? c with
        | none => .error .unknownEscape
        | some r => (unescape escapes newlineToSpace more).map (r :: ·)
    else
      (unescape escapes newlineToSpace rest).map
        ((if newlineToSpace && b = 10 then 32 else b) :: ·)

end Escape

/-! ### Values -/

inductive ResultType where
  | float | string | invalid
  deriving DecidableEq, Repr

inductive Value where
  | const (x : Binary32)
  | floatVar (name : Bytes)
  | stringConst (raw : Bytes)
  | stringVar (name : Bytes)
  | binary (op : Operator) (left right : Value)
  | invalid
  deriving DecidableEq, Repr, Inhabited

/-- The type of an operator's result: equality compares like with like, all else wants numbers. -/
def Operator.result (op : Operator) (left right : ResultType) : ResultType :=
  match op with
  | .eq | .neq => if left = right then .float else .invalid
  | _ => if left = .float ∧ right = .float then .float else .invalid

def truth (b : Bool) : Binary32 := if b then .one else .zero

/-- The value of an operator on two numbers. -/
def Operator.evaluate (op : Operator) (x y : Binary32) : Except Cause Binary32 :=
  let finite (z : Binary32) : Except Cause Binary32 :=
    if z.isFinite then .ok z else .error .nonFinite
  match op with
  | .or => .ok (truth (!x.isZero || !y.isZero))
  | .and => .ok (truth (!x.isZero && !y.isZero))
  | .xor => .ok (truth (x.isZero != y.isZero))
  | .gt => .ok (truth (x.gt y))
  | .lt => .ok (truth (x.lt y))
  | .ge => .ok (truth (x.ge y))
  | .le => .ok (truth (x.le y))
  | .eq => .ok (truth (x.eq y))
  | .neq => .ok (truth (!x.eq y))
  | .add => finite (x.add y)
  | .sub => finite (x.sub y)
  | .mul => finite (x.mul y)
  | .div => if y.isZero then .error .divisionByZero else finite (x.div y)

namespace Value

def result : Value → ResultType
  | const _ | floatVar _ => .float
  | stringConst _ | stringVar _ => .string
  | binary op l r => op.result l.result r.result
  | invalid => .invalid

def isFloat (v : Value) : Bool := v.result = .float

/-- A variable, which holds a string when its name ends in a dollar sign. -/
def ofName (name : Bytes) : Value :=
  if name.getLast? = some 36 then stringVar name else floatVar name

/-- The condition that stands for the negation of another, `invalid` where there is none. -/
def invert : Value → Value
  | const x => const (truth x.isZero)
  | v@(floatVar _) => binary .neq v (const .zero)
  | v@(binary op l r) =>
    match op with
    | .or | .and =>
      let l' := l.invert
      let r' := r.invert
      if l'.result = .invalid ∨ r'.result = .invalid then invalid
      else binary (if op = .and then .or else .and) l' r'
    | .gt => binary .le l r
    | .lt => binary .ge l r
    | .ge => binary .lt l r
    | .le => binary .gt l r
    | .eq => binary .neq l r
    | .xor | .add | .sub | .mul | .div | .neq => binary .eq v (const .zero)
  | _ => invalid

def fold : Value → Except Cause Value
  | binary op l r => do
    let l' ← l.fold
    let r' ← r.fold
    match l', r' with
    | const x, const y => return const (← op.evaluate x y)
    | _, _ => return binary op l' r'
  | v => .ok v

/-- All conditions at once, the outermost first; none when there are none. -/
def conjoin : List Value → Option Value
  | [] => none
  | first :: rest => some (rest.foldl (binary .and) first)

def node (op : Operator) (pos : UInt64) (left right : UInt64 → Except Cause Side) :
    Except Cause Expr := do
  if pos >>> 62 ≠ 0 then throw .tooComplex
  return ⟨op.code, ← left (pos <<< 2 + 1), ← right (pos <<< 2 + 2)⟩

/-- A value as a side at a position; `escapes` decodes escapes in its strings. -/
def toSide (escapes : Bool) : Value → UInt64 → Except Cause Side
  | const x, pos => .ok ⟨OperandType.floatConst.code, pos, .float x⟩
  | floatVar name, pos => .ok ⟨OperandType.floatVar.code, pos, .name name⟩
  | stringVar name, pos => .ok ⟨OperandType.stringVar.code, pos, .name name⟩
  | stringConst raw, pos => do
    return ⟨OperandType.stringConst.code, pos, .quoted (← Escape.unescape escapes true raw)⟩
  | binary op l r, pos => do
    let e ← node op pos (l.toSide escapes) (r.toSide escapes)
    return ⟨OperandType.expression.code, pos, e.toOperand⟩
  | invalid, _ => .error .unemittable

/-- A value as a stored expression; anything but an operator is added to zero. -/
def layout (escapes : Bool) (v : Value) : Except Cause Expr :=
  match v with
  | binary op l r => node op 1 (l.toSide escapes) (r.toSide escapes)
  | leaf => node .add 1 ((const .zero).toSide escapes) (leaf.toSide escapes)

end Value

end ApeScript
