import ApeScript.Compile.Monad
import ApeScript.Label
import ApeScript.Number.Decimal
import ApeScript.FormatValue

/-!
# Expressions, labels and arguments

Operators are grouped in tiers from the tightest to the loosest, and every tier associates to the
left; legacy scripts give each operator a tier of its own. A minus sign before an operand binds
tighter than every tier. Besides expressions this module reads the small things that directives
and statements share: labels, formatting values and names.
-/

namespace ApeScript

namespace Operator

def ofSymbol? (s : Bytes) : Option Operator := all.find? (·.symbol = s)

def tiers : List (List Operator) :=
  [[div, mul], [sub, add], [le, ge, lt, gt], [neq, eq], [and], [xor], [or]]

def legacyTiers : List (List Operator) :=
  [[div], [mul], [sub], [add], [le], [ge], [lt], [gt], [neq], [eq], [and], [xor], [or]]

end Operator

namespace Decimal

def spellsDigits (s : Bytes) : Bool := !s.isEmpty && s.all Bytes.isDigit

/-- The power of ten that a text from the exponent's letter on stands for. It stops growing once it
has five digits. -/
def powerOfText (power : Bytes) : Option Int :=
  if power.isEmpty then some 0
  else
    let (negative, digits) : Bool × Bytes := match power.drop 1 with
      | 45 :: ds => (true, ds)
      | 43 :: ds => (false, ds)
      | ds => (false, ds)
    let grow (n : Nat) (b : UInt8) : Nat := if n < 10000 then 10 * n + (b.toNat - 48) else n
    let size : Nat := digits.foldl grow 0
    if spellsDigits digits then some (if negative then -(size : Int) else size) else none

/-- The decimal that an unsigned text of digits, perhaps with a point and an exponent, spells. -/
def ofText (s : Bytes) : Option Decimal :=
  let (mantissa, power) := s.span fun b => b != 101 && b != 69
  let (whole, fraction) := mantissa.span (· != 46)
  let places := fraction.drop 1
  if spellsDigits (whole ++ places) then
    (powerOfText power).map fun e => ⟨Bytes.digitsValue (whole ++ places), e - places.length⟩
  else none

end Decimal

namespace Compiler

open Lexer (Remaining)

def floatOfToken (token : Token) : Compiler Binary32 := do
  if token.type ≠ .number then fail token.loc .notANumber
  match Decimal.ofText token.text with
  | none => fail token.loc (.floatText token.text)
  | some d =>
    if d.toBinary32.isFinite then return d.toBinary32
    fail token.loc (.floatRange token.text)

def operatorOf? (tier : List Operator) (token : Token) : Option Operator :=
  if token.type = .operator then (Operator.ofSymbol? token.text).filter tier.contains else none

mutual

/-- An expression of the `level` tightest tiers. -/
def parseTier (tiers : List (List Operator)) (bound : Remaining) :
    (level : Nat) → Compiler Value
  | 0 => parseNegation tiers bound
  | level + 1 => do
    let left ← parseTier tiers bound level
    parseTierRest tiers bound level left
termination_by level => (bound.unread, bound.queued, 2 * level + 2)
decreasing_by
  all_goals exact Prod.Lex.right _ (Prod.Lex.right _ (by omega))

/-- The operators of a tier and their right sides, after a left side. -/
def parseTierRest (tiers : List (List Operator)) (bound : Remaining) (level : Nat)
    (left : Value) : Compiler Value := do
  let token ← Lexer.peekNormal
  match operatorOf? (tiers.getD level []) token with
  | none => return left
  | some op =>
    Lexer.consume
    let now ← remaining
    if _less : now.Less bound then
      let right ← parseTier tiers now level
      parseTierRest tiers now level (.binary op left right)
    else fail token.loc .stalled
termination_by (bound.unread, bound.queued, 2 * level + 3)
decreasing_by
  all_goals exact Remaining.lex_of_less _less _ _

/-- An operand with any number of minus signs before it. -/
def parseNegation (tiers : List (List Operator)) (bound : Remaining) : Compiler Value := do
  let token ← Lexer.peekNormal
  if token.type = .operator ∧ token.text = Operator.sub.symbol then
    Lexer.consume
    let now ← remaining
    if _less : now.Less bound then
      let v ← parseNegation tiers now
      if !v.isFloat then fail token.loc .negationOfString
      match v with
      | .const x => return .const x.neg
      | v => return .binary .sub (.const .zero) v
    else fail token.loc .stalled
  else parseOperand tiers bound
termination_by (bound.unread, bound.queued, 1)
decreasing_by
  · exact Remaining.lex_of_less _less _ _
  · exact Prod.Lex.right _ (Prod.Lex.right _ (by omega))

/-- A number, a variable, a string or an expression in parentheses. -/
def parseOperand (tiers : List (List Operator)) (bound : Remaining) : Compiler Value := do
  let token ← Lexer.peekNormal
  match token.type with
  | .openParen =>
    Lexer.consume
    let now ← remaining
    if _less : now.Less bound then
      let v ← parseTier tiers now tiers.length
      let closing ← Lexer.next
      if closing.type ≠ .closeParen then fail closing.loc .unclosedExpression
      return v
    else fail token.loc .stalled
  | .string =>
    Lexer.consume
    return .stringConst token.unquoted
  | .number =>
    Lexer.consume
    return .const (← floatOfToken token)
  | .identifier =>
    Lexer.consume
    return .ofName token.text
  | _ => fail token.loc .expectedExpression
termination_by (bound.unread, bound.queued, 0)
decreasing_by exact Remaining.lex_of_less _less _ _

end

def parseExpr : Compiler Value := do
  let tiers := if (← options).legacyPrecedence then Operator.legacyTiers else Operator.tiers
  parseTier tiers (← remaining) tiers.length

def parseNumeric : Compiler Value := do
  let loc ← location
  let v ← parseExpr
  if !v.isFloat then
    if !(← options).allowMalformedExprs then fail loc .invalidExpression
    warn loc .notNumeric
  return v

/-- A parsed value as a stored expression, folded first when optimizing. -/
def toExpr (v : Value) (loc : Location) : Compiler Expr := do
  let o ← options
  let v ← if o.optimize then located loc v.fold else pure v
  if !v.isFloat then
    match v, o.allowMalformedExprs with
    | .binary .., true => warn loc .typeMismatch
    | _, _ => fail loc .notNumeric
  located loc (v.layout o.allowExprEscapes)

def toExpr? (v : Option Value) (loc : Location) : Compiler (Option Expr) :=
  match v with
  | none => return none
  | some v => return some (← toExpr v loc)

/-- The condition of a command, none when it always holds. The second part tells whether it can
hold at all: when optimizing, a constant condition is decided here. -/
def toCondition (v : Option Value) (loc : Location) : Compiler (Option Expr × Bool) := do
  let some v := v | return (none, true)
  if (← options).optimize then
    match ← located loc v.fold with
    | .const x => return (none, !x.isZero)
    | folded => return (some (← toExpr folded loc), true)
  return (some (← toExpr v loc), true)

/-! ### Labels -/

def labelHalf (limit : Nat) : (value : Nat) → Bytes → Except Cause Nat
  | n, [] => .ok n
  | n, b :: rest =>
    if !Bytes.isDigit b then .error .labelNotIntegral
    else
      let next := 10 * n + (b.toNat - 48)
      if limit ≤ next then .error .labelTooLarge else labelHalf limit next rest

/-- The label that two number tokens spell. -/
def labelOfTokens (high low : Token) : Compiler Label := do
  let h ← located high.loc (labelHalf Label.highLimit 0 high.text)
  let l ← located low.loc (labelHalf Label.lowLimit 0 low.text)
  match Label.ofHalves h l with
  | .ok label => return label
  | .error _ => fail high.loc .labelTooLarge

def parseLabel : Compiler Label := do
  let high ← Lexer.expect .number
  let _ ← Lexer.expect .colon
  let low ← Lexer.expect .number
  labelOfTokens high low

/-- The label of a window or switch that is defined here. Label zero ends the lists of a file, so
nothing can have it. -/
def parseDefinitionLabel : Compiler Label := do
  let first ← Lexer.peekNormal
  let label ← parseLabel
  if label = 0 then fail first.loc .labelZero
  return label

/-! ### Formatting values -/

def formatValueOfToken (token : Token) : Compiler FormatValue :=
  match token.type with
  | .number => return ⟨FormatType.float.code, .float (← floatOfToken token)⟩
  | .identifier =>
    let type := if token.text.getLast? = some 36 then FormatType.stringVariableName
      else FormatType.variableName
    return ⟨type.code, .name token.text⟩
  | .string => return ⟨FormatType.string.code, .quoted token.unquoted⟩
  | _ => fail token.loc .formattingValue

def parseFormatValue : Compiler FormatValue := do
  formatValueOfToken (← Lexer.read .normal { ignoreEscapes := true })

/-- Any number of formatting values, a comma before each. -/
def parseFormatList : Compiler (List FormatValue) :=
  repeatFrom [] fun values => do
    let token ← Lexer.peekNormal
    if token.type ≠ .comma then return .inr values
    Lexer.consume
    return .inl (values ++ [← parseFormatValue])

/-! ### Names -/

/-- A file, font or style name: quoted, or everything up to the next blank. -/
def parseName : Compiler Bytes := do
  if Lexer.nextIsQuote (← getThe CompileState).lexer then
    return (← Lexer.read .quoted { ignoreEscapes := true }).unquoted
  let token ← Lexer.read .raw { ignoreEscapes := true, ignoreQuotes := true }
  match token.type with
  | .endOfLine | .endOfFile => fail token.loc .expectedName
  | .string => return token.unquoted
  | _ => return token.text

/-- A bare word that is stored as a string. Quotes and variable names are taken as they are, with a
warning. -/
def parseWord (stopComma : Bool) : Compiler Bytes := do
  let token ← Lexer.read .raw
    { ignoreQuotes := true, ignoreEscapes := true, stopComma := stopComma }
  if token.type.endsLine then fail token.loc .expectedValue
  let text := if token.type = .string then token.unquoted else token.text
  if token.type = .raw ∧ (text.head? = some 34 ∨ text.getLast? = some 34) then
    warn token.loc .quotesInValue
  if text.getLast? = some 36 then warn token.loc .variableAsValue
  return text

/-- A definition inside a body, after its number sign. Any other directive is left unread, and the
result is false. -/
def parseDefine : Compiler Bool := do
  let token ← Lexer.peek .normal { noMacros := true }
  if !token.is (utf8 "define") then return false
  Lexer.consume
  Lexer.defineMacro
  return true

end Compiler

end ApeScript
