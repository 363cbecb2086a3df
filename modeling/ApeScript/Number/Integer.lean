import ApeScript.Text.Quoted

/-!
# Integers in text

Signed 64-bit integers as people write them in options and settings: a sign and digits, where a
number may announce its base with `0x`, `0o`, `0b` or a leading zero and may have underscores
between its digits. A text that is no number and a number that does not fit are told apart, and a
number that is found to be too large is not read to its end.
-/

namespace ApeScript

inductive IntegerError where
  | malformed | outOfRange
  deriving DecidableEq, Repr

def IntegerError.message : IntegerError → Bytes
  | malformed => utf8 "invalid syntax"
  | outOfRange => utf8 "value out of range"

namespace Integer

/-- The value of a digit of any base up to thirty-six; underscores and signs have none. -/
def digit? (b : UInt8) : Option Nat :=
  let low := Bytes.lower b
  if Bytes.isDigit b then some (b.toNat - 48)
  else if 97 ≤ low ∧ low ≤ 122 then some (low.toNat - 87)
  else none

/-- The unsigned number that digits write, underscores skipped, as long as it fits 64 bits. -/
def magnitude (base : Nat) : (soFar : Nat) → Bytes → Except IntegerError Nat
  | n, [] => .ok n
  | n, b :: rest =>
    if b = 95 then magnitude base n rest
    else
      match digit? b with
      | none => .error .malformed
      | some d =>
        if base ≤ d then .error .malformed
        else if Nat.pow 2 64 ≤ n * base + d then .error .outOfRange
        else magnitude base (n * base + d) rest

/-- The base that a number's beginning announces, and its digits; a leading zero announces octal
digits, of which there may be none. -/
def announced : Bytes → Nat × Bytes
  | 48 :: b :: c :: rest =>
    if Bytes.lower b = 98 then (2, c :: rest)
    else if Bytes.lower b = 111 then (8, c :: rest)
    else if Bytes.lower b = 120 then (16, c :: rest)
    else (8, b :: c :: rest)
  | 48 :: rest => (8, rest)
  | s => (10, s)

def underscoresFit (base : Nat) : (afterDigit : Bool) → Bytes → Bool
  | _, [] => true
  | afterDigit, b :: rest =>
    if b = 95 then
      afterDigit && (rest.head?.bind digit?).isSome && underscoresFit base false rest
    else underscoresFit base (((digit? b).map fun d => decide (d < max base 10)).getD false) rest

def withSign (negative : Bool) (n : Nat) : Except IntegerError Int :=
  if negative then (if n ≤ Nat.pow 2 63 then .ok (-n) else .error .outOfRange)
  else if n < Nat.pow 2 63 then .ok n else .error .outOfRange

def signed : Bytes → Bool × Bytes
  | 43 :: rest => (false, rest)
  | 45 :: rest => (true, rest)
  | s => (false, s)

def parse (s : Bytes) : Except IntegerError Int := do
  let (negative, rest) := signed s
  if rest.isEmpty then throw .malformed
  let (base, digits) := announced rest
  let n ← magnitude base 0 digits
  if !underscoresFit base (base ≠ 10) digits then throw .malformed
  withSign negative n

def parseDecimal (s : Bytes) : Except IntegerError Int := do
  let (negative, rest) := signed s
  if rest.isEmpty || rest.any (· = 95) then throw .malformed
  withSign negative (← magnitude 10 0 rest)

end Integer

end ApeScript
