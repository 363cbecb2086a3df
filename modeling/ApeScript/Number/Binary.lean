/-!
# Binary floating-point words

A `Format` fixes how many significand and exponent bits a word has. A finite word stands for a
whole number of `units`, the smallest positive step of the format, so that sums, products and
quotients of finite words are exact quotients of natural numbers. `Format.round` turns such a
quotient into the nearest word, a tie going to the even significand and too large a value to
infinity; every operation below is its exact result rounded once.
-/

namespace ApeScript.Number

/-- Widths of a binary format: significand bits, the leading one included, and exponent bits. -/
structure Format where
  precision : Nat
  exponentBits : Nat
  deriving DecidableEq, Repr

/-- What a word stands for; `units` counts smallest positive steps. -/
inductive Datum where
  | nan
  | infinite (negative : Bool)
  | finite (negative : Bool) (units : Nat)
  deriving DecidableEq, Repr

namespace Format

def binary32 : Format := ⟨24, 8⟩

def binary64 : Format := ⟨53, 11⟩

variable (f : Format)

def leading : Nat := 1 <<< (f.precision - 1)

/-- The word of positive infinity; smaller words are the finite magnitudes in increasing order. -/
def infinityWord : Nat := ((1 <<< f.exponentBits) - 1) * f.leading

def signBit : Nat := f.leading <<< f.exponentBits

def unitBits : Nat := (1 <<< (f.exponentBits - 1)) + f.precision - 3

def magnitude (word : Nat) : Nat :=
  let exponent := word / f.leading
  let fraction := word % f.leading
  if exponent = 0 then fraction else (fraction + f.leading) <<< (exponent - 1)

def decode (word : Nat) : Datum :=
  let negative := decide (f.signBit ≤ word)
  let size := word % f.signBit
  if f.infinityWord < size then .nan
  else if size = f.infinityWord then .infinite negative
  else .finite negative (f.magnitude size)

/-- The quotient rounded to the nearest natural number, a half going to the even one. -/
def roundDiv (num den : Nat) : Nat :=
  let q := num / den
  let twice := 2 * (num % den)
  if den < twice ∨ (twice = den ∧ q % 2 = 1) then q + 1 else q

/-- The magnitude word nearest to `num / den` units. -/
def round (num den : Nat) : Nat :=
  let whole := num / den
  let shift := if whole < 1 <<< f.precision then 0 else whole.log2 + 1 - f.precision
  let significand := roundDiv num (den <<< shift)
  let word := if significand < f.leading then significand
    else shift * f.leading + significand
  min word f.infinityWord

def withSign (negative : Bool) (word : Nat) : Nat :=
  if negative then f.signBit + word else word

def nanWord : Nat := f.infinityWord + f.leading / 2

def encode : Datum → Nat
  | .nan => f.nanWord
  | .infinite negative => f.withSign negative f.infinityWord
  | .finite negative units => f.withSign negative (f.round units 1)

end Format

namespace Datum

def signedUnits (negative : Bool) (units : Nat) : Int :=
  if negative then -units else units

/-- The sum, exact before rounding; opposite numbers sum to positive zero. -/
def add : Datum → Datum → Datum
  | finite n a, finite m b =>
      let sum := signedUnits n a + signedUnits m b
      finite (if sum = 0 then n && m else decide (sum < 0)) sum.natAbs
  | nan, _ => nan
  | _, nan => nan
  | infinite n, infinite m => if n = m then infinite n else nan
  | infinite n, _ => infinite n
  | _, infinite m => infinite m

def neg : Datum → Datum
  | nan => nan
  | infinite n => infinite (!n)
  | finite n a => finite (!n) a

/-- Numeric order; `none` when either side is not a number. -/
def compare? : Datum → Datum → Option Ordering
  | nan, _ => none
  | _, nan => none
  | finite n a, finite m b => some (compare (signedUnits n a) (signedUnits m b))
  | infinite n, infinite m => some (compare m.toNat n.toNat)
  | infinite n, _ => some (if n then .lt else .gt)
  | _, infinite m => some (if m then .gt else .lt)

def isZero : Datum → Bool
  | finite _ 0 => true
  | _ => false

def isFinite : Datum → Bool
  | finite _ _ => true
  | _ => false

end Datum

namespace Format

variable (f : Format)

def add (a b : Nat) : Nat := f.encode (Datum.add (f.decode a) (f.decode b))

def sub (a b : Nat) : Nat := f.encode (Datum.add (f.decode a) (f.decode b).neg)

def mul (a b : Nat) : Nat :=
  match f.decode a, f.decode b with
  | .finite n x, .finite m y => f.withSign (n != m) (f.round (x * y) (1 <<< f.unitBits))
  | .infinite n, .infinite m => f.encode (.infinite (n != m))
  | .infinite n, .finite m y => if y = 0 then f.nanWord else f.encode (.infinite (n != m))
  | .finite n x, .infinite m => if x = 0 then f.nanWord else f.encode (.infinite (n != m))
  | _, _ => f.nanWord

def div (a b : Nat) : Nat :=
  match f.decode a, f.decode b with
  | .finite n x, .finite m y =>
      if y = 0 then (if x = 0 then f.nanWord else f.encode (.infinite (n != m)))
      else f.withSign (n != m) (f.round (x <<< f.unitBits) y)
  | .infinite n, .finite m _ => f.encode (.infinite (n != m))
  | .finite n _, .infinite m => f.withSign (n != m) 0
  | _, _ => f.nanWord

/-- The largest number of at most `bits` bits whose square is at most `n`. -/
def rootFloor (n : Nat) : (bits : Nat) → Nat
  | bits => go bits 0
where
  /-- Decides the bits of the root from the highest down. -/
  go : Nat → Nat → Nat
    | 0, root => root
    | bits + 1, root =>
      let next := root + 1 <<< bits
      go bits (if next * next ≤ n then next else root)

/-- The square root of a word that is not negative. An irrational root lies strictly between two
whole numbers of units far below the precision, so half a unit above the floor rounds alike. -/
def sqrt (a : Nat) : Nat :=
  match f.decode a with
  | .finite negative units =>
      if units = 0 then a
      else if negative then f.nanWord
      else
        let square := units <<< f.unitBits
        let root := rootFloor square (square.log2 / 2 + 1)
        if root * root = square then f.round root 1 else f.round (2 * root + 1) 2
  | .infinite false => a
  | _ => f.nanWord

def convert (target : Format) (a : Nat) : Nat :=
  match f.decode a with
  | .finite negative units =>
      target.withSign negative
        (target.round (units <<< target.unitBits) (1 <<< f.unitBits))
  | d => target.encode d

def ofNat (n : Nat) : Nat := f.round (n <<< f.unitBits) 1

end Format

end ApeScript.Number
