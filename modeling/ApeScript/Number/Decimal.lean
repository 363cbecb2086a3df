import ApeScript.Bytes
import ApeScript.Number.Binary32

/-!
# Decimal text of single-precision numbers

A decimal `⟨digits, exponent⟩` is `digits * 10 ^ exponent`. `Decimal.toBinary32` reads one, rounding
once to the nearest number. `Binary32.shortest` is the decimal with the fewest digits that reads
back, the nearest such one, and `Binary32.rounded` the nearest decimal of a given number of digits.
`sourceText` and `listingText` lay these out: scripts never use an exponent, listings use one
outside 10^-4 to 10^9.
-/

namespace ApeScript

open Number

/-- The number `digits * 10 ^ exponent`. -/
structure Decimal where
  digits : Nat
  exponent : Int
  deriving DecidableEq, Repr

namespace Decimal

/-- Numerator and denominator of a power of ten times `n`. -/
def ratio (n : Nat) (exponent : Int) : Nat × Nat :=
  (n * Nat.pow 10 exponent.toNat, Nat.pow 10 (-exponent).toNat)

def width (n : Nat) : Nat := (Nat.toDigits 10 n).length

/-- The magnitude word nearest to the decimal. Values from 10^60 up are infinite and values below
10^-60 are zero, whatever their digits. -/
def toWord (d : Decimal) : Nat :=
  let top := (width d.digits : Int) + d.exponent
  if d.digits = 0 ∨ top < -60 then 0
  else if 60 < top then Format.binary32.infinityWord
  else
    let (num, den) := ratio d.digits d.exponent
    Format.binary32.round (num * Nat.pow 2 Format.binary32.unitBits) den

def toBinary32 (d : Decimal) : Binary32 := .ofWord d.toWord

def trim (d : Decimal) : Decimal :=
  let ds := (Nat.toDigits 10 d.digits).reverse
  let zeros := (ds.takeWhile (· = '0')).length
  if d.digits = 0 then ⟨0, 0⟩ else ⟨d.digits / Nat.pow 10 zeros, d.exponent + zeros⟩

/-- Digits with a point where the exponent puts it, and no exponent. -/
def positional (d : Decimal) : Bytes :=
  let ds := Bytes.ofNat d.digits
  let zero := Bytes.ofChar '0'
  let point := Bytes.ofChar '.'
  match d.exponent with
  | .ofNat n => ds ++ List.replicate n zero
  | .negSucc n =>
      let places := n + 1
      if ds.length ≤ places then
        zero :: point :: (List.replicate (places - ds.length) zero ++ ds)
      else ds.take (ds.length - places) ++ point :: ds.drop (ds.length - places)

/-- One digit before the point and an exponent of at least two digits. -/
def scientific (d : Decimal) : Bytes :=
  let ds := Bytes.ofNat d.digits
  let exponent := d.exponent + ds.length - 1
  let size := Bytes.ofNat exponent.natAbs
  let fraction := if ds.length ≤ 1 then [] else Bytes.ofChar '.' :: ds.drop 1
  ds.take 1 ++ fraction ++ utf8 (if exponent < 0 then "E-" else "E+")
    ++ (if size.length < 2 then Bytes.ofChar '0' :: size else size)

end Decimal

namespace Binary32

/-- The exponent of the leading digit of `num / den`, searched downwards from `start` for at most
`fuel` places. -/
def leadingExponent (num den : Nat) : (fuel : Nat) → (start : Int) → Int
  | 0, e => e
  | fuel + 1, e =>
    let (n, d) := Decimal.ratio 1 e
    if n * den ≤ num * d then e else leadingExponent num den fuel (e - 1)

def fraction (x : Binary32) : Nat × Nat :=
  match x.datum with
  | .finite _ units => (units, Nat.pow 2 Format.binary32.unitBits)
  | _ => (0, 1)

def decimalExponent (x : Binary32) : Int :=
  let (num, den) := x.fraction
  leadingExponent num den 90 39

/-- The decimal of `count` significant digits nearest to the magnitude, a tie going to even. -/
def rounded (x : Binary32) (count : Nat) : Decimal :=
  let (num, den) := x.fraction
  let exponent := x.decimalExponent - count + 1
  let (up, down) := Decimal.ratio 1 exponent
  ⟨Format.roundDiv (num * down) (den * up), exponent⟩

/-- The nearest decimal of `count` digits, or its neighbour on the other side of the number, that
reads back as the number. -/
def readsBack? (x : Binary32) (count : Nat) : Option Decimal :=
  let size := x.word % Format.binary32.signBit
  let near := x.rounded count
  let (num, den) := x.fraction
  let (up, down) := Decimal.ratio near.digits near.exponent
  let far : Decimal :=
    if num * down < up * den then { near with digits := near.digits - 1 }
    else { near with digits := near.digits + 1 }
  if near.toWord = size then some near
  else if far.toWord = size then some far
  else none

/-- The decimal with the fewest digits that reads back as the magnitude of a finite number. Nine
digits always do. -/
def shortest (x : Binary32) : Decimal :=
  if x.isZero then ⟨0, 0⟩
  else ((List.range 9).findSome? fun n => x.readsBack? (n + 1)).getD (x.rounded 9)

def signText (x : Binary32) : Bytes := if x.isNegative then utf8 "-" else []

/-- Script text: the fewest digits that read back, never with an exponent. -/
def sourceText (x : Binary32) : Bytes :=
  match x.datum with
  | .nan => utf8 "NaN"
  | .infinite negative => utf8 (if negative then "-Inf" else "+Inf")
  | .finite _ _ => x.signText ++ x.shortest.trim.positional

/-- Listing text: nine significant digits without trailing zeros, with an exponent below 10^-4 and
from 10^9 on. -/
def listingText (x : Binary32) : Bytes :=
  match x.datum with
  | .nan => utf8 "NaN"
  | .infinite negative => utf8 (if negative then "-Infinity" else "Infinity")
  | .finite _ units =>
      let d := if units = 0 then ⟨0, 0⟩ else (x.rounded 9).trim
      let lead := d.exponent + Decimal.width d.digits - 1
      x.signText ++ if lead < -4 ∨ 9 ≤ lead then d.scientific else d.positional

end Binary32

end ApeScript
