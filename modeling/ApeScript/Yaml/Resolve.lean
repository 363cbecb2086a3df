import ApeScript.Bytes
import ApeScript.Number.Decimal

/-!
# What an unquoted YAML scalar reads as

A string is written without quotes only where a reader would take it for a string again. Here are
the texts that readers take for something else: words for null and truth values, integers and
floating-point numbers with their prefixes and underscores, points in time and the numbers in base
sixty of older readers.
-/

namespace ApeScript

/-- Whether the nearest double-precision number is finite. Decimals from 10^400 up are infinite and
those below 10^-400 are not, whatever their digits. -/
def Decimal.isFinite64 (d : Decimal) : Bool :=
  let top := (Decimal.width d.digits : Int) + d.exponent
  if d.digits = 0 ∨ top < -400 then true
  else if 400 < top then false
  else
    let (num, den) := Decimal.ratio d.digits d.exponent
    let format := Number.Format.binary64
    format.round (num * Nat.pow 2 format.unitBits) den < format.infinityWord

namespace Yaml

/-- Words for null, truth values, infinities and undefined numbers. -/
def words : List Bytes :=
  [utf8 "", utf8 "~", utf8 "null", utf8 "Null", utf8 "NULL", utf8 "true", utf8 "True",
   utf8 "TRUE", utf8 "false", utf8 "False", utf8 "FALSE", utf8 ".nan", utf8 ".NaN", utf8 ".NAN",
   utf8 ".inf", utf8 ".Inf", utf8 ".INF", utf8 "+.inf", utf8 "+.Inf", utf8 "+.INF",
   utf8 "-.inf", utf8 "-.Inf", utf8 "-.INF"]

def oldWords : List Bytes :=
  [utf8 "y", utf8 "Y", utf8 "yes", utf8 "Yes", utf8 "YES", utf8 "on", utf8 "On", utf8 "ON",
   utf8 "n", utf8 "N", utf8 "no", utf8 "No", utf8 "NO", utf8 "off", utf8 "Off", utf8 "OFF"]

def isSign (b : UInt8) : Bool := b = 43 || b = 45

def takeSign : Bytes → Option UInt8 × Bytes
  | b :: rest => if isSign b then (some b, rest) else (none, b :: rest)
  | [] => (none, [])

def takeDigits (s : Bytes) : Bytes × Bytes := s.span Bytes.isDigit

/-! ### Integers -/

def digitValue (b : UInt8) : Nat :=
  let low := Bytes.lower b
  if Bytes.isDigit b then b.toNat - 48
  else if 97 ≤ low ∧ low ≤ 122 then low.toNat - 87
  else 36

/-- The number written in a base; there must be a digit. -/
def numeral? (base : Nat) (s : Bytes) : Option Nat :=
  if s.isEmpty || s.any fun b => base ≤ digitValue b then none
  else some (s.foldl (fun n b => n * base + digitValue b) 0)

/-- Whether a number with the given sign fits 64 bits: unsigned without a sign, else signed. -/
def fitsWord (sign : Option UInt8) (n : Nat) : Bool :=
  match sign with
  | none => n < Nat.pow 2 64
  | some 45 => n ≤ Nat.pow 2 63
  | some _ => n < Nat.pow 2 63

/-- The base that a number's beginning announces, and its digits. A leading zero announces octal
digits. -/
def basePart : Bytes → Nat × Bytes
  | 48 :: b :: c :: rest =>
    if Bytes.lower b = 98 then (2, c :: rest)
    else if Bytes.lower b = 111 then (8, c :: rest)
    else if Bytes.lower b = 120 then (16, c :: rest)
    else (8, b :: c :: rest)
  | s => if s.head? = some 48 ∧ 1 < s.length then (8, s.drop 1) else (10, s)

def isSignedNumeral (base : Nat) (s : Bytes) : Bool :=
  let (sign, digits) := takeSign s
  ((numeral? base digits).map (fitsWord sign)).getD false

/-- Whether a text without underscores is an integer. After `0b` and `0o` a sign may follow. -/
def isInteger (s : Bytes) : Bool :=
  let (sign, rest) := takeSign s
  let (base, digits) := basePart rest
  ((numeral? base digits).map (fitsWord sign)).getD false ||
    ((Bytes.after? (utf8 "0b") s).map (isSignedNumeral 2)).getD false ||
    ((Bytes.after? (utf8 "0o") s).map (isSignedNumeral 8)).getD false

/-! ### Floating-point numbers -/

/-- The value of an exponent part, zero when there is none; nothing else may follow. -/
def exponent? : Bytes → Option Int
  | [] => some 0
  | e :: rest =>
    let (sign, digits) := takeSign rest
    if Bytes.lower e = 101 ∧ ¬ digits.isEmpty ∧ digits.all Bytes.isDigit then
      let n : Int := Bytes.digitsValue digits
      some (if sign = some 45 then -n else n)
    else none

/-- The magnitude of a decimal number: digits with a point among or before them, and an
exponent. -/
def decimal? (s : Bytes) : Option Decimal := do
  let (whole, rest) := takeDigits (takeSign s).2
  let (fraction, rest) := match rest with
    | 46 :: more => takeDigits more
    | _ => ([], rest)
  if whole.isEmpty && fraction.isEmpty then none
  let exponent ← exponent? rest
  return ⟨Bytes.digitsValue (whole ++ fraction), exponent - fraction.length⟩

/-- Whether a text without underscores is a number in the range of double precision. -/
def isFloat (s : Bytes) : Bool := ((decimal? s).map Decimal.isFinite64).getD false

def underscoresSeparate : (afterDigit : Bool) → Bytes → Bool
  | _, [] => true
  | afterDigit, 95 :: rest =>
    afterDigit && (rest.head?.map Bytes.isDigit).getD false && underscoresSeparate false rest
  | _, b :: rest => underscoresSeparate (Bytes.isDigit b) rest

/-! ### Points in time -/

def shortNumber? : Bytes → Option (Nat × Bytes)
  | a :: b :: rest =>
    if !Bytes.isDigit a then none
    else if Bytes.isDigit b then some (Bytes.digitsValue [a, b], rest)
    else some (Bytes.digitsValue [a], b :: rest)
  | [a] => if Bytes.isDigit a then some (Bytes.digitsValue [a], []) else none
  | [] => none

def daysIn (year month : Nat) : Nat :=
  if month = 2 then
    if year % 4 = 0 ∧ (year % 100 ≠ 0 ∨ year % 400 = 0) then 29 else 28
  else if month = 4 ∨ month = 6 ∨ month = 9 ∨ month = 11 then 30
  else 31

/-- A date of four year digits and short month and day numbers, and what follows it. -/
def afterDate? (s : Bytes) : Option Bytes := do
  let (year, rest) := takeDigits s
  if year.length ≠ 4 then none
  let rest ← Bytes.after? (utf8 "-") rest
  let (month, rest) ← shortNumber? rest
  let rest ← Bytes.after? (utf8 "-") rest
  let (day, rest) ← shortNumber? rest
  if month < 1 ∨ 12 < month ∨ day < 1 ∨ daysIn (Bytes.digitsValue year) month < day then none
  return rest

def skipFraction : Bytes → Bytes
  | p :: d :: rest =>
    if (p = 46 || p = 44) && Bytes.isDigit d then rest.dropWhile Bytes.isDigit else p :: d :: rest
  | s => s

def afterTime? (s : Bytes) : Option Bytes := do
  let (hour, rest) ← shortNumber? s
  let rest ← Bytes.after? (utf8 ":") rest
  let (minute, rest) ← shortNumber? rest
  let rest ← Bytes.after? (utf8 ":") rest
  let (second, rest) ← shortNumber? rest
  if 24 ≤ hour ∨ 60 ≤ minute ∨ 60 ≤ second then none
  return skipFraction rest

/-- Whether a text is a time zone: `Z`, or a signed offset of hours and minutes. -/
def isZone : Bytes → Bool
  | [90] => true
  | [sign, h1, h2, 58, m1, m2] =>
    isSign sign && [h1, h2, m1, m2].all Bytes.isDigit && Bytes.digitsValue [h1, h2] ≤ 24 &&
      Bytes.digitsValue [m1, m2] ≤ 60
  | _ => false

def isTimestamp (s : Bytes) : Bool :=
  match afterDate? s with
  | none => false
  | some [] => true
  | some (b :: rest) =>
    if b = 84 || b = 116 then ((afterTime? rest).map isZone).getD false
    else if b = 32 then
      ((afterTime? (rest.dropWhile (· = 32))).map List.isEmpty).getD false
    else false

/-! ### Base sixty -/

def isSexagesimalDigit : Bytes → Bool
  | [a] => Bytes.isDigit a
  | [a, b] => 48 ≤ a && a ≤ 53 && Bytes.isDigit b
  | _ => false

/-- Whether a text is a number in base sixty: digits, then further places after colons, and a
fraction. -/
def isBase60 (s : Bytes) : Bool :=
  let spaced (b : UInt8) : Bool := Bytes.isDigit b || b = 95
  let (whole, rest) := (takeSign s).2.span spaced
  match rest with
  | 58 :: places =>
    let (before, fraction) := (Bytes.cut? 46 places).getD (places, [])
    (whole.head?.map Bytes.isDigit).getD false && (Bytes.split 58 before).all isSexagesimalDigit &&
      fraction.all spaced
  | _ => false

/-- Whether a reader takes an unquoted text for something other than a string. -/
def readsOtherwise (s : Bytes) : Bool :=
  let bare := s.filter (· ≠ 95)
  words.contains s || oldWords.contains s || isBase60 s ||
    match s.head? with
    | some 46 => underscoresSeparate false s && isFloat bare
    | some b =>
      (isSign b || Bytes.isDigit b) && (isTimestamp s || isInteger bare || isFloat bare)
    | none => false

end Yaml

end ApeScript
