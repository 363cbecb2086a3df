import ApeScript.Bytes

/-!
# Conversion directives in text

Displayed text may hold printf conversions, which are filled from the formatting values of its
command: a percent sign, flags, a width, a precision and a conversion letter. A doubled percent
sign stands for itself. `directives` lists the conversions of a text from left to right, and
`verify` compares those of a text and its localized text, which must agree in number and order.
-/

namespace ApeScript.Localization

def isFlag (b : UInt8) : Bool := (utf8 "-+ #0").any (· = b)

def isConversion (b : UInt8) : Bool := (utf8 "diouxXeEfgGcs").any (· = b)

/-- The digits of a precision after its point; without a digit there is no precision. -/
def precision (s : Bytes) : Bytes :=
  match s with
  | 46 :: rest =>
    let digits := rest.takeWhile Bytes.isDigit
    if digits.isEmpty then [] else 46 :: digits
  | _ => []

/-- The directive, or the doubled percent sign, at the start of a text. -/
def match? : Bytes → Option Bytes
  | 37 :: 37 :: _ => some [37, 37]
  | 37 :: rest =>
    let flags := rest.takeWhile isFlag
    let rest := rest.drop flags.length
    let width := rest.takeWhile Bytes.isDigit
    let rest := rest.drop width.length
    let places := precision rest
    match rest.drop places.length with
    | letter :: _ =>
      if isConversion letter then some (37 :: (flags ++ width ++ places ++ [letter])) else none
    | [] => none
  | _ => none

/-- The matches of a text from left to right; `skip` bytes still belong to the last one. -/
def matchesFrom : (skip : Nat) → Bytes → List Bytes
  | _, [] => []
  | skip + 1, _ :: rest => matchesFrom skip rest
  | 0, b :: rest =>
    match match? (b :: rest) with
    | some found => found :: matchesFrom (found.length - 1) rest
    | none => matchesFrom 0 rest

def directives (s : Bytes) : List Bytes := (matchesFrom 0 s).filter (· ≠ [37, 37])

structure Mismatch where
  source : List Bytes
  translated : List Bytes
  deriving DecidableEq, Repr

def bracketed (items : List Bytes) : Bytes :=
  utf8 "[" ++ Bytes.joinWith (utf8 " ") items ++ utf8 "]"

def Mismatch.message (m : Mismatch) : Bytes :=
  utf8 "format directives " ++ bracketed m.translated ++ utf8 " do not match source " ++
    bracketed m.source

def verify (source translated : Bytes) : Except Mismatch Unit :=
  if directives source = directives translated then .ok ()
  else .error ⟨directives source, directives translated⟩

end ApeScript.Localization
