import ApeScript.Text.Quoted

/-!
# Labels

Windows and switches are numbered by 32-bit labels, which scripts write as two decimal halves
`high:low` with `high` below 100000 and `low` below 10000. Labels from 1000000000 on cannot be
written that way; they number the switches that come from inline blocks.
-/

namespace ApeScript

abbrev Label := UInt32

inductive LabelError where
  | tooLarge
  | notIntegral
  | noColon (text : Bytes)
  deriving DecidableEq, Repr

def LabelError.message : LabelError → Bytes
  | tooLarge => utf8 "Label part was too large"
  | notIntegral => utf8 "Label part was not an integral"
  | noColon text => utf8 "label " ++ Text.quoted text ++ utf8 " has no ':'"

namespace Label

def lowLimit : Nat := 10000

def highLimit : Nat := 100000

def inlineBase : Nat := 1000000000

def ofHalves (high low : Nat) : Except LabelError Label :=
  if highLimit ≤ high ∨ lowLimit ≤ low then .error .tooLarge
  else .ok (UInt32.ofNat (high * lowLimit + low))

def half? (s : Bytes) : Option Nat :=
  if s.isEmpty || !s.all Bytes.isDigit then none
  else
    let n := Bytes.digitsValue s
    if n < Nat.pow 2 64 then some n else none

/-- The label written in a text, white space around it aside. -/
def parse (s : Bytes) : Except LabelError Label :=
  match Bytes.cut? 58 (Text.trim s) with
  | none => .error (.noColon s)
  | some (high, low) =>
    match half? high, half? low with
    | some h, some l => ofHalves h l
    | _, _ => .error .notIntegral

def text (l : Label) : Bytes :=
  Bytes.ofNat (l.toNat / lowLimit) ++ utf8 ":" ++ Bytes.ofNat (l.toNat % lowLimit)

def isInline (l : Label) : Bool := inlineBase ≤ l.toNat

end Label

end ApeScript
