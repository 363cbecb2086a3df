import ApeScript.Bytes

/-!
# Writing little-endian records

A written record is an `Encoded`: bytes, the first refusal met, or `halted` when an operand was
never filled in. Appending two records keeps the first refusal, and `halted` on either side wins,
because a refusal does not stop the walk over the rest of the model.
-/

namespace ApeScript

/-- Why a model has no encoding. -/
inductive EncodeError where
  | stringTooLong (length : Nat)
  | operatorCode (name : Bytes)
  | operandMismatch (type holder : Bytes)
  | formatCode (code : UInt8)
  | formatMismatch (type holder : Bytes)
  | statementCode (name : Bytes)
  | blankCommand
  | notFormattedText (name : Bytes)
  | notSimpleText (name : Bytes)
  | notSwitchReference (name : Bytes)
  | windowZero
  | switchZero
  deriving DecidableEq, Repr

def maxStringLength : Nat := 32767

namespace EncodeError

def message : EncodeError → Bytes
  | stringTooLong length => utf8 "string of " ++ Bytes.ofNat length ++ utf8 " bytes exceeds the "
      ++ Bytes.ofNat maxStringLength ++ utf8 " byte limit"
  | operatorCode name => utf8 "cannot encode expression operator " ++ name
  | operandMismatch type holder =>
      utf8 "operand of type " ++ type ++ utf8 " cannot hold " ++ holder
  | formatCode code => utf8 "cannot encode formatting value type " ++ Bytes.ofNat code.toNat
  | formatMismatch type holder =>
      utf8 "formatting value of type " ++ type ++ utf8 " cannot hold " ++ holder
  | statementCode name => utf8 "cannot encode " ++ name
  | blankCommand => utf8 "nil window command"
  | notFormattedText name => name ++ utf8 " is not a body or title command"
  | notSimpleText name => name ++ utf8 " is not a simple string command"
  | notSwitchReference name => name ++ utf8 " is not a window switch command"
  | windowZero => utf8 "window id 0 is reserved for the section terminator"
  | switchZero => utf8 "switch label 0 is reserved for the section terminator"

end EncodeError

inductive Encoded where
  | bytes (b : Bytes)
  | refused (e : EncodeError)
  | halted
  deriving DecidableEq, Repr

namespace Encoded

def append : Encoded → Encoded → Encoded
  | bytes a, bytes b => bytes (a ++ b)
  | bytes _, r => r
  | refused _, halted => halted
  | refused e, _ => refused e
  | halted, _ => halted

instance : Append Encoded := ⟨append⟩

def empty : Encoded := bytes []

def concat (records : List Encoded) : Encoded := records.foldr (· ++ ·) empty

/-- The `width` low bytes of a number, the lowest first. -/
def littleEndian : (width : Nat) → (n : Nat) → Bytes
  | 0, _ => []
  | width + 1, n => UInt8.ofNat (n % 256) :: littleEndian width (n / 256)

def u8 (v : UInt8) : Encoded := bytes [v]

def u16 (v : UInt16) : Encoded := bytes (littleEndian 2 v.toNat)

def u32 (v : UInt32) : Encoded := bytes (littleEndian 4 v.toNat)

def u64 (v : UInt64) : Encoded := bytes (littleEndian 8 v.toNat)

end Encoded

end ApeScript
