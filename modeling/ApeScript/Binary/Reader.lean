import ApeScript.Bytes

/-!
# Reading little-endian records

A `Reader` is a forward-only cursor: the bytes not yet read and the number of bytes read so far.
A `Decoder` reads from it and either returns a value or fails with a `DecodeError` that names the
offset reached; a failing decoder still leaves a reader behind. A sized read that fails leaves the
reader where it was, while a wrong value is reported after it has been read.
-/

namespace ApeScript

structure Reader where
  rest : Bytes
  offset : Nat
  deriving DecidableEq, Repr

namespace Reader

def ofBytes (data : Bytes) : Reader := ⟨data, 0⟩

def atEnd (r : Reader) : Bool := r.rest.isEmpty

end Reader

/-- Why a file is malformed. -/
inductive Malformed where
  | shortRead (count : Int) (start : Nat)
  | wrongWord32 (want : UInt32) (start : Nat) (found : UInt32)
  | wrongWord64 (want : UInt64) (start : Nat) (found : UInt64)
  | stringLength
  | stringTerminator
  | formatType
  | formatEnd
  | nesting
  | operatorCode (code : UInt8)
  | operandFlags
  | untypedVariable
  | floatAndString
  | operandType (code : UInt8)
  | presenceFlag (flag : UInt64)
  | commandCode (code : UInt8)
  | statementCode (code : UInt8)
  | endPosition
  | header
  | switchMarker
  | trailingData
  deriving DecidableEq, Repr

structure DecodeError where
  offset : Nat
  reason : Malformed
  deriving DecidableEq, Repr

namespace Malformed

def text : Malformed → Bytes
  | shortRead count start => utf8 "Failed to read " ++ Bytes.ofInt count
      ++ utf8 " bytes at file position " ++ Bytes.ofNat start
  | wrongWord32 want start found => utf8 "Expected U32 value " ++ Bytes.ofNat want.toNat
      ++ utf8 " at position " ++ Bytes.ofNat start ++ utf8 " but value was "
      ++ Bytes.ofNat found.toNat
  | wrongWord64 want start found => utf8 "Expected U64 value " ++ Bytes.ofNat want.toNat
      ++ utf8 " at position " ++ Bytes.ofNat start ++ utf8 " but value was "
      ++ Bytes.ofNat found.toNat
  | stringLength => utf8 "Invalid length of string"
  | stringTerminator => utf8 "String was not null-terminated"
  | formatType => utf8 "Invalid type byte for TypedFormattingValue"
  | formatEnd => utf8 "Invalid FormattingValue done sequence"
  | nesting => utf8 "Expression nesting is too deep"
  | operatorCode code => utf8 "Unknown expr operator " ++ Bytes.ofNat code.toNat
  | operandFlags => utf8 "Expression element had unknown flags"
  | untypedVariable => utf8 "Expression element was an untyped variable"
  | floatAndString => utf8 "Expression element was a float and string"
  | operandType code =>
      utf8 "Expression element had invalid operand type " ++ Bytes.ofNat code.toNat
  | presenceFlag flag => utf8 "Unexpected flag " ++ Bytes.ofNat flag.toNat
      ++ utf8 " in OptionalExpression"
  | commandCode code => utf8 "Unknown command code " ++ Bytes.ofNat code.toNat
  | statementCode code => utf8 "Invalid switch command code " ++ Bytes.ofNat code.toNat
  | endPosition => utf8 "Invalid cc code for end command"
  | header => utf8 "Header is invalid"
  | switchMarker => utf8 "Unexpected switch tag ID"
  | trailingData => utf8 "Unexpected trailing data"

end Malformed

def DecodeError.message (e : DecodeError) : Bytes :=
  e.reason.text ++ utf8 ", last read ended at " ++ Bytes.ofNat e.offset

abbrev Decoder := EStateM DecodeError Reader

namespace Decoder

def fail {α : Type} (reason : Malformed) : Decoder α := fun r => .error ⟨r.offset, reason⟩ r

/-- The next `count` bytes, or a failure that reads nothing. -/
def take (count : Nat) : Decoder Bytes := fun r =>
  let bytes := r.rest.take count
  if bytes.length = count then .ok bytes ⟨r.rest.drop count, r.offset + count⟩
  else .error ⟨r.offset, .shortRead count r.offset⟩ r

/-- The next `count` bytes; a negative count fails. -/
def bytes : (count : Int) → Decoder Bytes
  | .ofNat n => take n
  | .negSucc n => fun r => .error ⟨r.offset, .shortRead (.negSucc n) r.offset⟩ r

def littleEndian (bytes : Bytes) : Nat := bytes.foldr (fun b n => b.toNat + 256 * n) 0

def u8 : Decoder UInt8 := return UInt8.ofNat (littleEndian (← take 1))

def u16 : Decoder UInt16 := return UInt16.ofNat (littleEndian (← take 2))

def u32 : Decoder UInt32 := return UInt32.ofNat (littleEndian (← take 4))

def u64 : Decoder UInt64 := return UInt64.ofNat (littleEndian (← take 8))

def offset : Decoder Nat := return (← get).offset

/-- Reads a word and fails, past it, unless it is `want`. -/
def expect32 (want : UInt32) : Decoder Unit := do
  let start ← offset
  let found ← u32
  if found ≠ want then fail (.wrongWord32 want start found)

/-- Reads a double word and fails, past it, unless it is `want`. -/
def expect64 (want : UInt64) : Decoder Unit := do
  let start ← offset
  let found ← u64
  if found ≠ want then fail (.wrongWord64 want start found)

/-- The items `step` reads until it reads an end mark. Every step reads at least one byte, so the
number of unread bytes is fuel enough; a list that outlasts it fails as a short read. -/
def listUntilEnd {α : Type} (step : Decoder (Option α)) : (fuel : Nat) → Decoder (List α)
  | 0 => fun r => .error ⟨r.offset, .shortRead 1 r.offset⟩ r
  | fuel + 1 => do
    match ← step with
    | none => return []
    | some item => return item :: (← listUntilEnd step fuel)

end Decoder

end ApeScript
