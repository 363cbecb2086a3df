import ApeScript.Binary.Reader
import ApeScript.Binary.Writer

/-!
# Counted strings

A string is stored as a length word, its bytes and a zero byte; the length counts the zero. A
string that may be absent has length zero when it is, which a present empty string never has.
-/

namespace ApeScript.CountedString

/-- The bytes and terminator of a string whose length word has been read. -/
def decodeBody (length : UInt32) : Decoder Bytes := do
  if length = 0 ∨ maxStringLength + 1 < length.toNat then Decoder.fail .stringLength
  let text ← Decoder.take (length.toNat - 1)
  let terminator ← Decoder.u8
  if terminator ≠ 0 then Decoder.fail .stringTerminator
  return text

def decode : Decoder Bytes := do decodeBody (← Decoder.u32)

def decode? : Decoder (Option Bytes) := do
  let length ← Decoder.u32
  if length = 0 then return none
  return some (← decodeBody length)

def encode (s : Bytes) : Encoded :=
  if maxStringLength < s.length then .refused (.stringTooLong s.length)
  else Encoded.u32 (UInt32.ofNat (s.length + 1)) ++ .bytes (s ++ [0])

def encode? : Option Bytes → Encoded
  | none => Encoded.u32 0
  | some s => encode s

end ApeScript.CountedString
