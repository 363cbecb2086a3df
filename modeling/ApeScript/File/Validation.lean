import ApeScript.File.Codec

/-!
# Validation

A decoded file is valid when encoding it again gives the bytes it came from.
-/

namespace ApeScript

inductive ValidationError where
  | refused (e : EncodeError)
  | differs (offset encodedSize size : Nat)
  | halted
  deriving DecidableEq, Repr

def haltedMessage : Bytes := utf8 "ape: invalid operand cannot be encoded"

def ValidationError.message : ValidationError → Bytes
  | refused e => utf8 "re-encode: " ++ e.message
  | differs offset encodedSize size => utf8 "re-encoded file differs from the input at offset "
      ++ Bytes.ofNat offset ++ utf8 " (" ++ Bytes.ofNat encodedSize ++ utf8 " bytes vs "
      ++ Bytes.ofNat size ++ utf8 ")"
  | halted => haltedMessage

/-- How many leading bytes two byte strings share. -/
def commonLength (s t : Bytes) : Nat := ((s.zip t).takeWhile fun (a, b) => a = b).length

def File.validate (f : File) (data : Bytes) : Except ValidationError Unit :=
  match f.encode with
  | .refused e => .error (.refused e)
  | .halted => .error .halted
  | .bytes again =>
    if again = data then .ok ()
    else .error (.differs (commonLength again data) again.length data.length)

end ApeScript
