import ApeScript.Window.Basic

/-!
# Stored window commands

Each command is its code byte and a payload; the list of a window's commands ends with the end
code.
-/

namespace ApeScript

open Encoded (u8 u16 u32)

namespace Area

def encode (a : Area) : Encoded :=
  Expr.encode? a.x ++ (Expr.encode? a.y ++ (Expr.encode? a.width ++ Expr.encode? a.height))

def decode (limit : Nat) : Decoder Area :=
  return ⟨← Expr.decode? limit, ← Expr.decode? limit, ← Expr.decode? limit, ← Expr.decode? limit⟩

end Area

namespace CamParams

def encode (p : CamParams) : Encoded := Encoded.concat (p.toList.map u16)

def decode : Decoder CamParams :=
  return ⟨← Decoder.u16, ← Decoder.u16, ← Decoder.u16, ← Decoder.u16, ← Decoder.u16, ← Decoder.u16,
    ← Decoder.u16, ← Decoder.u16, ← Decoder.u16, ← Decoder.u16, ← Decoder.u16, ← Decoder.u16⟩

end CamParams

namespace Command

/-- What follows the code byte. -/
def encodeBody : Command → Encoded
  | formattedText code condition text format =>
      if CommandCode.isFormattedText code then
        Expr.encode? condition ++ (CountedString.encode text ++ FormatValue.encodeList format)
      else .refused (.notFormattedText (CommandCode.name code))
  | talk t =>
      CountedString.encode t.anim1 ++ (CountedString.encode? t.anim2 ++
        (CountedString.encode t.name1 ++ (CountedString.encode t.name2 ++
          (u32 t.stay1 ++ u32 t.stay2))))
  | dimensions area => area.encode
  | image i =>
      Expr.encode? i.condition ++ (CountedString.encode i.file ++ (i.area.encode ++ u32 i.flags))
  | flags bits => u32 bits
  | subWindow label => u32 0 ++ (u32 0 ++ u32 label)
  | choice condition text format label =>
      Expr.encode? condition ++ (CountedString.encode text ++
        (FormatValue.encodeList format ++ u32 label))
  | simpleText code text =>
      if CommandCode.isSimpleText code then CountedString.encode text
      else .refused (.notSimpleText (CommandCode.name code))
  | print p =>
      Expr.encode? p.x ++ (Expr.encode? p.y ++ (Expr.encode? p.alpha ++ (Expr.encode? p.red ++
        (Expr.encode? p.green ++ (Expr.encode? p.blue ++ (CountedString.encode? p.font ++
          (CountedString.encode p.message ++ (Expr.encode? p.condition ++
            FormatValue.encodeList p.format))))))))
  | switchRef code label =>
      if CommandCode.isSwitchRef code then u32 label
      else .refused (.notSwitchReference (CommandCode.name code))
  | background c => u32 c.first ++ (u32 c.second ++ (u32 c.third ++ u32 c.fourth))
  | cam c =>
      CountedString.encode c.name ++ (CountedString.encode? c.source ++
        (CountedString.encode? c.target ++ (CountedString.encode? c.owner ++ c.params.encode)))
  | blank => .refused .blankCommand

def encode : Command → Encoded
  | blank => .refused .blankCommand
  | c => u8 c.code ++ c.encodeBody

/-- The command of a code that has been read; `limit` bounds the nesting of its expressions. -/
def decodeBody (fuel limit : Nat) (code : UInt8) : Decoder Command := do
  if CommandCode.isSwitchRef code then
    return switchRef code (← Decoder.u32)
  if CommandCode.isSimpleText code then
    return simpleText code (← CountedString.decode)
  if CommandCode.isFormattedText code then
    return formattedText code (← Expr.decode? limit) (← CountedString.decode)
      (← FormatValue.decodeList fuel)
  if code = CommandCode.choice then
    return choice (← Expr.decode? limit) (← CountedString.decode) (← FormatValue.decodeList fuel)
      (← Decoder.u32)
  if code = CommandCode.background then
    return background ⟨← Decoder.u32, ← Decoder.u32, ← Decoder.u32, ← Decoder.u32⟩
  if code = CommandCode.dimensions then
    return dimensions (← Area.decode limit)
  if code = CommandCode.subWindow then
    Decoder.expect32 0
    Decoder.expect32 0
    return subWindow (← Decoder.u32)
  if code = CommandCode.image then
    return image ⟨← Expr.decode? limit, ← CountedString.decode, ← Area.decode limit, ← Decoder.u32⟩
  if code = CommandCode.flags then
    return flags (← Decoder.u32)
  if code = CommandCode.cam then
    return cam ⟨← CountedString.decode, ← CountedString.decode?, ← CountedString.decode?,
      ← CountedString.decode?, ← CamParams.decode⟩
  if code = CommandCode.xyPrint then
    return print ⟨← Expr.decode? limit, ← Expr.decode? limit, ← Expr.decode? limit,
      ← Expr.decode? limit, ← Expr.decode? limit, ← Expr.decode? limit, ← CountedString.decode?,
      ← CountedString.decode, ← Expr.decode? limit, ← FormatValue.decodeList fuel⟩
  if code = CommandCode.talk then
    return talk ⟨← CountedString.decode, ← CountedString.decode?, ← CountedString.decode,
      ← CountedString.decode, ← Decoder.u32, ← Decoder.u32⟩
  Decoder.fail (.commandCode code)

def decodeNext (fuel limit : Nat) : Decoder (Option Command) := do
  let code ← Decoder.u8
  if code = CommandCode.end then return none
  return some (← decodeBody fuel limit code)

end Command

namespace Window

def encodeCommands (commands : List Command) : Encoded :=
  Encoded.concat (commands.map Command.encode) ++ u8 CommandCode.end

def decodeCommands (fuel limit : Nat) : Decoder (List Command) :=
  Decoder.listUntilEnd (Command.decodeNext fuel limit) fuel

end Window

end ApeScript
