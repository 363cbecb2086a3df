import ApeScript.Flags
import ApeScript.FormatValue
import ApeScript.Label

/-!
# Windows

A window is a numbered list of commands. Every stored command starts with a code byte; codes that
share a payload make one kind of command, so `Command` has a constructor for each of the twelve
kinds, and keeps the code where a kind has several. `blank` is an entry that holds no command.
-/

namespace ApeScript

namespace CommandCode

def startSwitch : UInt8 := 49
def thinkSwitch : UInt8 := 50
def finishSwitch : UInt8 := 51
def startConsole : UInt8 := 65
def body : UInt8 := 66
def choice : UInt8 := 67
def background : UInt8 := 68
def «end» : UInt8 := 69
def font : UInt8 := 70
def dimensions : UInt8 := 71
def subWindow : UInt8 := 72
def image : UInt8 := 73
def flags : UInt8 := 76
def cam : UInt8 := 77
def finishConsole : UInt8 := 78
def nextWindow : UInt8 := 79
def xyPrint : UInt8 := 80
def title : UInt8 := 84
def style : UInt8 := 87
def talk : UInt8 := 89

def named : List (UInt8 × Bytes) :=
  [(startSwitch, utf8 "StartSwitchCommand"), (thinkSwitch, utf8 "ThinkSwitchCommand"),
   (finishSwitch, utf8 "FinishSwitchCommand"), (startConsole, utf8 "StartConsoleCommand"),
   (body, utf8 "BodyCommand"), (choice, utf8 "ChoiceCommand"),
   (background, utf8 "BackgroundCommand"), («end», utf8 "EndCommand"),
   (font, utf8 "FontCommand"), (dimensions, utf8 "DimensionsCommand"),
   (subWindow, utf8 "SubWindowCommand"), (image, utf8 "ImageCommand"),
   (flags, utf8 "FlagsCommand"), (cam, utf8 "CamCommand"),
   (finishConsole, utf8 "FinishConsoleCommand"), (nextWindow, utf8 "NextWindowCommand"),
   (xyPrint, utf8 "XYPrintFXCommand"), (title, utf8 "TitleCommand"),
   (style, utf8 "StyleCommand"), (talk, utf8 "TalkCommand")]

def name (code : UInt8) : Bytes :=
  match named.find? (·.1 = code) with
  | some (_, n) => n
  | none => utf8 "CommandCode(" ++ Bytes.ofNat code.toNat ++ utf8 ")"

def isFormattedText (code : UInt8) : Bool := code = body || code = title

def isSimpleText (code : UInt8) : Bool :=
  code = startConsole || code = font || code = finishConsole || code = nextWindow || code = style

def isSwitchRef (code : UInt8) : Bool :=
  code = startSwitch || code = thinkSwitch || code = finishSwitch

end CommandCode

structure Talk where
  anim1 : Bytes
  anim2 : Option Bytes
  name1 : Bytes
  name2 : Bytes
  stay1 : UInt32
  stay2 : UInt32
  deriving DecidableEq, Repr

structure Area where
  x : Option Expr
  y : Option Expr
  width : Option Expr
  height : Option Expr
  deriving DecidableEq, Repr

structure Image where
  condition : Option Expr
  file : Bytes
  area : Area
  flags : UInt32
  deriving DecidableEq, Repr

/-- Text printed at a position, with optional colour and font. -/
structure Print where
  x : Option Expr
  y : Option Expr
  alpha : Option Expr
  red : Option Expr
  green : Option Expr
  blue : Option Expr
  font : Option Bytes
  message : Bytes
  condition : Option Expr
  format : List FormatValue
  deriving DecidableEq, Repr

structure Corners where
  first : UInt32
  second : UInt32
  third : UInt32
  fourth : UInt32
  deriving DecidableEq, Repr

/-- The numeric settings of a camera, in stored order. -/
structure CamParams where
  yaw : UInt16
  pitch : UInt16
  fov : UInt16
  far : UInt16
  near : UInt16
  fwd : UInt16
  speed : UInt16
  lift : UInt16
  lag : UInt16
  occlude : UInt16
  restore : UInt16
  zip : UInt16
  deriving DecidableEq, Repr

namespace CamParams

def unset : UInt16 := 0x8001

def allUnset : CamParams :=
  ⟨unset, unset, unset, unset, unset, unset, unset, unset, unset, unset, unset, unset⟩

def toList (p : CamParams) : List UInt16 :=
  [p.yaw, p.pitch, p.fov, p.far, p.near, p.fwd, p.speed, p.lift, p.lag, p.occlude, p.restore, p.zip]

/-- Settings from a list in stored order; settings past its end are unset. -/
def ofList (l : List UInt16) : CamParams :=
  let param (i : Nat) := l.getD i unset
  ⟨param 0, param 1, param 2, param 3, param 4, param 5, param 6, param 7, param 8, param 9,
    param 10, param 11⟩

end CamParams

structure Cam where
  name : Bytes
  source : Option Bytes
  target : Option Bytes
  owner : Option Bytes
  params : CamParams
  deriving DecidableEq, Repr

inductive Command where
  | formattedText (code : UInt8) (condition : Option Expr) (text : Bytes)
      (format : List FormatValue)
  | talk (t : Talk)
  | dimensions (area : Area)
  | image (i : Image)
  | flags (bits : UInt32)
  | subWindow (label : Label)
  | choice (condition : Option Expr) (text : Bytes) (format : List FormatValue) (label : Label)
  | simpleText (code : UInt8) (text : Bytes)
  | print (p : Print)
  | switchRef (code : UInt8) (label : Label)
  | background (corners : Corners)
  | cam (c : Cam)
  | blank
  deriving DecidableEq, Repr

namespace Command

def code : Command → UInt8
  | formattedText c .. => c
  | talk _ => CommandCode.talk
  | dimensions _ => CommandCode.dimensions
  | image _ => CommandCode.image
  | flags _ => CommandCode.flags
  | subWindow _ => CommandCode.subWindow
  | choice .. => CommandCode.choice
  | simpleText c _ => c
  | print _ => CommandCode.xyPrint
  | switchRef c _ => c
  | background _ => CommandCode.background
  | cam _ => CommandCode.cam
  | blank => 0

def kindNames : List Bytes :=
  [utf8 "ConditionalFormattedString", utf8 "Talk", utf8 "Dimensions", utf8 "Image",
   utf8 "Flags", utf8 "SubWindow", utf8 "Choice", utf8 "SimpleString", utf8 "XYPrintFX",
   utf8 "Switch", utf8 "Background", utf8 "Cam"]

def kindNameOfNumber (n : Nat) : Bytes :=
  (kindNames[n]?).getD (utf8 "WindowCommandType(" ++ Bytes.ofNat n ++ utf8 ")")

def kindNumber : Command → Nat
  | formattedText .. => 0 | talk _ => 1 | dimensions _ => 2 | image _ => 3 | flags _ => 4
  | subWindow _ => 5 | choice .. => 6 | simpleText .. => 7 | print _ => 8 | switchRef .. => 9
  | background _ => 10 | cam _ => 11 | blank => 12

def kindName (c : Command) : Bytes := kindNameOfNumber c.kindNumber

/-- The condition under which a command shows, for the kinds that have one. -/
def condition? : Command → Option Expr
  | formattedText _ c _ _ => c
  | image i => i.condition
  | choice c _ _ _ => c
  | print p => p.condition
  | _ => none

/-- The text of a title, body, choice or print command: what a player reads. -/
def dialogue? : Command → Option Bytes
  | formattedText _ _ text _ => some text
  | choice _ text _ _ => some text
  | print p => some p.message
  | _ => none

end Command

/-- Whether an image is a backdrop that a script can write as a background: it is at the origin,
has no size of its own and is not solid. -/
def Image.isBackdrop (i : Image) : Bool :=
  let atZero (e : Option Expr) := ((e.bind Expr.constant?).map Binary32.isZero).getD false
  atZero i.area.x && atZero i.area.y && i.area.width.isNone && i.area.height.isNone &&
    !ImageFlags.has i.flags ImageFlags.solid

structure Window where
  id : Label
  commands : List Command
  deriving DecidableEq, Repr

end ApeScript
