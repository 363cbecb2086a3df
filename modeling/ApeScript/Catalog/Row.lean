import ApeScript.Charset.Basic
import ApeScript.File.Basic
import ApeScript.Text.Excerpt
import ApeScript.Window.Basic

/-!
# Catalogue rows

What a catalogue keeps of each window of a file: its label, how many commands it has, the start of
its first title or body, and its shape. The shape of a window is a vector that tells how the window
is built, whatever its text says: how often each command occurs, how many commands have a condition,
and the length of its dialogue in kilobytes. It is scaled to length one, so that windows built alike
lie close together.
-/

namespace ApeScript.Catalog

/-! ### Shapes -/

open Number

def countedCodes : List UInt8 :=
  [CommandCode.startSwitch, CommandCode.thinkSwitch, CommandCode.finishSwitch,
   CommandCode.startConsole, CommandCode.body, CommandCode.choice, CommandCode.background,
   CommandCode.font, CommandCode.dimensions, CommandCode.subWindow, CommandCode.image,
   CommandCode.flags, CommandCode.cam, CommandCode.finishConsole, CommandCode.nextWindow,
   CommandCode.xyPrint, CommandCode.title, CommandCode.style, CommandCode.talk]

def count (p : Command → Bool) (commands : List Command) : Binary32 :=
  (commands.filter p).foldl (fun n _ => n.add .one) .zero

def kilobytes (text : Bytes) : Binary32 := (Binary32.ofNat text.length).div (.ofNat 1024)

def dialogueSize (commands : List Command) : Binary32 :=
  (commands.filterMap Command.dialogue?).foldl (fun n text => n.add (kilobytes text)) .zero

def tally (w : Window) : List Binary32 :=
  countedCodes.map (fun code => count (·.code = code) w.commands) ++
    [count (·.condition?.isSome) w.commands, dialogueSize w.commands]

/-- The sum of the squares, as a word of double precision. -/
def squaredLength (v : List Binary32) : Nat :=
  let double := Format.binary64
  v.foldl
    (fun sum x =>
      let wide := Format.binary32.convert double x.word
      double.add sum (double.mul wide wide))
    0

/-- The vector scaled to length one; a vector of zeros stays as it is. -/
def normalize (v : List Binary32) : List Binary32 :=
  let double := Format.binary64
  let norm := squaredLength v
  if norm = 0 then v
  else
    let inverse := double.div (double.ofNat 1) (double.sqrt norm)
    let scale := Binary32.ofWord (double.convert .binary32 inverse)
    v.map (·.mul scale)

def shape (w : Window) : List Binary32 := normalize (tally w)

/-! ### Rows -/

structure Row where
  label : Label
  commands : Nat
  preview : Bytes
  shape : List Binary32
  deriving DecidableEq, Repr

def previewLength : Nat := 60

def firstText? : List Command → Option Bytes
  | [] => none
  | .formattedText _ _ text _ :: _ => some text
  | _ :: rest => firstText? rest

/-- The start of the window's first title or body, with a question mark for bytes that cannot be
shown. -/
def preview (charset : Charset) (w : Window) : Bytes :=
  match firstText? w.commands with
  | some text => Text.truncate (Text.replaceStray (utf8 "?") (charset.decode text)) previewLength
  | none => []

def rows (charset : Charset) (f : File) : List Row :=
  f.windows.map fun w => ⟨w.id, w.commands.length, preview charset w, shape w⟩

end ApeScript.Catalog
