import ApeScript.Charset.Basic
import ApeScript.File.Basic
import ApeScript.Script.Literal
import ApeScript.Yaml.Scalar

/-!
# Files as YAML documents

The windows and switches of a file as a YAML document. Expressions are spelled as in scripts and
strings are shown in a character set. Parts that are not there are left out, and the settings of a
command stand in alphabetical order.
-/

namespace ApeScript.Yaml

open Script

def entryIfAny (name : String) (s : Bytes) : List (Bytes × Node) :=
  if s.isEmpty then [] else [(utf8 name, .text s)]

def listIfAny (name : String) (l : List Bytes) : List (Bytes × Node) :=
  if l.isEmpty then [] else [(utf8 name, .texts l)]

variable (charset : Charset)

def expressionText (e : Option Expr) : Bytes :=
  (e.map fun e => charset.decode (expressionSource e)).getD []

def formatTexts (values : List FormatValue) : List Bytes :=
  values.map fun v => charset.decode (formatValueSource v)

abbrev Setting := Bytes × Bytes

def ofExpr (name : String) (e : Option Expr) : List Setting :=
  (e.map fun e => (utf8 name, charset.decode (expressionSource e))).toList

def ofText (name : String) (s : Option Bytes) : List Setting :=
  (s.map fun s => (utf8 name, charset.decode s)).toList

def areaSettings (a : Area) : List Setting :=
  ofExpr charset "xpos" a.x ++ ofExpr charset "ypos" a.y ++ ofExpr charset "width" a.width ++
    ofExpr charset "height" a.height

def camSettings (p : CamParams) : List Setting :=
  let names := [utf8 "yaw", utf8 "pitch", utf8 "fov", utf8 "far", utf8 "near", utf8 "fwd",
    utf8 "speed", utf8 "lift", utf8 "lag", utf8 "occlude", utf8 "restore", utf8 "zip"]
  ((names.zip p.toList).filter fun (_, v) => v ≠ CamParams.unset).map
    fun (name, v) => (name, Bytes.ofNat v.toNat)

/-- The settings of a command other than its condition, text, format, label and flags. -/
def settings : Command → List Setting
  | .background c =>
      [(utf8 "color1", colorText c.first), (utf8 "color2", colorText c.second),
       (utf8 "color3", colorText c.third), (utf8 "color4", colorText c.fourth)]
  | .dimensions a => areaSettings charset a
  | .image i => areaSettings charset i.area
  | .cam c =>
      ofText charset "from" c.source ++ ofText charset "to" c.target ++
        ofText charset "owner" c.owner ++ camSettings c.params
  | .print p =>
      ofExpr charset "x" p.x ++ ofExpr charset "y" p.y ++ ofExpr charset "alpha" p.alpha ++
        ofExpr charset "red" p.red ++ ofExpr charset "green" p.green ++
        ofExpr charset "blue" p.blue ++ ofText charset "font" p.font
  | .talk t =>
      ofText charset "animation1" (some t.anim1) ++ ofText charset "animation2" t.anim2 ++
        ofText charset "name1" (some t.name1) ++ ofText charset "name2" (some t.name2) ++
        [(utf8 "stay1", Bytes.ofNat t.stay1.toNat), (utf8 "stay2", Bytes.ofNat t.stay2.toNat)]
  | _ => []

def commandText? : Command → Option Bytes
  | .simpleText _ text | .formattedText _ _ text _ | .choice _ text _ _ => some text
  | .image i => some i.file
  | .cam c => some c.name
  | .print p => some p.message
  | _ => none

def commandFormat : Command → List FormatValue
  | .formattedText _ _ _ format | .choice _ _ format _ => format
  | .print p => p.format
  | _ => []

def commandLabel? : Command → Option Label
  | .switchRef _ label | .subWindow label | .choice _ _ _ label => some label
  | _ => none

def commandFlags : Command → List Bytes
  | .image i => ImageFlags.names i.flags
  | .flags bits => WindowFlags.names bits
  | _ => []

def commandNode (c : Command) : Node :=
  let sorted := (settings charset c).mergeSort fun a b => Bytes.le a.1 b.1
  .record ([(utf8 "command", .text (CommandCode.name c.code))] ++
    entryIfAny "condition" (expressionText charset c.condition?) ++
    ((commandText? c).map fun s => (utf8 "text", Node.text (charset.decode s))).toList ++
    listIfAny "format" (formatTexts charset (commandFormat c)) ++
    ((commandLabel? c).map fun l => (utf8 "label", Node.text (Label.text l))).toList ++
    (if sorted.isEmpty then []
      else [(utf8 "fields", .record (sorted.map fun (name, value) => (name, .text value)))]) ++
    listIfAny "flags" (commandFlags c))

def placedNode (p : Placed) : Node :=
  .record ([(utf8 "cc", .text (Placed.binary p.cc)),
      (utf8 "command", .text (StatementType.nameOfCode p.statement.type))] ++
    (p.statement.str.map fun s => (utf8 "str", Node.text (charset.decode s))).toList ++
    listIfAny "format" (formatTexts charset p.statement.format) ++
    entryIfAny "expr" (expressionText charset p.statement.expr))

def part (label : Label) (offset : Option Nat) (commands : List Node) : Node :=
  .record ([(utf8 "label", .text (Label.text label)), (utf8 "id", .number label.toNat)] ++
    ((offset.filter (· ≠ 0)).map fun n => (utf8 "offset", Node.number n)).toList ++
    [(utf8 "commands", .list commands)])

/-- The document of a file; without a layout no offsets are shown. -/
def ofFile (f : File) (layout : Option Layout) : Bytes :=
  let offsets (select : Layout → List Nat) (i : Nat) : Option Nat :=
    layout.bind fun l => (select l)[i]?
  let windows := f.windows.zipIdx.map fun (w, i) =>
    part w.id (offsets Layout.windows i) (w.commands.map (commandNode charset))
  let switches := f.switches.zipIdx.map fun (s, i) =>
    part s.label (offsets Layout.switches i) (s.commands.map (placedNode charset))
  Node.document ([(utf8 "windows", .list windows)] ++
    if switches.isEmpty then [] else [(utf8 "switches", .list switches)])

end ApeScript.Yaml
