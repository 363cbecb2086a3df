import ApeScript.Charset.Basic
import ApeScript.File.Codec
import ApeScript.Number.Decimal

/-!
# Listings

A listing shows a file part by part, in stored order, one line for each part, indented four spaces
a level. Where the layout of the file is known, the offset of each window and switch stands in
front of it. Strings are shown in the character set of the listing.
-/

namespace ApeScript.Listing

structure Line where
  depth : Nat
  text : Bytes
  deriving DecidableEq, Repr

def Line.bytes (l : Line) : Bytes := List.replicate (4 * l.depth) 32 ++ l.text ++ [10]

def numbered (name : Bytes) (n : Nat) : Bytes := name ++ utf8 "(" ++ Bytes.ofNat n ++ utf8 ")"

variable (charset : Charset)

def stringLine (depth : Nat) (s : Bytes) : Line :=
  ⟨depth, utf8 "String '" ++ charset.decode s ++ utf8 "'"⟩

def optionalString (depth : Nat) (s : Option Bytes) : List Line :=
  ⟨depth, utf8 "OptionalString"⟩ :: (s.map (stringLine charset (depth + 1))).toList

/-- An operand; a nested expression stands at the operand's own level. -/
def operand (depth : Nat) : Operand → List Line
  | .float x => [⟨depth, utf8 "FloatOperand(" ++ x.listingText ++ utf8 ")"⟩]
  | .name s => [⟨depth, utf8 "StringOperand"⟩, stringLine charset (depth + 1) s]
  | .quoted s => [⟨depth, utf8 "QuotedStringOperand"⟩, stringLine charset (depth + 1) s]
  | .nested op lt lp l rt rp r =>
      [⟨depth, utf8 "ExpressionValue(" ++ Operator.nameOfCode op ++ utf8 ")"⟩,
       ⟨depth + 1, utf8 "ExpressionType(" ++ OperandType.nameOfCode lt ++ utf8 ", " ++
        OperandType.nameOfCode rt ++ utf8 ")"⟩,
       ⟨depth + 1, numbered (utf8 "LeftTreePos") lp.toNat⟩] ++
      operand (depth + 1) l ++
      [⟨depth + 1, numbered (utf8 "RightTreePos") rp.toNat⟩] ++
      operand (depth + 1) r
  | .missing | .invalid | .hollow => [⟨depth, utf8 "InvalidOperand"⟩]

def optionalExpression (depth : Nat) (e : Option Expr) : List Line :=
  ⟨depth, utf8 "OptionalExpression"⟩ ::
    ((e.map fun e => operand charset (depth + 1) e.toOperand).getD [])

def formatting (depth : Nat) (values : List FormatValue) : List Line :=
  ⟨depth, utf8 "FormattingValue"⟩ :: values.flatMap fun v =>
    ⟨depth + 1, utf8 "TypedFormattingValue(" ++ FormatType.nameOfCode v.type ++ utf8 ")"⟩ ::
      operand charset (depth + 2) v.value

def area (depth : Nat) (a : Area) : List Line :=
  [a.x, a.y, a.width, a.height].flatMap (optionalExpression charset depth)

def nameList (word : Bytes) (names : List Bytes) : Bytes :=
  word ++ utf8 "(" ++ Bytes.joinWith (utf8 ",") names ++ utf8 ")"

def camParams (p : CamParams) : Bytes :=
  let names := [utf8 "Yaw", utf8 "Pitch", utf8 "Fov", utf8 "Far", utf8 "Near", utf8 "Fwd",
    utf8 "Speed", utf8 "Lift", utf8 "Lag", utf8 "Occlude", utf8 "Restore", utf8 "Zip"]
  nameList (utf8 "CamParams")
    (List.zipWith (fun name v => name ++ utf8 "=" ++ Bytes.ofNat v.toNat) names p.toList)

def corners (c : Corners) : Bytes :=
  utf8 "Color1(" ++ colorText c.first ++ utf8 ") Color2(" ++ colorText c.second ++
    utf8 ") Color3(" ++ colorText c.third ++ utf8 ")  Color4(" ++ colorText c.fourth ++ utf8 ")"

def argument : Command → Bytes
  | .switchRef _ label | .subWindow label => numbered [] label.toNat
  | _ => []

/-- The lines below the first line of a command. -/
def payload (depth : Nat) : Command → List Line
  | .simpleText _ text => [stringLine charset depth text]
  | .formattedText _ condition text format =>
      optionalExpression charset depth condition ++ [stringLine charset depth text] ++
        formatting charset depth format
  | .choice condition text format label =>
      optionalExpression charset depth condition ++ [stringLine charset depth text] ++
        formatting charset depth format ++ [⟨depth, numbered (utf8 "Label") label.toNat⟩]
  | .background c => [⟨depth, corners c⟩]
  | .dimensions a => area charset depth a
  | .image i =>
      optionalExpression charset depth i.condition ++ [stringLine charset depth i.file] ++
        area charset depth i.area ++
        [⟨depth, nameList (utf8 "ImageFlags") (ImageFlags.names i.flags)⟩]
  | .flags bits => [⟨depth, nameList (utf8 "Flags") (WindowFlags.names bits)⟩]
  | .cam c =>
      [stringLine charset depth c.name] ++ optionalString charset depth c.source ++
        optionalString charset depth c.target ++ optionalString charset depth c.owner ++
        [⟨depth, camParams c.params⟩]
  | .print p =>
      [p.x, p.y, p.alpha, p.red, p.green, p.blue].flatMap (optionalExpression charset depth) ++
        optionalString charset depth p.font ++ [stringLine charset depth p.message] ++
        optionalExpression charset depth p.condition ++ formatting charset depth p.format
  | .talk t =>
      [stringLine charset depth t.anim1] ++ optionalString charset depth t.anim2 ++
        [stringLine charset depth t.name1, stringLine charset depth t.name2,
         ⟨depth, nameList (utf8 "TalkParams") [utf8 "Stay1Flag=" ++ Bytes.ofNat t.stay1.toNat,
          utf8 "Stay2Flag=" ++ Bytes.ofNat t.stay2.toNat]⟩]
  | .switchRef .. | .subWindow _ | .blank => []

def command (depth : Nat) (c : Command) : List Line :=
  if c = .blank then []
  else ⟨depth, CommandCode.name c.code ++ argument c⟩ :: payload charset (depth + 1) c

def endLine : Line := ⟨1, utf8 "EndCommand"⟩

def offsetLine (offset : Option Nat) : List Line :=
  (offset.map fun n => (⟨0, numbered (utf8 "FilePosition") n⟩ : Line)).toList

def window (offset : Option Nat) (w : Window) : List Line :=
  offsetLine offset ++ [⟨0, utf8 "Window " ++ Bytes.ofNat w.id.toNat⟩] ++
    w.commands.flatMap (command charset 1) ++ [endLine]

def placed (p : Placed) : List Line :=
  [⟨1, utf8 "CCLabel(" ++ Placed.binary p.cc ++ utf8 ")"⟩,
   ⟨1, StatementType.nameOfCode p.statement.type⟩] ++
    optionalString charset 2 p.statement.str ++ formatting charset 2 p.statement.format ++
    optionalExpression charset 2 p.statement.expr

def switch (offset : Option Nat) (s : Switch) : List Line :=
  offsetLine offset ++ [⟨0, numbered (utf8 "Switch") s.label.toNat⟩] ++
    s.commands.flatMap (placed charset) ++ [⟨1, utf8 "CCLabel(0)"⟩, endLine]

def withOffsets {α : Type} (offsets : List Nat) (items : List α) : List (Option Nat × α) :=
  items.zipIdx.map fun (item, i) => (offsets[i]?, item)

/-- The lines of a file; without a layout no offsets are shown. -/
def lines (f : File) (layout : Option Layout) : List Line :=
  let offsets (part : Layout → List Nat) := (layout.map part).getD []
  (withOffsets (offsets Layout.windows) f.windows).flatMap
      (fun (offset, w) => window charset offset w) ++
    [⟨0, utf8 "Switches"⟩] ++
    (withOffsets (offsets Layout.switches) f.switches).flatMap
      fun (offset, s) => switch charset offset s

def render (f : File) (layout : Option Layout) : Bytes :=
  (lines charset f layout).flatMap Line.bytes

def ofBytes (data : Bytes) : Except DecodeError Bytes :=
  (File.decodeWithLayout data).map fun (f, layout) => render charset f (some layout)

end ApeScript.Listing
