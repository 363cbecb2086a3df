import ApeScript.File.Basic
import ApeScript.Script.Literal
import ApeScript.Switch.Block

/-!
# Writing scripts

`writeFile` spells a file as a script that compiles back to it. Each command has a directive and
each statement a line; conditions stand on the line before the directive they govern, and switches
made from inline blocks stand inside the window that names them. A file with a part that has no
spelling is refused as a whole, with a `Unwritable` cause that names the part.
-/

namespace ApeScript.Script

/-- What a script cannot say. -/
inductive Unwritable where
  | inWindow (label : Label) (cause : Unwritable)
  | inSwitch (label : Label) (cause : Unwritable)
  | inInline (label : Label) (cause : Unwritable)
  | atPlace (cc : UInt64) (cause : Unwritable)
  | inDirective (directive : Bytes) (cause : Unwritable)
  | blocks (e : BlockError)
  | unquotable (text : Bytes)
  | windowFlag (name : Bytes)
  | talkNames (first second : Bytes)
  | imagePosition (file : Bytes)
  | imageHeight (file : Bytes)
  | imageFlags (name : Bytes)
  | command (name : Bytes)
  | printCoordinate (message : Bytes)
  | missingInline (directive : Bytes) (label : Label)
  | setWithoutName
  | unterminatedAssignment (text : Bytes)
  | gotoWithoutTarget
  | statement (name : Bytes)
  deriving DecidableEq, Repr

def Unwritable.message : Unwritable → Bytes
  | inWindow label cause => utf8 "window " ++ Label.text label ++ utf8 ": " ++ cause.message
  | inSwitch label cause => utf8 "switch " ++ Label.text label ++ utf8 ": " ++ cause.message
  | inInline label cause =>
      utf8 "inline switch " ++ Bytes.ofNat label.toNat ++ utf8 ": " ++ cause.message
  | atPlace cc cause => utf8 "cc " ++ Placed.binary cc ++ utf8 ": " ++ cause.message
  | inDirective directive cause => directive ++ utf8 ": " ++ cause.message
  | blocks e => e.message
  | unquotable text =>
      utf8 "name " ++ Text.quoted text ++ utf8 " cannot be written as a quoted name"
  | windowFlag name => utf8 "window flag " ++ name ++ utf8 " has no script name"
  | talkNames first second => utf8 "talk between " ++ Text.quoted first ++ utf8 " and "
      ++ Text.quoted second ++ utf8 " has no script form"
  | imagePosition file => utf8 "image " ++ Text.quoted file ++ utf8 " has no position"
  | imageHeight file => utf8 "image " ++ Text.quoted file ++ utf8 " has flags but no height"
  | imageFlags name => utf8 "image flags " ++ name ++ utf8 " have no script name"
  | command name => utf8 "unexpected " ++ name ++ utf8 " command"
  | printCoordinate message =>
      utf8 "xyprint " ++ Text.quoted message ++ utf8 " is missing a coordinate"
  | missingInline directive label => directive ++ utf8 " refers to missing inline switch "
      ++ Bytes.ofNat label.toNat
  | setWithoutName => utf8 "set has no variable name"
  | unterminatedAssignment text =>
      utf8 "string assignment " ++ Text.quoted text ++ utf8 " has an unterminated quote"
  | gotoWithoutTarget => utf8 "goto has no target"
  | statement name => utf8 "unexpected " ++ name ++ utf8 " statement"

abbrev Written := Except Unwritable Bytes

/-- A quoted name, or the failure to quote it. -/
def writeName (s : Bytes) : Written :=
  match quoteName? s with
  | some text => .ok text
  | none => .error (.unquotable s)

def conditionLine : Option Expr → Bytes
  | none => []
  | some e => utf8 "if (" ++ expressionSource e ++ utf8 ")\n\t"

def optionalSource (e : Option Expr) : Bytes := (e.map expressionSource).getD []

/-! ### Statements -/

/-- The keyword of a statement with one argument, and whether the argument is quoted. -/
def statementForm? : StatementType → Option (Bytes × Bool)
  | .goSub => some (utf8 "gosub", false)
  | .console => some (utf8 "console", true)
  | .echo => some (utf8 "echo", true)
  | .target => some (utf8 "target", false)
  | .pathTarget => some (utf8 "pathtarget", false)
  | .externCall => some (utf8 "extern", false)
  | .playAmbient => some (utf8 "playambient", false)
  | .loopAmbient => some (utf8 "loopambient", false)
  | .stopAmbient => some (utf8 "stopambient", false)
  | .playScene => some (utf8 "playscene", false)
  | .loopScene => some (utf8 "loopscene", false)
  | .stopScene => some (utf8 "stopscene", false)
  | .chainScripts => some (utf8 "chainscripts", false)
  | .closeWindow => some (utf8 "closewindow", false)
  | .loadApe => some (utf8 "loadape", true)
  | .setFocus => some (utf8 "setfocus", true)
  | _ => none

/-- An assignment to a number variable; without a value the variable is unset. -/
def writeSetFloat (s : Statement) (variableName : Bytes) : Bytes :=
  match s.expr with
  | none => utf8 "unset " ++ variableName ++ formatSource s.format
  | some e => utf8 "set " ++ variableName ++ utf8 " = " ++ expressionSource e
      ++ formatSource s.format

/-- An assignment to a string variable, stored as `name=value` with quotes around a literal. -/
def writeSetString (s : Statement) (str : Bytes) : Written :=
  match Bytes.cut? 61 str with
  | none => .ok (utf8 "unset " ++ str)
  | some (variableName, assigned) => do
    let value ← match assigned with
      | 34 :: rest =>
        if rest.getLast? = some 34 then pure (quote rest.dropLast)
        else throw (.unterminatedAssignment str)
      | _ => pure assigned
    return utf8 "set " ++ variableName ++ utf8 " = " ++ value ++ formatSource s.format

def writeSimple (s : Statement) : Written :=
  match StatementType.ofCode? s.type, s.str with
  | some .setFloat, none | some .setString, none => .error .setWithoutName
  | some .setFloat, some str => .ok (writeSetFloat s str)
  | some .setString, some str => writeSetString s str
  | some .goto, none => .error .gotoWithoutTarget
  | some .goto, some str =>
      if str = utf8 "0:0" then .ok (utf8 "return")
      else .ok (utf8 "goto " ++ str ++ formatSource s.format)
  | type?, str? =>
    match type?.bind statementForm?, str? with
    | none, _ => .error (.statement (StatementType.nameOfCode s.type))
    | some (keyword, _), none => .ok keyword
    | some (keyword, isQuoted), some str =>
        .ok (keyword ++ utf8 " " ++ (if isQuoted then quote str else str) ++ formatSource s.format)

def indentation (level : Nat) : Bytes := List.replicate (2 * level) 32

/-- The keyword and condition of an `if` or a `while`. -/
def writeHead (s : Statement) : Bytes :=
  utf8 (if s.type = StatementType.while.code then "while (" else "if (")
    ++ optionalSource s.expr ++ utf8 ")"

/-- The statements of a block at a level; `lead` stands before the first of them. Braces are left
out around a single statement that governs no other, and an `if` alone in an alternative follows
`else` on its line. -/
def writeBlock (lead : Bytes) (level : Nat) : Block → Written
  | .done => .ok []
  | .step p inner alt rest => do
    let here ←
      if p.statement.type = StatementType.noOp.code then pure []
      else if StatementType.isControl p.statement.type then do
        let single := inner.isSingleSimple
        let body ← writeBlock (indentation (level + 1)) (level + 1) inner
        let opened := lead ++ writeHead p.statement ++ utf8 (if single then "\n" else " \x7b\n")
          ++ body ++ (if single then [] else indentation level ++ utf8 "\x7d")
        if alt.isDone then pure (opened ++ if single then [] else utf8 "\n")
        else do
          let joined := opened ++ (if single then indentation level ++ utf8 "else"
            else utf8 " else")
          if alt.isSingleIf then
            pure (joined ++ utf8 " " ++ (← writeBlock [] level alt))
          else do
            let other ← writeBlock (indentation (level + 1)) (level + 1) alt
            if alt.isSingleSimple then pure (joined ++ utf8 "\n" ++ other)
            else pure (joined ++ utf8 " \x7b\n" ++ other ++ indentation level ++ utf8 "\x7d\n")
      else
        match writeSimple p.statement with
        | .ok line => pure (lead ++ line ++ utf8 "\n")
        | .error cause => throw (.atPlace p.cc cause)
    return here ++ (← writeBlock (indentation level) level rest)

def writeStatements (level : Nat) (commands : List Placed) : Written :=
  match Block.ofPlaced commands with
  | .error e => .error (.blocks e)
  | .ok block => writeBlock (indentation level) level block

/-! ### Window commands -/

def stayWord (v : UInt32) : Bytes := utf8 (if v = 0 then "nostay" else "stay")

/-- With a second animation both characters are named; without one the pair must be the clicked
character and the player, in either order. -/
def writeTalk (t : Talk) : Written :=
  match t.anim2 with
  | some anim2 =>
      let stays := if t.stay1 = 0 ∨ t.stay2 = 0 then
        utf8 " " ++ stayWord t.stay1 ++ utf8 " " ++ stayWord t.stay2 else []
      .ok (utf8 "talk_ex " ++ t.name1 ++ utf8 " " ++ t.name2 ++ utf8 " " ++ t.anim1 ++ utf8 " "
        ++ anim2 ++ stays ++ utf8 "\n")
  | none => do
      let npc := utf8 "_click_"
      let player := utf8 "playerchar0"
      let start ←
        if t.name1 = npc ∧ t.name2 = player then pure (utf8 "talk npc ")
        else if t.name1 = player ∧ t.name2 = npc then pure (utf8 "talk player ")
        else throw (.talkNames t.name1 t.name2)
      return start ++ t.anim1 ++ utf8 (if t.stay2 = 0 then " nostay\n" else "\n")

def writeImage (asBackground : Bool) (i : Image) : Written := do
  let file ← match quoteName? i.file with
    | some text => pure text
    | none => throw (.inDirective (utf8 "image") (.unquotable i.file))
  if asBackground && i.isBackdrop then
    return conditionLine i.condition ++ utf8 "background " ++ file
      ++ utf8 (if ImageFlags.has i.flags ImageFlags.stretch then " stretch" else "")
      ++ utf8 (if ImageFlags.has i.flags ImageFlags.tile then " tile" else "") ++ utf8 "\n"
  let (some x, some y) := (i.area.x, i.area.y) | throw (.imagePosition i.file)
  let size (e : Option Expr) : Bytes := match e with
    | some e => utf8 ", " ++ expressionSource e
    | none => []
  let names := ImageFlags.names i.flags
  if !names.isEmpty && i.area.height.isNone then throw (.imageHeight i.file)
  if let some unknown := names.find? (Bytes.startsWith (utf8 "Unknown")) then
    throw (.imageFlags unknown)
  let flags := if names.isEmpty then [] else utf8 ", " ++ Bytes.joinWith (utf8 " ") names
  return conditionLine i.condition ++ utf8 "image " ++ file ++ utf8 " " ++ expressionSource x
    ++ utf8 ", " ++ expressionSource y ++ size i.area.width ++ size i.area.height ++ flags
    ++ utf8 "\n"

def isLabelText (s : Bytes) : Bool :=
  match Bytes.cut? 58 s with
  | some (high, low) =>
      !high.isEmpty && !low.isEmpty && high.all Bytes.isDigit && low.all Bytes.isDigit
  | none => false

/-- A console text without its last newline, which reading appends again. -/
def withoutNewline (s : Bytes) : Bytes := if s.getLast? = some 10 then s.dropLast else s

def writeNamed (directive s : Bytes) : Written :=
  match quoteName? s with
  | some text => .ok (directive ++ utf8 " " ++ text ++ utf8 "\n")
  | none => .error (.inDirective directive (.unquotable s))

def writeSimpleText (code : UInt8) (s : Bytes) : Written :=
  if code = CommandCode.startConsole then
    .ok (utf8 "startconsole " ++ quote (withoutNewline s) ++ utf8 "\n")
  else if code = CommandCode.finishConsole then
    .ok (utf8 "finishconsole " ++ quote (withoutNewline s) ++ utf8 "\n")
  else if code = CommandCode.font then writeNamed (utf8 "font") s
  else if code = CommandCode.style then writeNamed (utf8 "style") s
  else if code = CommandCode.nextWindow then
    if s = utf8 "0:0" then .ok (utf8 "return\n")
    else if isLabelText s then .ok (utf8 "goto " ++ s ++ utf8 "\n")
    else .ok (utf8 "nextwindow " ++ s ++ utf8 "\n")
  else .error (.command (CommandCode.name code))

/-- Printed text; the colours and the font are written when all of them are there. -/
def writePrint (p : Print) : Written := do
  let (some x, some y, some alpha) := (p.x, p.y, p.alpha) | throw (.printCoordinate p.message)
  let place := expressionSource x ++ utf8 ", " ++ expressionSource y ++ utf8 ", "
    ++ expressionSource alpha ++ utf8 ", "
  let start := match p.red, p.green, p.blue, p.font with
    | some red, some green, some blue, some font =>
        utf8 "xyprintfx " ++ place ++ expressionSource red ++ utf8 ", " ++ expressionSource green
          ++ utf8 ", " ++ expressionSource blue ++ utf8 ", " ++ font ++ utf8 ", "
    | _, _, _, _ => utf8 "xyprint " ++ place
  return conditionLine p.condition ++ start ++ quote p.message ++ formatSource p.format
    ++ utf8 "\n"

def writeCam (c : Cam) : Bytes :=
  let string (name : String) (v : Option Bytes) : Bytes := match v with
    | some s => utf8 " " ++ utf8 name ++ utf8 "(" ++ s ++ utf8 ")"
    | none => []
  let number (name : String) (v : UInt16) : Bytes :=
    if v = CamParams.unset then []
    else utf8 " " ++ utf8 name ++ utf8 "(" ++ Bytes.ofNat v.toNat ++ utf8 ")"
  let word (name : String) (v : UInt16) : Bytes :=
    if v = CamParams.unset then [] else utf8 " " ++ utf8 name
  let p := c.params
  utf8 "cam " ++ c.name ++ string "from" c.source ++ string "to" c.target
    ++ string "owner" c.owner ++ number "yaw" p.yaw ++ number "pitch" p.pitch
    ++ number "fov" p.fov ++ number "far" p.far ++ number "near" p.near ++ number "fwd" p.fwd
    ++ number "speed" p.speed ++ number "lift" p.lift ++ number "lag" p.lag
    ++ number "occlude" p.occlude ++ word "restore" p.restore ++ word "zip" p.zip ++ utf8 "\n"

/-- Corner colours that are not zero; the first one when all are. -/
def writeCorners (c : Corners) : Bytes :=
  let color (number : Nat) (v : UInt32) : Bytes :=
    if v = 0 then [] else utf8 " color" ++ Bytes.ofNat number ++ utf8 "=" ++ colorText v
  let colors := color 1 c.first ++ color 2 c.second ++ color 3 c.third ++ color 4 c.fourth
  utf8 "background" ++ (if colors.isEmpty then utf8 " color1=00000000" else colors) ++ utf8 "\n"

/-- One line for each named flag but the one that follows from the absence of a background. -/
def writeFlags (bits : UInt32) : Written := do
  let names := WindowFlags.names bits
  if let some unknown := names.find? (Bytes.startsWith (utf8 "UnknownFlag")) then
    throw (.windowFlag unknown)
  return (names.filter (· ≠ utf8 "nobackground")).flatMap
    fun name => utf8 "flags " ++ name ++ utf8 "\n"

def writeArea (a : Area) : Bytes :=
  let line (name : String) (e : Option Expr) : Bytes := match e with
    | some e => utf8 name ++ utf8 " " ++ expressionSource e ++ utf8 "\n"
    | none => []
  line "width" a.width ++ line "height" a.height ++ line "xpos" a.x ++ line "ypos" a.y

/-- A command other than a switch reference. -/
def writeCommand (asBackground : Bool) : Command → Written
  | .formattedText code condition text format =>
      .ok (conditionLine condition ++ utf8 (if code = CommandCode.title then "title " else "body ")
        ++ quote text ++ formatSource format ++ utf8 "\n")
  | .talk t => writeTalk t
  | .dimensions a => .ok (writeArea a)
  | .image i => writeImage asBackground i
  | .flags bits => writeFlags bits
  | .subWindow label => .ok (utf8 "subwindow " ++ Label.text label ++ utf8 "\n")
  | .choice condition text format label =>
      .ok (conditionLine condition ++ utf8 "choice " ++ quote text
        ++ (if format.isEmpty then [] else formatSource format ++ utf8 ",") ++ utf8 " "
        ++ Label.text label ++ utf8 "\n")
  | .simpleText code s => writeSimpleText code s
  | .print p => writePrint p
  | .background c => .ok (writeCorners c)
  | .cam c => .ok (writeCam c)
  | c@(.switchRef ..) | c@.blank => .error (.command c.kindName)

def switchDirective (code : UInt8) : Bytes :=
  if code = CommandCode.startSwitch then utf8 "startswitch"
  else if code = CommandCode.thinkSwitch then utf8 "thinkswitch"
  else if code = CommandCode.finishSwitch then utf8 "finishswitch"
  else []

/-- A switch reference; the statements of an inline switch stand in braces. -/
def writeSwitchRef (f : File) (code : UInt8) (label : Label) : Written :=
  let directive := switchDirective code
  if !Label.isInline label then .ok (directive ++ utf8 " " ++ Label.text label ++ utf8 "\n")
  else
    match f.switches.reverse.find? (·.label = label) with
    | none => .error (.missingInline directive label)
    | some s =>
      match writeStatements 1 s.commands with
      | .error cause => .error (.inInline label cause)
      | .ok body => .ok (directive ++ utf8 " \x7b\n" ++ body ++ utf8 "\x7d\n")

def switchRefs (w : Window) : List (UInt8 × Label) :=
  let refs := w.commands.filterMap fun
    | .switchRef code label => some (code, label)
    | _ => none
  refs.mergeSort fun a b => a.2 ≤ b.2

def hasNoBackground (w : Window) : Bool :=
  w.commands.foldl (fun found c => match c with
    | .flags bits => bits &&& WindowFlags.noBackground ≠ 0
    | _ => found) false

def writeWindow (f : File) (w : Window) : Written := do
  let noBackground := hasNoBackground w
  let hasBackground := w.commands.any fun
    | .background _ => true
    | _ => false
  let hasBackdrop := w.commands.any fun
    | .image i => i.isBackdrop
    | _ => false
  let asBackground := hasBackdrop && !hasBackground && !noBackground
  let commands := w.commands.filter fun
    | .switchRef .. => false
    | _ => true
  let body ← commands.mapM (writeCommand asBackground)
  let plain := if !noBackground && !asBackground && !hasBackground then
    utf8 "background color1=00000000\n" else []
  let refs ← (switchRefs w).mapM fun (code, label) => writeSwitchRef f code label
  return utf8 "#window " ++ Label.text w.id ++ utf8 "\n" ++ body.flatten ++ plain ++ refs.flatten
    ++ utf8 "\n"

def inlined (f : File) : List Label :=
  f.windows.flatMap fun w => ((switchRefs w).map (·.2)).filter Label.isInline

def writeSwitch (s : Switch) : Written := do
  return utf8 "\n#switch " ++ Label.text s.label ++ utf8 "\n" ++ (← writeStatements 0 s.commands)

/-- A failure placed in the part of the file it concerns. -/
def within (place : Unwritable → Unwritable) (w : Written) : Written := w.mapError place

/-- The script of a file: its windows, then the switches that no window holds. -/
def writeFile (f : File) : Written := do
  let windows ← f.windows.mapM fun w => within (.inWindow w.id) (writeWindow f w)
  let inlinedLabels := inlined f
  let switches ← (f.switches.filter fun s => !inlinedLabels.contains s.label).mapM
    fun s => within (.inSwitch s.label) (writeSwitch s)
  return windows.flatten ++ switches.flatten

end ApeScript.Script
