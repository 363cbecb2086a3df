import ApeScript.Compile.SwitchBody
import ApeScript.Window.Basic

/-!
# Window bodies

A window's directives may come in any order; a `WindowDraft` collects what they say, and
`WindowDraft.commands` puts it into the order in which commands are stored. Conditions nest: an
`if` or `else` governs the next directive or a block in braces, and a command shows when the
conditions of all blocks around it hold.
-/

namespace ApeScript

/-- An open `if` or `else` of a window body. -/
structure ConditionBlock where
  condition : Value
  braced : Bool
  isElse : Bool
  used : Bool
  loc : Location
  deriving DecidableEq, Repr

/-- What the directives of a window have said so far. -/
structure WindowDraft where
  /-- The open blocks, the innermost first. -/
  blocks : List ConditionBlock := []
  /-- The blocks that the last directive or brace closed, the innermost first. An `else` that
  follows continues the innermost and opens the others again. -/
  closed : List ConditionBlock := []
  titles : List Command := []
  bodies : List Command := []
  prints : List Command := []
  cam : Option Cam := none
  talk : Option Talk := none
  startConsole : Option Bytes := none
  finishConsole : Option Bytes := none
  startSwitch : Option Label := none
  thinkSwitch : Option Label := none
  finishSwitch : Option Label := none
  style : Option Bytes := none
  font : Option Bytes := none
  flags : UInt32 := 0
  corners : Corners := ⟨0, 0, 0, 0⟩
  hasBackground : Bool := false
  area : Area := ⟨none, none, none, none⟩
  subWindows : List Command := []
  images : List Command := []
  choices : List Command := []
  nextWindow : Option Bytes := none
  deriving DecidableEq, Repr

namespace WindowDraft

def simple (code : UInt8) (text : Option Bytes) : List Command :=
  (text.map (Command.simpleText code)).toList

def ref (code : UInt8) (label : Option Label) : List Command :=
  (label.map (Command.switchRef code)).toList

def storedFlags (w : WindowDraft) : UInt32 :=
  if w.hasBackground then w.flags else w.flags ||| WindowFlags.noBackground

def commands (w : WindowDraft) : List Command :=
  [w.titles, w.bodies, w.prints, (w.cam.map Command.cam).toList, (w.talk.map Command.talk).toList,
   simple CommandCode.startConsole w.startConsole,
   simple CommandCode.finishConsole w.finishConsole,
   ref CommandCode.startSwitch w.startSwitch, ref CommandCode.thinkSwitch w.thinkSwitch,
   ref CommandCode.finishSwitch w.finishSwitch,
   simple CommandCode.style w.style, simple CommandCode.font w.font,
   if w.storedFlags = 0 then [] else [.flags w.storedFlags],
   if w.corners = ⟨0, 0, 0, 0⟩ then [] else [.background w.corners],
   [.dimensions w.area], w.subWindows, w.images, w.choices,
   simple CommandCode.nextWindow w.nextWindow].flatten

def closeUnbraced (w : WindowDraft) : WindowDraft :=
  { w with
    closed := w.closed ++ w.blocks.takeWhile (!·.braced)
    blocks := w.blocks.dropWhile (!·.braced) }

def markUsed (w : WindowDraft) : WindowDraft :=
  { w with blocks := w.blocks.map fun b => { b with used := true } }

end WindowDraft

namespace Compiler

/-! ### Conditions -/

def activeCondition (w : WindowDraft) : Compiler (Option Expr × Bool) :=
  let outermostFirst := w.blocks.reverse
  match outermostFirst with
  | [] => return (none, true)
  | outermost :: _ => toCondition (Value.conjoin (outermostFirst.map (·.condition))) outermost.loc

def checkUnconditional (w : WindowDraft) (loc : Location) : Compiler Unit :=
  if w.blocks.isEmpty then return else fail loc .insideCondition

def checkUnset {α : Type} (slot : Option α) (loc : Location) (cause : Cause) : Compiler Unit :=
  if slot.isSome then fail loc cause else return

def openBlock (w : WindowDraft) (b : ConditionBlock) : Compiler WindowDraft := do
  Lexer.skipLineEnds
  let token ← Lexer.peekNormal
  if token.type = .openBrace then
    Lexer.consume
    return { w with blocks := { b with braced := true } :: w.blocks }
  return { w with blocks := b :: w.blocks }

def openIf (w : WindowDraft) (loc : Location) : Compiler WindowDraft := do
  let _ ← Lexer.expect .openParen
  let condition ← parseExpr
  let _ ← Lexer.expect .closeParen
  if !condition.isFloat then fail loc .conditionNotNumeric
  openBlock w ⟨condition, false, false, false, loc⟩

/-- An `else`, which governs the inverse of the condition closed last. -/
def openElse (w : WindowDraft) (loc : Location) : Compiler WindowDraft := do
  match w.closed with
  | [] => fail loc .elseWithoutIf
  | inner :: outer =>
    if inner.isElse then fail loc .elseAfterElse
    let inverted := inner.condition.invert
    if !inverted.isFloat then fail loc .elseNotInvertible
    openBlock { w with blocks := outer ++ w.blocks, closed := [] }
      ⟨inverted, false, true, false, loc⟩

def closeBrace (w : WindowDraft) (loc : Location) : Compiler WindowDraft := do
  match w.blocks with
  | [] => fail loc .strayBrace
  | top :: rest =>
    if !top.braced then fail loc .strayBrace
    if !top.used && !(← options).allowEmptyBlocks then fail top.loc .emptyBlock
    return { w with blocks := rest, closed := [top] }.closeUnbraced

/-! ### Text -/

def atLineEnd : Compiler Bool := return (← Lexer.peekNormal).type.endsLine

def parseText : Compiler Bytes := do
  stringValue (← Lexer.read .quoted { allowNewline := true }) true

/-- The command of a title or a body, unless its condition can never hold. -/
def parseFormattedText (w : WindowDraft) (code : UInt8) : Compiler (List Command) := do
  let (condition, emits) ← activeCondition w
  let text ← parseText
  let format ← parseFormatList
  return if emits then [.formattedText code condition text format] else []

/-- A numeric argument, after a comma if `comma` is set. -/
def parseArgument (comma : Bool) : Compiler (Option Expr) := do
  if comma then let _ ← Lexer.expect .comma
  let loc ← location
  let v ← parseNumeric
  return some (← toExpr v loc)

def parsePrint (w : WindowDraft) (withFont : Bool) : Compiler WindowDraft := do
  let (condition, emits) ← activeCondition w
  let x ← parseArgument false
  let y ← parseArgument true
  let alpha ← parseArgument true
  let (red, green, blue, font) ← if withFont then do
      let red ← parseArgument true
      let green ← parseArgument true
      let blue ← parseArgument true
      let _ ← Lexer.expect .comma
      pure (red, green, blue, some (← parseWord true))
    else pure (none, none, none, none)
  let _ ← Lexer.expect .comma
  let message ← parseText
  let format ← parseFormatList
  if !emits then return w
  return { w with prints := w.prints ++
    [.print ⟨x, y, alpha, red, green, blue, font, message, condition, format⟩] }

def parseConsole (w : WindowDraft) (loc : Location) (slot : Option Bytes) : Compiler Bytes := do
  checkUnconditional w loc
  checkUnset slot loc .consoleRepeated
  warn loc .consoleDeprecated
  return (← parseText) ++ [10]

def parseNamed (w : WindowDraft) (loc : Location) (slot : Option Bytes) (repeated : Cause) :
    Compiler Bytes := do
  checkUnconditional w loc
  checkUnset slot loc repeated
  parseName

def parseNextWindow (w : WindowDraft) (loc : Location) (isReturn : Bool) :
    Compiler WindowDraft := do
  checkUnconditional w loc
  checkUnset w.nextWindow loc .nextWindowRepeated
  if isReturn then return { w with nextWindow := some (utf8 "0:0") }
  let token ← Lexer.read .raw {}
  if token.type.endsLine then fail token.loc .expectedWindowLabel
  return { w with nextWindow := some token.text }

/-! ### Switches and sub-windows -/

def maxInline : Nat := 10000

def nextInlineLabel : Compiler Label := do
  let count := (← getThe CompileState).inlineCount
  if count = maxInline then fail (← location) .tooManyInline
  modifyThe CompileState fun s => { s with inlineCount := count + 1 }
  return UInt32.ofNat (Label.inlineBase + (← readThe CompileContext).hash * maxInline + count)

/-- A switch by its label, or the statements of an inline one in braces. -/
def parseSwitchRef (w : WindowDraft) (loc : Location) (slot : Option Label) : Compiler Label := do
  checkUnconditional w loc
  checkUnset slot loc .switchRefRepeated
  let token ← Lexer.peekNormal
  if token.type ≠ .endOfLine ∧ token.type ≠ .openBrace then return ← parseLabel
  Lexer.skipLineEnds
  let _ ← Lexer.expect .openBrace
  let label ← nextInlineLabel
  let (switch, afterHash) ← compileSwitch label true
  if afterHash then fail (← location) .inlineEndedByDirective
  let _ ← Lexer.expect .closeBrace
  modifyThe CompileState fun s => { s with inline := s.inline ++ [switch] }
  return label

def parseSubWindow (w : WindowDraft) (loc : Location) : Compiler WindowDraft := do
  checkUnconditional w loc
  return { w with subWindows := w.subWindows ++ [.subWindow (← parseLabel)] }

/-! ### Flags and dimensions -/

/-- The flags of a directive, added to those set before. The flag for a window without background
follows from the directives and cannot be given. -/
def parseFlags (w : WindowDraft) (loc : Location) : Compiler WindowDraft := do
  checkUnconditional w loc
  let flags ← repeatFrom w.flags fun flags => do
    if ← atLineEnd then return .inr flags
    let token ← Lexer.expect .identifier
    match WindowFlags.ofName? token.text with
    | some flag =>
      if flag = WindowFlags.noBackground then fail token.loc .invalidFlag
      return .inl (flags ||| flag)
    | none => fail token.loc .invalidFlag
  return { w with flags := flags }

def parseDimension (w : WindowDraft) (loc : Location) (slot : Option Expr) : Compiler Expr := do
  checkUnconditional w loc
  checkUnset slot loc .dimensionRepeated
  let start ← location
  toExpr (← parseExpr) start

/-! ### Images -/

def imageFlagNames : List (Bytes × UInt32) :=
  [(utf8 "stretch", ImageFlags.stretch), (utf8 "tile", ImageFlags.tile),
   (utf8 "solid", ImageFlags.solid)]

def imageFlag? (name : Bytes) : Option UInt32 :=
  (imageFlagNames.find? (·.1 = name)).map (·.2)

def parseImageSize : Compiler (Option Expr) := do
  if (← Lexer.peekNormal).type ≠ .comma then return none
  Lexer.consume
  let loc ← location
  let v ← parseNumeric
  if let .floatVar name := v then
    if (imageFlag? name).isSome then warn loc .imageFlagAsVariable
  return some (← toExpr v loc)

/-- The flags of an image up to the end of the line, each of them once, if a comma follows. -/
def parseImageFlags : Compiler UInt32 := do
  if (← Lexer.peekNormal).type ≠ .comma then return 0
  Lexer.consume
  repeatFrom 0 fun flags => do
    let token ← Lexer.expect .identifier
    match imageFlag? token.text with
    | none => fail token.loc .unknownImageFlag
    | some flag =>
      if ImageFlags.has flags flag then fail token.loc .imageFlagRepeated
      if ← atLineEnd then return .inr (flags ||| flag)
      return .inl (flags ||| flag)

def parseImage (w : WindowDraft) : Compiler WindowDraft := do
  let (condition, emits) ← activeCondition w
  let file ← parseName
  let x ← parseArgument false
  let y ← parseArgument true
  let width ← parseImageSize
  let height ← if width.isSome then parseImageSize else pure none
  let flags ← if height.isSome then parseImageFlags else pure 0
  if !emits then return w
  return { w with images := w.images ++ [.image ⟨condition, file, ⟨x, y, width, height⟩, flags⟩] }

/-! ### Choices -/

/-- Formatting values up to the label of a choice. A number before a colon starts the label. -/
def parseChoiceArguments : Compiler (List FormatValue × Label) :=
  repeatFrom [] fun values => do
    let token ← Lexer.peek .normal { ignoreEscapes := true }
    if token.type ≠ .number then
      let v ← parseFormatValue
      let _ ← Lexer.expect .comma
      return .inl (values ++ [v])
    Lexer.consume
    if (← Lexer.peekNormal).type = .colon then
      Lexer.consume
      let low ← Lexer.expect .number
      return .inr (values, ← labelOfTokens token low)
    let v ← formatValueOfToken token
    let _ ← Lexer.expect .comma
    return .inl (values ++ [v])

def parseChoice (w : WindowDraft) : Compiler WindowDraft := do
  let (condition, emits) ← activeCondition w
  let text ← stringValue (← Lexer.read .quoted {}) false
  let (format, label) ← if (← Lexer.peekNormal).type = .comma then do
      Lexer.consume
      parseChoiceArguments
    else pure ([], ← parseLabel)
  if !emits then return w
  return { w with choices := w.choices ++ [.choice condition text format label] }

/-! ### Conversations -/

def npcName : Bytes := utf8 "_click_"

def playerName : Bytes := utf8 "playerchar0"

/-- Whether the second character stays, said at most once. -/
def parseStay : Compiler UInt32 :=
  repeatFrom none fun (stay : Option UInt32) => do
    if ← atLineEnd then return .inr (stay.getD 1)
    let token ← Lexer.expect .identifier
    if token.text ≠ utf8 "stay" ∧ token.text ≠ utf8 "nostay" then fail token.loc .talkFlag
    if stay.isSome then fail token.loc .stayRepeated
    return .inl (some (if token.text = utf8 "nostay" then 0 else 1))

def parseTalk (w : WindowDraft) (loc : Location) : Compiler WindowDraft := do
  checkUnconditional w loc
  checkUnset w.talk loc .talkRepeated
  let target ← Lexer.expect .identifier
  let (name1, name2) ←
    if target.text = utf8 "npc" then pure (npcName, playerName)
    else if target.text = utf8 "player" then pure (playerName, npcName)
    else fail target.loc .talkTarget
  let anim ← parseWord false
  let stay ← parseStay
  return { w with talk := some ⟨anim, none, name1, name2, 1, stay⟩ }

def parseStayWord : Compiler UInt32 := do
  let token ← Lexer.expect .identifier
  if token.text = utf8 "stay" then return 1
  if token.text = utf8 "nostay" then return 0
  fail token.loc .talkExFlag

def parseTalkEx (w : WindowDraft) (loc : Location) : Compiler WindowDraft := do
  checkUnconditional w loc
  checkUnset w.talk loc .talkRepeated
  let name1 ← parseWord false
  let name2 ← parseWord false
  let anim1 ← parseWord false
  let anim2 ← parseWord false
  let (stay1, stay2) ← if ← atLineEnd then pure (1, 1) else do
    let stay1 ← parseStayWord
    pure (stay1, ← parseStayWord)
  return { w with talk := some ⟨anim1, some anim2, name1, name2, stay1, stay2⟩ }

/-! ### Backgrounds -/

def hexValue? (b : UInt8) : Option Nat :=
  if Bytes.isDigit b then some (b.toNat - 48)
  else if 97 ≤ b && b ≤ 102 then some (b.toNat - 87)
  else if 65 ≤ b && b ≤ 70 then some (b.toNat - 55)
  else none

/-- The number of a colour's digits: two for each byte, the lowest byte first. -/
def colorOfDigits? : Bytes → Option Nat
  | [] => some 0
  | [_] => none
  | high :: low :: rest => do
    return 16 * (← hexValue? high) + (← hexValue? low) + 256 * (← colorOfDigits? rest)

/-- An equals sign and the eight digits of a colour. -/
def parseColor : Compiler UInt32 := do
  let _ ← Lexer.expect .assign
  let token ← Lexer.read .raw {}
  match if token.text.length = 8 then colorOfDigits? token.text else none with
  | some n => return UInt32.ofNat n
  | none => fail token.loc .colorDigits

structure Backdrop where
  name : Option Bytes := none
  corners : Corners
  stretch : Bool := false
  tile : Bool := false
  solid : Bool := false
  off : Bool := false

def parseBackdropWord (b : Backdrop) (token : Token) : Compiler Backdrop := do
  let word (s : String) : Bool := token.text = utf8 s
  if word "color1" then return { b with corners := { b.corners with first := ← parseColor } }
  if word "color2" then return { b with corners := { b.corners with second := ← parseColor } }
  if word "color3" then return { b with corners := { b.corners with third := ← parseColor } }
  if word "color4" then return { b with corners := { b.corners with fourth := ← parseColor } }
  if word "stretch" then return { b with stretch := true }
  if word "tile" then return { b with tile := true }
  if word "solid" then return { b with solid := true }
  if word "none" then return { b with off := true }
  fail token.loc .backgroundFlag

def parseBackdrop (corners : Corners) : Compiler Backdrop :=
  repeatFrom ({ corners := corners } : Backdrop) fun b => do
    let token ← Lexer.next
    let b ← match token.type with
      | .string => do
        if token.unquoted.isEmpty then fail token.loc .backgroundName
        pure { b with name := some token.unquoted }
      | .identifier => parseBackdropWord b token
      | _ => fail token.loc .expectedBackgroundFlag
    if ← atLineEnd then return .inr b
    return .inl b

/-- A background: colours, and an image when one is named or implied and not turned off. -/
def parseBackground (w : WindowDraft) : Compiler WindowDraft := do
  let (condition, emits) ← activeCondition w
  let b ← parseBackdrop w.corners
  if 1 < b.stretch.toNat + b.tile.toNat + b.off.toNat then
    fail (← location) .backgroundExclusive
  let w := { w with corners := b.corners, hasBackground := true }
  let name := b.name.orElse fun _ =>
    if b.stretch then some (utf8 "default_stretch")
    else if b.tile then some (utf8 "default_tile")
    else none
  match if emits && !b.off then name else none with
  | none => return w
  | some file =>
    let zero := some (Expr.constant .zero)
    let flags := (if b.stretch then ImageFlags.stretch else 0) |||
      (if b.tile then ImageFlags.tile else 0) ||| (if b.solid then ImageFlags.solid else 0)
    return { w with images := w.images ++
      [.image ⟨condition, file, ⟨zero, zero, none, none⟩, flags⟩] }

/-! ### Cameras -/

def parseCamText : Compiler Bytes := do
  let _ ← Lexer.expect .openParen
  let token ← Lexer.read .raw
    { ignoreEscapes := true, ignoreQuotes := true, ignoreSpace := true, stopParen := true }
  let text ← if token.type = .string then stringValue token false else pure token.text
  if text.isEmpty then fail token.loc .camStringEmpty
  let _ ← Lexer.expect .closeParen
  return text

/-- A whole number below 2^16, too large from the first digit that makes it so. -/
def camNumber : (value : Nat) → Bytes → Except Cause Nat
  | n, [] => .ok n
  | n, b :: rest =>
    if !Bytes.isDigit b then .error .camNumber
    else
      let next := 10 * n + (b.toNat - 48)
      if 0xffff < next then .error .camNumberTooLarge else camNumber next rest

/-- A number in parentheses, other than the value that stands for none. -/
def parseCamNumber : Compiler UInt16 := do
  let _ ← Lexer.expect .openParen
  let token ← Lexer.expect .number
  let _ ← Lexer.expect .closeParen
  let n := UInt16.ofNat (← located token.loc (camNumber 0 token.text))
  if n = CamParams.unset then fail token.loc .camNumberReserved
  return n

def parseCamSetting (c : Cam) (token : Token) : Compiler Cam := do
  let word (s : String) : Bool := token.text = utf8 s
  let set (p : CamParams) : Compiler Cam := return { c with params := p }
  let p := c.params
  if word "from" then return { c with source := some (← parseCamText) }
  if word "to" then return { c with target := some (← parseCamText) }
  if word "owner" then return { c with owner := some (← parseCamText) }
  if word "yaw" then return ← set { p with yaw := ← parseCamNumber }
  if word "pitch" then return ← set { p with pitch := ← parseCamNumber }
  if word "fov" then return ← set { p with fov := ← parseCamNumber }
  if word "far" then return ← set { p with far := ← parseCamNumber }
  if word "near" then return ← set { p with near := ← parseCamNumber }
  if word "fwd" then return ← set { p with fwd := ← parseCamNumber }
  if word "speed" then return ← set { p with speed := ← parseCamNumber }
  if word "lift" then return ← set { p with lift := ← parseCamNumber }
  if word "lag" then return ← set { p with lag := ← parseCamNumber }
  if word "occlude" then
    let n ← parseCamNumber
    if 1 < n then fail token.loc .camOcclude
    return ← set { p with occlude := n }
  if word "restore" then return ← set { p with restore := 1 }
  if word "zip" then return ← set { p with zip := 1 }
  fail token.loc .camParameter

/-- The name of a camera; legacy scripts take any word. -/
def parseCamName : Compiler Bytes := do
  if !(← options).legacyCam then return (← Lexer.expect .identifier).text
  let token ← Lexer.read .raw {}
  if token.text.any (· = 40) then warn token.loc .camNameLooksLikeParameter
  return token.text

def parseCam (w : WindowDraft) (loc : Location) : Compiler WindowDraft := do
  checkUnset w.cam loc .camRepeated
  checkUnconditional w loc
  let name ← parseCamName
  let cam ← repeatFrom (⟨name, none, none, none, .allUnset⟩ : Cam) fun c => do
    if ← atLineEnd then return .inr c
    return .inl (← parseCamSetting c (← Lexer.expect .identifier))
  return { w with cam := some cam }

/-! ### Directives -/

/-- A directive other than `if` and `else`, after its keyword. -/
def parseCommand (w : WindowDraft) (token : Token) : Compiler WindowDraft := do
  let word (s : String) : Bool := token.text = utf8 s
  let loc := token.loc
  if word "xpos" then
    return { w with area := { w.area with x := some (← parseDimension w loc w.area.x) } }
  if word "ypos" then
    return { w with area := { w.area with y := some (← parseDimension w loc w.area.y) } }
  if word "width" then
    return { w with area := { w.area with width := some (← parseDimension w loc w.area.width) } }
  if word "height" then
    return { w with area := { w.area with height := some (← parseDimension w loc w.area.height) } }
  if word "title" then
    return { w with titles := w.titles ++ (← parseFormattedText w CommandCode.title) }
  if word "body" then
    return { w with bodies := w.bodies ++ (← parseFormattedText w CommandCode.body) }
  if word "talk" then return ← parseTalk w loc
  if word "talk_ex" then return ← parseTalkEx w loc
  if word "image" then return ← parseImage w
  if word "flags" then return ← parseFlags w loc
  if word "subwindow" then return ← parseSubWindow w loc
  if word "choice" then return ← parseChoice w
  if word "startconsole" then
    return { w with startConsole := some (← parseConsole w loc w.startConsole) }
  if word "finishconsole" then
    return { w with finishConsole := some (← parseConsole w loc w.finishConsole) }
  if word "font" then return { w with font := some (← parseNamed w loc w.font .fontRepeated) }
  if word "style" then return { w with style := some (← parseNamed w loc w.style .styleRepeated) }
  if word "goto" || word "nextwindow" then return ← parseNextWindow w loc false
  if word "return" then return ← parseNextWindow w loc true
  if word "xyprint" then return ← parsePrint w false
  if word "xyprintfx" then return ← parsePrint w true
  if word "startswitch" then
    return { w with startSwitch := some (← parseSwitchRef w loc w.startSwitch) }
  if word "thinkswitch" then
    return { w with thinkSwitch := some (← parseSwitchRef w loc w.thinkSwitch) }
  if word "finishswitch" then
    return { w with finishSwitch := some (← parseSwitchRef w loc w.finishSwitch) }
  if word "background" then return ← parseBackground w
  if word "cam" then return ← parseCam w loc
  fail loc .unknownDirective

/-- One directive, brace or line end of a window body, after its first token. -/
def parseDirective (w : WindowDraft) (token : Token) : Compiler WindowDraft := do
  if token.type = .endOfLine then return w
  if token.type = .closeBrace then return ← closeBrace { w with closed := [] } token.loc
  if token.is (utf8 "else") then return ← openElse w token.loc
  if token.type ≠ .identifier then fail token.loc .expectedWindowDirective
  let w := { w with closed := [] }
  if token.text = utf8 "if" then return ← openIf w token.loc
  let w ← parseCommand w token
  let next ← Lexer.peekNormal
  if !next.type.endsLine then fail next.loc .trailingDirective
  return w.markUsed.closeUnbraced

/-- A window, after its directive. The second part tells that the number sign of the next directive
has been read. -/
def compileWindow : Compiler (Window × Bool) := do
  let label ← parseDefinitionLabel
  let token ← Lexer.next
  if !token.type.endsLine then
    fail token.loc (.unexpectedToken TokenType.endOfLine.name token.type)
  let (draft, afterHash) ← repeatFrom ({} : WindowDraft) fun w => do
    let token ← Lexer.peekNormal
    match token.type with
    | .hash =>
      Lexer.consume
      if ← parseDefine then return .inl w
      return .inr (w, true)
    | .endOfFile => return .inr (w, false)
    | _ =>
      Lexer.consume
      return .inl (← parseDirective w token)
  if let top :: _ := draft.blocks then fail top.loc .unterminatedIf
  return (⟨label, draft.commands⟩, afterHash)

end Compiler

end ApeScript
