import ApeScript.Compile.Expression

/-!
# Switch bodies

The statements of a switch are parsed into a `Draft`, a tree of statements whose expressions are
still values. `simplify` drops what cannot run, and `emit` gives every statement its place.
-/

namespace ApeScript

/-- A parsed statement without the blocks it governs. -/
structure DraftStatement where
  type : StatementType
  str : Option Bytes
  format : List FormatValue
  expr : Option Value
  loc : Location
  deriving DecidableEq, Repr

/-- A sequence of parsed statements: nothing, or a statement with the block it governs, its
alternative block and what follows it. -/
inductive Draft where
  | done
  | step (head : DraftStatement) (inner alt rest : Draft)
  deriving DecidableEq, Repr, Inhabited

namespace Draft

def single (s : DraftStatement) : Draft := step s done done done

def append : Draft → Draft → Draft
  | done, d => d
  | step s inner alt rest, d => step s inner alt (rest.append d)

instance : Append Draft := ⟨append⟩

def isDone : Draft → Bool
  | done => true
  | step .. => false

/-- Where the first statement starts, or `loc` when there is none. -/
def firstLoc (loc : Location) : Draft → Location
  | done => loc
  | step s _ _ _ => s.loc

/-- An `if` after its blocks are simplified. Without statements it is dropped; with none in its
first block it is inverted. -/
def simplifyIf (s : DraftStatement) (condition : Value) (inner alt : Draft) :
    Except CompileError Draft :=
  match inner, alt with
  | done, done => .ok done
  | done, alt =>
    let inverted := condition.invert
    if inverted.isFloat then
      .ok (step ⟨.ifThen, none, [], some inverted, s.loc⟩ alt done done)
    else .error ⟨s.loc, .notInvertible⟩
  | inner, alt => .ok (step ⟨.ifThen, none, [], some condition, s.loc⟩ inner alt done)

/-- Drops statements that do nothing. When optimizing, a constant condition is replaced by the
block it selects. -/
def simplify (optimize : Bool) : Draft → Except CompileError Draft
  | done => .ok done
  | step s inner alt rest => do
    let here ← match s.type, s.expr with
      | .ifThen, some condition => do
        let folded ← if optimize then condition.fold.mapError (⟨s.loc, ·⟩) else pure condition
        let inner' ← simplify optimize inner
        let alt' ← simplify optimize alt
        match folded, optimize with
        | .const x, true => pure (if x.isZero then alt' else inner')
        | _, _ => simplifyIf s folded inner' alt'
      | .while, _ => do
        let inner' ← simplify optimize inner
        if inner'.isDone then throw ⟨s.loc, .emptyWhile⟩
        pure (step s inner' done done)
      | _, _ => pure (step s inner alt done)
    return here ++ (← simplify optimize rest)

end Draft

/-- The place one step down from a place: one for the governed block, two for the alternative and
three for the following statement. -/
def nextPlace (cc step : UInt64) (loc : Location) : Except CompileError UInt64 :=
  if cc >>> 62 ≠ 0 then .error ⟨loc, .tooManyStatements⟩ else .ok (cc <<< 2 + step)

namespace Compiler

open Lexer (Remaining)

def emit (cc : UInt64) : Draft → Compiler (List Placed)
  | .done => return []
  | .step s inner alt rest => do
    let expr ← toExpr? s.expr s.loc
    let inner' ← if inner.isDone then pure [] else do
      emit (← liftExcept (nextPlace cc 1 s.loc)) inner
    let alt' ← if alt.isDone then pure [] else do
      emit (← liftExcept (nextPlace cc 2 s.loc)) alt
    let rest' ← if rest.isDone then pure [] else do
      emit (← liftExcept (nextPlace cc 3 (rest.firstLoc s.loc))) rest
    return ⟨cc, s.type.code, s.str, s.format, expr⟩ :: (inner' ++ alt' ++ rest')
where
  /-- A failure that already has a place. -/
  liftExcept {α : Type} : Except CompileError α → Compiler α
    | .ok a => pure a
    | .error e => throw e

/-- The statements of a switch; a switch that does nothing has one statement that says so. -/
def emitAll (d : Draft) : Compiler (List Placed) := do
  match d.simplify (← options).optimize with
  | .error e => throw e
  | .ok .done => return [⟨1, StatementType.noOp.code, none, [], none⟩]
  | .ok d => emit 1 d

/-! ### Simple statements -/

/-- Statements whose argument is an optional bare word. -/
def wordStatements : List (Bytes × StatementType) :=
  [(utf8 "target", .target), (utf8 "pathtarget", .pathTarget),
   (utf8 "playambient", .playAmbient), (utf8 "loopambient", .loopAmbient),
   (utf8 "stopambient", .stopAmbient), (utf8 "playscene", .playScene),
   (utf8 "loopscene", .loopScene), (utf8 "stopscene", .stopScene),
   (utf8 "chainscripts", .chainScripts)]

def quotedStatements : List (Bytes × StatementType) :=
  [(utf8 "console", .console), (utf8 "echo", .echo), (utf8 "loadape", .loadApe),
   (utf8 "setfocus", .setFocus)]

def isTrailingBlank (b : UInt8) : Bool := b = 32 || b = 9

def trimRight (s : Bytes) : Bytes := (s.reverse.dropWhile isTrailingBlank).reverse

def isStringName (name : Bytes) : Bool := name.getLast? = some 36

def wordFlags : ReadFlags :=
  { stopComma := true, ignoreSpace := true, stopNewline := true, ignoreEscapes := true,
    ignoreQuotes := true }

def parseOptionalWord (type : StatementType) (loc : Location) : Compiler Draft := do
  let token ← Lexer.peek .raw wordFlags
  if token.type.endsLine then return .single ⟨type, none, [], none, loc⟩
  Lexer.consume
  let text := if token.type = .string then token.unquoted else token.text
  return .single ⟨type, some (trimRight text), ← parseFormatList, none, loc⟩

def parseQuotedStatement (type : StatementType) (loc : Location) : Compiler Draft := do
  let text ← stringValue (← Lexer.read .quoted {}) false
  return .single ⟨type, some text, ← parseFormatList, none, loc⟩

def parseRestOfLine (missing : Cause) : Compiler Bytes := do
  let token ← Lexer.read .raw
    { stopNewline := true, ignoreSpace := true, ignoreEscapes := true, ignoreQuotes := true }
  if token.type.endsLine then fail token.loc missing
  return token.text

def parseLabeled (type : StatementType) (loc : Location) : Compiler Draft := do
  return .single ⟨type, some (Label.text (← parseLabel)), [], none, loc⟩

def parseGoto (loc : Location) : Compiler Draft := do
  if (← options).legacyLabeledCommands then
    return .single ⟨.goto, some (← parseRestOfLine .expectedGotoTarget), [], none, loc⟩
  parseLabeled .goto loc

def parseDestination : Compiler Token := do
  if !(← options).legacySetNaming then return ← Lexer.expect .identifier
  let token ← Lexer.read .raw { stopAssign := true, ignoreEscapes := true, ignoreQuotes := true }
  let name := Text.trim token.text
  if token.type.endsLine || name.isEmpty then fail token.loc .expectedVariable
  return { token with text := name }

/-- The right side of an assignment to a string variable; a literal keeps its quotes. -/
def parseAssigned : Compiler Bytes := do
  if Lexer.nextIsQuote (← getThe CompileState).lexer then
    let text ← stringValue (← Lexer.read .quoted {}) false
    return 34 :: (text ++ [34])
  let token ← Lexer.read .raw { ignoreEscapes := true, ignoreQuotes := true, stopComma := true }
  if token.type.endsLine then fail token.loc .expectedAssigned
  return trimRight token.text

def parseSet (dest : Token) : Compiler Draft := do
  if dest.type ≠ .identifier ∧ dest.type ≠ .raw then fail dest.loc .expectedVariable
  let _ ← Lexer.expect .assign
  if isStringName dest.text then
    let assigned ← parseAssigned
    let format ← parseFormatList
    return .single ⟨.setString, some (dest.text ++ 61 :: assigned), format, none, dest.loc⟩
  let v ← parseExpr
  return .single ⟨.setFloat, some dest.text, ← parseFormatList, some v, dest.loc⟩

def unset (dest : Token) : Draft :=
  .single ⟨if isStringName dest.text then .setString else .setFloat, some dest.text, [], none,
    dest.loc⟩

/-- A statement that governs no other. -/
def parseSimple (token : Token) : Compiler Draft := do
  match wordStatements.find? (·.1 = token.text), quotedStatements.find? (·.1 = token.text) with
  | some (_, type), _ => parseOptionalWord type token.loc
  | _, some (_, type) => parseQuotedStatement type token.loc
  | _, _ =>
    if token.text = utf8 "set" then parseSet (← parseDestination)
    else if token.text = utf8 "unset" then return unset (← parseDestination)
    else if token.text = utf8 "goto" then parseGoto token.loc
    else if token.text = utf8 "return" then
      return .single ⟨.goto, some (utf8 "0:0"), [], none, token.loc⟩
    else if token.text = utf8 "gosub" then parseLabeled .goSub token.loc
    else if token.text = utf8 "closewindow" then parseLabeled .closeWindow token.loc
    else if token.text = utf8 "extern" then
      return .single ⟨.externCall, some (← parseRestOfLine .expectedExternCommand), [], none,
        token.loc⟩
    else parseSet token

/-! ### Nested statements -/

def parseCondition : Compiler Value := do
  let _ ← Lexer.expect .openParen
  let v ← parseNumeric
  let _ ← Lexer.expect .closeParen
  return v

/-- Checks that a statement ends its line; an `else` may follow the first block of an `if`. -/
def checkStatementEnd (elseMayFollow : Bool) : Compiler Unit := do
  let next ← Lexer.peekNormal
  if !(next.type.endsLine || next.type = .closeBrace ||
      (elseMayFollow && next.is (utf8 "else"))) then
    fail next.loc .trailingStatement

mutual

def parseStatement (bound : Remaining) (token : Token) (elseMayFollow : Bool) :
    Compiler Draft := do
  if token.type ≠ .identifier then fail token.loc .expectedStatement
  if token.text = utf8 "if" then
    let (d, needsCheck) ← parseIf bound token.loc
    if needsCheck then checkStatementEnd elseMayFollow
    return d
  let d ← if token.text = utf8 "while" then parseWhile bound token.loc else parseSimple token
  checkStatementEnd elseMayFollow
  return d
termination_by (bound.unread, bound.queued, 1)
decreasing_by
  all_goals exact Prod.Lex.right _ (Prod.Lex.right _ (by omega))

/-- An `if`, and whether its end still has to be checked: not when a line ended after its first
block and no `else` follows. -/
def parseIf (bound : Remaining) (loc : Location) : Compiler (Draft × Bool) := do
  let condition ← parseCondition
  let now ← remaining
  if _less : now.Less bound then
    let inner ← parseBody now true
    let lineEnded := (← Lexer.peekNormal).type = .endOfLine
    Lexer.skipLineEnds
    let head : DraftStatement := ⟨.ifThen, none, [], some condition, loc⟩
    if !(← Lexer.peekNormal).is (utf8 "else") then
      return (.step head inner .done .done, !lineEnded)
    Lexer.consume
    let later ← remaining
    if _less' : later.Less bound then
      let alt ← parseBody later false
      return (.step head inner alt .done, true)
    else fail loc .stalled
  else fail loc .stalled
termination_by (bound.unread, bound.queued, 0)
decreasing_by
  · exact Remaining.lex_of_less _less _ _
  · exact Remaining.lex_of_less _less' _ _

def parseWhile (bound : Remaining) (loc : Location) : Compiler Draft := do
  let condition ← parseCondition
  let now ← remaining
  if _less : now.Less bound then
    let inner ← parseBody now false
    return .step ⟨.while, none, [], some condition, loc⟩ inner .done .done
  else fail loc .stalled
termination_by (bound.unread, bound.queued, 0)
decreasing_by exact Remaining.lex_of_less _less _ _

/-- The statement or the block in braces that an `if`, an `else` or a `while` governs. -/
def parseBody (bound : Remaining) (elseMayFollow : Bool) : Compiler Draft := do
  Lexer.skipLineEnds
  let token ← Lexer.next
  if token.type = .openBrace then parseBlock bound token.loc true
  else parseStatement bound token elseMayFollow
termination_by (bound.unread, bound.queued, 3)
decreasing_by
  all_goals exact Prod.Lex.right _ (Prod.Lex.right _ (by omega))

/-- The statements up to a closing brace; `isEmpty` tells that there were none before. -/
def parseBlock (bound : Remaining) (opened : Location) (isEmpty : Bool) : Compiler Draft := do
  let token ← Lexer.peekNormal
  match token.type with
  | .closeBrace =>
    Lexer.consume
    if isEmpty && !(← options).allowEmptyBlocks then fail opened .emptyBlock
    return .done
  | .endOfFile => fail opened .unclosedBlock
  | .endOfLine =>
    Lexer.consume
    let now ← remaining
    if _less : now.Less bound then parseBlock now opened isEmpty else fail opened .stalled
  | _ =>
    let first ← Lexer.expect .identifier
    let d ← parseStatement bound first false
    let now ← remaining
    if _less : now.Less bound then return d ++ (← parseBlock now opened false)
    else fail opened .stalled
termination_by (bound.unread, bound.queued, 2)
decreasing_by
  · exact Remaining.lex_of_less _less _ _
  · exact Prod.Lex.right _ (Prod.Lex.right _ (by omega))
  · exact Remaining.lex_of_less _less _ _

end

/-- The statements of a switch, up to the next directive, or up to the closing brace of an inline
block. The second part tells that the number sign of the next directive has been read. -/
def compileSwitch (label : Label) (inline : Bool) : Compiler (Switch × Bool) := do
  let loc ← location
  let (draft, afterHash) ← repeatFrom Draft.done fun d => do
    let token ← Lexer.peekNormal
    match token.type with
    | .hash =>
      Lexer.consume
      if ← parseDefine then return .inl d
      return .inr (d, true)
    | .endOfFile =>
      if inline then fail loc .unclosedBlock
      return .inr (d, false)
    | .endOfLine =>
      Lexer.consume
      return .inl d
    | type =>
      if type = .closeBrace ∧ inline then return .inr (d, false)
      let bound ← remaining
      let first ← Lexer.expect .identifier
      return .inl (d ++ (← parseStatement bound first false))
  return (⟨label, ← emitAll draft⟩, afterHash)

end Compiler

end ApeScript
