import ApeScript.Compile.Scan

/-!
# Lexer

The lexer reads tokens on demand, because how a token reads depends on what the grammar expects.
Tokens that were looked at, or that a macro stands for, wait in a queue and are returned as they
are by the next read. A failing read leaves the lexer where the scan stopped.
-/

namespace ApeScript

structure Cursor where
  rest : Bytes
  unread : Nat
  loc : Location
  deriving DecidableEq, Repr

def Cursor.advance (c : Cursor) (size : Nat) : Cursor :=
  ⟨c.rest.drop size, c.unread - size, c.loc.advance (c.rest.take size)⟩

structure Lexer where
  cursor : Cursor
  exponents : Bool
  queue : List Token
  macros : List (Bytes × List Token)
  deriving DecidableEq, Repr

abbrev Lex := EStateM CompileError Lexer

namespace Lexer

def ofSource (src file : Bytes) (exponents : Bool) : Lexer :=
  ⟨⟨src, src.length, .start file⟩, exponents, [], []⟩

def body? (l : Lexer) (name : Bytes) : Option (List Token) :=
  (l.macros.find? (·.1 = name)).map (·.2)

def advance (size : Nat) : Lex Unit := modify fun l => { l with cursor := l.cursor.advance size }

def fail {α : Type} (loc : Location) (cause : Cause) : Lex α := throw ⟨loc, cause⟩

def location : Lex Location := return (← get).cursor.loc

/-- Reads the token that a scan found at the cursor. -/
def take (type : TokenType) (outcome : Scan.Outcome) : Lex Token := do
  let start := (← get).cursor
  match outcome with
  | .done size =>
    advance size
    return ⟨type, start.rest.take size, start.loc⟩
  | .failed size cause atStart =>
    advance size
    if atStart then fail start.loc cause else fail (← location) cause

/-- A raw word, or the token of a macro of that name whose body is one token. -/
def lexRaw (flags : ReadFlags) : Lex Token := do
  let token ← take .raw (Scan.raw flags (← get).cursor.rest)
  if flags.noMacros then return token
  match (← get).body? token.text with
  | some [only] => return { only with loc := token.loc }
  | _ => return token

def lexQuoted (flags : ReadFlags) : Lex Token := do
  take .string (Scan.quoted flags (← get).cursor.rest)

/-- A token of the grammar, and the body of the macro it names. -/
def lexNormal (flags : ReadFlags) : Lex (Token × Option (List Token)) := do
  let l ← get
  match l.cursor.rest with
  | [] => return (⟨.endOfFile, [], l.cursor.loc⟩, none)
  | b :: rest =>
    if Bytes.isDigit b then
      return (← take .number (Scan.number l.exponents (b :: rest)), none)
    else if isIdentifierByte b then
      let token ← take .identifier (.done (Scan.identifier (b :: rest)))
      return (token, if flags.noMacros then none else l.body? token.text)
    else if b = 34 then return (← lexQuoted flags, none)
    else
      let (type, outcome) := Scan.symbol b rest
      return (← take type outcome, none)

/-- Skips blanks and comments and reads one token from the text. A macro puts the tokens it stands
for in its place; an empty one is passed over, which each time uses up bytes and fuel. -/
def lexWithin (mode : ReadMode) (flags : ReadFlags) : (fuel : Nat) → Lex Token
  | 0 => return ⟨.endOfFile, [], ← location⟩
  | fuel + 1 => do
    let (size, gap) := Scan.gap (← get).cursor.rest
    advance size
    let l ← get
    match l.cursor.rest with
    | [] =>
      if gap = .block then fail l.cursor.loc .unterminatedComment
      return ⟨.endOfFile, [], l.cursor.loc⟩
    | 10 :: _ => take .endOfLine (.done 1)
    | _ =>
      match mode with
      | .raw => lexRaw flags
      | .quoted => lexQuoted flags
      | .normal =>
        let (token, body) ← lexNormal flags
        match body with
        | none => return token
        | some [] => lexWithin .normal flags fuel
        | some (first :: more) =>
          let placed (t : Token) : Token := { t with loc := token.loc }
          modify fun l => { l with queue := l.queue ++ more.map placed }
          return placed first

def lex (mode : ReadMode) (flags : ReadFlags) : Lex Token := do
  lexWithin mode flags ((← get).cursor.unread + 1)

def read (mode : ReadMode) (flags : ReadFlags) : Lex Token := do
  match (← get).queue with
  | token :: rest =>
    modify fun l => { l with queue := rest }
    return token
  | [] => lex mode flags

/-- The next token, which the next read returns again. -/
def peek (mode : ReadMode) (flags : ReadFlags) : Lex Token := do
  match (← get).queue with
  | token :: _ => return token
  | [] =>
    let token ← lex mode flags
    modify fun l => { l with queue := token :: l.queue }
    return token

def consume : Lex Unit := modify fun l => { l with queue := l.queue.drop 1 }

def next : Lex Token := read .normal {}

def peekNormal : Lex Token := peek .normal {}

/-- The next token, which must satisfy `accept`; `want` names what was expected. -/
def expectNamed (want : Bytes) (accept : TokenType → Bool) : Lex Token := do
  let token ← next
  if accept token.type then return token
  fail token.loc (.unexpectedToken want token.type)

def expect (type : TokenType) : Lex Token := expectNamed type.name (· = type)

/-- Whether the next token starts with a double quote. Nothing is read, and a comment counts as no
quote. -/
def nextIsQuote (l : Lexer) : Bool :=
  match l.queue with
  | token :: _ => token.type = .string
  | [] => (l.cursor.rest.dropWhile fun b => isBlankByte b && b != 10).head? = some 34

/-! ### Loops

Every token taken from the lexer, the end of the file aside, makes the unread text shorter, or
leaves it and makes the queue shorter. The end of the file can be read again and again, so it does
not count while it waits. Loops and recursive readers end because they go on only while this pair
decreases. -/

/-- What is left to read: unread bytes, then tokens waiting other than the end of the file. -/
structure Remaining where
  unread : Nat
  queued : Nat
  deriving DecidableEq, Repr

def remaining (l : Lexer) : Remaining :=
  ⟨l.cursor.unread, l.queue.countP (·.type ≠ .endOfFile)⟩

namespace Remaining

def Less (a b : Remaining) : Prop :=
  a.unread < b.unread ∨ (a.unread = b.unread ∧ a.queued < b.queued)

instance (a b : Remaining) : Decidable (Less a b) := inferInstanceAs (Decidable (_ ∨ _))

/-- The decrease as an order of pairs, with a rank that settles calls at the same place. -/
theorem lex_of_less {a b : Remaining} (h : Less a b) (i j : Nat) :
    Prod.Lex (· < ·) (Prod.Lex (· < ·) (· < ·)) (a.unread, a.queued, i)
      (b.unread, b.queued, j) := by
  rcases h with h | ⟨h, h'⟩
  · exact Prod.Lex.left _ _ h
  · rw [h]
    exact Prod.Lex.right _ (Prod.Lex.left _ _ h')

end Remaining

def skipLineEndsWithin (bound : Remaining) : Lex Unit := do
  let token ← peekNormal
  if token.type = .endOfLine then
    consume
    let now := (← get).remaining
    if _less : now.Less bound then skipLineEndsWithin now else fail token.loc .stalled
termination_by (bound.unread, bound.queued, 0)
decreasing_by exact Remaining.lex_of_less _less 0 0

def skipLineEnds : Lex Unit := do skipLineEndsWithin (← get).remaining

/-- The tokens up to the end of the line, which is left unread. -/
def macroBodyWithin (bound : Remaining) : Lex (List Token) := do
  let token ← peek .normal { allowNewline := true }
  if token.type.endsLine then return []
  consume
  let now := (← get).remaining
  if _less : now.Less bound then return token :: (← macroBodyWithin now)
  else fail token.loc .stalled
termination_by (bound.unread, bound.queued, 0)
decreasing_by exact Remaining.lex_of_less _less 0 0

/-- Reads a macro's name and body. Macros named in the body are replaced as it is read. -/
def defineMacro : Lex Unit := do
  let name ← read .normal { noMacros := true }
  if name.type ≠ .identifier then fail name.loc .macroName
  if ((← get).body? name.text).isSome then fail name.loc (.macroRepeated name.text)
  let body ← macroBodyWithin (← get).remaining
  modify fun l => { l with macros := l.macros ++ [(name.text, body)] }

end Lexer

end ApeScript
