import ApeScript.Compile.Diagnostic

/-!
# Scanners

How far a blank stretch, a word, a string or a number reaches. Scanners look at bytes only and
return sizes; the lexer turns sizes into tokens and places.
-/

namespace ApeScript.Scan

/-- Whether the text is between tokens, in a line comment or in a block comment. -/
inductive Gap where
  | plain
  | line
  | block
  deriving DecidableEq, Repr

/-- The size of the blanks and comments at the start of a text, counted from `size`, and where the
stretch ends. It ends before a newline outside block comments, before a token, or at the end. -/
def gapFrom (size : Nat) : Gap → Bytes → Nat × Gap
  | gap, [] => (size, gap)
  | .block, 42 :: 47 :: rest => gapFrom (size + 2) .plain rest
  | .block, _ :: rest => gapFrom (size + 1) .block rest
  | .line, b :: rest => if b = 10 then (size, .line) else gapFrom (size + 1) .line rest
  | .plain, 47 :: 47 :: rest => gapFrom (size + 2) .line rest
  | .plain, 47 :: 42 :: rest => gapFrom (size + 2) .block rest
  | .plain, b :: rest =>
    if isBlankByte b && b != 10 then gapFrom (size + 1) .plain rest else (size, .plain)

def gap (s : Bytes) : Nat × Gap := gapFrom 0 .plain s

/-- The outcome of a scan: a size, or how far it got before a cause; the cause is reported where
the token starts or where the scan stopped. -/
inductive Outcome where
  | done (size : Nat)
  | failed (size : Nat) (cause : Cause) (atStart : Bool)
  deriving DecidableEq, Repr

def rawStops (flags : ReadFlags) (b : UInt8) : Bool :=
  (b = 10 && flags.stopNewline) || (b = 41 && flags.stopParen) || (b = 44 && flags.stopComma) ||
  (b = 61 && flags.stopAssign)

/-- The rest of a raw word. A backslash takes the next byte with it, and a quote ends the word,
unless the flags say otherwise. -/
def rawFrom (flags : ReadFlags) (size : Nat) : Bytes → Outcome
  | [] => .done size
  | b :: rest =>
    if rawStops flags b then .done size
    else if b = 92 && !flags.ignoreEscapes then
      match rest with
      | [] => .failed (size + 1) .unterminatedEscape true
      | _ :: more => rawFrom flags (size + 2) more
    else if b = 34 && !flags.stopParen && !flags.ignoreQuotes then .done (size + 1)
    else if isBlankByte b && !flags.ignoreSpace then .done size
    else rawFrom flags (size + 1) rest

/-- A raw word: its first byte, whatever it is, and the bytes up to the next blank. Only a closing
parenthesis at which it has to stop makes it empty. -/
def raw (flags : ReadFlags) (s : Bytes) : Outcome :=
  match s with
  | b :: rest => if b = 41 && flags.stopParen then rawFrom flags 0 s else rawFrom flags 1 rest
  | [] => .done 0

/-- The rest of a string literal, after its opening quote. -/
def quotedFrom (flags : ReadFlags) (size : Nat) : Bytes → Outcome
  | [] => .failed size .endOfFileInString false
  | b :: rest =>
    if b = 10 && flags.stopNewline then .done size
    else if b = 10 && !flags.allowNewline then .failed size .newlineInString false
    else if b = 34 then .done (size + 1)
    else if b = 92 && !flags.ignoreEscapes then
      match rest with
      | [] => .failed (size + 1) .endOfFileInString false
      | _ :: more => quotedFrom flags (size + 2) more
    else quotedFrom flags (size + 1) rest

def quoted (flags : ReadFlags) : Bytes → Outcome
  | 34 :: rest => quotedFrom flags 1 rest
  | _ => .failed 0 .expectedQuoted true

inductive NumberStep where
  | whole | point | fraction | mark | sign | exponent
  deriving DecidableEq, Repr

def numberFrom (exponents : Bool) (step : NumberStep) (size : Nat) : Bytes → Outcome
  | [] => finish step size
  | b :: rest =>
    if Bytes.isDigit b then
      let next := match step with
        | .point => .fraction
        | .mark | .sign => .exponent
        | other => other
      numberFrom exponents next (size + 1) rest
    else if (b = 101 || b = 69) && exponents && (step = .whole || step = .fraction) then
      numberFrom exponents .mark (size + 1) rest
    else if isIdentifierByte b then .failed size .numberCharacter true
    else if b = 46 then
      if step = .whole then numberFrom exponents .point (size + 1) rest
      else .failed size .numberPoints true
    else if (b = 43 || b = 45) && step = .mark then numberFrom exponents .sign (size + 1) rest
    else finish step size
where
  /-- A number cannot end where a digit is still due. -/
  finish (step : NumberStep) (size : Nat) : Outcome :=
    match step with
    | .point | .mark | .sign => .failed size .numberEnd true
    | _ => .done size

def number (exponents : Bool) (s : Bytes) : Outcome := numberFrom exponents .whole 0 s

def identifier (s : Bytes) : Nat := (s.takeWhile isIdentifierByte).length

def single? (b : UInt8) : Option TokenType :=
  if b = 44 then some .comma
  else if b = 58 then some .colon
  else if b = 35 then some .hash
  else if b = 123 then some .openBrace
  else if b = 125 then some .closeBrace
  else if b = 40 then some .openParen
  else if b = 41 then some .closeParen
  else if b = 47 || b = 42 || b = 45 || b = 43 then some .operator
  else none

/-- The kind and the outcome of a token that is no number, identifier or string. -/
def symbol (b : UInt8) (rest : Bytes) : TokenType × Outcome :=
  match single? b with
  | some t => (t, .done 1)
  | none =>
    if b = 60 || b = 62 then (.operator, .done (if rest.head? = some 61 then 2 else 1))
    else if b = 61 then
      if rest.head? = some 61 then (.operator, .done 2) else (.assign, .done 1)
    else if b = 33 || b = 38 || b = 94 || b = 124 then
      match rest with
      | [] => (.operator, .failed 1 .endOfFileInToken true)
      | second :: _ =>
        if (b = 33 && second = 61) || (b != 33 && second = b) then (.operator, .done 2)
        else (.operator, .failed 2 .unrecognizedToken true)
    else (.operator, .failed 0 .unrecognizedToken true)

end ApeScript.Scan
