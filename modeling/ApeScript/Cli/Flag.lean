import ApeScript.Number.Integer

/-!
# Flags on the command line

Arguments that start with two dashes are flags, and one dash introduces single letters. A truth
flag takes a value only behind an equals sign; other flags take theirs there or from the next
argument. All other arguments are positional, and so is everything after a lone pair of dashes.
-/

namespace ApeScript.Cli

inductive FlagKind where
  | truth | number | text
  deriving DecidableEq, Repr

structure Flag where
  name : Bytes
  kind : FlagKind
  /-- The single letter that stands for the flag. -/
  letter : Option UInt8 := none
  deriving DecidableEq, Repr

inductive FlagValue where
  | truth (b : Bool)
  | number (n : Int)
  | text (s : Bytes)
  deriving DecidableEq, Repr

inductive ValueError where
  | truth
  | number (e : IntegerError)
  deriving DecidableEq, Repr

/-- Why arguments cannot be taken apart. -/
inductive UsageError where
  | badSyntax (argument : Bytes)
  | unknownFlag (name : Bytes)
  | unknownLetter (letter : UInt8) (letters : Bytes)
  | missingValue (argument : Bytes)
  | badValue (flag : Flag) (value : Bytes) (cause : ValueError)
  | helpRequested
  deriving DecidableEq, Repr

def ValueError.message (value : Bytes) : ValueError → Bytes
  | truth => utf8 "strconv.ParseBool: parsing " ++ Text.quoted value ++ utf8 ": " ++
      IntegerError.malformed.message
  | number e => utf8 "strconv.ParseInt: parsing " ++ Text.quoted value ++ utf8 ": " ++ e.message

def Flag.shown (f : Flag) : Bytes :=
  match f.letter with
  | some letter => utf8 "-" ++ [letter] ++ utf8 ", --" ++ f.name
  | none => utf8 "--" ++ f.name

def quotedLetter (c : Nat) : Bytes :=
  let inside :=
    if c = 39 then utf8 "\\'" else if c = 34 then utf8 "\"" else (Text.Piece.char c).quoted
  utf8 "'" ++ inside ++ utf8 "'"

def UsageError.message : UsageError → Bytes
  | badSyntax argument => utf8 "bad flag syntax: " ++ argument
  | unknownFlag name => utf8 "unknown flag: --" ++ name
  | unknownLetter letter letters => utf8 "unknown shorthand flag: " ++ quotedLetter letter.toNat ++
      utf8 " in -" ++ letters
  | missingValue argument => utf8 "flag needs an argument: " ++ argument
  | badValue flag value cause => utf8 "invalid argument " ++ Text.quoted value ++ utf8 " for " ++
      Text.quoted flag.shown ++ utf8 " flag: " ++ cause.message value
  | helpRequested => utf8 "pflag: help requested"

def truthOf? (s : Bytes) : Option Bool :=
  if [utf8 "1", utf8 "t", utf8 "T", utf8 "TRUE", utf8 "true", utf8 "True"].contains s then some true
  else if [utf8 "0", utf8 "f", utf8 "F", utf8 "FALSE", utf8 "false", utf8 "False"].contains s then
    some false
  else none

def Flag.valueOf (f : Flag) (s : Bytes) : Except UsageError FlagValue :=
  match f.kind with
  | .text => .ok (.text s)
  | .truth =>
    match truthOf? s with
    | some b => .ok (.truth b)
    | none => .error (.badValue f s .truth)
  | .number =>
    match Integer.parse s with
    | .ok n => .ok (.number n)
    | .error e => .error (.badValue f s (.number e))

structure Arguments where
  values : List (Bytes × FlagValue)
  positional : List Bytes
  deriving DecidableEq, Repr

namespace Arguments

def empty : Arguments := ⟨[], []⟩

def value? (a : Arguments) (name : Bytes) : Option FlagValue :=
  (a.values.reverse.find? (·.1 = name)).map (·.2)

def truth? (a : Arguments) (name : String) : Option Bool :=
  match a.value? (utf8 name) with
  | some (.truth b) => some b
  | _ => none

def truth (a : Arguments) (name : String) : Bool := (a.truth? name).getD false

def number (a : Arguments) (name : String) (default : Int) : Int :=
  match a.value? (utf8 name) with
  | some (.number n) => n
  | _ => default

def text (a : Arguments) (name : String) : Bytes :=
  match a.value? (utf8 name) with
  | some (.text s) => s
  | _ => []

def addValue (a : Arguments) (f : Flag) (v : FlagValue) : Arguments :=
  { a with values := a.values ++ [(f.name, v)] }

end Arguments

variable (flags : List Flag)

def findFlag? (name : Bytes) : Option Flag := flags.find? (·.name = name)

def addLetters (a : Arguments) : (fuel : Nat) → Bytes → Except UsageError Arguments
  | 0, _ => .ok a
  | _, [] => .ok a
  | fuel + 1, letter :: rest =>
    if Bytes.startsWith (utf8 "test.") (letter :: rest) then .ok a
    else
      match flags.find? (·.letter = some letter) with
      | none =>
        .error (if letter = 104 then .helpRequested else .unknownLetter letter (letter :: rest))
      | some f =>
        match rest with
        | 61 :: value :: more => do return a.addValue f (← f.valueOf (value :: more))
        | _ => addLetters (a.addValue f (.truth true)) fuel rest

inductive LongFlag where
  | withValue (flag : Flag) (value : Bytes)
  | needsValue (flag : Flag)
  deriving DecidableEq, Repr

/-- The flag that an argument with two dashes names. -/
def longFlag (argument : Bytes) : Except UsageError LongFlag :=
  let body := argument.drop 2
  if body.head? = some 45 || body.head? = some 61 then .error (.badSyntax argument)
  else
    let (name, value?) := match Bytes.cut? 61 body with
      | some (name, value) => (name, some value)
      | none => (body, none)
    match findFlag? flags name with
    | none => .error (if name = utf8 "help" then .helpRequested else .unknownFlag name)
    | some f =>
      match value? with
      | some value => .ok (.withValue f value)
      | none => .ok (if f.kind = .truth then .withValue f (utf8 "true") else .needsValue f)

/-- Takes arguments apart, adding to those already taken. -/
def parseFrom (a : Arguments) : List Bytes → Except UsageError Arguments
  | [] => .ok a
  | argument :: rest =>
    if argument = utf8 "--" then .ok { a with positional := a.positional ++ rest }
    else if Bytes.startsWith (utf8 "--") argument then
      match longFlag flags argument, rest with
      | .error e, _ => .error e
      | .ok (.withValue f value), rest =>
        match f.valueOf value with
        | .ok v => parseFrom (a.addValue f v) rest
        | .error e => .error e
      | .ok (.needsValue _), [] => .error (.missingValue argument)
      | .ok (.needsValue f), value :: rest =>
        match f.valueOf value with
        | .ok v => parseFrom (a.addValue f v) rest
        | .error e => .error e
    else if argument.head? = some 45 && 1 < argument.length then
      match addLetters flags a argument.length (argument.drop 1) with
      | .ok a => parseFrom a rest
      | .error e => .error e
    else parseFrom { a with positional := a.positional ++ [argument] } rest

def parseArguments (arguments : List Bytes) : Except UsageError Arguments :=
  parseFrom flags .empty arguments

end ApeScript.Cli
