import ApeScript.Compile.Token
import ApeScript.Text.Quoted

/-!
# Diagnostics

What can be wrong with a script, as causes. A `CompileError` is a cause at a place and stops the
compiler; a `Warning` does not, unless warnings count as errors. `message` gives the wording.
-/

namespace ApeScript

inductive Warning where
  | notNumeric
  | typeMismatch
  | quotesInValue
  | variableAsValue
  | consoleDeprecated
  | imageFlagAsVariable
  | camNameLooksLikeParameter
  deriving DecidableEq, Repr

def Warning.message : Warning → Bytes
  | notNumeric => utf8 "Expression does not evaluate to a number"
  | typeMismatch => utf8 "Expression is invalid (type mismatch, probably)"
  | quotesInValue => utf8
      "Value is a quoted string, but quotes will be parsed as part of the string in this context"
  | variableAsValue => utf8 "Value is parsed as a string, but a variable name was specified"
  | consoleDeprecated => utf8 "Console commands are deprecated"
  | imageFlagAsVariable =>
      utf8 "Image flag name was used as a parameter that accepts a float variable"
  | camNameLooksLikeParameter => utf8
      "First parameter to 'cam' is the camera name, but this is formatted as if it's a parameter"

/-- Why a script does not compile. -/
inductive Cause where
  -- tokens
  | unterminatedComment
  | unterminatedEscape
  | expectedQuoted
  | endOfFileInString
  | newlineInString
  | endOfFileInToken
  | unrecognizedToken
  | numberCharacter
  | numberPoints
  | numberEnd
  | unexpectedToken (want : Bytes) (found : TokenType)
  | stalled
  -- macros
  | macroName
  | macroRepeated (name : Bytes)
  | defineNameMissing (atEnd : Bool)
  | defineUnquoted
  | defineValueEnd (atEnd : Bool)
  -- strings and values
  | escapeAtEnd
  | unknownEscape
  | floatRange (text : Bytes)
  | floatText (text : Bytes)
  | notANumber
  | expectedExpression
  | unclosedExpression
  | negationOfString
  | invalidExpression
  | notNumeric
  | unemittable
  | tooComplex
  | divisionByZero
  | nonFinite
  | labelNotIntegral
  | labelTooLarge
  | labelZero
  | formattingValue
  | expectedName
  | expectedValue
  -- top level
  | expectedDirective
  | directiveName
  | unknownTopDirective
  -- windows
  | unterminatedIf
  | expectedWindowDirective
  | unknownDirective
  | trailingDirective
  | strayBrace
  | emptyBlock
  | conditionNotNumeric
  | elseWithoutIf
  | elseAfterElse
  | elseNotInvertible
  | insideCondition
  | consoleRepeated
  | fontRepeated
  | styleRepeated
  | nextWindowRepeated
  | expectedWindowLabel
  | switchRefRepeated
  | tooManyInline
  | inlineEndedByDirective
  | invalidFlag
  | dimensionRepeated
  | unknownImageFlag
  | imageFlagRepeated
  | talkRepeated
  | talkTarget
  | talkFlag
  | stayRepeated
  | talkExFlag
  | colorDigits
  | backgroundName
  | backgroundFlag
  | expectedBackgroundFlag
  | backgroundExclusive
  | camStringEmpty
  | camNumber
  | camNumberTooLarge
  | camNumberReserved
  | camRepeated
  | camOcclude
  | camParameter
  -- switches
  | expectedStatement
  | trailingStatement
  | unclosedBlock
  | expectedVariable
  | expectedAssigned
  | expectedGotoTarget
  | expectedExternCommand
  | notInvertible
  | emptyWhile
  | tooManyStatements
  -- warnings that count as errors
  | promoted (w : Warning)
  deriving DecidableEq, Repr

namespace Cause

def endWord (atEnd : Bool) : Bytes := utf8 (if atEnd then "EOF" else "EOL")

def message : Cause → Bytes
  | unterminatedComment => utf8 "Unterminated block comment"
  | unterminatedEscape => utf8 "Unterminated string escape"
  | expectedQuoted => utf8 "Expected quoted string"
  | endOfFileInString => utf8 "Unexpected end of file in string constant"
  | newlineInString => utf8 "Unexpected newline in string constant"
  | endOfFileInToken => utf8 "Unexpected end of file in token"
  | unrecognizedToken => utf8 "Unrecognized token"
  | numberCharacter => utf8 "Invalid character in float literal"
  | numberPoints => utf8 "Multiple decimal points in float literal"
  | numberEnd => utf8 "Unexpected character in float literal"
  | unexpectedToken want found =>
      utf8 "Expected token of type " ++ want ++ utf8 " but found " ++ found.name
  | stalled => utf8 "No progress"
  | macroName => utf8 "Expected macro name after #define"
  | macroRepeated name => utf8 "Macro '" ++ name ++ utf8 "' is already defined"
  | defineNameMissing atEnd => endWord atEnd ++ utf8 " encountered instead of #define macro name"
  | defineUnquoted => utf8 "Expected macro value to be quoted"
  | defineValueEnd atEnd => endWord atEnd ++ utf8 " encountered in #define macro contents"
  | escapeAtEnd => utf8 "Escape at end of string"
  | unknownEscape => utf8 "Unknown escape character"
  | floatRange text => utf8 "Float literal " ++ text ++ utf8 " is out of range"
  | floatText text => utf8 "Could not parse " ++ text ++ utf8 " as a float"
  | notANumber => utf8 "Expected a number"
  | expectedExpression => utf8 "Expected expression"
  | unclosedExpression => utf8 "Expected ')' to close expression"
  | negationOfString => utf8 "Expected float expression for negation operator"
  | invalidExpression => utf8 "Compiler expression was invalid"
  | notNumeric => utf8 "Expression does not evaluate to a number"
  | unemittable => utf8 "Expression was invalid and unemittable"
  | tooComplex => utf8 "Condition was too complex"
  | divisionByZero => utf8 "Float expression divides by zero"
  | nonFinite => utf8 "Float expression result was non-finite"
  | labelNotIntegral => utf8 "Label part was not an integral"
  | labelTooLarge => utf8 "Label part was too large"
  | labelZero => utf8 "Label 0 is reserved"
  | formattingValue => utf8 "Unexpected token type where a formatting value was expected"
  | expectedName => utf8 "Expected a name"
  | expectedValue => utf8 "Expected a value"
  | expectedDirective => utf8 "Expected a top-level directive"
  | directiveName => utf8 "Expected identifier for # directive"
  | unknownTopDirective => utf8 "Unknown compile directive"
  | unterminatedIf => utf8 "Unterminated 'if' block"
  | expectedWindowDirective => utf8 "Expected window directive but found something else"
  | unknownDirective => utf8 "Unknown directive"
  | trailingDirective => utf8 "Expected end of line after directive"
  | strayBrace => utf8 "Brace closes non-existent control flow block"
  | emptyBlock => utf8 "Empty condition block"
  | conditionNotNumeric => utf8 "Expression didn't evaluate to a number"
  | elseWithoutIf => utf8 "'else' without matching 'if'"
  | elseAfterElse => utf8 "'else' after 'else'"
  | elseNotInvertible => utf8 "Condition of the matching 'if' can not be inverted"
  | insideCondition => utf8 "Unconditional command inside of a condition"
  | consoleRepeated => utf8 "Console directive is already defined"
  | fontRepeated => utf8 "font command is already defined"
  | styleRepeated => utf8 "Style is already defined"
  | nextWindowRepeated => utf8 "nextwindow/goto/return is already defined"
  | expectedWindowLabel => utf8 "Expected window label"
  | switchRefRepeated => utf8 "Switch command type was specified multiple times"
  | tooManyInline => utf8 "Too many inline switches"
  | inlineEndedByDirective => utf8 "Inline switch statement ended at unexpected TLD"
  | invalidFlag => utf8 "Invalid flag"
  | dimensionRepeated => utf8 "Dimension value is already set"
  | unknownImageFlag => utf8 "Unknown image flag"
  | imageFlagRepeated => utf8 "Image flag was specified multiple times"
  | talkRepeated => utf8 "talk command already defined"
  | talkTarget => utf8 "Target must be either 'player' or 'npc'"
  | talkFlag => utf8 "Unexpected flag token"
  | stayRepeated => utf8 "'stay' or 'nostay' specified multiple times"
  | talkExFlag => utf8 "Talk flag must be 'stay' or 'nostay'"
  | colorDigits => utf8 "Expected 8-digit hex value for background color"
  | backgroundName => utf8 "Background image name was empty"
  | backgroundFlag => utf8 "Unexpected background command flag"
  | expectedBackgroundFlag => utf8 "Background flag expected"
  | backgroundExclusive => utf8
      "Background contained multiple mutually-exclusive flags (stretch, tile, none)"
  | camStringEmpty => utf8 "Cam param string was empty"
  | camNumber => utf8 "Invalid camera parameter"
  | camNumberTooLarge => utf8 "Camera parameter is too large"
  | camNumberReserved => utf8 "Camera parameter is set to a a reserved value"
  | camRepeated => utf8 "cam command already defined"
  | camOcclude => utf8 "Only 1 and 0 are allowed for 'occlude'"
  | camParameter => utf8 "Invalid cam parameter"
  | expectedStatement => utf8 "Expected switch statement"
  | trailingStatement => utf8 "Expected end of line after switch directive"
  | unclosedBlock => utf8 "Expected close brace to close switch command block"
  | expectedVariable => utf8 "Expected variable name"
  | expectedAssigned => utf8 "Expected value to assign"
  | expectedGotoTarget => utf8 "Expected goto target"
  | expectedExternCommand => utf8 "Expected extern command"
  | notInvertible => utf8
      "Conditional 'if' block with no true statements was not invertible"
  | emptyWhile => utf8 "'while' loop interior has no runnable statements"
  | tooManyStatements => utf8 "Too many statements in switch"
  | promoted w => utf8 "Warning treated as error: " ++ w.message

end Cause

structure CompileError where
  loc : Location
  cause : Cause
  deriving DecidableEq, Repr

def CompileError.message (e : CompileError) : Bytes :=
  utf8 "Error at " ++ e.loc.text ++ utf8 ": " ++ e.cause.message

inductive Severity where
  | info | warning | error
  deriving DecidableEq, Repr

namespace Severity

def all : List Severity := [info, warning, error]

def name : Severity → Bytes
  | info => utf8 "INFO" | warning => utf8 "WARN" | error => utf8 "ERROR"

def nameOfNumber (n : Nat) : Bytes :=
  ((all[n]?).map name).getD (utf8 "Severity(" ++ Bytes.ofNat n ++ utf8 ")")

end Severity

structure Diagnostic where
  severity : Severity
  loc : Location
  message : Bytes
  deriving DecidableEq, Repr

def Diagnostic.text (d : Diagnostic) : Bytes :=
  utf8 "[" ++ d.severity.name ++ utf8 "] " ++ d.loc.text ++ utf8 ": " ++ d.message

end ApeScript
