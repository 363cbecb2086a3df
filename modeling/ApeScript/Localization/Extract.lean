import ApeScript.Charset.Basic
import ApeScript.File.Codec
import ApeScript.File.Validation
import ApeScript.FileTree
import ApeScript.Text.Excerpt
import ApeScript.Text.Lines
import ApeScript.Localization.Directive
import ApeScript.Localization.Table

/-!
# Texts found in files

An `Extract` is a text a player can read, with the place where it was found: a command of a window
in a compiled file, or a line of a script. `RebuildError` says why a file cannot be put together
again with translated texts.
-/

namespace ApeScript.Localization

inductive Slot where
  | title | body | choice | print
  deriving DecidableEq, Repr

def Slot.name : Slot → Bytes
  | title => utf8 "Title"
  | body => utf8 "Body"
  | choice => utf8 "Choice"
  | print => utf8 "XYPrint"

/-- Where a text was found. Lines count from one; a column is the number of bytes before the
opening quote. -/
inductive Place where
  | command (window : Label) (slot : Slot) (index : Nat)
  | line (number column : Nat) (directive : Bytes)
  deriving DecidableEq, Repr

namespace Place

def key : Place → Bytes
  | command window slot index =>
      Label.text window ++ utf8 "/" ++ slot.name ++ utf8 "#" ++ Bytes.ofNat index
  | line number _ _ => utf8 "line " ++ Bytes.ofNat number

def lineNumber : Place → Nat
  | command .. => 0
  | line number _ _ => number

def column : Place → Nat
  | command _ _ index => index
  | line _ column _ => column

def context : Place → List (Bytes × Bytes)
  | command window slot _ => [(utf8 "window", Label.text window), (utf8 "field", slot.name)]
  | line _ _ directive => [(utf8 "directive", directive)]

end Place

structure Extract where
  text : Bytes
  file : Bytes
  place : Place
  deriving DecidableEq, Repr

def Extract.row (e : Extract) (shownFile : Bytes) : Row := ⟨shownFile, e.place.key, e.text⟩

/-- Why a file cannot be read for its texts. -/
inductive ExtractError where
  | compiledFile (e : PathError)
  | scriptFile (e : PathError)
  | decode (file : Bytes) (e : DecodeError)
  | overlongLine
  deriving DecidableEq, Repr

def ExtractError.message : ExtractError → Bytes
  | compiledFile e => utf8 "read ape file: " ++ e.message
  | scriptFile e => utf8 "read script: " ++ e.message
  | decode file e => utf8 "decode " ++ file ++ utf8 ": " ++ e.message
  | overlongLine => utf8 "scan script: " ++ Text.Lines.overlongMessage

/-- Why a file cannot be put together with translated texts. `place` names the text at fault;
`shortLine` is a fault of the caller, who changed a line so that it ends before the text. -/
inductive RebuildError where
  | decode (file : Bytes) (e : DecodeError)
  | mismatch (place : Bytes) (m : Mismatch)
  | unencodable (place : Bytes) (e : CharsetError)
  | changedLine (place : Bytes)
  | shortLine (column length : Nat)
  | refused (e : EncodeError)
  | halted
  deriving DecidableEq, Repr

def RebuildError.message : RebuildError → Bytes
  | decode file e => utf8 "decode " ++ file ++ utf8 ": " ++ e.message
  | mismatch place m => place ++ utf8 ": " ++ m.message
  | unencodable place e => place ++ utf8 ": " ++ e.message
  | changedLine place => place ++ utf8 " changed since it was parsed"
  | shortLine column length => utf8 "runtime error: slice bounds out of range [" ++
      Bytes.ofNat column ++ utf8 ":" ++ Bytes.ofNat length ++ utf8 "]"
  | refused e => e.message
  | halted => haltedMessage

/-- The stored form of a localized text, once its directives agree with the source. -/
def storedText (charset : Charset) (place source translated : Bytes) :
    Except RebuildError Bytes :=
  match verify source translated with
  | .error m => .error (.mismatch place m)
  | .ok () => (charset.encode translated).mapError (.unencodable place)

end ApeScript.Localization
