import ApeScript.File.Basic
import ApeScript.Window.Codec

/-!
# Stored files

A file starts with two header words. Windows follow, each an id and its commands, up to a zero id;
then a marker word, and the switches, each a label and its statements, up to a zero label. Reading
also accepts a file that stops right after the marker or after a switch, and nothing may follow
the zero label.
-/

namespace ApeScript

namespace File

def magic : UInt32 := 317

def version : UInt32 := 0xffffffff

def switchMarker : UInt32 := 0xfffffffe

/-- The next window and the offset of its body, or none at the zero id. -/
def decodeWindow (fuel limit : Nat) : Decoder (Option (Nat × Window)) := do
  let id ← Decoder.u32
  if id = 0 then return none
  let offset ← Decoder.offset
  return some (offset, ⟨id, ← Window.decodeCommands fuel limit⟩)

/-- The next switch and the offset of its body, or none at the zero label or the end of the
file. -/
def decodeSwitch (fuel limit : Nat) : Decoder (Option (Nat × Switch)) := do
  if (← get).atEnd then return none
  let label ← Decoder.u32
  if label = 0 then return none
  let offset ← Decoder.offset
  return some (offset, ⟨label, ← Switch.decodeCommands fuel limit⟩)

def decodeFront (fuel limit : Nat) : Decoder (List (Nat × Window)) := do
  let first ← Decoder.u32
  let second ← Decoder.u32
  if first ≠ magic ∨ second ≠ version then Decoder.fail .header
  let windows ← Decoder.listUntilEnd (decodeWindow fuel limit) fuel
  let marker ← Decoder.u32
  if marker ≠ switchMarker then Decoder.fail .switchMarker
  return windows

/-- A whole file with the offsets of its parts; `fuel` is at least the number of bytes, and `limit`
bounds the nesting of expressions. -/
def decoder (fuel limit : Nat) : Decoder (File × Layout) := do
  let windows ← decodeFront fuel limit
  let switches ← Decoder.listUntilEnd (decodeSwitch fuel limit) fuel
  if !(← get).atEnd then Decoder.fail .trailingData
  return (⟨windows.map (·.2), switches.map (·.2)⟩, ⟨windows.map (·.1), switches.map (·.1)⟩)

def decodeWithLayout (data : Bytes) : Except DecodeError (File × Layout) :=
  match decoder (data.length + 1) Expr.maxNesting (.ofBytes data) with
  | .ok result _ => .ok result
  | .error e _ => .error e

def decode (data : Bytes) : Except DecodeError File := (decodeWithLayout data).map (·.1)

/-- The windows; a reserved id ends the walk. -/
def encodeWindows : List Window → Encoded
  | [] => .empty
  | w :: rest =>
    if w.id = 0 then .refused .windowZero
    else Encoded.u32 w.id ++ (Window.encodeCommands w.commands ++ encodeWindows rest)

/-- The switches; a reserved label ends the walk. -/
def encodeSwitches : List Switch → Encoded
  | [] => .empty
  | s :: rest =>
    if s.label = 0 then .refused .switchZero
    else Encoded.u32 s.label ++ (Switch.encodeCommands s.commands ++ encodeSwitches rest)

def encode (f : File) : Encoded :=
  Encoded.u32 magic ++ (Encoded.u32 version ++ (encodeWindows f.windows ++ (Encoded.u32 0 ++
    (Encoded.u32 switchMarker ++ (encodeSwitches f.switches ++ Encoded.u32 0)))))

end File

end ApeScript
