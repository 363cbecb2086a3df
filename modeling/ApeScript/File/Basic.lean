import ApeScript.Switch.Basic
import ApeScript.Window.Basic

/-!
# Files

A file is a list of windows followed by a list of switches.
-/

namespace ApeScript

structure File where
  windows : List Window
  switches : List Switch
  deriving DecidableEq, Repr

/-- Where the body of each window and switch starts: just after its id or label. -/
structure Layout where
  windows : List Nat
  switches : List Nat
  deriving DecidableEq, Repr

def File.switch? (f : File) (label : Label) : Option Switch :=
  f.switches.find? (·.label = label)

end ApeScript
