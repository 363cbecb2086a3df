import ApeScript.File.Basic

/-!
# References between windows and switches

`File.references` lists every label a file mentions, in file order: start, think and finish
commands name switches; choices, sub-windows, next-window commands and the gotos of switches name
windows. `File.checkReferences` resolves them within the file. Windows are shared between files,
so a window that is not in the file is external rather than missing.
-/

namespace ApeScript

inductive Target where
  | switch | window
  deriving DecidableEq, Repr

def Target.name : Target → Bytes
  | .switch => utf8 "switch"
  | .window => utf8 "window"

inductive Origin where
  | window (id : Label)
  | switch (label : Label)
  deriving DecidableEq, Repr

namespace Origin

def fromWindow : Origin → Label
  | window id => id
  | switch _ => 0

def fromSwitch : Origin → Label
  | window _ => 0
  | switch label => label

/-- The origin in words; label zero never names a switch. -/
def text (o : Origin) : Bytes :=
  if o.fromSwitch ≠ 0 then utf8 "switch " ++ Label.text o.fromSwitch
  else utf8 "window " ++ Label.text o.fromWindow

end Origin

/-- A label mentioned by a command of a window or a statement of a switch. -/
structure Reference where
  origin : Origin
  via : Bytes
  target : Target
  label : Label
  deriving DecidableEq, Repr

namespace Command

def reference? : Command → Option (Target × Label)
  | switchRef _ label => some (.switch, label)
  | choice _ _ _ label => some (.window, label)
  | subWindow label => some (.window, label)
  | simpleText code text =>
      if code = CommandCode.nextWindow then
        (Label.parse text).toOption.map fun label => (.window, label)
      else none
  | _ => none

end Command

namespace Statement

/-- The window a goto leads to; label zero is the return target and names none. -/
def reference? (s : Statement) : Option Label :=
  if s.type = StatementType.goto.code ∨ s.type = StatementType.goSub.code then do
    let label ← (Label.parse (← s.str)).toOption
    if label = 0 then none else some label
  else none

end Statement

def repeats (labels : List Label) : List Label :=
  go [] labels
where
  /-- Reports each entry already among `seen`. -/
  go (seen : List Label) : List Label → List Label
    | [] => []
    | l :: rest => if seen.contains l then l :: go seen rest else go (l :: seen) rest

def sortedDistinct (labels : List Label) : List Label :=
  (labels.mergeSort (· ≤ ·)).foldr
    (fun l rest => if rest.head? = some l then rest else l :: rest) []

/-- The references of a file that do not resolve within it, and the labels that stand out. -/
structure ReferenceReport where
  missingSwitches : List Reference
  externalWindows : List Reference
  unusedSwitches : List Label
  duplicateWindows : List Label
  duplicateSwitches : List Label
  deriving DecidableEq, Repr

namespace File

def windowReferences (w : Window) : List Reference :=
  w.commands.filterMap fun c =>
    c.reference?.map fun (target, label) => ⟨.window w.id, CommandCode.name c.code, target, label⟩

def switchReferences (s : Switch) : List Reference :=
  s.commands.filterMap fun p =>
    p.statement.reference?.map fun label =>
      ⟨.switch s.label, StatementType.nameOfCode p.statement.type, .window, label⟩

def references (f : File) : List Reference :=
  f.windows.flatMap windowReferences ++ f.switches.flatMap switchReferences

def checkReferences (f : File) : ReferenceReport :=
  let windows := f.windows.map (·.id)
  let switches := f.switches.map (·.label)
  let references := f.references
  let used := (references.filter (·.target = .switch)).map (·.label)
  { missingSwitches := references.filter fun r => r.target = .switch && !switches.contains r.label
    externalWindows := references.filter fun r => r.target = .window && !windows.contains r.label
    unusedSwitches := sortedDistinct (switches.filter fun l => !used.contains l)
    duplicateWindows := repeats windows
    duplicateSwitches := repeats switches }

end File

namespace ReferenceReport

def referenceLine (what : Bytes) (r : Reference) : Bytes :=
  what ++ utf8 " " ++ Label.text r.label ++ utf8 " (" ++ r.via ++ utf8 " from " ++ r.origin.text
    ++ utf8 ")\n"

def labelLine (what : Bytes) (l : Label) : Bytes := what ++ utf8 " " ++ Label.text l ++ utf8 "\n"

def text (r : ReferenceReport) : Bytes :=
  r.missingSwitches.flatMap (referenceLine (utf8 "missing switch")) ++
  r.duplicateWindows.flatMap (labelLine (utf8 "duplicate window")) ++
  r.duplicateSwitches.flatMap (labelLine (utf8 "duplicate switch")) ++
  r.externalWindows.flatMap (referenceLine (utf8 "external window")) ++
  r.unusedSwitches.flatMap (labelLine (utf8 "unused switch"))

def problems (r : ReferenceReport) : Nat :=
  r.missingSwitches.length + r.duplicateWindows.length + r.duplicateSwitches.length

end ReferenceReport

end ApeScript
