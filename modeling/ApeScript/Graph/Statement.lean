import ApeScript.File.References
import ApeScript.Text.Lower

/-!
# Statements of the reference graph

The reference graph has one node for each window and switch label of a game, whatever file
mentions it. A node that a loaded file defines carries the file's name; an edge says which file
makes a reference and by which command. Loading a file first forgets what an earlier load of it
contributed, then defines its windows and switches, then adds its references.
-/

namespace ApeScript.Graph

inductive NodeKind where
  | window | switch
  deriving DecidableEq, Repr

namespace NodeKind

def name : NodeKind → Bytes
  | window => utf8 "Window"
  | switch => utf8 "Switch"

def ofTarget : Target → NodeKind
  | .window => window
  | .switch => switch

def ofName? (s : Bytes) : Option NodeKind := [window, switch].find? (·.name = s)

def ofWord? (s : Bytes) : Option NodeKind :=
  [window, switch].find? fun k => Text.lower k.name = Text.lower s

end NodeKind

structure Node where
  kind : NodeKind
  label : Label
  deriving DecidableEq, Repr

/-- The node where a reference is made; label zero never names a switch. -/
def Node.ofOrigin (o : Origin) : Node :=
  if o.fromSwitch ≠ 0 then ⟨.switch, o.fromSwitch⟩ else ⟨.window, o.fromWindow⟩

inductive Statement where
  /-- Labels are unique among the nodes of a kind. -/
  | uniqueLabels (kind : NodeKind)
  /-- Deletes the references a file makes. -/
  | forgetReferences (file : Bytes)
  /-- Makes the nodes a file defines undefined. -/
  | forgetDefinitions (file : Bytes)
  /-- Marks a node as defined by a file. -/
  | define (node : Node) (file : Bytes)
  /-- Adds an edge unless it is there. -/
  | refer (source target : Node) (via file : Bytes)
  deriving DecidableEq, Repr

inductive Parameter where
  | number (n : Nat)
  | text (s : Bytes)
  deriving DecidableEq, Repr

namespace Statement

def pattern (variableName : String) (kind : NodeKind) (parameter : String) : Bytes :=
  utf8 "(" ++ utf8 variableName ++ utf8 ":" ++ kind.name ++ utf8 " \x7blabel: $" ++
    utf8 parameter ++ utf8 "\x7d)"

/-- The query text of a statement. -/
def cypher : Statement → Bytes
  | uniqueLabels kind =>
      let letter := utf8 (if kind = .window then "w" else "s")
      utf8 "CREATE CONSTRAINT IF NOT EXISTS FOR (" ++ letter ++ utf8 ":" ++ kind.name ++
        utf8 ") REQUIRE " ++ letter ++ utf8 ".label IS UNIQUE"
  | forgetReferences _ => utf8 "MATCH ()-[r:REFERS \x7bfile: $file\x7d]->() DELETE r"
  | forgetDefinitions _ => utf8 "MATCH (n \x7bfile: $file\x7d) REMOVE n.defined, n.file"
  | define node _ =>
      utf8 "MERGE " ++ pattern "n" node.kind "label" ++
        utf8 " SET n.defined = true, n.file = $file, n.name = $name"
  | refer source target _ _ =>
      utf8 "MERGE " ++ pattern "a" source.kind "from" ++ utf8 " MERGE " ++
        pattern "b" target.kind "to" ++
        utf8 " ON CREATE SET b.name = $name" ++
        utf8 " MERGE (a)-[r:REFERS \x7bvia: $via, file: $file\x7d]->(b)"

/-- The parameters of a statement; one that has none is sent without any. -/
def parameters? : Statement → Option (List (Bytes × Parameter))
  | uniqueLabels _ => none
  | forgetReferences file | forgetDefinitions file => some [(utf8 "file", .text file)]
  | define node file =>
      some [(utf8 "label", .number node.label.toNat), (utf8 "file", .text file),
        (utf8 "name", .text (Label.text node.label))]
  | refer source target via file =>
      some [(utf8 "from", .number source.label.toNat), (utf8 "to", .number target.label.toNat),
        (utf8 "name", .text (Label.text target.label)), (utf8 "via", .text via),
        (utf8 "file", .text file)]

end Statement

def schemaStatements : List Statement := [.uniqueLabels .window, .uniqueLabels .switch]

def referenceStatement (file : Bytes) (r : Reference) : Statement :=
  .refer (.ofOrigin r.origin) ⟨.ofTarget r.target, r.label⟩ r.via file

def fileStatements (file : Bytes) (f : File) : List Statement :=
  [.forgetReferences file, .forgetDefinitions file] ++
    f.windows.map (fun w => .define ⟨.window, w.id⟩ file) ++
    f.switches.map (fun s => .define ⟨.switch, s.label⟩ file) ++
    f.references.map (referenceStatement file)

/-- What a run of statements left: those that were sent, and why the last one was refused. -/
structure Run where
  sent : List (Bytes × Option (List (Bytes × Parameter)))
  refusal : Option Bytes
  deriving DecidableEq, Repr

/-- Sends statements until one is refused; `answer` gives the refusal of the statement with a
number. -/
def send (answer : Nat → Option Bytes) (statements : List Statement) : Run :=
  let sent (l : List Statement) := l.map fun s => (s.cypher, s.parameters?)
  match (List.range statements.length).find? fun n => (answer n).isSome with
  | some n => ⟨sent (statements.take (n + 1)), answer n⟩
  | none => ⟨sent statements, none⟩

inductive GraphError where
  | schema (refusal : Bytes)
  | load (file refusal : Bytes)
  | queryUnresolved (refusal : Bytes)
  | readUnresolved (refusal : Bytes)
  | queryReferrers (refusal : Bytes)
  | readReferrers (refusal : Bytes)
  | unknownKind (kind : Bytes)
  deriving DecidableEq, Repr

def GraphError.message : GraphError → Bytes
  | schema refusal => utf8 "create constraint: " ++ refusal
  | load file refusal => utf8 "load " ++ file ++ utf8 " into graph: " ++ refusal
  | queryUnresolved refusal => utf8 "query unresolved labels: " ++ refusal
  | readUnresolved refusal => utf8 "read unresolved labels: " ++ refusal
  | queryReferrers refusal => utf8 "query referrers: " ++ refusal
  | readReferrers refusal => utf8 "read referrers: " ++ refusal
  | unknownKind kind => utf8 "unknown node kind " ++ Text.quoted kind

def ensureSchema (answer : Nat → Option Bytes) : Run × Except GraphError Unit :=
  let run := send answer schemaStatements
  (run, match run.refusal with
    | some refusal => .error (.schema refusal)
    | none => .ok ())

def loadFile (answer : Nat → Option Bytes) (file : Bytes) (f : File) :
    Run × Except GraphError Unit :=
  let run := send answer (fileStatements file f)
  (run, match run.refusal with
    | some refusal => .error (.load file refusal)
    | none => .ok ())

end ApeScript.Graph
