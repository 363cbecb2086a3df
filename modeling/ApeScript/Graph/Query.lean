import ApeScript.Graph.Statement

/-!
# Questions to the reference graph

Which labels are referred to but defined by no loaded file, and which windows and switches refer
to a label. Rows of an answer hold values of any type; a text is made of whatever stands where a
name should, and a label that is no number counts as zero.
-/

namespace ApeScript.Graph

inductive Value where
  | null
  | bool (b : Bool)
  | number (n : Int)
  | text (s : Bytes)
  | list (items : List Value)
  deriving Repr, Inhabited

namespace Value

mutual

def shown : Value → Bytes
  | null => utf8 "<nil>"
  | bool b => utf8 (if b then "true" else "false")
  | number n => Bytes.ofInt n
  | text s => s
  | list items => utf8 "[" ++ shownItems items ++ utf8 "]"

def shownItems : List Value → Bytes
  | [] => []
  | [item] => shown item
  | item :: rest => shown item ++ utf8 " " ++ shownItems rest

end

def label : Value → Label
  | number n => UInt32.ofInt n
  | _ => 0

end Value

abbrev Record := List (Bytes × Value)

def Record.get (r : Record) (column : String) : Value :=
  ((r.find? (·.1 = utf8 column)).map (·.2)).getD .null

/-- What the database answers to a query: a refusal, or rows and the error that ended them. -/
structure Answer where
  refusal : Option Bytes
  rows : List Record
  readError : Option Bytes

structure Unresolved where
  kind : Bytes
  label : Label
  files : List Bytes
  deriving DecidableEq, Repr

structure Referrer where
  kind : Bytes
  label : Label
  via : Bytes
  file : Bytes
  deriving DecidableEq, Repr

def unresolvedQuery : Bytes :=
  utf8 "MATCH (src)-[r:REFERS]->(n) WHERE (n:Window OR n:Switch) AND n.defined IS NULL " ++
    utf8 "RETURN labels(n)[0] AS kind, n.label AS label, collect(DISTINCT r.file) AS files " ++
    utf8 "ORDER BY kind, label"

def referrersQuery (kind : NodeKind) : Bytes :=
  utf8 "MATCH (src)-[r:REFERS]->" ++ Statement.pattern "n" kind "label" ++
    utf8 " RETURN labels(src)[0] AS kind, src.label AS label, r.via AS via, r.file AS file " ++
    utf8 "ORDER BY file, label"

def Unresolved.ofRecord (r : Record) : Unresolved :=
  let files := match r.get "files" with
    | .list items => items.map Value.shown
    | _ => []
  ⟨(r.get "kind").shown, (r.get "label").label, files⟩

def Referrer.ofRecord (r : Record) : Referrer :=
  ⟨(r.get "kind").shown, (r.get "label").label, (r.get "via").shown, (r.get "file").shown⟩

/-- The query that was sent, and the labels that no loaded file defines. -/
def unresolved (answer : Answer) : Run × Except GraphError (List Unresolved) :=
  (⟨[(unresolvedQuery, none)], answer.refusal⟩,
    match answer.refusal, answer.readError with
    | some refusal, _ => .error (.queryUnresolved refusal)
    | none, some e => .error (.readUnresolved e)
    | none, none => .ok (answer.rows.map Unresolved.ofRecord))

/-- The query that was sent, and what refers to a label. An unknown kind sends none. -/
def referrers (answer : Answer) (kind : Bytes) (label : Label) :
    Run × Except GraphError (List Referrer) :=
  match NodeKind.ofName? kind with
  | none => (⟨[], none⟩, .error (.unknownKind kind))
  | some k =>
    (⟨[(referrersQuery k, some [(utf8 "label", .number label.toNat)])], answer.refusal⟩,
      match answer.refusal, answer.readError with
      | some refusal, _ => .error (.queryReferrers refusal)
      | none, some e => .error (.readReferrers e)
      | none, none => .ok (answer.rows.map Referrer.ofRecord))

def kindOfWord (s : Bytes) : Except Bytes NodeKind :=
  match NodeKind.ofWord? s with
  | some k => .ok k
  | none => .error (utf8 "kind must be window or switch, got " ++ Text.quoted s)

end ApeScript.Graph
