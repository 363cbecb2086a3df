import ApeScript.Number.Integer

/-!
# Settings

What commands take from the environment: where the databases are, how many files to work on at
once, and the code page of game text. A variable that is empty counts as not set, and a number of
workers that is not a positive number is ignored.
-/

namespace ApeScript

/-- Environment variables by name; each name occurs once. -/
structure Environment where
  entries : List (Bytes × Bytes)
  deriving DecidableEq, Repr

namespace Environment

def get? (e : Environment) (name : Bytes) : Option Bytes :=
  (e.entries.find? (·.1 = name)).map (·.2)

def set (e : Environment) (name value : Bytes) : Environment :=
  ⟨(name, value) :: e.entries.filter (·.1 ≠ name)⟩

/-- Whether an environment can hold a variable: its name is not empty and has no equals sign, and
neither name nor value has a zero byte. -/
def canHold (name value : Bytes) : Bool :=
  !name.isEmpty && name.all (fun b => b ≠ 61 && b ≠ 0) && value.all (· ≠ 0)

/-- The environment with a variable set, unless it already is or cannot be. -/
def setIfMissing (e : Environment) (name value : Bytes) : Environment :=
  if (e.get? name).isSome || !canHold name value then e else e.set name value

def getOr (e : Environment) (name fallback : String) : Bytes :=
  match e.get? (utf8 name) with
  | some (b :: rest) => b :: rest
  | _ => utf8 fallback

end Environment

structure Settings where
  database : Bytes
  graphUri : Bytes
  graphUser : Bytes
  graphPassword : Bytes
  workers : Int
  charset : Bytes
  deriving DecidableEq, Repr

namespace Settings

def variableNames : List String :=
  ["DATABASE_URL", "NEO4J_URI", "NEO4J_USER", "NEO4J_PASSWORD", "APE_WORKERS", "APE_CHARSET"]

def workersName : Bytes := utf8 "APE_WORKERS"

def workers? (s : Bytes) : Option Int :=
  match Integer.parseDecimal s with
  | .ok n => if 1 ≤ n then some n else none
  | .error _ => none

def ofEnvironment (e : Environment) : Settings where
  database := e.getOr "DATABASE_URL" "postgres://localhost:5432/apetools?sslmode=disable"
  graphUri := e.getOr "NEO4J_URI" "bolt://localhost:7687"
  graphUser := e.getOr "NEO4J_USER" "neo4j"
  graphPassword := e.getOr "NEO4J_PASSWORD" "password"
  workers := (workers? (e.getOr "APE_WORKERS" "")).getD 1
  charset := e.getOr "APE_CHARSET" "windows-1252"

def ignoredWorkers? (e : Environment) : Option Bytes :=
  let value := e.getOr "APE_WORKERS" ""
  if value.isEmpty || (workers? value).isSome then none else some value

end Settings

end ApeScript
