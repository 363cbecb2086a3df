import ApeScript.Switch.Basic

/-!
# Blocks of statements

The places of a switch's statements describe a program of nested blocks. `Block.ofPlaced` rebuilds
it: the statement at place `c` governs the block that starts at `4c + 1`, has its alternative at
`4c + 2`, and is followed by the statement at `4c + 3`; the program starts at place one. It fails
when a statement has no parent, when places repeat, or when a block does not suit its statement.
-/

namespace ApeScript

/-- A sequence of statements: nothing, or a statement with the block it governs, its alternative
block and what follows it. -/
inductive Block where
  | done
  | step (head : Placed) (inner alt rest : Block)
  deriving DecidableEq, Repr

inductive BlockError where
  | repeated (cc : UInt64)
  | orphan (cc : UInt64)
  | badPlace (cc : UInt64)
  | noFirst
  | emptyBlock (p : Placed)
  | noCondition (p : Placed)
  | nested (p : Placed)
  | whileAlternative (p : Placed)
  deriving DecidableEq, Repr

namespace BlockError

def subject (p : Placed) : Bytes :=
  utf8 "cc " ++ Placed.binary p.cc ++ utf8 ": " ++ StatementType.nameOfCode p.statement.type

def message : BlockError → Bytes
  | repeated cc => utf8 "cc " ++ Placed.binary cc ++ utf8 " appears twice"
  | orphan cc => utf8 "cc " ++ Placed.binary cc ++ utf8 " has no parent statement"
  | badPlace cc => utf8 "invalid cc " ++ Placed.binary cc
  | noFirst => utf8 "switch has no first statement"
  | emptyBlock p => subject p ++ utf8 " block is empty"
  | noCondition p => subject p ++ utf8 " has no condition"
  | nested p => subject p ++ utf8 " has nested statements"
  | whileAlternative p => utf8 "cc " ++ Placed.binary p.cc ++ utf8 ": while has an else block"

end BlockError

namespace Block

def find? (commands : List Placed) (place : Nat) : Option Placed :=
  commands.find? fun p => p.cc.toNat = place

def firstRepeat? : (seen : List UInt64) → List Placed → Option UInt64
  | _, [] => none
  | seen, p :: rest => if seen.contains p.cc then some p.cc else firstRepeat? (p.cc :: seen) rest

def checkPlace (commands : List Placed) (p : Placed) : Except BlockError Unit :=
  if p.cc = 1 then .ok ()
  else if (find? commands (p.cc.toNat / 4)).isNone then .error (.orphan p.cc)
  else if p.cc.toNat % 4 = 0 then .error (.badPlace p.cc)
  else .ok ()

def checkBlocks (commands : List Placed) (p : Placed) : Except BlockError Unit :=
  let control := StatementType.isControl p.statement.type
  let inner := (find? commands (4 * p.cc.toNat + 1)).isSome
  let alt := (find? commands (4 * p.cc.toNat + 2)).isSome
  if control && !inner then .error (.emptyBlock p)
  else if control && p.statement.expr.isNone then .error (.noCondition p)
  else if !control && (inner || alt) then .error (.nested p)
  else if p.statement.type = StatementType.while.code && alt then .error (.whileAlternative p)
  else .ok ()

/-- The statements from a place on. Every step multiplies the place by four, so places below
4 ^ `levels` are all reached. -/
def build (commands : List Placed) : (levels : Nat) → (place : Nat) → Except BlockError Block
  | 0, _ => .ok .done
  | levels + 1, place =>
    match find? commands place with
    | none => .ok .done
    | some p => do
      checkBlocks commands p
      let inner ← build commands levels (4 * place + 1)
      let alt ← build commands levels (4 * place + 2)
      let rest ← build commands levels (4 * place + 3)
      return .step p inner alt rest

/-- The program that a switch's statements describe. -/
def ofPlaced (commands : List Placed) : Except BlockError Block := do
  if let some cc := firstRepeat? [] commands then throw (.repeated cc)
  commands.forM (checkPlace commands)
  if commands.isEmpty then return .done
  if (find? commands 1).isNone then throw .noFirst
  build commands 32 1

def isSingleSimple : Block → Bool
  | step p _ _ done => !StatementType.isControl p.statement.type
  | _ => false

/-- Whether the block is one `if` statement. -/
def isSingleIf : Block → Bool
  | step p _ _ done => p.statement.type = StatementType.ifThen.code
  | _ => false

def isDone : Block → Bool
  | done => true
  | step .. => false

end Block

end ApeScript
