import ApeScript.Bytes

/-!
# Worker pools

A pool works through a list of inputs and pairs each with what came of it, in the order of the
inputs. An input's result depends on that input alone, so neither the number of workers nor the
order in which they finish shows in the results. `batches` cuts a list into consecutive pieces.
-/

namespace ApeScript.Work

structure Result (ε α β : Type) where
  input : α
  output : Except ε β

def Result.isFailure {ε α β : Type} (r : Result ε α β) : Bool :=
  match r.output with
  | .ok _ => false
  | .error _ => true

def workerCount (wanted : Int) : Nat := max 1 wanted.toNat

def execute {ε α β : Type} (process : α → Except ε β) (inputs : List α) : List (Result ε α β) :=
  inputs.map fun input => ⟨input, process input⟩

def failed {ε α β : Type} (results : List (Result ε α β)) : Nat :=
  (results.filter Result.isFailure).length

/-- Pieces of `size` items; `fuel` is at least the number of items. -/
def batchesFrom {α : Type} (size : Nat) : (fuel : Nat) → List α → List (List α)
  | 0, _ => []
  | fuel + 1, items =>
    if items.isEmpty then [] else items.take size :: batchesFrom size fuel (items.drop size)

/-- Consecutive pieces of a list. The last one may be shorter, and a size below one counts as one. -/
def batches {α : Type} (items : List α) (size : Int) : List (List α) :=
  batchesFrom (max 1 size.toNat) items.length items

end ApeScript.Work
