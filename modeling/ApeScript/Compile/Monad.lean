import ApeScript.Compile.Lexer
import ApeScript.Compile.Options
import ApeScript.Compile.Value
import ApeScript.Switch.Basic

/-!
# The compiler's state

A `Compiler` reads tokens, reports warnings and numbers inline switches. A failing compiler keeps
the warnings reported before it failed.
-/

namespace ApeScript

/-- What stays the same during a compilation: the options, and the hash that numbers the inline
switches. -/
structure CompileContext where
  options : Options
  hash : Nat
  deriving DecidableEq, Repr

/-- What a compilation has read, reported and made so far. -/
structure CompileState where
  lexer : Lexer
  warnings : List (Location × Warning)
  inlineCount : Nat
  inline : List Switch
  deriving DecidableEq, Repr

abbrev Compiler := ReaderT CompileContext (EStateM CompileError CompileState)

instance : MonadLift Lex Compiler where
  monadLift x := fun _ s =>
    match x s.lexer with
    | .ok a l => .ok a { s with lexer := l }
    | .error e l => .error e { s with lexer := l }

namespace Compiler

open Lexer (Remaining)

def fail {α : Type} (loc : Location) (cause : Cause) : Compiler α := throw ⟨loc, cause⟩

/-- The result of a computation, a failure being placed at `loc`. -/
def located {α : Type} (loc : Location) : Except Cause α → Compiler α
  | .ok a => pure a
  | .error cause => fail loc cause

def options : Compiler Options := return (← readThe CompileContext).options

def warn (loc : Location) (w : Warning) : Compiler Unit :=
  modifyThe CompileState fun s => { s with warnings := s.warnings ++ [(loc, w)] }

def location : Compiler Location := return (← getThe CompileState).lexer.cursor.loc

def remaining : Compiler Remaining := return (← getThe CompileState).lexer.remaining

/-- Repeats a step from state to state until it gives a result. A step that goes on has to leave
less to read. -/
def repeatWithin {σ α : Type} (step : σ → Compiler (σ ⊕ α)) (bound : Remaining) (s : σ) :
    Compiler α := do
  match ← step s with
  | .inr a => return a
  | .inl next =>
    let now ← remaining
    if _less : now.Less bound then repeatWithin step now next else fail (← location) .stalled
termination_by (bound.unread, bound.queued, 0)
decreasing_by exact Remaining.lex_of_less _less 0 0

def repeatFrom {σ α : Type} (s : σ) (step : σ → Compiler (σ ⊕ α)) : Compiler α := do
  repeatWithin step (← remaining) s

def stringValue (token : Token) (newlineToSpace : Bool) : Compiler Bytes :=
  located token.loc (Escape.unescape true newlineToSpace token.unquoted)

end Compiler

end ApeScript
