import ApeScript.Proofs.EmittedSwitch
import ApeScript.Proofs.Negation

/-!
# Running a switch

A `Machine` says what simple statements do to a state and what the variables hold in it. `Block.run`
runs the program that the places of a switch describe, and records the simple statements performed,
with what their expressions come to, and the last state. A loop goes round at most `bound` times
before the run is cut; all bounds together describe a run without end as well. `Draft.run` does the
same for parsed statements, and a draft runs like the block it is stored as.
-/

namespace ApeScript

/-- A simple statement as it is performed, with what its expression comes to. -/
structure Action where
  type : UInt8
  str : Option Bytes
  format : List FormatValue
  value : Option Binary32
  deriving DecidableEq, Repr

structure Machine (σ : Type) where
  memory : σ → Assignment
  perform : Action → σ → σ

/-- The statements that a run has performed, and its last state unless it was cut. -/
structure Run (σ : Type) where
  actions : List Action
  final : Option σ
  deriving DecidableEq, Repr

variable {σ : Type}

namespace Run

def stay (s : σ) : Run σ := ⟨[], some s⟩

def andThen (r : Run σ) (next : σ → Run σ) : Run σ :=
  match r.final with
  | none => r
  | some s => ⟨r.actions ++ (next s).actions, (next s).final⟩

@[simp] theorem stay_andThen (s : σ) (next : σ → Run σ) : (stay s).andThen next = next s := rfl

@[simp] theorem andThen_stay (r : Run σ) : r.andThen stay = r := by
  rcases r with ⟨actions, _ | s⟩
  · rfl
  · simp [andThen, stay]

theorem andThen_assoc (r : Run σ) (f g : σ → Run σ) :
    (r.andThen f).andThen g = r.andThen fun s => (f s).andThen g := by
  rcases r with ⟨actions, _ | s⟩
  · rfl
  · cases hf : (f s).final with
    | none => simp [andThen, hf]
    | some t => simp [andThen, hf]

/-- Repeats a body while a condition holds, at most `bound` times. -/
def loop (holds : σ → Bool) (body : σ → Run σ) : (bound : Nat) → σ → Run σ
  | 0, _ => ⟨[], none⟩
  | bound + 1, s => if holds s then (body s).andThen (loop holds body bound) else stay s

/-- One statement by its type, from when its condition holds, what it governs and its own action. -/
def conduct (bound : Nat) (type : UInt8) (holds : σ → Bool) (inner alt act : σ → Run σ) (s : σ) :
    Run σ :=
  if type = StatementType.ifThen.code then if holds s then inner s else alt s
  else if type = StatementType.while.code then loop holds inner bound s
  else if type = StatementType.noOp.code then stay s
  else act s

end Run

def Machine.act (M : Machine σ) (action : σ → Action) (s : σ) : Run σ :=
  ⟨[action s], some (M.perform (action s) s)⟩

namespace Statement

def holds (A : Arithmetic) (ρ : Assignment) (t : Statement) : Bool :=
  match t.expr with
  | none => false
  | some e => !(e.value A ρ).isZero

def action (A : Arithmetic) (ρ : Assignment) (t : Statement) : Action :=
  ⟨t.type, t.str, t.format, t.expr.map (·.value A ρ)⟩

end Statement

def Block.run (A : Arithmetic) (M : Machine σ) (bound : Nat) : Block → σ → Run σ
  | done => Run.stay
  | step p inner alt rest => fun s =>
    (Run.conduct bound p.statement.type (fun s => p.statement.holds A (M.memory s))
      (inner.run A M bound) (alt.run A M bound)
      (M.act fun s => p.statement.action A (M.memory s)) s).andThen (rest.run A M bound)

namespace DraftStatement

def holds (A : Arithmetic) (ρ : Assignment) (escapes : Bool) (t : DraftStatement) : Bool :=
  match t.expr with
  | none => false
  | some v => v.holds A ρ escapes

def action (A : Arithmetic) (ρ : Assignment) (escapes : Bool) (t : DraftStatement) : Action :=
  ⟨t.type.code, t.str, t.format, t.expr.map fun v => (v.worth A ρ escapes).canonical⟩

def Finite (t : DraftStatement) : Prop := ∀ v ∈ t.expr, v.Finite

end DraftStatement

namespace Draft

def run (A : Arithmetic) (M : Machine σ) (escapes : Bool) (bound : Nat) : Draft → σ → Run σ
  | done => Run.stay
  | step t inner alt rest => fun s =>
    (Run.conduct bound t.type.code (fun s => t.holds A (M.memory s) escapes)
      (inner.run A M escapes bound) (alt.run A M escapes bound)
      (M.act fun s => t.action A (M.memory s) escapes) s).andThen (rest.run A M escapes bound)

def Finite : Draft → Prop
  | done => True
  | step t inner alt rest => t.Finite ∧ inner.Finite ∧ alt.Finite ∧ rest.Finite

/-- Every `if` that does something only in its alternative has a condition that can be negated. -/
def Negatable (A : Arithmetic) (M : Machine σ) (escapes : Bool) (bound : Nat) : Draft → Prop
  | done => True
  | step t inner alt rest =>
    (t.type = .ifThen → inner.run A M escapes bound = Run.stay → alt ≠ done →
      ∀ v ∈ t.expr, v.Negatable) ∧
    inner.Negatable A M escapes bound ∧ alt.Negatable A M escapes bound ∧
      rest.Negatable A M escapes bound

end Draft

/-- Every `if` that does something only in its alternative has a condition that can be negated. -/
def Block.Negatable (A : Arithmetic) (M : Machine σ) (bound : Nat) : Block → Prop
  | done => True
  | step p inner alt rest =>
    (p.statement.type = StatementType.ifThen.code → inner.run A M bound = Run.stay → alt ≠ done →
      ∀ e ∈ p.statement.expr, e.Negatable) ∧
    inner.Negatable A M bound ∧ alt.Negatable A M bound ∧ rest.Negatable A M bound

namespace DraftStatement

variable {A : Arithmetic} {ρ : Assignment} {o : Options} {t : DraftStatement} {u : Statement}

/-- The stored expression comes to what the parsed one is worth. -/
theorem StoredAs.map_value (h : t.StoredAs o u) (ht : t.Finite) :
    u.expr.map (·.value A ρ) =
      t.expr.map fun v => (v.worth A ρ o.allowExprEscapes).canonical := by
  rcases t with ⟨type, str, format, expr, loc⟩
  rcases u with ⟨type', str', format', expr'⟩
  cases h.expr with
  | none => rfl
  | some hstored => exact congrArg some (hstored.value_eq (ht _ rfl))

theorem StoredAs.exists_expr (h : t.StoredAs o u) {v : Value} (hv : v ∈ t.expr) :
    ∃ e ∈ u.expr, v.StoredAs o e := by
  rcases t with ⟨type, str, format, expr, loc⟩
  rcases u with ⟨type', str', format', expr'⟩
  cases h.expr with
  | none => cases hv
  | some hstored =>
    cases hv
    exact ⟨_, rfl, hstored⟩

theorem StoredAs.holds_eq (h : t.StoredAs o u) (ht : t.Finite) :
    u.holds A ρ = t.holds A ρ o.allowExprEscapes := by
  rcases t with ⟨type, str, format, expr, loc⟩
  rcases u with ⟨type', str', format', expr'⟩
  cases h.expr with
  | none => rfl
  | some hstored =>
    simp only [Statement.holds, holds, Value.holds]
    rw [hstored.value_eq (ht _ rfl), Binary32.isZero_canonical]

theorem StoredAs.action_eq (h : t.StoredAs o u) (ht : t.Finite) :
    u.action A ρ = t.action A ρ o.allowExprEscapes := by
  rw [Statement.action, action, h.type, h.str, h.format, h.map_value ht]

end DraftStatement

namespace Draft

variable {A : Arithmetic} {M : Machine σ} {o : Options} {escapes : Bool} {bound : Nat}
  {d d' inner alt rest : Draft} {b : Block} {t : DraftStatement}

theorem Finite.append (hd : d.Finite) (hd' : d'.Finite) : (d ++ d').Finite := by
  rw [append_eq]
  induction d with
  | done => exact hd'
  | step t inner alt rest _ _ ih => exact ⟨hd.1, hd.2.1, hd.2.2.1, ih hd.2.2.2⟩

theorem run_append : (d ++ d').run A M escapes bound = fun s =>
    (d.run A M escapes bound s).andThen (d'.run A M escapes bound) := by
  rw [append_eq]
  induction d with
  | done => rfl
  | step t inner alt rest _ _ ih =>
    funext s
    simp only [append, run, ih, Run.andThen_assoc]

/-- A draft runs like the block it is stored as. -/
theorem StoredAs.run_eq (h : d.StoredAs o b) (hd : d.Finite) :
    b.run A M bound = d.run A M o.allowExprEscapes bound := by
  induction d generalizing b with
  | done =>
    cases b with
    | done => rfl
    | step => exact h.elim
  | step t inner alt rest ihi iha ihr =>
    cases b with
    | done => exact h.elim
    | step p inner' alt' rest' =>
      obtain ⟨ht, hi, ha, hr⟩ := h
      obtain ⟨hft, hfi, hfa, hfr⟩ := hd
      simp only [Block.run, run, ht.type, ht.holds_eq hft, ht.action_eq hft, ihi hi hfi, iha ha hfa,
        ihr hr hfr]

theorem EmittedAs.run_eq (h : d.EmittedAs o b) (hd : d.Finite) :
    b.run A M bound = d.run A M o.allowExprEscapes bound := by
  cases d with
  | done =>
    cases h
    rfl
  | step => exact StoredAs.run_eq h hd

/-- Where expressions are stored as they stand, the conditions of a block tell which conditions of
its draft can be negated. -/
theorem StoredAs.negatable (ho : o.optimize = false) (h : d.StoredAs o b) (hd : d.Finite)
    (hb : b.Negatable A M bound) : d.Negatable A M o.allowExprEscapes bound := by
  induction d generalizing b with
  | done => trivial
  | step t inner alt rest ihi iha ihr =>
    cases b with
    | done => exact h.elim
    | step p inner' alt' rest' =>
      obtain ⟨ht, hi, ha, hr⟩ := h
      obtain ⟨-, hfi, hfa, hfr⟩ := hd
      obtain ⟨hbt, hbi, hba, hbr⟩ := hb
      refine ⟨fun htype hidle hne v hv => ?_, ihi hi hfi hbi, iha ha hfa hba, ihr hr hfr hbr⟩
      have hne' : alt' ≠ .done := fun halt => hne (ha.eq_done_iff.2 halt)
      have hall := hbt (by rw [ht.type, htype]) ((hi.run_eq hfi).trans hidle) hne'
      -- nothing is folded, so the stored condition has the terms of the parsed one
      obtain ⟨e, he, v', hv', hlayout⟩ := ht.exists_expr hv
      rw [if_neg (by simp [ho])] at hv'
      cases hv'
      exact Value.negatable_of_layout hlayout (hall e he)

theorem EmittedAs.negatable (ho : o.optimize = false) (h : d.EmittedAs o b) (hd : d.Finite)
    (hb : b.Negatable A M bound) : d.Negatable A M o.allowExprEscapes bound := by
  cases d with
  | done => trivial
  | step => exact StoredAs.negatable ho h hd hb

end Draft

end ApeScript
