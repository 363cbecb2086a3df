import ApeScript.Proofs.CompilerRun
import ApeScript.Proofs.Rounding

/-!
# What expressions come to

An `Arithmetic` extends the operators that folding applies to everything that operands can stand
for, and an `Assignment` says what the variables hold. Under these a stored expression has a value
(`Expr.value`), and so has a parsed one where it is stored (`Value.worth`). Folding changes neither,
and laying a value out keeps it.
-/

namespace ApeScript

inductive Held where
  | number (x : Binary32)
  | text (s : Bytes)
  deriving DecidableEq, Repr

def Held.holds : Held → Bool
  | number x => !x.isZero
  | text _ => false

structure Assignment where
  number : Bytes → Binary32
  text : Bytes → Bytes

/-- The operators on everything that operands can stand for. On numbers they are those of folding,
wherever these have a value. -/
structure Arithmetic where
  apply : Operator → Held → Held → Binary32
  agrees : ∀ {op x y z}, op.evaluate x y = .ok z → apply op (.number x) (.number y) = z

def Arithmetic.applyCode (A : Arithmetic) (code : UInt8) (a b : Held) : Binary32 :=
  match Operator.ofCode? code with
  | some op => A.apply op a b
  | none => .zero

def Operand.held (A : Arithmetic) (ρ : Assignment) (type : UInt8) : Operand → Held
  | float x => .number x
  | name n => if type = OperandType.stringVar.code then .text (ρ.text n) else .number (ρ.number n)
  | quoted s => .text s
  | nested op lt _ l rt _ r => .number (A.applyCode op (l.held A ρ lt) (r.held A ρ rt))
  | missing | invalid | hollow => .number .zero

/-- The number that an expression comes to; a zero is read without its sign. -/
def Expr.value (A : Arithmetic) (ρ : Assignment) (e : Expr) : Binary32 :=
  (A.applyCode e.op (e.left.value.held A ρ e.left.type)
    (e.right.value.held A ρ e.right.type)).canonical

namespace Value

/-- What a value stands for; `escapes` decodes escapes in its strings. -/
def held (A : Arithmetic) (ρ : Assignment) (escapes : Bool) : Value → Held
  | const x => .number x
  | floatVar name => .number (ρ.number name)
  | stringConst raw => .text ((Escape.unescape escapes true raw).toOption.getD [])
  | stringVar name => .text (ρ.text name)
  | binary op l r => .number (A.apply op (l.held A ρ escapes) (r.held A ρ escapes))
  | invalid => .number .zero

/-- The number that a value comes to where it is stored: anything but an operator is added to
zero. -/
def worth (A : Arithmetic) (ρ : Assignment) (escapes : Bool) : Value → Binary32
  | binary op l r => A.apply op (l.held A ρ escapes) (r.held A ρ escapes)
  | leaf => A.apply .add (.number .zero) (leaf.held A ρ escapes)

def Finite : Value → Prop
  | const x => x.isFinite = true
  | binary _ l r => l.Finite ∧ r.Finite
  | _ => True

variable {A : Arithmetic} {ρ : Assignment} {escapes : Bool} {v v' l r : Value} {op : Operator}

/-! ### Laying out -/

theorem applyCode_code {a b : Held} : A.applyCode op.code a b = A.apply op a b := by
  have hcode : Operator.ofCode? op.code = some op := by cases op <;> rfl
  rw [Arithmetic.applyCode, hcode]

theorem node_ok {pos : UInt64} {left right : UInt64 → Except Cause Side} {e : Expr}
    (h : node op pos left right = .ok e) : ∃ l r, left (pos <<< 2 + 1) = .ok l ∧
      right (pos <<< 2 + 2) = .ok r ∧ e = ⟨op.code, l, r⟩ := by
  unfold node at h
  split at h
  · cases h
  · obtain ⟨l, hl, h⟩ := bind_eq_ok.1 h
    obtain ⟨r, hr, h⟩ := bind_eq_ok.1 h
    exact ⟨l, r, hl, hr, (Except.ok.inj h).symm⟩

theorem held_toSide {pos : UInt64} {s : Side} (h : v.toSide escapes pos = .ok s) :
    s.value.held A ρ s.type = v.held A ρ escapes := by
  induction v generalizing pos s with
  | const x => cases h; rfl
  | floatVar name => cases h; rfl
  | stringVar name => cases h; rfl
  | stringConst raw =>
    obtain ⟨text, htext, h⟩ := bind_eq_ok.1 h
    cases h
    simp [held, Operand.held, htext, Except.toOption]
  | binary op l r ihl ihr =>
    obtain ⟨e, he, h⟩ := bind_eq_ok.1 h
    cases h
    obtain ⟨left, right, hl, hr, rfl⟩ := node_ok he
    simp only [Expr.toOperand, Operand.held, held, applyCode_code, ihl hl, ihr hr]
  | invalid => cases h

theorem value_layout {e : Expr} (h : v.layout escapes = .ok e) :
    e.value A ρ = (v.worth A ρ escapes).canonical := by
  have hnode {op : Operator} {l r : Value}
      (h : node op 1 (l.toSide escapes) (r.toSide escapes) = .ok e) :
      e.value A ρ = (A.apply op (l.held A ρ escapes) (r.held A ρ escapes)).canonical := by
    obtain ⟨left, right, hl, hr, rfl⟩ := node_ok h
    simp only [Expr.value, applyCode_code, held_toSide hl, held_toSide hr]
  cases v with
  | binary op l r => exact hnode h
  | _ => exact hnode (l := const .zero) h

/-! ### Folding -/

/-- An operator is evaluated when both sides are constant, and kept over its folded sides
otherwise. -/
theorem fold_binary_ok (h : (binary op l r).fold = .ok v') :
    ∃ l' r', l.fold = .ok l' ∧ r.fold = .ok r' ∧
      ((∃ x y z, l' = const x ∧ r' = const y ∧ op.evaluate x y = .ok z ∧ v' = const z) ∨
        v' = binary op l' r') := by
  obtain ⟨l', hl, h⟩ := bind_eq_ok.1 h
  obtain ⟨r', hr, h⟩ := bind_eq_ok.1 h
  refine ⟨l', r', hl, hr, ?_⟩
  split at h
  · obtain ⟨z, hz, h⟩ := bind_eq_ok.1 h
    exact Or.inl ⟨_, _, z, rfl, rfl, hz, (Except.ok.inj h).symm⟩
  · exact Or.inr (Except.ok.inj h).symm

theorem held_fold (h : v.fold = .ok v') : v'.held A ρ escapes = v.held A ρ escapes := by
  induction v generalizing v' with
  | binary op l r ihl ihr =>
    obtain ⟨l', r', hl, hr, ⟨x, y, z, rfl, rfl, hz, rfl⟩ | rfl⟩ := fold_binary_ok h
    · have hx : Held.number x = l.held A ρ escapes := ihl hl
      have hy : Held.number y = r.held A ρ escapes := ihr hr
      rw [held, held, ← hx, ← hy, A.agrees hz]
    · rw [held, held, ihl hl, ihr hr]
  | _ => cases h; rfl

theorem isFinite_of_evaluate {x y z : Binary32} (h : op.evaluate x y = .ok z) :
    z.isFinite = true := by
  have hfinite {w : Binary32} (h : (if w.isFinite then Except.ok w else .error Cause.nonFinite) =
      Except.ok z) : z.isFinite = true := by
    split at h
    · cases h
      assumption
    · cases h
  cases op with
  | add | sub | mul => exact hfinite h
  | div =>
    simp only [Operator.evaluate] at h
    split at h
    · cases h
    · exact hfinite h
  | _ => cases h; exact Binary32.isFinite_truth _

theorem Finite.fold (hv : v.Finite) (h : v.fold = .ok v') : v'.Finite := by
  induction v generalizing v' with
  | binary op l r ihl ihr =>
    obtain ⟨l', r', hl, hr, ⟨x, y, z, rfl, rfl, hz, rfl⟩ | rfl⟩ := fold_binary_ok h
    · exact isFinite_of_evaluate hz
    · exact ⟨ihl hv.1 hl, ihr hv.2 hr⟩
  | _ => cases h; exact hv

theorem evaluate_add_zero {x : Binary32} (hx : x.isFinite = true) :
    Operator.add.evaluate .zero x = .ok x.canonical := by
  have hcanonical : x.canonical.isFinite = true := by
    unfold Binary32.canonical
    split
    · exact Binary32.isFinite_zero
    · exact hx
  simp only [Operator.evaluate, Binary32.zero_add hx, hcanonical, if_true]

theorem worth_const {x : Binary32} (hx : x.isFinite = true) :
    (const x).worth A ρ escapes = x.canonical :=
  A.agrees (evaluate_add_zero hx)

theorem worth_fold (hv : v.Finite) (h : v.fold = .ok v') :
    (v'.worth A ρ escapes).canonical = (v.worth A ρ escapes).canonical := by
  cases v with
  | binary op l r =>
    obtain ⟨l', r', hl, hr, ⟨x, y, z, rfl, rfl, hz, rfl⟩ | rfl⟩ := fold_binary_ok h
    · have hx : Held.number x = l.held A ρ escapes := held_fold hl
      have hy : Held.number y = r.held A ρ escapes := held_fold hr
      rw [worth_const (isFinite_of_evaluate hz), Binary32.canonical_canonical, worth, ← hx, ← hy,
        A.agrees hz]
    · rw [worth, worth, held_fold hl, held_fold hr]
  | _ => cases h; rfl

/-- A stored expression comes to what its value is worth. -/
theorem StoredAs.value_eq {o : Options} {e : Expr} (h : v.StoredAs o e) (hv : v.Finite) :
    e.value A ρ = (v.worth A ρ o.allowExprEscapes).canonical := by
  obtain ⟨v', hfold, hlayout⟩ := h
  rw [value_layout hlayout]
  split at hfold
  · exact worth_fold hv hfold
  · rw [Except.ok.inj hfold]

end Value

end ApeScript
