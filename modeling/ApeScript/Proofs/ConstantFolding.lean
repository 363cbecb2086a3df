import ApeScript.Proofs.Evaluation

/-!
# Constant expressions

An arithmetical value joins numbers by `+`, `-`, `*` and `/`. Folding it before it is laid out and
resolving the expression it is laid out as come to the same: both give the same number, or folding
fails for a division by zero or a result that is not finite and the expression has no constant
value. Any value that can be folded keeps its result type, and its folded form is folded already.
-/

namespace ApeScript

def Operator.IsArithmetic (op : Operator) : Prop :=
  op = .add ∨ op = .sub ∨ op = .mul ∨ op = .div

instance (op : Operator) : Decidable op.IsArithmetic := inferInstanceAs (Decidable (_ ∨ _))

namespace Value

def Arithmetical : Value → Prop
  | const _ => True
  | binary op l r => op.IsArithmetic ∧ l.Arithmetical ∧ r.Arithmetical
  | _ => False

/-- What folding a value and resolving its stored form may come to: the same number, or no number
for one of two reasons. -/
inductive Agrees : Except Cause Value → Option Binary32 → Prop
  | number (x : Binary32) : Agrees (.ok (const x)) (some x)
  | divisionByZero : Agrees (.error .divisionByZero) none
  | nonFinite : Agrees (.error .nonFinite) none

variable {v v' l r : Value} {op : Operator} {escapes : Bool} {pos : UInt64} {s : Side}
  {x y : Binary32}

theorem Agrees.number_iff {folded : Except Cause Value} {resolved : Option Binary32}
    (h : Agrees folded resolved) : folded = .ok (const x) ↔ resolved = some x := by
  cases h <;> simp

theorem Agrees.failure_iff {folded : Except Cause Value} {resolved : Option Binary32}
    (h : Agrees folded resolved) :
    (folded = .error .divisionByZero ∨ folded = .error .nonFinite) ↔ resolved = none := by
  cases h <;> simp

/-! ### One operator -/

theorem agrees_evaluate (hop : op.IsArithmetic) :
    Agrees ((op.evaluate x y).map const) (op.arithmetic? x y) := by
  have hfinite (z : Binary32) :
      Agrees ((if z.isFinite then Except.ok z else .error .nonFinite).map const)
        ((some z).filter Binary32.isFinite) := by
    by_cases hz : z.isFinite = true
    · simp only [hz, if_true, Option.filter_some]
      exact .number z
    · simp only [hz, Option.filter_some]
      exact .nonFinite
  obtain rfl | rfl | rfl | rfl := hop
  case inr.inr.inr =>
    simp only [Operator.evaluate, Operator.arithmetic?]
    split
    · exact .divisionByZero
    · exact hfinite _
  all_goals exact hfinite _

theorem fold_binary_const (hl : l.fold = .ok (const x)) (hr : r.fold = .ok (const y)) :
    (binary op l r).fold = (op.evaluate x y).map const := by
  rw [fold, hl, hr]
  cases h : op.evaluate x y <;> simp [bind, Except.bind, pure, Except.pure, Except.map, h]

/-- The left side is folded first, and its failure is the failure of the whole. -/
theorem fold_binary_error {cause : Cause}
    (h : l.fold = .error cause ∨ (∃ l', l.fold = .ok l') ∧ r.fold = .error cause) :
    (binary op l r).fold = .error cause := by
  obtain hl | ⟨⟨l', hl⟩, hr⟩ := h
  · rw [fold, hl]
    rfl
  · rw [fold, hl, hr]
    rfl

/-- If the sides are resolved as they are folded, so is the operator. -/
theorem agrees_fold_binary {lt rt : UInt8} {lp rp : UInt64} {left right : Operand}
    (hop : op.IsArithmetic) (hl : Agrees l.fold (left.constant? lt))
    (hr : Agrees r.fold (right.constant? rt)) (type : UInt8) :
    Agrees (binary op l r).fold
      ((Operand.nested op.code lt lp left rt rp right).constant? type) := by
  have hcode : Operator.ofCode? op.code = some op := by cases op <;> rfl
  simp only [Operand.constant?, hcode, bind, Option.bind]
  generalize hfl : l.fold = fl at hl
  generalize hfr : r.fold = fr at hr
  generalize left.constant? lt = cl at hl ⊢
  generalize right.constant? rt = cr at hr ⊢
  cases hl with
  | divisionByZero => exact fold_binary_error (.inl hfl) ▸ .divisionByZero
  | nonFinite => exact fold_binary_error (.inl hfl) ▸ .nonFinite
  | number x =>
    cases hr with
    | divisionByZero => exact fold_binary_error (.inr ⟨⟨_, hfl⟩, hfr⟩) ▸ .divisionByZero
    | nonFinite => exact fold_binary_error (.inr ⟨⟨_, hfl⟩, hfr⟩) ▸ .nonFinite
    | number y => exact fold_binary_const hfl hfr ▸ agrees_evaluate hop

/-! ### Stored expressions -/

theorem agrees_toSide (hv : v.Arithmetical) (h : v.toSide escapes pos = .ok s) :
    Agrees v.fold (s.value.constant? s.type) := by
  induction v generalizing pos s with
  | const x =>
    cases h
    exact .number x
  | binary op l r ihl ihr =>
    obtain ⟨e, he, h⟩ := bind_eq_ok.1 h
    cases h
    obtain ⟨left, right, hl, hr, rfl⟩ := node_ok he
    exact agrees_fold_binary hv.1 (ihl hv.2.1 hl) (ihr hv.2.2 hr) _
  | _ => cases hv

theorem agrees_layout {e : Expr} (hv : (binary op l r).Arithmetical)
    (h : (binary op l r).layout escapes = .ok e) : Agrees (binary op l r).fold e.constant? := by
  have hnode : node op 1 (l.toSide escapes) (r.toSide escapes) = .ok e := h
  obtain ⟨left, right, hl, hr, rfl⟩ := node_ok hnode
  exact agrees_fold_binary hv.1 (agrees_toSide hv.2.1 hl) (agrees_toSide hv.2.2 hr) 0

/-! ### Folded values -/

theorem result_fold (h : v.fold = .ok v') : v'.result = v.result := by
  induction v generalizing v' with
  | binary op l r ihl ihr =>
    obtain ⟨l', r', hl, hr, ⟨x, y, z, rfl, rfl, -, rfl⟩ | rfl⟩ := fold_binary_ok h
    · -- both sides are numbers, which every operator takes to a number
      have hl : l.result = .float := (ihl hl).symm
      have hr : r.result = .float := (ihr hr).symm
      rw [result, result, hl, hr]
      cases op <;> rfl
    · rw [result, result, ihl hl, ihr hr]
  | _ => cases h; rfl

theorem fold_fold (h : v.fold = .ok v') : v'.fold = .ok v' := by
  induction v generalizing v' with
  | binary op l r ihl ihr =>
    obtain ⟨l', hl, h⟩ := bind_eq_ok.1 h
    obtain ⟨r', hr, h⟩ := bind_eq_ok.1 h
    split at h
    · obtain ⟨z, -, h⟩ := bind_eq_ok.1 h
      cases h
      rfl
    · cases h
      rw [fold, ihl hl, ihr hr]
      -- the sides are not both numbers, so the operator is kept
      simp only [bind, Except.bind]
      rfl
  | _ => cases h; rfl

/-- Folding a value of numbers and arithmetic operators gives a number exactly when the expression
that the value is laid out as has that constant value, and fails, for a division by zero or a result
that is not finite, exactly when it has none. Folding any value keeps the type of its result, and
folding twice is folding once. -/
theorem fold_eq_constant? :
    (∀ (op : Operator) (l r : Value) (escapes : Bool) (e : Expr), (binary op l r).Arithmetical →
      (binary op l r).layout escapes = .ok e →
      (∀ x, (binary op l r).fold = .ok (const x) ↔ e.constant? = some x) ∧
      ((binary op l r).fold = .error .divisionByZero ∨ (binary op l r).fold = .error .nonFinite ↔
        e.constant? = none)) ∧
    ∀ v v' : Value, v.fold = .ok v' → v'.result = v.result ∧ v'.fold = .ok v' := by
  refine ⟨fun op l r escapes e hv he => ?_, fun v v' h => ⟨result_fold h, fold_fold h⟩⟩
  have hagrees := agrees_layout hv he
  exact ⟨fun x => hagrees.number_iff, hagrees.failure_iff⟩

def oneByNothing : Value := binary .div (const .one) (binary .sub (const .one) (const .one))

/-- What `oneByNothing` is laid out as. -/
def oneByNothingExpr : Expr :=
  ⟨Operator.div.code, ⟨OperandType.floatConst.code, 5, .float .one⟩,
    ⟨OperandType.expression.code, 6, .nested Operator.sub.code
      OperandType.floatConst.code 25 (.float .one) OperandType.floatConst.code 26 (.float .one)⟩⟩

theorem fold_eq_constant?_byNothing :
    oneByNothing.Arithmetical ∧ oneByNothing.layout true = .ok oneByNothingExpr ∧
      oneByNothing.fold = .error .divisionByZero ∧ oneByNothingExpr.constant? = none ∧
      (binary .sub (const .one) (const .one)).fold = .ok (const .zero) ∧
      (const .zero).result = (binary .sub (const .one) (const .one)).result := by
  have hv : oneByNothing.Arithmetical := ⟨by decide, trivial, by decide, trivial, trivial⟩
  have he : oneByNothing.layout true = .ok oneByNothingExpr := rfl
  have hfold : oneByNothing.fold = .error .divisionByZero := by decide +kernel
  have hzero : (binary .sub (const .one) (const .one)).fold = .ok (const .zero) := by
    decide +kernel
  exact ⟨hv, he, hfold, (fold_eq_constant?.1 _ _ _ true _ hv he).2.1 (Or.inl hfold), hzero,
    (fold_eq_constant?.2 _ _ hzero).1⟩

end Value

end ApeScript
