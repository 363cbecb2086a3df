import ApeScript.Proofs.Evaluation

/-!
# Inverses of conditions

The inverse of a condition holds exactly when the condition does not, if it is a number at all and
no variable stands alone among the terms that the condition joins by `&&` and `||`
(`Value.Negatable`). Comparing needs operands that are not NaN (`Value.Comparable`). A variable that
stands alone is inverted as though it were compared with zero (`Value.turned`). Whatever the
condition, folding it first does not change when its inverse holds.
-/

namespace ApeScript

def Held.isNaN : Held → Bool
  | number x => x.isNaN
  | text _ => false

/-- Two texts differ exactly when they are not equal. -/
def Arithmetic.Discerning (A : Arithmetic) : Prop :=
  ∀ s t, (A.apply .neq (.text s) (.text t)).isZero = !(A.apply .eq (.text s) (.text t)).isZero

/-- No operator gives NaN, and two texts differ exactly when they are not equal. -/
structure Arithmetic.Definite (A : Arithmetic) : Prop where
  number : ∀ op a b, (A.apply op a b).isNaN = false
  text : ∀ s t,
    (A.apply .neq (.text s) (.text t)).isZero = !(A.apply .eq (.text s) (.text t)).isZero

/-- The operators of folding, the equality of texts, and zero for everything else. -/
def Arithmetic.plain : Arithmetic where
  apply op a b :=
    match a, b with
    | .number x, .number y => (op.evaluate x y).toOption.getD .zero
    | .text s, .text t =>
      if op = .eq then truth (decide (s = t))
      else if op = .neq then truth (decide (s ≠ t))
      else .zero
    | _, _ => .zero
  agrees h := by simp [h, Except.toOption]

theorem Arithmetic.definite_plain : Arithmetic.plain.Definite where
  number op a b := by
    cases a with
    | text s =>
      cases b with
      | text t =>
        simp only [plain]
        split
        · exact Binary32.not_isNaN_of_isFinite (Binary32.isFinite_truth _)
        · split
          · exact Binary32.not_isNaN_of_isFinite (Binary32.isFinite_truth _)
          · exact Binary32.not_isNaN_of_isFinite Binary32.isFinite_zero
      | number y => exact Binary32.not_isNaN_of_isFinite Binary32.isFinite_zero
    | number x =>
      cases b with
      | text t => exact Binary32.not_isNaN_of_isFinite Binary32.isFinite_zero
      | number y =>
        simp only [plain]
        cases h : op.evaluate x y with
        | ok z => exact Binary32.not_isNaN_of_isFinite (Value.isFinite_of_evaluate h)
        | error cause => exact Binary32.not_isNaN_of_isFinite Binary32.isFinite_zero
  text s t := by simp [plain, Binary32.isZero_truth]

instance : Inhabited Arithmetic := ⟨.plain⟩

instance : Inhabited Assignment := ⟨fun _ => .zero, fun _ => []⟩

def Assignment.Definite (ρ : Assignment) : Prop := ∀ name, (ρ.number name).isNaN = false

namespace Value

/-- No variable stands alone among the terms that the value joins by `&&` and `||`. -/
def Negatable : Value → Prop
  | floatVar _ => False
  | binary .and l r => l.Negatable ∧ r.Negatable
  | binary .or l r => l.Negatable ∧ r.Negatable
  | _ => True

/-- Neither side of an ordering comparison among the terms that the value joins by `&&` and `||` is
NaN. -/
def Comparable (A : Arithmetic) (ρ : Assignment) (escapes : Bool) : Value → Prop
  | binary .and l r => l.Comparable A ρ escapes ∧ r.Comparable A ρ escapes
  | binary .or l r => l.Comparable A ρ escapes ∧ r.Comparable A ρ escapes
  | binary op l r => op = .gt ∨ op = .lt ∨ op = .ge ∨ op = .le →
      (l.held A ρ escapes).isNaN = false ∧ (r.held A ρ escapes).isNaN = false
  | _ => True

/-- The value with every variable that stands alone among its joined terms compared with zero. -/
def turned : Value → Value
  | floatVar name => binary .eq (floatVar name) (const .zero)
  | binary .and l r => binary .and l.turned r.turned
  | binary .or l r => binary .or l.turned r.turned
  | v => v

def holds (A : Arithmetic) (ρ : Assignment) (escapes : Bool) (v : Value) : Bool :=
  !(v.worth A ρ escapes).isZero

variable {A : Arithmetic} {ρ : Assignment} {escapes : Bool} {v v' l r : Value} {op : Operator}

theorem holds_fold (hv : v.Finite) (h : v.fold = .ok v') :
    v'.holds A ρ escapes = v.holds A ρ escapes := by
  rw [holds, holds, ← Binary32.isZero_canonical, worth_fold hv h, Binary32.isZero_canonical]

theorem holds_const {x : Binary32} (hx : x.isFinite = true) :
    (const x).holds A ρ escapes = !x.isZero := by
  rw [holds, worth_const hx, Binary32.isZero_canonical]

/-! ### What a value stands for, by its type -/

theorem result_ne_string {s t : ResultType} : op.result s t ≠ .string := by
  unfold Operator.result
  split
  · split <;> nofun
  · split <;> nofun
  · split <;> nofun

variable (A ρ escapes) in
theorem held_text (h : v.result = .string) : ∃ s, v.held A ρ escapes = .text s := by
  cases v with
  | stringConst raw => exact ⟨_, rfl⟩
  | stringVar name => exact ⟨_, rfl⟩
  | binary op l r => exact absurd h result_ne_string
  | _ => cases h

variable (A ρ escapes) in
theorem held_number (h : v.result ≠ .string) : ∃ x, v.held A ρ escapes = .number x := by
  cases v with
  | const x => exact ⟨x, rfl⟩
  | floatVar name => exact ⟨_, rfl⟩
  | stringConst raw => exact absurd rfl h
  | stringVar name => exact absurd rfl h
  | binary op l r => exact ⟨_, rfl⟩
  | invalid => exact ⟨_, rfl⟩

theorem not_isNaN_of_held (hA : A.Definite) (hρ : ρ.Definite) (hv : v.Finite) {x : Binary32}
    (h : v.held A ρ escapes = .number x) : x.isNaN = false := by
  cases v with
  | const y =>
    cases h
    exact Binary32.not_isNaN_of_isFinite hv
  | floatVar name =>
    cases h
    exact hρ name
  | stringConst raw => cases h
  | stringVar name => cases h
  | binary op l r =>
    cases h
    exact hA.number ..
  | invalid =>
    cases h
    decide

theorem result_ne_string_of_invert (h : v.invert.result = .float) : v.result ≠ .string := by
  cases v with
  | stringConst raw => cases h
  | stringVar name => cases h
  | binary op l r => exact result_ne_string
  | _ => nofun

/-! ### Inverting -/

/-- The inverse of a conjunction or a disjunction is a number only if the inverses of both terms
are, and it joins these by the other operator. -/
theorem invert_joined (hop : op = .and ∨ op = .or)
    (h : (binary op l r).invert.result = .float) :
    l.invert.result = .float ∧ r.invert.result = .float ∧
      (binary op l r).invert = binary (if op = .and then .or else .and) l.invert r.invert := by
  have hinvert : (binary op l r).invert = if l.invert.result = .invalid ∨ r.invert.result = .invalid
      then invalid else binary (if op = .and then .or else .and) l.invert r.invert := by
    rcases hop with rfl | rfl <;> simp [invert]
  rw [hinvert] at h ⊢
  split at h
  · cases h
  · rw [if_neg ‹_›]
    refine (and_assoc.1 ⟨?_, rfl⟩)
    rcases hop with rfl | rfl <;> simpa [result, Operator.result] using h

/-- A conjunction or a disjunction of numbers holds as its terms do. -/
theorem holds_joined {a b : Held} (hop : op = .and ∨ op = .or) {x y : Binary32}
    (ha : a = .number x) (hb : b = .number y) : (Held.number (A.apply op a b)).holds =
      if op = .and then a.holds && b.holds else a.holds || b.holds := by
  subst ha hb
  rcases hop with rfl | rfl
  · rw [A.agrees (z := truth (!x.isZero && !y.isZero)) rfl]
    simp [Held.holds, Binary32.isZero_truth]
  · rw [A.agrees (z := truth (!x.isZero || !y.isZero)) rfl]
    simp [Held.holds, Binary32.isZero_truth]

/-- Two numbers compared, and compared the other way. -/
theorem holds_opposite {other : Operator} {x y : Binary32} {t : Bool}
    (hl : l.held A ρ escapes = .number x) (hr : r.held A ρ escapes = .number y)
    (hop : op.evaluate x y = .ok (truth t)) (hother : other.evaluate x y = .ok (truth (!t))) :
    ((binary other l r).held A ρ escapes).holds = !((binary op l r).held A ρ escapes).holds := by
  rw [held, held, hl, hr, A.agrees hop, A.agrees hother]
  simp [Held.holds, Binary32.isZero_truth]

/-- A number equals zero when it does not hold. -/
theorem holds_eq_zero (hv : v.result ≠ .string) :
    ((binary .eq v (const .zero)).held A ρ escapes).holds = !(v.held A ρ escapes).holds := by
  obtain ⟨x, hx⟩ := held_number A ρ escapes hv
  have hcompared : A.apply .eq (.number x) (.number .zero) = truth (x.eq .zero) := A.agrees rfl
  simp only [held, hx, Held.holds]
  rw [hcompared, Binary32.eq_zero, Binary32.isZero_truth, Bool.not_not]

/-- A conjunction or a disjunction holds when the inverses of its terms, joined by the other
operator, do not. -/
theorem holds_invert_joined (hop : op = .and ∨ op = .or)
    (h : (binary op l r).invert.result = .float)
    (hl : (l.invert.held A ρ escapes).holds = !(l.held A ρ escapes).holds)
    (hr : (r.invert.held A ρ escapes).holds = !(r.held A ρ escapes).holds) :
    ((binary op l r).invert.held A ρ escapes).holds =
      !((binary op l r).held A ρ escapes).holds := by
  obtain ⟨hfloat, hfloat', hinvert⟩ := invert_joined hop h
  obtain ⟨x, hx⟩ := held_number A ρ escapes (result_ne_string_of_invert hfloat)
  obtain ⟨y, hy⟩ := held_number A ρ escapes (result_ne_string_of_invert hfloat')
  obtain ⟨x', hx'⟩ := held_number A ρ escapes (v := l.invert) (by simp [hfloat])
  obtain ⟨y', hy'⟩ := held_number A ρ escapes (v := r.invert) (by simp [hfloat'])
  have hother : (if op = .and then Operator.or else .and) = .and ∨
      (if op = .and then Operator.or else .and) = .or := by
    rcases hop with rfl | rfl <;> simp
  rw [hinvert, held, held, holds_joined hother hx' hy', holds_joined hop hx hy, hl, hr]
  rcases hop with rfl | rfl <;> simp

/-- The inverse of a condition holds when the condition does not. -/
theorem holds_held_invert_of_comparable (hA : A.Discerning) (hc : v.Comparable A ρ escapes)
    (hn : v.Negatable) (h : v.invert.result = .float) :
    (v.invert.held A ρ escapes).holds = !(v.held A ρ escapes).holds := by
  induction v with
  | const x => simp [invert, held, Held.holds, Binary32.isZero_truth]
  | floatVar name => exact hn.elim
  | stringConst raw => cases h
  | stringVar name => cases h
  | invalid => cases h
  | binary op l r ihl ihr =>
    -- an ordering of numbers is inverted into the opposite one, which NaN would spoil
    have hordered {other : Operator} {t : Binary32 → Binary32 → Bool}
        (hinvert : (binary op l r).invert = binary other l r)
        (hfloat : l.result = .float ∧ r.result = .float)
        (hnan : (l.held A ρ escapes).isNaN = false ∧ (r.held A ρ escapes).isNaN = false)
        (hop : ∀ x y, op.evaluate x y = .ok (truth (t x y)))
        (hother : ∀ x y, x.isNaN = false → y.isNaN = false →
          other.evaluate x y = .ok (truth (!t x y))) :
        ((binary op l r).invert.held A ρ escapes).holds =
          !((binary op l r).held A ρ escapes).holds := by
      obtain ⟨x, hx⟩ := held_number A ρ escapes (v := l) (by simp [hfloat])
      obtain ⟨y, hy⟩ := held_number A ρ escapes (v := r) (by simp [hfloat])
      rw [hx, hy] at hnan
      rw [hinvert]
      exact holds_opposite hx hy (hop x y) (hother x y hnan.1 hnan.2)
    cases op with
    | and =>
      obtain ⟨hl, hr, -⟩ := invert_joined (Or.inl rfl) h
      exact holds_invert_joined (Or.inl rfl) h (ihl hc.1 hn.1 hl) (ihr hc.2 hn.2 hr)
    | or =>
      obtain ⟨hl, hr, -⟩ := invert_joined (Or.inr rfl) h
      exact holds_invert_joined (Or.inr rfl) h (ihl hc.1 hn.1 hl) (ihr hc.2 hn.2 hr)
    | gt =>
      apply hordered (t := Binary32.gt) rfl _ (hc (by simp)) (fun _ _ => rfl)
      · intro x y hx hy
        rw [← Binary32.le_eq_not_gt hx hy]
        rfl
      · simpa [invert, result, Operator.result] using h
    | lt =>
      apply hordered (t := Binary32.lt) rfl _ (hc (by simp)) (fun _ _ => rfl)
      · intro x y hx hy
        rw [← Binary32.ge_eq_not_lt hx hy]
        rfl
      · simpa [invert, result, Operator.result] using h
    | ge =>
      apply hordered (t := Binary32.ge) rfl _ (hc (by simp)) (fun _ _ => rfl)
      · intro x y hx hy
        rw [Binary32.ge_eq_not_lt hx hy, Bool.not_not]
        rfl
      · simpa [invert, result, Operator.result] using h
    | le =>
      apply hordered (t := Binary32.le) rfl _ (hc (by simp)) (fun _ _ => rfl)
      · intro x y hx hy
        rw [Binary32.le_eq_not_gt hx hy, Bool.not_not]
        rfl
      · simpa [invert, result, Operator.result] using h
    | eq =>
      have htypes : l.result = r.result := by simpa [invert, result, Operator.result] using h
      by_cases hstring : l.result = .string
      · obtain ⟨s, hs⟩ := held_text A ρ escapes hstring
        obtain ⟨t, ht⟩ := held_text A ρ escapes (htypes ▸ hstring)
        simp only [invert, held, hs, ht, Held.holds, hA s t]
      · obtain ⟨x, hx⟩ := held_number A ρ escapes hstring
        obtain ⟨y, hy⟩ := held_number A ρ escapes (htypes ▸ hstring)
        exact holds_opposite (t := x.eq y) hx hy rfl rfl
    | xor | add | sub | mul | div | neq => exact holds_eq_zero result_ne_string

theorem comparable_of_definite (hA : A.Definite) (hρ : ρ.Definite) (hv : v.Finite) :
    v.Comparable A ρ escapes := by
  have hnan {w : Value} (hw : w.Finite) : (w.held A ρ escapes).isNaN = false := by
    cases hheld : w.held A ρ escapes with
    | number x => exact not_isNaN_of_held hA hρ hw hheld
    | text s => rfl
  induction v with
  | binary op l r ihl ihr =>
    cases op with
    | and | or => exact ⟨ihl hv.1, ihr hv.2⟩
    | _ => exact fun _ => ⟨hnan hv.1, hnan hv.2⟩
  | _ => trivial

/-- Where no operator gives NaN, every comparison can be inverted. -/
theorem holds_held_invert (hA : A.Definite) (hρ : ρ.Definite) (hv : v.Finite) (hn : v.Negatable)
    (h : v.invert.result = .float) :
    (v.invert.held A ρ escapes).holds = !(v.held A ρ escapes).holds :=
  holds_held_invert_of_comparable hA.text (comparable_of_definite hA hρ hv) hn h

/-! ### Variables that stand alone -/

theorem invert_turned : v.turned.invert = v.invert := by
  induction v with
  | binary op l r ihl ihr =>
    cases op with
    | and | or => simp only [turned, invert, ihl, ihr]
    | _ => rfl
  | _ => rfl

theorem negatable_turned : v.turned.Negatable := by
  induction v with
  | binary op l r ihl ihr =>
    cases op with
    | and | or => exact ⟨ihl, ihr⟩
    | _ => trivial
  | _ => trivial

theorem comparable_turned (hc : v.Comparable A ρ escapes) : v.turned.Comparable A ρ escapes := by
  induction v with
  | floatVar name => simp [turned, Comparable]
  | binary op l r ihl ihr =>
    cases op with
    | and | or => exact ⟨ihl hc.1, ihr hc.2⟩
    | _ => exact hc
  | _ => trivial

/-- The inverse is that of the condition with every lone variable compared with zero: it negates the
condition unless a variable stands alone. -/
theorem holds_invert_turned (hA : A.Discerning) (hc : v.Comparable A ρ escapes)
    (h : v.invert.result = .float) :
    (v.invert.held A ρ escapes).holds = !(v.turned.held A ρ escapes).holds ∧
      (v.Negatable → (v.invert.held A ρ escapes).holds = !(v.held A ρ escapes).holds) := by
  constructor
  · rw [← invert_turned] at h ⊢
    exact holds_held_invert_of_comparable hA (comparable_turned hc) negatable_turned h
  · intro hn
    exact holds_held_invert_of_comparable hA hc hn h

/-- With both variables one, `x > 0 && y` holds, and so does its inverse; `x > 0 && y == 0` has the
same inverse and does not hold. -/
theorem holds_invert_turned_conjunction :
    ∃ (v w : Value) (ρ : Assignment),
      v = binary .and (binary .gt (floatVar [120]) (const .zero)) (floatVar [121]) ∧
      w = binary .and (binary .gt (floatVar [120]) (const .zero))
        (binary .eq (floatVar [121]) (const .zero)) ∧
      ρ = ⟨fun _ => .one, fun _ => []⟩ ∧ Arithmetic.plain.Discerning ∧
      v.Comparable .plain ρ true ∧ v.invert.result = .float ∧
      (v.held .plain ρ true).holds = true ∧ (v.invert.held .plain ρ true).holds = true ∧
      w.Comparable .plain ρ true ∧ w.invert.result = .float ∧ w.Negatable ∧
      (w.held .plain ρ true).holds = false ∧ (w.invert.held .plain ρ true).holds = true := by
  let ρ : Assignment := ⟨fun _ => .one, fun _ => []⟩
  let positive := binary .gt (floatVar [120]) (const .zero)
  let w := binary .and positive (binary .eq (floatVar [121]) (const .zero))
  have hv : (binary .and positive (floatVar [121])).Comparable .plain ρ true :=
    ⟨fun _ => ⟨by decide, by decide⟩, trivial⟩
  have hw : w.Comparable .plain ρ true := ⟨fun _ => ⟨by decide, by decide⟩, by simp [Comparable]⟩
  have hfalse : (w.held .plain ρ true).holds = false := by decide
  have hlone := (holds_invert_turned Arithmetic.definite_plain.text hv rfl).1
  have hjoined := (holds_invert_turned Arithmetic.definite_plain.text hw rfl).2 ⟨trivial, trivial⟩
  exact ⟨_, w, ρ, rfl, rfl, rfl, Arithmetic.definite_plain.text, hv, rfl, by decide,
    hlone.trans (congrArg not hfalse), hw, rfl, ⟨trivial, trivial⟩, hfalse,
    hjoined.trans (congrArg not hfalse)⟩

/-- A variable that stands alone holds together with its inverse. -/
theorem holds_invert_lone :
    ∃ (v : Value) (ρ : Assignment), (∀ name, (ρ.number name).isNaN = false) ∧
      v.invert.result = .float ∧ (v.held .plain ρ true).holds = true ∧
      (v.invert.held .plain ρ true).holds = true := by
  apply Exists.intro (floatVar [120])
  apply Exists.intro ⟨fun _ => .one, fun _ => []⟩
  have hone : Binary32.one.isNaN = false := by decide
  exact ⟨fun _ => hone, rfl, by decide, by decide⟩

/-! ### Folding first -/

/-- A value without variables can be negated. -/
theorem negatable_of_fold_const {x : Binary32} (h : v.fold = .ok (const x)) : v.Negatable := by
  induction v generalizing x with
  | floatVar name => cases h
  | binary op l r ihl ihr =>
    obtain ⟨l', r', hl, hr, ⟨y, z, w, rfl, rfl, -⟩ | hbinary⟩ := fold_binary_ok h
    · cases op with
      | and => exact ⟨ihl hl, ihr hr⟩
      | or => exact ⟨ihl hl, ihr hr⟩
      | _ => trivial
    · cases hbinary
  | _ => trivial

theorem Negatable.fold (hn : v.Negatable) (h : v.fold = .ok v') : v'.Negatable := by
  induction v generalizing v' with
  | floatVar name => exact hn.elim
  | binary op l r ihl ihr =>
    obtain ⟨l', r', hl, hr, ⟨y, z, w, -, -, -, rfl⟩ | rfl⟩ := fold_binary_ok h
    · trivial
    · cases op with
      | and => exact ⟨ihl hn.1 hl, ihr hn.2 hr⟩
      | or => exact ⟨ihl hn.1 hl, ihr hn.2 hr⟩
      | _ => trivial
  | _ => cases h; trivial

/-- Folding a condition first does not change when its inverse holds. -/
theorem holds_held_invert_fold (hA : A.Definite) (hρ : ρ.Definite) (hv : v.Finite)
    (hfold : v.fold = .ok v') (h : v.invert.result = .float) (h' : v'.invert.result = .float) :
    (v'.invert.held A ρ escapes).holds = (v.invert.held A ρ escapes).holds := by
  induction v generalizing v' with
  | binary op l r ihl ihr =>
    obtain ⟨l', r', hl, hr, ⟨x, y, z, rfl, rfl, hz, rfl⟩ | rfl⟩ := fold_binary_ok hfold
    · -- nothing but numbers: both inverses are the negation of the same number
      rw [holds_held_invert hA hρ hv (negatable_of_fold_const hfold) h, ← held_fold hfold]
      simp [invert, held, Held.holds, Binary32.isZero_truth]
    · have hjoined (hop : op = .and ∨ op = .or) :
          ((binary op l' r').invert.held A ρ escapes).holds =
            ((binary op l r).invert.held A ρ escapes).holds := by
        obtain ⟨hil, hir, hinvert⟩ := invert_joined hop h
        obtain ⟨hil', hir', hinvert'⟩ := invert_joined hop h'
        have hother : (if op = .and then Operator.or else .and) = .and ∨
            (if op = .and then Operator.or else .and) = .or := by
          rcases hop with rfl | rfl <;> simp
        obtain ⟨x, hx⟩ := held_number A ρ escapes (v := l.invert) (by simp [hil])
        obtain ⟨y, hy⟩ := held_number A ρ escapes (v := r.invert) (by simp [hir])
        obtain ⟨x', hx'⟩ := held_number A ρ escapes (v := l'.invert) (by simp [hil'])
        obtain ⟨y', hy'⟩ := held_number A ρ escapes (v := r'.invert) (by simp [hir'])
        rw [hinvert, hinvert', held, held, holds_joined hother hx' hy', holds_joined hother hx hy,
          ihl hv.1 hl hil hil', ihr hv.2 hr hir hir']
      cases op with
      | and => exact hjoined (Or.inl rfl)
      | or => exact hjoined (Or.inr rfl)
      | gt | lt | ge | le | eq => simp only [invert, held, held_fold hl, held_fold hr]
      | xor | add | sub | mul | div | neq => simp only [invert, held, held_fold hl, held_fold hr]
  | _ => cases hfold; rfl

/-! ### Where the inverse is stored -/

theorem Finite.invert (hv : v.Finite) : v.invert.Finite := by
  induction v with
  | const x => exact Binary32.isFinite_truth _
  | floatVar name => exact ⟨trivial, Binary32.isFinite_zero⟩
  | binary op l r ihl ihr =>
    cases op with
    | and | or =>
      simp only [Value.invert]
      split
      · trivial
      · exact ⟨ihl hv.1, ihr hv.2⟩
    | gt | lt | ge | le | eq => exact hv
    | xor | add | sub | mul | div | neq => exact ⟨hv, Binary32.isFinite_zero⟩
  | _ => trivial

theorem invert_ne_floatVar {name : Bytes} : v.invert ≠ floatVar name := by
  cases v with
  | binary op l r =>
    cases op with
    | and | or =>
      simp only [Value.invert]
      split <;> nofun
    | _ => nofun
  | _ => nofun

/-- Only a variable is stored as a sum that it is not. -/
theorem holds_eq_holds_held (hv : v.Finite) (hvar : ∀ name, v ≠ floatVar name)
    (h : v.result ≠ .string) : v.holds A ρ escapes = (v.held A ρ escapes).holds := by
  cases v with
  | const x => exact holds_const hv
  | floatVar name => exact absurd rfl (hvar name)
  | stringConst raw => exact absurd rfl h
  | stringVar name => exact absurd rfl h
  | binary op l r => rfl
  | invalid =>
    have hzero : (const .zero).holds A ρ escapes = !Binary32.zero.isZero :=
      holds_const Binary32.isFinite_zero
    exact hzero

theorem holds_invert (hA : A.Definite) (hρ : ρ.Definite) (hv : v.Finite) (hn : v.Negatable)
    (h : v.invert.result = .float) :
    v.invert.holds A ρ escapes = !v.holds A ρ escapes := by
  have hvar (name : Bytes) : v ≠ floatVar name := by
    rintro rfl
    exact hn
  rw [holds_eq_holds_held hv.invert (fun _ => invert_ne_floatVar) (by simp [h]),
    holds_eq_holds_held hv hvar (result_ne_string_of_invert h), holds_held_invert hA hρ hv hn h]

theorem holds_invert_fold (hA : A.Definite) (hρ : ρ.Definite) (hv : v.Finite)
    (hfold : v.fold = .ok v') (h : v.invert.result = .float) (h' : v'.invert.result = .float) :
    v'.invert.holds A ρ escapes = v.invert.holds A ρ escapes := by
  rw [holds_eq_holds_held (hv.fold hfold).invert (fun _ => invert_ne_floatVar) (by simp [h']),
    holds_eq_holds_held hv.invert (fun _ => invert_ne_floatVar) (by simp [h]),
    holds_held_invert_fold hA hρ hv hfold h h']

end Value

/-! ### Stored conditions -/

/-- No variable stands alone among the terms that the operand joins by `&&` and `||`. -/
def Operand.Negatable (type : UInt8) : Operand → Prop
  | name _ => type ≠ OperandType.floatVar.code
  | nested op lt _ l rt _ r => op = Operator.and.code ∨ op = Operator.or.code →
      l.Negatable lt ∧ r.Negatable rt
  | _ => True

/-- The expression is no variable, and none stands alone among its terms. -/
structure Expr.Negatable (e : Expr) : Prop where
  joined : e.op = Operator.and.code ∨ e.op = Operator.or.code →
    e.left.value.Negatable e.left.type ∧ e.right.value.Negatable e.right.type
  single : e.op = Operator.add.code → e.left.value = .float .zero →
    e.right.type ≠ OperandType.floatVar.code

namespace Value

variable {escapes : Bool} {v : Value}

theorem negatable_of_toSide {pos : UInt64} {s : Side} (h : v.toSide escapes pos = .ok s)
    (hs : s.value.Negatable s.type) : v.Negatable := by
  induction v generalizing pos s with
  | floatVar name =>
    cases h
    exact hs rfl
  | binary op l r ihl ihr =>
    obtain ⟨e, he, h⟩ := bind_eq_ok.1 h
    cases h
    obtain ⟨left, right, hl, hr, rfl⟩ := node_ok he
    cases op with
    | and => exact ⟨ihl hl (hs (Or.inl rfl)).1, ihr hr (hs (Or.inl rfl)).2⟩
    | or => exact ⟨ihl hl (hs (Or.inr rfl)).1, ihr hr (hs (Or.inr rfl)).2⟩
    | _ => trivial
  | _ => trivial

/-- A value that is stored as it stands can be negated if its expression can. -/
theorem negatable_of_layout {e : Expr} (h : v.layout escapes = .ok e) (he : e.Negatable) :
    v.Negatable := by
  cases v with
  | floatVar name =>
    unfold layout at h
    obtain ⟨left, right, hl, hr, rfl⟩ := node_ok h
    cases hl
    cases hr
    exact he.single rfl rfl rfl
  | binary op l r =>
    unfold layout at h
    obtain ⟨left, right, hl, hr, rfl⟩ := node_ok h
    have hsides (hop : op = .and ∨ op = .or) : l.Negatable ∧ r.Negatable := by
      have hcode := hop.imp (congrArg Operator.code) (congrArg Operator.code)
      obtain ⟨hleft, hright⟩ := he.joined hcode
      exact ⟨negatable_of_toSide hl hleft, negatable_of_toSide hr hright⟩
    cases op with
    | and => exact hsides (Or.inl rfl)
    | or => exact hsides (Or.inr rfl)
    | _ => trivial
  | _ => trivial

end Value

end ApeScript
