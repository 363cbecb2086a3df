import ApeScript.Proofs.NestedSwitch

/-!
# Skeletons in windows and switches

When a switch that is filled with a skeleton is accepted, the window filled with the same skeleton
is accepted exactly if every branch without braces that has an `else` is a single directive, and the
conditions around every text fit into one expression. Those of at most one operator do.
-/

namespace ApeScript

/-! ### Conditions that fit -/

/-- An expression of numbers and variables, nested in no more than the given levels of operators. -/
def Value.Shallow : Value → Nat → Prop
  | .const _, _ => True
  | .floatVar _, _ => True
  | .stringVar _, _ => True
  | .binary _ l r, levels + 1 => l.Shallow levels ∧ r.Shallow levels
  | _, _ => False

namespace Value

variable {v : Value} {escapes : Bool} {op : Operator} {pos : UInt64} {levels levels' : Nat}

theorem Shallow.mono (hv : v.Shallow levels) (h : levels ≤ levels') : v.Shallow levels' := by
  induction v generalizing levels levels' with
  | const x => trivial
  | floatVar name => trivial
  | stringVar name => trivial
  | binary op l r ihl ihr =>
    cases levels with
    | zero => cases hv
    | succ levels =>
      obtain ⟨more, rfl⟩ : ∃ more, levels' = more + 1 := ⟨levels' - 1, by omega⟩
      exact ⟨ihl hv.1 (by omega), ihr hv.2 (by omega)⟩
  | _ => cases hv

/-- There is a place for both sides of an operator, as long as four times the place fits. -/
theorem exists_node {left right : UInt64 → Except Cause Side} (hpos : pos.toNat < 2 ^ 62)
    (hl : ∀ pos' : UInt64, pos'.toNat = 4 * pos.toNat + 1 → ∃ s, left pos' = .ok s)
    (hr : ∀ pos' : UInt64, pos'.toNat = 4 * pos.toNat + 2 → ∃ s, right pos' = .ok s) :
    ∃ e, node op pos left right = .ok e := by
  have hsmall : ¬ pos >>> 62 ≠ 0 := by
    rw [not_not, ← UInt64.toNat_inj, UInt64.toNat_shiftRight, Nat.shiftRight_eq_div_pow]
    exact Nat.div_eq_of_lt hpos
  obtain ⟨l, hl⟩ := hl (pos <<< 2 + 1) (toNat_below hsmall 1 (by decide))
  obtain ⟨r, hr⟩ := hr (pos <<< 2 + 2) (toNat_below hsmall 2 (by decide))
  refine ⟨⟨op.code, l, r⟩, ?_⟩
  rw [node, if_neg hsmall, hl, hr]
  rfl

theorem exists_toSide (hv : v.Shallow levels) (hpos : (pos.toNat + 1) * 4 ^ levels ≤ 2 ^ 64) :
    ∃ s, v.toSide escapes pos = .ok s := by
  induction v generalizing pos levels with
  | const x => exact ⟨_, rfl⟩
  | floatVar name => exact ⟨_, rfl⟩
  | stringVar name => exact ⟨_, rfl⟩
  | binary op l r ihl ihr =>
    cases levels with
    | zero => cases hv
    | succ levels =>
      have hbelow (pos' : UInt64) (h : pos'.toNat ≤ 4 * pos.toNat + 2) :
          (pos'.toNat + 1) * 4 ^ levels ≤ 2 ^ 64 := by
        refine le_trans ?_ hpos
        rw [pow_succ', ← mul_assoc]
        exact Nat.mul_le_mul_right _ (by omega)
      have hsmall : pos.toNat < 2 ^ 62 := by
        have hone : 1 ≤ 4 ^ levels := Nat.one_le_pow _ _ (by decide)
        rw [pow_succ', ← mul_assoc] at hpos
        have := le_trans (Nat.le_mul_of_pos_right _ hone) hpos
        omega
      have hl (pos' : UInt64) (h : pos'.toNat = 4 * pos.toNat + 1) :
          ∃ s, l.toSide escapes pos' = .ok s := ihl hv.1 (hbelow pos' (by omega))
      have hr (pos' : UInt64) (h : pos'.toNat = 4 * pos.toNat + 2) :
          ∃ s, r.toSide escapes pos' = .ok s := ihr hv.2 (hbelow pos' (by omega))
      obtain ⟨e, he⟩ : ∃ e, node op pos (l.toSide escapes) (r.toSide escapes) = .ok e :=
        exists_node hsmall hl hr
      refine ⟨⟨OperandType.expression.code, pos, e.toOperand⟩, ?_⟩
      rw [toSide, he]
      rfl
  | _ => cases hv

/-- The root stands at place one, so that there are places for thirty-one levels of operators. -/
theorem exists_layout (hv : v.Shallow 31) : ∃ e, v.layout escapes = .ok e := by
  cases v with
  | const x => exact ⟨_, rfl⟩
  | floatVar name => exact ⟨_, rfl⟩
  | stringVar name => exact ⟨_, rfl⟩
  | binary op l r =>
    have hone : (1 : UInt64).toNat < 2 ^ 62 := by decide
    refine exists_node hone (fun pos h => exists_toSide hv.1 ?_) fun pos h =>
      exists_toSide hv.2 ?_
    · rw [h]
      decide
    · rw [h]
      decide
  | _ => cases hv

theorem shallow_foldl {first : Value} {rest : List Value} (hfirst : first.Shallow levels)
    (hrest : ∀ u ∈ rest, u.Shallow levels) :
    (rest.foldl (binary .and) first).Shallow (levels + rest.length) := by
  induction rest generalizing first levels with
  | nil => exact hfirst
  | cons u rest ih =>
    obtain ⟨hu, hrest⟩ := List.forall_mem_cons.1 hrest
    have hjoined : (binary .and first u).Shallow (levels + 1) := ⟨hfirst, hu⟩
    have hmore := ih hjoined fun v hv => (hrest v hv).mono (Nat.le_succ levels)
    rwa [List.length_cons, Nat.add_comm rest.length, ← Nat.add_assoc]

end Value

/-- Up to thirty-one conditions of one operator at most can be laid out together. -/
theorem exists_laid {o : Options} {l : List Value} (hl : ∀ v ∈ l, v.Shallow 1)
    (hlength : l.length ≤ 31) : ∃ e, Laid o l e := by
  cases l with
  | nil => exact ⟨none, .none⟩
  | cons first rest =>
    obtain ⟨hfirst, hrest⟩ := List.forall_mem_cons.1 hl
    have hlevels : 1 + rest.length ≤ 31 := by
      rw [List.length_cons] at hlength
      omega
    obtain ⟨e, he⟩ := Value.exists_layout ((Value.shallow_foldl hfirst hrest).mono hlevels)
    exact ⟨some e, .some he⟩

/-! ### Skeletons that fit -/

section

variable {γ δ ε : Type} {p : Passage γ δ}

def Passage.AllConditions (P : γ → Prop) : Passage γ δ → Prop
  | .done => True
  | .plain _ rest => rest.AllConditions P
  | .ifThen c _ p rest => P c ∧ p.AllConditions P ∧ rest.AllConditions P
  | .ifElse c _ p _ q rest =>
    P c ∧ p.AllConditions P ∧ q.AllConditions P ∧ rest.AllConditions P

/-- What holds of all conditions and their negations holds of what stands around a directive. -/
theorem Passage.AllConditions.enclosed {P : γ → Prop} {Q : ε → Prop} {f : γ → ε} {negate : ε → ε}
    (hP : ∀ c, P c → Q (f c) ∧ Q (negate (f c))) (hp : p.AllConditions P) {outer : List ε}
    (houter : ∀ v ∈ outer, Q v) : ∀ x ∈ (p.map f).enclosed negate outer, ∀ v ∈ x.2, Q v := by
  have hinner {v : ε} (hv : Q v) {outer : List ε} (houter : ∀ v ∈ outer, Q v) :
      ∀ u ∈ outer ++ [v], Q u := List.forall_mem_append.2 ⟨houter, by simpa using hv⟩
  induction p generalizing outer with
  | done => simp [Passage.map, Passage.enclosed]
  | plain d rest ih => exact List.forall_mem_cons.2 ⟨houter, ih hp houter⟩
  | ifThen c b p rest ihp ih =>
    obtain ⟨hc, hp, hrest⟩ := hp
    exact List.forall_mem_append.2 ⟨ihp hp (hinner (hP c hc).1 houter), ih hrest houter⟩
  | ifElse c b p b' q rest ihp ihq ih =>
    obtain ⟨hc, hp, hq, hrest⟩ := hp
    have hif := ihp hp (hinner (hP c hc).1 houter)
    have helse := ihq hq (hinner (hP c hc).2 houter)
    exact List.forall_mem_append.2 ⟨hif, List.forall_mem_append.2 ⟨helse, ih hrest houter⟩⟩

end

/-- The conditions around every text can be laid out together. -/
def Skeleton.Fits (p : Skeleton) : Prop :=
  ∀ x ∈ (p.map Condition.value).enclosed Value.invert [], ∃ e, Laid Options.defaults x.2 e

def Condition.Brief (condition : Condition) : Prop :=
  condition.value.Shallow 1 ∧ condition.value.invert.Shallow 1

theorem Condition.brief_variable {name : Bytes} (hname : Script.Variable name) :
    (Condition.variable hname).Brief := ⟨trivial, trivial, trivial⟩

/-- When a switch is accepted, the window with the same skeleton is accepted if every branch without
braces that has an `else` is a single directive, and the conditions around every text fit into one
expression, as they do if all conditions are brief. -/
theorem accepted_window_of_switch {label label' : Label} (hlabel : label.isInline = false)
    (hzero : label ≠ 0) (hlabel' : label'.isInline = false) (hzero' : label' ≠ 0) {p : Skeleton}
    (hp : p.Grammatical)
    (hswitch : Accepted (switchScript label (signLines (utf8 "echo") p.signs))) :
    (Accepted (windowScript label' (signLines (utf8 "body") p.signs)) ↔
      p.isDirect = true ∧ p.Fits) ∧ (p.AllConditions Condition.Brief → p.Fits) := by
  refine ⟨accepted_window hlabel' hzero' hp, fun hbrief x hx => ?_⟩
  have hshallow : ∀ v ∈ x.2, v.Shallow 1 := hbrief.enclosed (fun _ h => h) (by simp) x hx
  exact exists_laid hshallow (hswitch.enclosed_length hlabel hzero hp x hx)

/-- The text `x`. -/
def shownSkeleton : Skeleton := .plain ⟨utf8 "x", by decide⟩ .done

/-- A branch on the variable `a` that has an `else`, both without braces. -/
def elseSkeleton (inner : Skeleton) : Skeleton :=
  .ifElse (.variable (⟨.of_all rfl, by decide⟩ : Script.Variable (utf8 "a"))) false inner false
    (.plain ⟨utf8 "y", by decide⟩ .done) .done

theorem grammatical_elseSkeleton {p : Skeleton} (hp : p.Grammatical) (hsingle : p.isSingle = true)
    (helse : p.lacksElse = false) : (elseSkeleton p).Grammatical :=
  ⟨Or.inr ⟨hsingle, helse⟩, Or.inr rfl, hp, trivial, trivial⟩

theorem accepted_window_of_switch_else :
    Accepted (switchScript 1 (signLines (utf8 "echo") (elseSkeleton shownSkeleton).signs)) ∧
      Accepted (windowScript 1 (signLines (utf8 "body") (elseSkeleton shownSkeleton).signs)) := by
  have hlabel : Label.isInline 1 = false := by decide
  have hzero : (1 : Label) ≠ 0 := by decide
  have hp : (elseSkeleton shownSkeleton).Grammatical := grammatical_elseSkeleton trivial rfl rfl
  have hswitch : Accepted (switchScript 1
      (signLines (utf8 "echo") (elseSkeleton shownSkeleton).signs)) :=
    of_decide_eq_true (by cbv)
  obtain ⟨hwindow, hfits⟩ := accepted_window_of_switch hlabel hzero hlabel hzero hp hswitch
  have hbrief : (elseSkeleton shownSkeleton).AllConditions Condition.Brief :=
    ⟨Condition.brief_variable _, trivial, trivial, trivial⟩
  exact ⟨hswitch, hwindow.2 ⟨rfl, hfits hbrief⟩⟩

/-- An `else` after an `else` ends a branch in a switch, and has no `if` in a window. -/
theorem accepted_switch_else_else :
    (elseSkeleton (elseSkeleton shownSkeleton)).Grammatical ∧
      Accepted (switchScript 1
        (signLines (utf8 "echo") (elseSkeleton (elseSkeleton shownSkeleton)).signs)) ∧
      ¬ Accepted (windowScript 1
        (signLines (utf8 "body") (elseSkeleton (elseSkeleton shownSkeleton)).signs)) := by
  refine ⟨grammatical_elseSkeleton ?_ rfl rfl, of_decide_eq_true ?_, of_decide_eq_false ?_⟩
  · exact grammatical_elseSkeleton trivial rfl rfl
  · cbv
  · cbv

end ApeScript
