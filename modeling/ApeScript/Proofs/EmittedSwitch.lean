import ApeScript.Compile.SwitchBody
import ApeScript.Proofs.CompiledExpr
import ApeScript.Proofs.CompilerRun
import ApeScript.Proofs.PlacedBlock

/-!
# Emitted switches

The parser gives drafts in which only `if` and `while` govern other statements. Simplifying such a
draft leaves one in which every block that is governed has something to run. Its statements are
emitted at the places of a block with the same statements, so that the places are distinct, none of
them wraps around, and reading them back gives that block.
-/

namespace ApeScript

theorem StatementType.isControl_code {t : StatementType} :
    isControl t.code = true ↔ t = .ifThen ∨ t = .while := by
  cases t <;> decide

theorem StatementType.code_eq_while {t : StatementType} :
    t.code = StatementType.while.code ↔ t = .while := by
  cases t <;> decide

def Block.idle : Block := .step ⟨1, StatementType.noOp.code, none, [], none⟩ .done .done .done

namespace DraftStatement

/-- Only an `if` or a `while` governs statements, under a condition. -/
@[mk_iff]
structure Governs (s : DraftStatement) (inner alt : Draft) : Prop where
  control : s.type = .ifThen ∨ s.type = .while → s.expr.isSome = true
  simple : s.type ≠ .ifThen → s.type ≠ .while → inner = .done ∧ alt = .done

/-- Besides, what is governed is not empty, and a `while` has no alternative. -/
structure Runs (s : DraftStatement) (inner alt : Draft) : Prop extends s.Governs inner alt where
  governed : s.type = .ifThen ∨ s.type = .while → inner ≠ .done
  loop : s.type = .while → alt = .done

structure StoredAs (o : Options) (s : DraftStatement) (t : Statement) : Prop where
  type : t.type = s.type.code
  str : t.str = s.str
  format : t.format = s.format
  expr : Option.Rel (Value.StoredAs o) s.expr t.expr

theorem StoredAs.isSome_expr {o : Options} {s : DraftStatement} {t : Statement}
    (h : s.StoredAs o t) : s.expr.isSome = t.expr.isSome := by
  cases s
  cases t
  cases h.expr with
  | some => rfl
  | none => rfl

end DraftStatement

namespace Draft

def All (P : DraftStatement → Prop) : Draft → Prop
  | done => True
  | step s inner alt rest => P s ∧ inner.All P ∧ alt.All P ∧ rest.All P

/-- Every statement governs what its type allows. -/
def Shaped : Draft → Prop
  | done => True
  | step s inner alt rest => s.Governs inner alt ∧ inner.Shaped ∧ alt.Shaped ∧ rest.Shaped

/-- Every statement governs what its type asks for. -/
def Runnable : Draft → Prop
  | done => True
  | step s inner alt rest => s.Runs inner alt ∧ inner.Runnable ∧ alt.Runnable ∧ rest.Runnable

/-- A block with the statements of a draft, in the same order and the same nesting. -/
def StoredAs (o : Options) : Draft → Block → Prop
  | done, .done => True
  | step s inner alt rest, .step p inner' alt' rest' => s.StoredAs o p.statement ∧
      inner.StoredAs o inner' ∧ alt.StoredAs o alt' ∧ rest.StoredAs o rest'
  | _, _ => False

variable {s : DraftStatement} {inner alt rest d d' here : Draft} {optimize : Bool}

theorem isDone_eq_false : d.isDone = false ↔ d ≠ done := by
  cases d <;> simp [isDone]

theorem append_eq (d d' : Draft) : d ++ d' = d.append d' := rfl

theorem append_eq_done : d ++ d' = done ↔ d = done ∧ d' = done := by
  cases d <;> simp [append_eq, append]

theorem All.append {P : DraftStatement → Prop} (hd : d.All P) (hd' : d'.All P) :
    (d ++ d').All P := by
  rw [append_eq]
  induction d with
  | done => exact hd'
  | step s inner alt rest _ _ ih => exact ⟨hd.1, hd.2.1, hd.2.2.1, ih hd.2.2.2⟩

theorem All.single {P : DraftStatement → Prop} (hs : P s) : (single s).All P :=
  ⟨hs, trivial, trivial, trivial⟩

theorem Shaped.append (hd : d.Shaped) (hd' : d'.Shaped) : (d ++ d').Shaped := by
  rw [append_eq]
  induction d with
  | done => exact hd'
  | step s inner alt rest _ _ ih => exact ⟨hd.1, hd.2.1, hd.2.2.1, ih hd.2.2.2⟩

theorem Runnable.append (hd : d.Runnable) (hd' : d'.Runnable) : (d ++ d').Runnable := by
  rw [append_eq]
  induction d with
  | done => exact hd'
  | step s inner alt rest _ _ ih => exact ⟨hd.1, hd.2.1, hd.2.2.1, ih hd.2.2.2⟩

/-! ### Simplifying -/

inductive Reduces (optimize : Bool) (s : DraftStatement) (inner alt : Draft) : Draft → Prop
  | chosen {condition : Value} {x : Binary32} {inner' alt' : Draft} (hopt : optimize = true)
      (htype : s.type = .ifThen) (hexpr : s.expr = some condition)
      (hfold : condition.fold = .ok (.const x)) (hinner : inner.simplify optimize = .ok inner')
      (halt : alt.simplify optimize = .ok alt') :
      Reduces optimize s inner alt (if x.isZero then alt' else inner')
  | branch {condition folded : Value} {inner' alt' here : Draft} (htype : s.type = .ifThen)
      (hexpr : s.expr = some condition)
      (hfold : (if optimize then condition.fold else .ok condition) = .ok folded)
      (hinner : inner.simplify optimize = .ok inner') (halt : alt.simplify optimize = .ok alt')
      (hhere : simplifyIf s folded inner' alt' = .ok here) : Reduces optimize s inner alt here
  | loop {inner' : Draft} (htype : s.type = .while) (hinner : inner.simplify optimize = .ok inner')
      (hne : inner' ≠ done) : Reduces optimize s inner alt (step s inner' done done)
  | simple (hloop : s.type ≠ .while) (hif : s.type = .ifThen → s.expr = none) :
      Reduces optimize s inner alt (step s inner alt done)

theorem simplify_step_ok (h : (step s inner alt rest).simplify optimize = .ok d) :
    ∃ here rest', Reduces optimize s inner alt here ∧ rest.simplify optimize = .ok rest' ∧
      d = here ++ rest' := by
  -- whatever is left of the statement, the rest is simplified and put after it
  have hrest {here : Draft} (hhere : Reduces optimize s inner alt here)
      (h : (simplify optimize rest >>= fun rest' => pure (here ++ rest')) = .ok d) :
      ∃ here rest', Reduces optimize s inner alt here ∧ rest.simplify optimize = .ok rest' ∧
        d = here ++ rest' := by
    obtain ⟨rest', hr, hd⟩ := bind_eq_ok.1 h
    exact ⟨here, rest', hhere, hr, (Except.ok.inj hd).symm⟩
  rw [simplify] at h
  split at h
  · rename_i condition htype hexpr
    extract_lets choose at h
    have hchoose {folded : Value}
        (hfold : (if optimize then condition.fold else .ok condition) = .ok folded)
        (h : choose folded = .ok d) : ∃ here rest', Reduces optimize s inner alt here ∧
          rest.simplify optimize = .ok rest' ∧ d = here ++ rest' := by
      obtain ⟨inner', hinner, h⟩ := bind_eq_ok.1 h
      obtain ⟨alt', halt, h⟩ := bind_eq_ok.1 h
      split at h
      · exact hrest (.chosen rfl htype hexpr (by simpa using hfold) hinner halt) h
      · obtain ⟨here, hhere, h⟩ := bind_eq_ok.1 h
        exact hrest (.branch htype hexpr hfold hinner halt hhere) h
    split at h
    · cases hc : condition.fold with
      | error e => rw [hc] at h; cases h
      | ok folded =>
        rw [hc] at h
        exact hchoose (by rw [if_pos ‹_›, hc]) h
    · exact hchoose (if_neg ‹_›) h
  · obtain ⟨inner', hinner, h⟩ := bind_eq_ok.1 h
    split at h
    · cases h
    · refine hrest (.loop ‹_› hinner (isDone_eq_false.1 ?_)) h
      simpa using ‹¬ inner'.isDone = true›
  · rename_i hloop hif
    refine hrest (.simple (fun htype => hloop htype) fun htype => ?_) h
    exact Option.eq_none_iff_forall_ne_some.2 fun v hv => hif v htype hv

/-- An `if` is dropped, inverted or kept. -/
theorem simplifyIf_ok {condition : Value} (h : simplifyIf s condition inner alt = .ok here) :
    inner = done ∧ alt = done ∧ here = done ∨
    inner = done ∧ alt ≠ done ∧ condition.invert.isFloat = true ∧
      here = step ⟨.ifThen, none, [], some condition.invert, s.loc⟩ alt done done ∨
    inner ≠ done ∧ here = step ⟨.ifThen, none, [], some condition, s.loc⟩ inner alt done := by
  unfold simplifyIf at h
  split at h
  · exact Or.inl ⟨rfl, rfl, (Except.ok.inj h).symm⟩
  · simp only at h
    split at h
    · exact Or.inr (Or.inl ⟨rfl, ‹_›, ‹_›, (Except.ok.inj h).symm⟩)
    · cases h
  · refine Or.inr (Or.inr ⟨?_, (Except.ok.inj h).symm⟩)
    rintro rfl
    cases alt <;> simp_all

/-- Simplifying keeps the statements, but for an `if`, which may get another condition. -/
theorem All.simplify {P : DraftStatement → Prop} (hd : d.All P)
    (h : d.simplify optimize = .ok d')
    (hif : ∀ s condition folded, P s → s.expr = some condition →
      (if optimize then condition.fold else .ok condition) = .ok folded →
      P ⟨.ifThen, none, [], some folded, s.loc⟩ ∧
        P ⟨.ifThen, none, [], some folded.invert, s.loc⟩) : d'.All P := by
  induction d generalizing d' with
  | done =>
    cases h
    trivial
  | step s inner alt rest ihi iha ihr =>
    obtain ⟨hs, hi, ha, hr⟩ := hd
    obtain ⟨here, rest', hhere, hrest, rfl⟩ := simplify_step_ok h
    refine All.append ?_ (ihr hr hrest)
    cases hhere with
    | chosen _ _ _ _ hinner halt =>
      split
      · exact iha ha halt
      · exact ihi hi hinner
    | @branch condition folded _ _ _ _ hexpr hfold hinner halt hhere =>
      obtain ⟨hkept, hinverted⟩ := hif s condition folded hs hexpr hfold
      obtain ⟨-, -, rfl⟩ | ⟨-, -, -, rfl⟩ | ⟨-, rfl⟩ := simplifyIf_ok hhere
      · trivial
      · exact ⟨hinverted, iha ha halt, trivial, trivial⟩
      · exact ⟨hkept, ihi hi hinner, iha ha halt, trivial⟩
    | loop _ hinner _ => exact ⟨hs, ihi hi hinner, trivial, trivial⟩
    | simple _ _ => exact ⟨hs, hi, ha, trivial⟩

theorem runnable_simplifyIf {condition : Value} (hi : inner.Runnable) (ha : alt.Runnable)
    (h : simplifyIf s condition inner alt = .ok here) : here.Runnable := by
  have hhead {v : Value} {inner alt : Draft} (hne : inner ≠ done) :
      (⟨.ifThen, none, [], some v, s.loc⟩ : DraftStatement).Runs inner alt :=
    { control := fun _ => rfl
      simple := fun htype => absurd rfl htype
      governed := fun _ => hne
      loop := nofun }
  obtain ⟨-, -, rfl⟩ | ⟨-, hne, -, rfl⟩ | ⟨hne, rfl⟩ := simplifyIf_ok h
  · trivial
  · exact ⟨hhead hne, ha, trivial, trivial⟩
  · exact ⟨hhead hne, hi, ha, trivial⟩

/-- Only what has something to run is left. -/
theorem runnable_simplify (hd : d.Shaped) (h : d.simplify optimize = .ok d') : d'.Runnable := by
  induction d generalizing d' with
  | done =>
    cases h
    trivial
  | step s inner alt rest ihi iha ihr =>
    obtain ⟨hs, hi, ha, hr⟩ := hd
    obtain ⟨here, rest', hhere, hrest, rfl⟩ := simplify_step_ok h
    refine Runnable.append ?_ (ihr hr hrest)
    cases hhere with
    | chosen _ _ _ _ hinner halt =>
      split
      · exact iha ha halt
      · exact ihi hi hinner
    | branch _ _ _ hinner halt hhere =>
      exact runnable_simplifyIf (ihi hi hinner) (iha ha halt) hhere
    | loop htype hinner hne =>
      refine ⟨⟨⟨hs.control, ?_⟩, fun _ => hne, fun _ => rfl⟩, ihi hi hinner, trivial, trivial⟩
      exact fun _ hloop => absurd htype hloop
    | simple hloop hif =>
      have hplain : s.type ≠ .ifThen := by
        intro htype
        have := hs.control (Or.inl htype)
        simp [hif htype] at this
      obtain ⟨rfl, rfl⟩ := hs.simple hplain hloop
      exact ⟨⟨hs, fun hc => absurd hc (not_or.2 ⟨hplain, hloop⟩), fun _ => rfl⟩, trivial, trivial,
        trivial⟩

/-! ### Storing -/

def EmittedAs (o : Options) : Draft → Block → Prop
  | done, b => b = .idle
  | d, b => d.StoredAs o b

/-- Statements that are emitted for a draft: they are laid out from the first place as a block that
stores what simplifying leaves of the draft. -/
def Compiles (o : Options) (d : Draft) (ps : List Placed) : Prop :=
  ∃ (d' : Draft) (b : Block), d.simplify o.optimize = .ok d' ∧ ps = b.placed ∧ b.LaidFrom 1 ∧
    b.Suited ∧ d'.EmittedAs o b

theorem StoredAs.eq_done_iff {o : Options} {b : Block} (h : d.StoredAs o b) :
    d = done ↔ b = .done := by
  cases d <;> cases b <;> simp_all [StoredAs]

theorem StoredAs.suited {o : Options} {b : Block} (h : d.StoredAs o b) (hd : d.Runnable) :
    b.Suited := by
  induction d generalizing b with
  | done =>
    cases b with
    | done => trivial
    | step => exact h.elim
  | step s inner alt rest ihi iha ihr =>
    cases b with
    | done => exact h.elim
    | step p inner' alt' rest' =>
      obtain ⟨hs, hi, ha, hr⟩ := h
      obtain ⟨hruns, hri, hra, hrr⟩ := hd
      refine ⟨⟨fun hc => ?_, fun hc => ?_, fun hc => ?_⟩, ihi hi hri, iha ha hra, ihr hr hrr⟩
      · rw [hs.type, StatementType.isControl_code] at hc
        exact ⟨fun h => hruns.governed hc (hi.eq_done_iff.2 h),
          hs.isSome_expr ▸ hruns.control hc⟩
      · rw [hs.type, ← Bool.not_eq_true, StatementType.isControl_code, not_or] at hc
        obtain ⟨hinner, halt⟩ := hruns.simple hc.1 hc.2
        exact ⟨hi.eq_done_iff.1 hinner, ha.eq_done_iff.1 halt⟩
      · rw [hs.type, StatementType.code_eq_while] at hc
        exact ha.eq_done_iff.1 (hruns.loop hc)

end Draft

/-- The place one step down is exact when it fits into 64 bits, and refused when it does not. -/
theorem nextPlace_eq {cc step : UInt64} {loc : Location} (hstep : step.toNat < 4) :
    nextPlace cc step loc = if 4 * cc.toNat + step.toNat < 2 ^ 64 then
      .ok (UInt64.ofNat (4 * cc.toNat + step.toNat)) else .error ⟨loc, .tooManyStatements⟩ := by
  have hshift : cc >>> 62 = 0 ↔ 4 * cc.toNat + step.toNat < 2 ^ 64 := by
    rw [← UInt64.toNat_inj, UInt64.toNat_shiftRight, Nat.shiftRight_eq_div_pow]
    have hlt := cc.toNat_lt
    change cc.toNat / 2 ^ 62 = 0 ↔ _
    omega
  unfold nextPlace
  by_cases hfits : 4 * cc.toNat + step.toNat < 2 ^ 64
  · have hsmall : ¬ cc >>> 62 ≠ 0 := not_not.2 (hshift.2 hfits)
    rw [if_neg hsmall, if_pos hfits, Except.ok.injEq, ← UInt64.toNat_inj,
      ← Value.toNat_below hsmall _ hstep, UInt64.ofNat_toNat, UInt64.ofNat_toNat]
  · rw [if_pos fun h => hfits (hshift.1 h), if_neg hfits]

theorem nextPlace_ok {cc step place : UInt64} {loc : Location} (hstep : step.toNat < 4)
    (h : nextPlace cc step loc = .ok place) : place.toNat = 4 * cc.toNat + step.toNat := by
  rw [nextPlace_eq hstep] at h
  split at h
  · cases h
    exact UInt64.toNat_ofNat_of_lt' ‹_›
  · cases h

namespace Compiler

variable {c : CompileContext} {s t : CompileState} {d : Draft}

theorem gives_liftExcept {α : Type} {x : Except CompileError α} :
    Gives (emit.liftExcept x) c s fun a t => x = .ok a ∧ t = s := by
  cases x with
  | ok a => exact .pure ⟨rfl, rfl⟩
  | error e => nofun

/-- The statements of a draft are emitted at the places of a block that stores the draft. -/
theorem gives_emit {cc : UInt64} : Gives (emit cc d) c s fun ps t => s.Hushed t ∧
    ∃ b : Block, ps = b.placed ∧ b.LaidFrom cc.toNat ∧ d.StoredAs c.options b := by
  induction d generalizing cc s with
  | done => exact .pure ⟨rfl, .done, rfl, trivial, trivial⟩
  | step head inner alt rest ihi iha ihr =>
    -- the block, the alternative and the rest are emitted in the same way, each only if not empty
    have hblock {sub : Draft} {step : UInt64} {loc : Location} {t : CompileState}
        {next : List Placed → Compiler (List Placed)} {R : List Placed → CompileState → Prop}
        (hstep : step.toNat < 4) (hst : s.Hushed t)
        (hsub : ∀ {cc : UInt64} {t : CompileState}, Gives (emit cc sub) c t fun ps t' =>
          t.Hushed t' ∧ ∃ b : Block, ps = b.placed ∧ b.LaidFrom cc.toNat ∧ sub.StoredAs c.options b)
        (hnext : ∀ (b : Block) (t' : CompileState), s.Hushed t' →
          b.LaidFrom (4 * cc.toNat + step.toNat) → sub.StoredAs c.options b →
          Gives (next b.placed) c t' R) :
        Gives (if sub.isDone then pure [] >>= next else
          emit.liftExcept (nextPlace cc step loc) >>= fun place => emit place sub >>= next)
          c t R := by
      refine .ite (fun hdone => ?_) fun _ => .bind gives_liftExcept ?_
      · cases sub with
        | done => exact hnext .done t hst trivial trivial
        | step => cases hdone
      · rintro place _ ⟨hplace, rfl⟩
        refine .bind hsub ?_
        rintro _ t' ⟨ht, b, rfl, hlaid, hstored⟩
        exact hnext b t' (hst.trans ht) (nextPlace_ok hstep hplace ▸ hlaid) hstored
    rw [emit]
    refine .bind gives_toExpr? fun expr t ⟨hexpr, ht⟩ => ?_
    refine hblock (by decide) ht ihi fun inner' t ht hli hsi => ?_
    refine hblock (by decide) ht iha fun alt' t ht hla hsa => ?_
    refine hblock (by decide) ht ihr fun rest' t ht hlr hsr => .pure ⟨ht, ?_⟩
    refine ⟨.step ⟨cc, head.type.code, head.str, head.format, expr⟩ inner' alt' rest', rfl,
      ⟨rfl, hli, hla, hlr⟩, ⟨rfl, rfl, rfl, hexpr⟩, hsi, hsa, hsr⟩

theorem gives_emitAll (hd : d.Shaped) :
    Gives (emitAll d) c s fun ps t => d.Compiles c.options ps ∧ s.Hushed t := by
  refine .bind .options fun o t => ?_
  rintro ⟨rfl, rfl⟩
  split
  · nofun
  · rename_i hsimple
    refine .pure ⟨⟨.done, .idle, hsimple, rfl, ⟨rfl, trivial, trivial, trivial⟩, ?_, rfl⟩, rfl⟩
    exact ⟨⟨nofun, fun _ => ⟨rfl, rfl⟩, nofun⟩, trivial, trivial, trivial⟩
  · rename_i d' hne hsimple
    refine fun ps t h => ?_
    obtain ⟨ht, b, rfl, hlaid, hstored⟩ := gives_emit ps t h
    have hsuited : b.Suited := hstored.suited (Draft.runnable_simplify hd hsimple)
    refine ⟨⟨d', b, hsimple, rfl, hlaid, hsuited, ?_⟩, ht⟩
    cases d' with
    | done => exact absurd rfl hne
    | step => exact hstored

end Compiler

end ApeScript
