import ApeScript.Proofs.Execution

/-!
# Simplified switches

Simplifying with and without optimizing leaves drafts that run alike. Both drop an `if` that has
nothing to run, and invert one that has only an alternative; optimizing folds the condition first,
and replaces an `if` whose condition is a number by the block that it selects. That can empty the
first block of an `if` with an alternative, which is then inverted only when optimizing. The two run
alike if the conditions of such statements can be negated.
-/

namespace ApeScript.Draft

variable {σ : Type} {A : Arithmetic} {M : Machine σ} {escapes : Bool} {bound : Nat}
  {t : DraftStatement} {v v' : Value} {d d₀ d₁ inner alt rest here : Draft} {optimize : Bool}

theorem negatable_append : (d ++ d₀).Negatable A M escapes bound ↔
    d.Negatable A M escapes bound ∧ d₀.Negatable A M escapes bound := by
  rw [append_eq]
  induction d with
  | done => simp [append, Negatable]
  | step s inner alt rest _ _ ih => simp [append, Negatable, ih, and_assoc]

theorem finite_simplifyIf (hv : v.Finite) (hi : inner.Finite) (ha : alt.Finite)
    (h : simplifyIf t v inner alt = .ok here) : here.Finite := by
  have hhead {w : Value} (hw : w.Finite) :
      (⟨.ifThen, none, [], some w, t.loc⟩ : DraftStatement).Finite := by
    rintro _ ⟨⟩
    exact hw
  obtain ⟨-, -, rfl⟩ | ⟨-, -, -, rfl⟩ | ⟨-, rfl⟩ := simplifyIf_ok h
  · trivial
  · exact ⟨hhead hv.invert, ha, trivial, trivial⟩
  · exact ⟨hhead hv, hi, ha, trivial⟩

theorem Finite.simplify (hd : d.Finite) (h : d.simplify optimize = .ok d₀) : d₀.Finite := by
  induction d generalizing d₀ with
  | done =>
    cases h
    trivial
  | step t inner alt rest ihi iha ihr =>
    obtain ⟨ht, hi, ha, hr⟩ := hd
    obtain ⟨here, rest', hhere, hrest, rfl⟩ := simplify_step_ok h
    refine Finite.append ?_ (ihr hr hrest)
    cases hhere with
    | chosen _ _ _ _ hinner halt =>
      split
      · exact iha ha halt
      · exact ihi hi hinner
    | @branch condition folded _ _ _ _ hexpr hfold hinner halt hhere =>
      have hfolded : folded.Finite := by
        split at hfold
        · exact (ht condition hexpr).fold hfold
        · exact Except.ok.inj hfold ▸ ht condition hexpr
      exact finite_simplifyIf hfolded (ihi hi hinner) (iha ha halt) hhere
    | loop _ hinner _ => exact ⟨ht, ihi hi hinner, trivial, trivial⟩
    | simple _ _ => exact ⟨ht, hi, ha, trivial⟩

inductive ReducesBoth (t : DraftStatement) (inner alt : Draft) : Draft → Draft → Prop
  | branch {v v' : Value} {inner₀ inner₁ alt₀ alt₁ here₀ here₁ : Draft} (htype : t.type = .ifThen)
      (hexpr : t.expr = some v) (hfold : v.fold = .ok v')
      (hinner₀ : inner.simplify false = .ok inner₀) (halt₀ : alt.simplify false = .ok alt₀)
      (hinner₁ : inner.simplify true = .ok inner₁) (halt₁ : alt.simplify true = .ok alt₁)
      (hhere₀ : simplifyIf t v inner₀ alt₀ = .ok here₀)
      (hhere₁ : (∃ x, v' = .const x ∧ here₁ = if x.isZero then alt₁ else inner₁) ∨
        simplifyIf t v' inner₁ alt₁ = .ok here₁) : ReducesBoth t inner alt here₀ here₁
  | loop {inner₀ inner₁ : Draft} (htype : t.type = .while)
      (hinner₀ : inner.simplify false = .ok inner₀) (hinner₁ : inner.simplify true = .ok inner₁) :
      ReducesBoth t inner alt (step t inner₀ done done) (step t inner₁ done done)
  | simple : ReducesBoth t inner alt (step t inner alt done) (step t inner alt done)

theorem reducesBoth {here₀ here₁ : Draft} (h₀ : Reduces false t inner alt here₀)
    (h₁ : Reduces true t inner alt here₁) : ReducesBoth t inner alt here₀ here₁ := by
  cases h₀ with
  | chosen hopt => cases hopt
  | branch htype hexpr hfold hinner halt hhere =>
    cases hfold
    cases h₁ with
    | chosen _ _ hexpr' hfold' hinner' halt' =>
      cases hexpr.symm.trans hexpr'
      exact .branch htype hexpr hfold' hinner halt hinner' halt' hhere (Or.inl ⟨_, rfl, rfl⟩)
    | branch _ hexpr' hfold' hinner' halt' hhere' =>
      cases hexpr.symm.trans hexpr'
      exact .branch htype hexpr hfold' hinner halt hinner' halt' hhere (Or.inr hhere')
    | loop htype' => cases htype.symm.trans htype'
    | simple _ hif => cases hexpr.symm.trans (hif htype)
  | loop htype hinner =>
    cases h₁ with
    | chosen _ htype' => cases htype.symm.trans htype'
    | branch htype' => cases htype.symm.trans htype'
    | loop _ hinner' => exact .loop htype hinner hinner'
    | simple hloop => exact absurd htype hloop
  | simple hloop hif =>
    cases h₁ with
    | chosen _ htype hexpr => cases hexpr.symm.trans (hif htype)
    | branch htype hexpr => cases hexpr.symm.trans (hif htype)
    | loop htype => exact absurd htype hloop
    | simple => exact .simple

/-- What simplifying empties, optimizing empties too. -/
theorem eq_done_of_simplify (h₀ : d.simplify false = .ok done) (h₁ : d.simplify true = .ok d₁) :
    d₁ = done := by
  induction d generalizing d₁ with
  | done => exact (Except.ok.inj h₁).symm
  | step t inner alt rest ihi iha ihr =>
    obtain ⟨here₀, rest₀, hhere₀, hrest₀, happend⟩ := simplify_step_ok h₀
    obtain ⟨here₁, rest₁, hhere₁, hrest₁, rfl⟩ := simplify_step_ok h₁
    obtain ⟨rfl, rfl⟩ := append_eq_done.1 happend.symm
    refine append_eq_done.2 ⟨?_, ihr hrest₀ hrest₁⟩
    cases reducesBoth hhere₀ hhere₁ with
    | branch _ _ _ hinner₀ halt₀ hinner₁ halt₁ hdropped hhere₁ =>
      obtain ⟨rfl, rfl, -⟩ | ⟨-, -, -, hkept⟩ | ⟨-, hkept⟩ := simplifyIf_ok hdropped
      · obtain rfl := ihi hinner₀ hinner₁
        obtain rfl := iha halt₀ halt₁
        obtain ⟨x, -, rfl⟩ | hhere₁ := hhere₁
        · exact ite_self _
        · exact (Except.ok.inj hhere₁).symm
      · cases hkept
      · cases hkept

theorem run_if {loc : Location} :
    (step ⟨.ifThen, none, [], some v, loc⟩ inner alt done).run A M escapes bound = fun s =>
      if v.holds A (M.memory s) escapes then inner.run A M escapes bound s
      else alt.run A M escapes bound s := by
  funext s
  exact Run.andThen_stay _

/-- What is left of an `if` tells about its blocks, and about its condition when both are left. -/
theorem negatable_of_simplifyIf (h : simplifyIf t v inner alt = .ok here)
    (hn : here.Negatable A M escapes bound) :
    inner.Negatable A M escapes bound ∧ alt.Negatable A M escapes bound ∧
      (inner ≠ done → inner.run A M escapes bound = Run.stay → alt ≠ done → v.Negatable) := by
  obtain ⟨rfl, rfl, -⟩ | ⟨rfl, -, -, rfl⟩ | ⟨-, rfl⟩ := simplifyIf_ok h
  · exact ⟨trivial, trivial, fun hne => absurd rfl hne⟩
  · exact ⟨trivial, hn.2.1, fun hne => absurd rfl hne⟩
  · exact ⟨hn.2.1, hn.2.2.1, fun _ hidle hne => hn.1 rfl hidle hne v rfl⟩

/-- What is left of an `if` runs the block that its condition selects, if the condition can be
negated where it is inverted. -/
theorem run_simplifyIf (hA : A.Definite) (hM : ∀ s, (M.memory s).Definite) (hv : v.Finite)
    (hn : inner = done → alt ≠ done → v.Negatable) (h : simplifyIf t v inner alt = .ok here) :
    here.run A M escapes bound = fun s => if v.holds A (M.memory s) escapes
      then inner.run A M escapes bound s else alt.run A M escapes bound s := by
  obtain ⟨rfl, rfl, rfl⟩ | ⟨rfl, hne, hfloat, rfl⟩ | ⟨-, rfl⟩ := simplifyIf_ok h
  · funext s
    exact (ite_self _).symm
  · rw [run_if]
    funext s
    rw [Value.holds_invert hA (hM s) hv (hn rfl hne) (by simpa [Value.isFloat] using hfloat)]
    cases v.holds A (M.memory s) escapes <;> rfl
  · exact run_if

/-- Where the first block is empty with and without optimizing, both invert the condition. -/
theorem run_simplifyIf_fold (hA : A.Definite) (hM : ∀ s, (M.memory s).Definite) (hv : v.Finite)
    (hfold : v.fold = .ok v') {alt₀ alt₁ here₀ here₁ : Draft}
    (halt : alt₀.run A M escapes bound = alt₁.run A M escapes bound)
    (hdone : alt₀ = done → alt₁ = done) (h₀ : simplifyIf t v done alt₀ = .ok here₀)
    (h₁ : simplifyIf t v' done alt₁ = .ok here₁) :
    here₀.run A M escapes bound = here₁.run A M escapes bound := by
  obtain ⟨-, rfl, rfl⟩ | ⟨-, -, hfloat₀, rfl⟩ | ⟨hne, -⟩ := simplifyIf_ok h₀
  · obtain rfl := hdone rfl
    cases h₁
    rfl
  · obtain ⟨-, rfl, rfl⟩ | ⟨-, -, hfloat₁, rfl⟩ | ⟨hne, -⟩ := simplifyIf_ok h₁
    · rw [run_if, halt]
      funext s
      exact ite_self _
    · rw [run_if, run_if, halt]
      funext s
      rw [Value.holds_invert_fold hA (hM s) hv hfold (by simpa [Value.isFloat] using hfloat₀)
        (by simpa [Value.isFloat] using hfloat₁)]
    · exact absurd rfl hne
  · exact absurd rfl hne

theorem run_branch (hA : A.Definite) (hM : ∀ s, (M.memory s).Definite) (hv : v.Finite)
    (hfold : v.fold = .ok v') {inner₀ inner₁ alt₀ alt₁ here₀ here₁ : Draft}
    (hinner : inner₀.run A M escapes bound = inner₁.run A M escapes bound)
    (halt : alt₀.run A M escapes bound = alt₁.run A M escapes bound)
    (hinnerDone : inner₀ = done → inner₁ = done) (haltDone : alt₀ = done → alt₁ = done)
    (hn : inner₀ ≠ done → inner₀.run A M escapes bound = Run.stay → alt₀ ≠ done → v.Negatable)
    (h₀ : simplifyIf t v inner₀ alt₀ = .ok here₀)
    (h₁ : (∃ x, v' = .const x ∧ here₁ = if x.isZero then alt₁ else inner₁) ∨
      simplifyIf t v' inner₁ alt₁ = .ok here₁) :
    here₀.run A M escapes bound = here₁.run A M escapes bound := by
  obtain ⟨x, rfl, rfl⟩ | h₁ := h₁
  · -- the condition is a number, which selects the same block in both
    have hx : x.isFinite = true := hv.fold hfold
    rw [run_simplifyIf hA hM hv (fun _ _ => Value.negatable_of_fold_const hfold) h₀, hinner, halt]
    funext s
    rw [← Value.holds_fold hv hfold, Value.holds_const hx]
    cases x.isZero <;> rfl
  · by_cases hdone : inner₀ = done
    · subst hdone
      obtain rfl := hinnerDone rfl
      exact run_simplifyIf_fold hA hM hv hfold halt haltDone h₀ h₁
    · -- the condition is kept without optimizing, and is kept, negated or not needed with it
      have hn' (hinner₁ : inner₁ = done) (halt₁ : alt₁ ≠ done) : v'.Negatable := by
        subst hinner₁
        exact (hn hdone hinner fun halt₀ => halt₁ (haltDone halt₀)).fold hfold
      rw [run_simplifyIf hA hM hv (fun h => absurd h hdone) h₀,
        run_simplifyIf hA hM (hv.fold hfold) hn' h₁, hinner, halt]
      funext s
      rw [Value.holds_fold hv hfold]

/-- Simplifying with and without optimizing leaves drafts that run alike. -/
theorem run_simplify (hA : A.Definite) (hM : ∀ s, (M.memory s).Definite) (hd : d.Finite)
    (h₀ : d.simplify false = .ok d₀) (h₁ : d.simplify true = .ok d₁)
    (hn : d₀.Negatable A M escapes bound) :
    d₀.run A M escapes bound = d₁.run A M escapes bound := by
  induction d generalizing d₀ d₁ with
  | done =>
    cases h₀
    cases h₁
    rfl
  | step t inner alt rest ihi iha ihr =>
    obtain ⟨ht, hi, ha, hr⟩ := hd
    obtain ⟨here₀, rest₀, hhere₀, hrest₀, rfl⟩ := simplify_step_ok h₀
    obtain ⟨here₁, rest₁, hhere₁, hrest₁, rfl⟩ := simplify_step_ok h₁
    obtain ⟨hnhere, hnrest⟩ := negatable_append.1 hn
    have hhere : here₀.run A M escapes bound = here₁.run A M escapes bound := by
      cases reducesBoth hhere₀ hhere₁ with
      | branch _ hexpr hfold hinner₀ halt₀ hinner₁ halt₁ hif₀ hif₁ =>
        obtain ⟨hni, hna, hnv⟩ := negatable_of_simplifyIf hif₀ hnhere
        refine run_branch hA hM (ht _ hexpr) hfold (ihi hi hinner₀ hinner₁ hni)
          (iha ha halt₀ halt₁ hna) ?_ ?_ hnv hif₀ hif₁
        -- optimizing empties no fewer blocks, so an inverted condition stays inverted
        · rintro rfl
          exact eq_done_of_simplify hinner₀ hinner₁
        · rintro rfl
          exact eq_done_of_simplify halt₀ halt₁
      | loop htype hinner₀ hinner₁ =>
        simp only [run, ihi hi hinner₀ hinner₁ hnhere.2.1]
      | simple => rfl
    rw [run_append, run_append, hhere, ihr hr hrest₀ hrest₁ hnrest]

end ApeScript.Draft
