import ApeScript.Compile.Expression
import Mathlib

/-!
# Successful runs of the compiler

`Compiler.Gives x c s Q` says that `x`, if it succeeds from the state `s`, ends with a result and a
state that satisfy `Q`. There is a rule for each way in which compilers are put together. A value
becomes an expression by folding, when optimizing, and by layout: `Value.StoredAs` says so without
the compiler's state, of which only the warnings can change.
-/

namespace ApeScript

theorem bind_eq_ok {ε α β : Type} {x : Except ε α} {f : α → Except ε β} {b : β} :
    x >>= f = .ok b ↔ ∃ a, x = .ok a ∧ f a = .ok b := by
  cases x with
  | ok a => exact ⟨fun h => ⟨a, rfl, h⟩, fun ⟨_, ha, h⟩ => Except.ok.inj ha ▸ h⟩
  | error e => exact ⟨nofun, nofun⟩

theorem bind_eq_error {ε α β : Type} {x : Except ε α} {f : α → Except ε β} {e : ε} :
    x >>= f = .error e ↔ x = .error e ∨ ∃ a, x = .ok a ∧ f a = .error e := by
  cases x <;> simp [bind, Except.bind]

theorem mapM_eq_ok_iff {ε α β : Type} {T : α → β → Prop} {step : α → Except ε β} {l : List α}
    {l' : List β} (h : ∀ a b, step a = .ok b ↔ T a b) :
    l.mapM step = .ok l' ↔ List.Forall₂ T l l' := by
  induction l generalizing l' with
  | nil => cases l' <;> simp [pure, Except.pure]
  | cons a l ih =>
    rw [List.mapM_cons]
    simp only [bind_eq_ok, h, ih, pure, Except.pure, Except.ok.injEq]
    cases l' with
    | nil => simp
    | cons b l' => simp

/-- A parsed value as some options store it: folded first when optimizing, and then laid out. -/
def Value.StoredAs (o : Options) (v : Value) (e : Expr) : Prop :=
  ∃ v', (if o.optimize then v.fold else .ok v) = .ok v' ∧ v'.layout o.allowExprEscapes = .ok e

/-- Two states that differ in nothing but the warnings reported so far. -/
def CompileState.Hushed (s s' : CompileState) : Prop :=
  s' = { s with warnings := s'.warnings }

theorem CompileState.Hushed.trans {s t u : CompileState} (hst : s.Hushed t) (htu : t.Hushed u) :
    s.Hushed u := by
  unfold Hushed at *
  rw [htu, hst]

namespace Compiler

variable {α β : Type} {c : CompileContext} {s : CompileState} {loc : Location}

def Gives (x : Compiler α) (c : CompileContext) (s : CompileState)
    (Q : α → CompileState → Prop) : Prop :=
  ∀ a s', x c s = .ok a s' → Q a s'

namespace Gives

variable {x y : Compiler α} {f : α → Compiler β} {P Q : α → CompileState → Prop}
  {R : β → CompileState → Prop}

theorem pure {a : α} (h : Q a s) : Gives (pure a) c s Q := by
  rintro _ _ ⟨⟩
  exact h

theorem fail {cause : Cause} : Gives (fail loc cause) c s Q := nofun

theorem bind (hx : Gives x c s P) (hf : ∀ a t, P a t → Gives (f a) c t R) :
    Gives (x >>= f) c s R := by
  intro b s' h
  change EStateM.bind (x c) (fun a => f a c) s = .ok b s' at h
  rw [EStateM.bind] at h
  cases hxs : x c s with
  | ok a t =>
    rw [hxs] at h
    exact hf a t (hx a t hxs) b s' h
  | error e t =>
    rw [hxs] at h
    cases h

theorem ite {p : Prop} [Decidable p] (hx : p → Gives x c s Q) (hy : ¬ p → Gives y c s Q) :
    Gives (if p then x else y) c s Q := by
  split
  · exact hx ‹p›
  · exact hy ‹¬ p›

theorem options : Gives options c s fun o t => o = c.options ∧ t = s := by
  rintro _ _ ⟨⟩
  exact ⟨rfl, rfl⟩

theorem located {x : Except Cause α} : Gives (located loc x) c s fun a t => x = .ok a ∧ t = s := by
  cases x with
  | ok a => exact pure ⟨rfl, rfl⟩
  | error cause => exact fail

theorem warn {w : Warning} : Gives (warn loc w) c s fun _ t => s.Hushed t := by
  rintro _ _ ⟨⟩
  rfl

/-- A reader changes the lexer only. -/
theorem lift {x : Lex α} : Gives (liftM x) c s fun a t =>
    ∃ l, x s.lexer = .ok a l ∧ t = { s with lexer := l } := by
  intro a t h
  simp only [liftM, monadLift, MonadLift.monadLift] at h
  cases hx : x s.lexer with
  | ok b l =>
    rw [hx] at h
    cases h
    exact ⟨l, rfl, rfl⟩
  | error e l =>
    rw [hx] at h
    cases h

theorem mono (hx : Gives x c s P) (h : ∀ a t, P a t → Q a t) : Gives x c s Q :=
  fun a t hrun => h a t (hx a t hrun)

/-- What would follow a failure is not run. -/
theorem fail_bind {cause : Cause} : Gives (Compiler.fail loc cause >>= f) c s R := nofun

/-- A check that fails when `p` holds, and what follows it. -/
theorem guard {p : Prop} [Decidable p] {z : Compiler β} {cause : Cause}
    (hz : ¬ p → Gives z c s R) :
    Gives (if p then Compiler.fail loc cause >>= f else z) c s R :=
  ite (fun _ => fail_bind) hz

/-- A loop ends with what its last step gives, if every step that goes on keeps the invariant. -/
theorem repeatFrom {σ : Type} {I : σ → CompileState → Prop} {step : σ → Compiler (σ ⊕ α)} {a : σ}
    (ha : I a s)
    (hstep : ∀ a s, I a s → Gives (step a) c s fun r t => Sum.elim (I · t) (P · t) r) :
    Gives (Compiler.repeatFrom a step) c s P := by
  have hremaining (s : CompileState) : Gives Compiler.remaining c s fun _ t => s = t := by
    rintro _ _ ⟨⟩
    rfl
  refine bind (hremaining s) ?_
  rintro bound _ rfl
  induction bound, a using Compiler.repeatWithin.induct generalizing s with
  | case1 bound a ih =>
    rw [Compiler.repeatWithin]
    refine bind (hstep a s ha) fun result t hresult => ?_
    cases result with
    | inr b => exact pure hresult
    | inl next =>
      refine bind (hremaining t) ?_
      rintro now _ rfl
      by_cases less : now.Less bound
      · rw [dif_pos less]
        exact ih next now less hresult
      · rw [dif_neg less]
        exact bind (P := fun _ _ => True) (fun _ _ _ => trivial) fun _ _ _ => fail

end Gives

theorem gives_remaining : Gives remaining c s fun r t => r = s.lexer.remaining ∧ t = s := by
  rintro _ _ ⟨⟩
  exact ⟨rfl, rfl⟩

theorem gives_floatOfToken {token : Token} : Gives (floatOfToken token) c s fun x t =>
    (∃ d, Decimal.ofText token.text = some d ∧ x = d.toBinary32 ∧ x.isFinite = true) ∧ t = s := by
  refine .guard fun _ => ?_
  split
  · exact .fail
  · rename_i d hd
    exact .ite (fun h => .pure ⟨⟨d, hd, rfl, h⟩, rfl⟩) fun _ => .fail

/-- An expression comes from its value alone; besides, a warning may have been reported. -/
theorem gives_toExpr {v : Value} :
    Gives (toExpr v loc) c s fun e t => v.StoredAs c.options e ∧ s.Hushed t := by
  refine .bind .options fun o t => ?_
  rintro ⟨rfl, rfl⟩
  extract_lets store
  have hstore {v' : Value} (hv : (if c.options.optimize then v.fold else .ok v) = .ok v') :
      Gives (store v') c t fun e t' => v.StoredAs c.options e ∧ t.Hushed t' := by
    have hlayout {t' : CompileState} (ht : t.Hushed t') :
        Gives (located loc (v'.layout c.options.allowExprEscapes)) c t' fun e t' =>
          v.StoredAs c.options e ∧ t.Hushed t' := by
      rintro e t'' h
      obtain ⟨he, rfl⟩ := Gives.located e t'' h
      exact ⟨⟨v', hv, he⟩, ht⟩
    refine .ite (fun _ => ?_) fun _ => hlayout rfl
    split
    · exact .bind .warn fun _ t' ht => hlayout ht
    · exact .bind (P := fun _ _ => False) .fail fun _ _ h => h.elim
  refine .ite (fun hopt => .bind .located ?_) fun hopt => hstore (if_neg hopt)
  rintro v' t' ⟨hfold, rfl⟩
  exact hstore (by rw [if_pos hopt, hfold])

theorem gives_toExpr? {o : Option Value} :
    Gives (toExpr? o loc) c s fun r t =>
      Option.Rel (Value.StoredAs c.options) o r ∧ s.Hushed t := by
  cases o with
  | none => exact .pure ⟨.none, rfl⟩
  | some v => exact .bind gives_toExpr fun e t h => .pure ⟨.some h.1, h.2⟩

end Compiler

end ApeScript
