import ApeScript.Proofs.Contract
import ApeScript.Proofs.Execution

/-!
# Two compilations of one script

`Twins` are two compilations whose options differ at most in whether they optimize. Both read the
same tokens and number the inline switches alike; what they make of a parsed expression or switch
differs. `Twins.Pairs T x y R` says that `x` in the first and `y` in the second, if both succeed
from such states, end in such states with results related by `R`. `Twins.Agrees T x P` is the case
of one reader whose two results are equal. There is a rule for each way in which compilers are put
together.
-/

namespace ApeScript

structure Draft.Parsed (d : Draft) : Prop where
  shaped : d.Shaped
  finite : d.Finite

theorem Draft.Parsed.append {d d' : Draft} (hd : d.Parsed) (hd' : d'.Parsed) : (d ++ d').Parsed :=
  ⟨hd.shaped.append hd'.shaped, hd.finite.append hd'.finite⟩

/-- Two switches with one label that are emitted for one draft, each under its own options. -/
structure Switch.Paired (o o' : Options) (w w' : Switch) : Prop where
  label : w.label = w'.label
  commands : ∃ d : Draft, d.Parsed ∧ d.Compiles o w.commands ∧ d.Compiles o' w'.commands

/-- Two states that have read the same and made inline switches alike. -/
structure CompileState.Paired (R : Switch → Switch → Prop) (s s' : CompileState) : Prop where
  lexer : s.lexer = s'.lexer
  inlineCount : s.inlineCount = s'.inlineCount
  inline : List.Forall₂ R s.inline s'.inline

/-- Two compilations whose options differ at most in whether they optimize, and what is recorded
about the inline switches that they have made. -/
structure Twins where
  context : CompileContext
  optimize : Bool
  inline : Switch → Switch → Prop
  inline_of_paired : ∀ {w w' : Switch},
    w.Paired context.options { context.options with optimize := optimize } w' → inline w w'

namespace Twins

def other (T : Twins) : CompileContext :=
  { T.context with options := { T.context.options with optimize := T.optimize } }

def States (T : Twins) : CompileState → CompileState → Prop := CompileState.Paired T.inline

variable {α β γ δ : Type} {T : Twins}

def Pairs (T : Twins) (x : Compiler α) (y : Compiler β) (R : α → β → Prop) : Prop :=
  ∀ s s' a b t t', T.States s s' → x T.context s = .ok a t → y T.other s' = .ok b t' →
    T.States t t' ∧ R a b

abbrev Agrees (T : Twins) (x : Compiler α) (P : α → Prop) : Prop :=
  T.Pairs x x fun a b => a = b ∧ P a

/-- Both read the same; nothing else is said about it. -/
abbrev Same (T : Twins) (x : Compiler α) : Prop := T.Agrees x fun _ => True

namespace Pairs

variable {x y : Compiler α} {x' y' : Compiler β} {f : α → Compiler γ} {g : β → Compiler δ}
  {P : α → Prop} {R : α → β → Prop} {S : γ → δ → Prop} {loc : Location} {cause : Cause}

theorem pure {a : α} {b : β} (h : R a b) : T.Pairs (pure a) (pure b) R := by
  rintro s s' _ _ _ _ hs ⟨⟩ ⟨⟩
  exact ⟨hs, h⟩

theorem fail : T.Pairs (Compiler.fail loc cause) x' R := nofun

theorem join (hx : T.Pairs x x' R) (hf : ∀ a b, R a b → T.Pairs (f a) (g b) S) :
    T.Pairs (x >>= f) (x' >>= g) S := by
  intro s s' c d t t' hs h h'
  change EStateM.bind (x T.context) (fun a => f a T.context) s = .ok c t at h
  change EStateM.bind (x' T.other) (fun b => g b T.other) s' = .ok d t' at h'
  rw [EStateM.bind] at h h'
  cases hxs : x T.context s with
  | error e u =>
    rw [hxs] at h
    cases h
  | ok a u =>
    cases hxs' : x' T.other s' with
    | error e u' =>
      rw [hxs'] at h'
      cases h'
    | ok b u' =>
      rw [hxs] at h
      rw [hxs'] at h'
      obtain ⟨hu, hab⟩ := hx s s' a b u u' hs hxs hxs'
      exact hf a b hab u u' c d t t' hu h h'

theorem bind {g : α → Compiler δ} (hx : T.Agrees x P)
    (hf : ∀ a, P a → T.Pairs (f a) (g a) S) : T.Pairs (x >>= f) (x >>= g) S := by
  refine hx.join ?_
  rintro a _ ⟨rfl, ha⟩
  exact hf a ha

theorem mono {R' : α → β → Prop} (hx : T.Pairs x x' R) (h : ∀ a b, R a b → R' a b) :
    T.Pairs x x' R' := by
  intro s s' a b t t' hs hrun hrun'
  obtain ⟨ht, hab⟩ := hx s s' a b t t' hs hrun hrun'
  exact ⟨ht, h a b hab⟩

/-- What would follow a failure is not run. -/
theorem fail_bind {y : Compiler δ} : T.Pairs (Compiler.fail loc cause >>= f) y S := nofun

theorem ite {p : Prop} [Decidable p] (hx : p → T.Pairs x x' R) (hy : ¬ p → T.Pairs y y' R) :
    T.Pairs (if p then x else y) (if p then x' else y') R := by
  split
  · exact hx ‹p›
  · exact hy ‹¬ p›

theorem dite {p : Prop} [Decidable p] {x : p → Compiler α} {y : ¬ p → Compiler α}
    {x' : p → Compiler β} {y' : ¬ p → Compiler β} (hx : ∀ h, T.Pairs (x h) (x' h) R)
    (hy : ∀ h, T.Pairs (y h) (y' h) R) :
    T.Pairs (if h : p then x h else y h) (if h : p then x' h else y' h) R := by
  split
  · apply hx
  · apply hy

/-- A check that fails when `p` holds, and what follows it. -/
theorem guard {p : Prop} [Decidable p] {z : Compiler δ} {y : Compiler γ} {y' : Compiler δ}
    (hy : ¬ p → T.Pairs y y' S) :
    T.Pairs (if p then Compiler.fail loc cause >>= f else y) (if p then z else y') S :=
  ite (fun _ => fail_bind) hy

/-- Two branches that are followed by the same. -/
theorem ite_bind {p : Prop} [Decidable p] (hx : p → T.Pairs x x' R) (hy : ¬ p → T.Pairs y y' R)
    (hf : ∀ a b, R a b → T.Pairs (f a) (g b) S) :
    T.Pairs (if p then x >>= f else y >>= f) (if p then x' >>= g else y' >>= g) S :=
  ite (fun h => (hx h).join hf) fun h => (hy h).join hf

theorem located {x : Except Cause α} : T.Agrees (Compiler.located loc x) (x = .ok ·) := by
  cases x with
  | ok a => exact pure ⟨rfl, rfl⟩
  | error cause => exact fail

theorem lift {x : Lex α} : T.Same (liftM x) := by
  intro s s' a b t t' hs h h'
  rw [run_lift] at h h'
  rw [← hs.lexer] at h'
  cases hl : x s.lexer with
  | ok c l =>
    rw [hl] at h h'
    cases h
    cases h'
    exact ⟨⟨rfl, hs.inlineCount, hs.inline⟩, rfl, trivial⟩
  | error e l =>
    rw [hl] at h
    cases h

/-- The options differ in nothing but whether they optimize. -/
theorem options {f : Options → Compiler γ} {g : Options → Compiler δ}
    (hf : T.Pairs (f T.context.options) (g T.other.options) S) :
    T.Pairs (Compiler.options >>= f) (Compiler.options >>= g) S := by
  intro s s' c d t t' hs h h'
  exact hf s s' c d t t' hs h h'

theorem state : T.Pairs (getThe CompileState) (getThe CompileState) T.States := by
  rintro s s' _ _ _ _ hs ⟨⟩ ⟨⟩
  exact ⟨hs, hs⟩

theorem location : T.Same Compiler.location := by
  rintro s s' _ _ _ _ hs ⟨⟩ ⟨⟩
  exact ⟨hs, by rw [hs.lexer], trivial⟩

theorem remaining : T.Same Compiler.remaining := by
  rintro s s' _ _ _ _ hs ⟨⟩ ⟨⟩
  exact ⟨hs, by rw [hs.lexer], trivial⟩

theorem warn {w w' : Warning} : T.Pairs (Compiler.warn loc w) (Compiler.warn loc w')
    fun _ _ => True := by
  rintro s s' _ _ _ _ hs ⟨⟩ ⟨⟩
  exact ⟨⟨hs.lexer, hs.inlineCount, hs.inline⟩, trivial⟩

/-- Two runs that change nothing but the warnings. -/
theorem of_gives {P : α → Prop} {Q : β → Prop}
    (hx : ∀ s, Compiler.Gives x T.context s fun a t => P a ∧ s.Hushed t)
    (hx' : ∀ s, Compiler.Gives x' T.other s fun b t => Q b ∧ s.Hushed t)
    (h : ∀ a b, P a → Q b → R a b) : T.Pairs x x' R := by
  intro s s' a b t t' hs hrun hrun'
  obtain ⟨ha, ht⟩ := hx s a t hrun
  obtain ⟨hb, ht'⟩ := hx' s' b t' hrun'
  rw [ht, ht']
  exact ⟨⟨hs.lexer, hs.inlineCount, hs.inline⟩, h a b ha hb⟩

/-- Two loops go on and end together. -/
theorem repeatFrom {σ τ : Type} {I : σ → τ → Prop} {step : σ → Compiler (σ ⊕ α)}
    {step' : τ → Compiler (τ ⊕ β)} {s : σ} {s' : τ} (hs : I s s')
    (hstep : ∀ s s', I s s' → T.Pairs (step s) (step' s') (Sum.LiftRel I R)) :
    T.Pairs (Compiler.repeatFrom s step) (Compiler.repeatFrom s' step') R := by
  refine bind remaining fun bound _ => ?_
  induction bound, s using Compiler.repeatWithin.induct generalizing s' with
  | case1 bound s ih =>
    rw [Compiler.repeatWithin, Compiler.repeatWithin]
    refine (hstep s s' hs).join fun result result' hresult => ?_
    cases hresult with
    | inr h => exact pure h
    | inl h =>
      refine bind remaining fun now _ => dite (fun less => ih _ now less h) fun _ => ?_
      exact bind location fun _ _ => fail

theorem repeatSame {σ : Type} {I : σ → Prop} {step : σ → Compiler (σ ⊕ α)} {s : σ} (hs : I s)
    (hstep : ∀ s, I s → T.Agrees (step s) (Sum.elim I P)) :
    T.Agrees (Compiler.repeatFrom s step) P := by
  refine repeatFrom (I := fun s s' => s = s' ∧ I s) ⟨rfl, hs⟩ ?_
  rintro s _ ⟨rfl, hs⟩
  refine (hstep s hs).mono ?_
  rintro (next | a) _ ⟨rfl, h⟩
  · exact .inl ⟨rfl, h⟩
  · exact .inr ⟨rfl, h⟩

end Pairs

end Twins

end ApeScript
