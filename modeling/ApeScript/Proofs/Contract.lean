import ApeScript.Compile.Monad
import Mathlib

/-!
# Contracts of the compiler

A `Contract` fixes the options and has a condition on the compiler's context and state that reading
on and reporting warnings cannot break. `Contract.Ensures K x P` says that `x`, started under the
condition, either ends under it with a result that satisfies `P`, or fails for a reason other than
an expression that cannot be stored. There is a rule for each way in which compilers are put
together, so that one lemma about each part of the compiler gives the lemma about the whole.

The lexer keeps a condition of its own, that every token which claims to be an identifier is one;
`Lexer.Ensures` says the same of readers.
-/

namespace ApeScript

variable {α β σ ε : Type}

/-- The result satisfies `P`, or the failure satisfies `E`. -/
def Yields (E : ε → Prop) (P : α → Prop) : Except ε α → Prop
  | .ok a => P a
  | .error e => E e

theorem Yields.bind {E : ε → Prop} {P : α → Prop} {Q : β → Prop} {x : Except ε α}
    {f : α → Except ε β} (hx : Yields E P x) (hf : ∀ a, P a → Yields E Q (f a)) :
    Yields E Q (x >>= f) := by
  cases x with
  | ok a => exact hf a hx
  | error e => exact hx

theorem Yields.mono {E : ε → Prop} {P Q : α → Prop} {x : Except ε α} (hx : Yields E P x)
    (h : ∀ a, P a → Q a) : Yields E Q x := by
  cases x with
  | ok a => exact h a hx
  | error e => exact hx

theorem Yields.error_mono {E F : ε → Prop} {P : α → Prop} {x : Except ε α} (hx : Yields E P x)
    (h : ∀ e, E e → F e) : Yields F P x := by
  cases x with
  | ok a => exact hx
  | error e => exact h e hx

theorem Yields.map {E : ε → Prop} {P : α → Prop} {Q : β → Prop} {x : Except ε α} {f : α → β}
    (hx : Yields E P x) (hf : ∀ a, P a → Q (f a)) : Yields E Q (x.map f) := by
  cases x with
  | ok a => exact hf a hx
  | error e => exact hx

/-- Every reason but an expression that cannot be stored. -/
def Cause.Reachable : Cause → Prop
  | unemittable => False
  | _ => True

/-! ### Reading tokens -/

namespace Scan

/-- A scan that fails has a reachable reason. -/
def Outcome.Safe : Outcome → Prop
  | done _ => True
  | failed _ cause _ => cause.Reachable

theorem rawFrom_safe (flags : ReadFlags) (size : Nat) (s : Bytes) :
    (rawFrom flags size s).Safe := by
  fun_induction rawFrom flags size s
  case case4 ih | case7 ih => exact ih
  all_goals trivial

theorem raw_safe (flags : ReadFlags) (s : Bytes) : (raw flags s).Safe := by
  unfold raw
  split
  · split <;> apply rawFrom_safe
  · trivial

theorem quotedFrom_safe (flags : ReadFlags) (size : Nat) (s : Bytes) :
    (quotedFrom flags size s).Safe := by
  fun_induction quotedFrom flags size s
  case case6 ih | case7 ih => exact ih
  all_goals trivial

theorem quoted_safe (flags : ReadFlags) (s : Bytes) : (quoted flags s).Safe := by
  unfold quoted
  split
  · apply quotedFrom_safe
  · trivial

theorem numberFrom_safe (exponents : Bool) (step : NumberStep) (size : Nat) (s : Bytes) :
    (numberFrom exponents step size s).Safe := by
  have hfinish (step : NumberStep) (size : Nat) : (numberFrom.finish step size).Safe := by
    cases step <;> trivial
  fun_induction numberFrom exponents step size s
  case case4 | case6 => trivial
  case case2 ih | case3 ih | case5 ih | case7 ih => exact ih
  all_goals apply hfinish

theorem symbol_safe (b : UInt8) (s : Bytes) : (symbol b s).2.Safe := by
  fun_cases symbol b s <;> trivial

end Scan

/-- A word of letters, digits and marks that does not start with a digit. -/
structure Script.Identifier (s : Bytes) : Prop where
  nonempty : s ≠ []
  bytes : ∀ b ∈ s, isIdentifierByte b = true
  start : ∀ b ∈ s.head?, Bytes.isDigit b = false

def Token.Lettered (t : Token) : Prop := t.type = .identifier → Script.Identifier t.text

theorem Scan.identifier_take {b : UInt8} {rest : Bytes} (hb : isIdentifierByte b = true)
    (hdigit : Bytes.isDigit b = false) :
    Script.Identifier ((b :: rest).take (identifier (b :: rest))) := by
  rw [identifier, ← List.prefix_iff_eq_take.1 (List.takeWhile_prefix _),
    List.takeWhile_cons_of_pos hb]
  refine ⟨by simp, ?_, by simpa using hdigit⟩
  exact List.forall_mem_cons.2 ⟨hb, fun a ha => List.mem_takeWhile_imp ha⟩

namespace Lexer

/-- Every token that waits or that a macro stands for is an identifier if its kind says so. -/
structure Lettered (l : Lexer) : Prop where
  queue : ∀ t ∈ l.queue, t.Lettered
  macros : ∀ m ∈ l.macros, ∀ t ∈ m.2, t.Lettered

theorem lettered_ofSource (src file : Bytes) (exponents : Bool) : (ofSource src file exponents).Lettered :=
  ⟨by simp [ofSource], by simp [ofSource]⟩

theorem Lettered.body? {l : Lexer} (hl : l.Lettered) {name : Bytes} {body : List Token}
    (h : l.body? name = some body) : ∀ t ∈ body, t.Lettered := by
  obtain ⟨m, hm, rfl⟩ := Option.map_eq_some_iff.1 h
  exact hl.macros m (List.mem_of_find?_eq_some hm)

/-- A reader that from a given lexer leaves a lettered one and a result with `P`, or fails for a
reachable reason. -/
def EnsuresAt (l : Lexer) (x : Lex α) (P : α → Prop) : Prop :=
  match x l with
  | .ok a l' => l'.Lettered ∧ P a
  | .error e _ => e.cause.Reachable

def Ensures (x : Lex α) (P : α → Prop) : Prop := ∀ l : Lexer, l.Lettered → l.EnsuresAt x P

namespace Ensures

variable {x y : Lex α} {f : α → Lex β} {P : α → Prop} {Q : β → Prop}

theorem pure {a : α} (h : P a) : Ensures (pure a) P := fun _ hl => ⟨hl, h⟩

theorem get : Ensures get Lettered := fun _ hl => ⟨hl, hl⟩

/-- What follows may depend on the lexer that was read. -/
theorem get_bind {f : Lexer → Lex β} (h : ∀ l : Lexer, l.Lettered → l.EnsuresAt (f l) Q) :
    Ensures (MonadState.get >>= f) Q := h

theorem location : Ensures location fun _ => True := fun _ hl => ⟨hl, trivial⟩

theorem modify {f : Lexer → Lexer} (h : ∀ l, l.Lettered → (f l).Lettered) :
    Ensures (modify f) fun _ => True :=
  fun l hl => ⟨h l hl, trivial⟩

theorem fail {loc : Location} {cause : Cause} (h : cause.Reachable) :
    Ensures (fail loc cause : Lex α) P :=
  fun _ _ => h

theorem bind (hx : Ensures x P) (hf : ∀ a, P a → Ensures (f a) Q) : Ensures (x >>= f) Q := by
  intro l hl
  have hrun : (x >>= f) l = EStateM.bind x f l := rfl
  have h := hx l hl
  unfold EnsuresAt at h ⊢
  rw [hrun, EStateM.bind]
  cases hxl : x l with
  | ok a m =>
    rw [hxl] at h
    exact hf a h.2 m h.1
  | error e m =>
    rw [hxl] at h
    exact h

/-- What would follow a failure is not run. -/
theorem fail_bind {loc : Location} {cause : Cause} (h : cause.Reachable) :
    Ensures ((Lexer.fail loc cause : Lex α) >>= f) Q :=
  (fail (P := fun _ => False) h).bind fun _ hfalse => hfalse.elim

theorem mono {P' : α → Prop} (hx : Ensures x P) (h : ∀ a, P a → P' a) : Ensures x P' := by
  intro l hl
  have hrun := hx l hl
  unfold EnsuresAt at hrun ⊢
  cases hxl : x l with
  | ok a m =>
    rw [hxl] at hrun
    exact ⟨hrun.1, h a hrun.2⟩
  | error e m =>
    rw [hxl] at hrun
    exact hrun

theorem ite {p : Prop} [Decidable p] (hx : p → Ensures x P) (hy : ¬ p → Ensures y P) :
    Ensures (if p then x else y) P := by
  split
  · exact hx ‹p›
  · exact hy ‹¬ p›

theorem dite {p : Prop} [Decidable p] {x : p → Lex α} {y : ¬ p → Lex α}
    (hx : ∀ h, Ensures (x h) P) (hy : ∀ h, Ensures (y h) P) :
    Ensures (if h : p then x h else y h) P := by
  split
  · apply hx
  · apply hy

end Ensures

/-- A token that is taken from the text is one of the kind it is scanned as. -/
theorem take_ensures {type : TokenType} {outcome : Scan.Outcome} (h : outcome.Safe) :
    Ensures (take type outcome) (·.type = type) := by
  refine .bind .get fun l _ => ?_
  cases outcome with
  | done size => exact .bind (.modify fun l hl => { hl with }) fun _ _ => .pure rfl
  | failed size cause atStart =>
    refine .bind (.modify fun l hl => { hl with }) fun _ _ => .ite (fun _ => .fail h) fun _ => ?_
    exact .bind .location fun _ _ => .fail h

theorem take_lettered {type : TokenType} {outcome : Scan.Outcome} (h : outcome.Safe)
    (htype : type ≠ .identifier) : Ensures (take type outcome) Token.Lettered :=
  (take_ensures h).mono fun _ ht hidentifier => absurd (ht.symm.trans hidentifier) htype

theorem lexRaw_ensures {flags : ReadFlags} : Ensures (lexRaw flags) Token.Lettered := by
  refine .bind .get fun l _ => ?_
  refine .bind (take_lettered (Scan.raw_safe ..) (by decide)) fun token ht => ?_
  refine .ite (fun _ => .pure ht) fun _ => .bind .get fun l hl => ?_
  split
  · rename_i only hbody
    exact .pure (hl.body? hbody only (List.mem_singleton_self only))
  · exact .pure ht

theorem lexQuoted_ensures {flags : ReadFlags} : Ensures (lexQuoted flags) Token.Lettered :=
  .bind .get fun _ _ => take_lettered (Scan.quoted_safe ..) (by decide)

theorem symbol_type (b : UInt8) (s : Bytes) :
    (Scan.symbol b s).1 ≠ .identifier ∧ (Scan.symbol b s).1 ≠ .string ∧
      (Scan.symbol b s).1 ≠ .number := by
  have hsingle (t : TokenType) (h : Scan.single? b = some t) :
      t ≠ .identifier ∧ t ≠ .string ∧ t ≠ .number := by
    refine ⟨?_, ?_, ?_⟩ <;> rintro rfl <;> simp only [Scan.single?] at h <;> split_ifs at h <;>
      cases h
  fun_cases Scan.symbol b s <;> first | exact hsingle _ ‹_› | simp

/-- The token at the cursor is lettered, and so is the body of the macro it names. -/
theorem lexNormal_ensures {flags : ReadFlags} : Ensures (lexNormal flags) fun r =>
    r.1.Lettered ∧ ∀ body, r.2 = some body → ∀ t ∈ body, t.Lettered := by
  have hlone {token : Lex Token} (h : Ensures token Token.Lettered) :
      Ensures (token >>= fun t => pure (t, none)) fun r : Token × Option (List Token) =>
        r.1.Lettered ∧ ∀ body, r.2 = some body → ∀ t ∈ body, t.Lettered :=
    h.bind fun t ht => .pure ⟨ht, by simp⟩
  refine .get_bind fun l hl => ?_
  split
  · exact ⟨hl, by simp [Token.Lettered], by simp⟩
  · rename_i b rest hrest
    by_cases hdigit : Bytes.isDigit b = true
    · rw [if_pos hdigit]
      exact hlone (take_lettered (Scan.numberFrom_safe ..) (by decide)) l hl
    by_cases hword : isIdentifierByte b = true
    · rw [if_neg hdigit, if_pos hword]
      refine ⟨{ hl with }, fun _ => ?_, fun body hbody => ?_⟩
      · change Script.Identifier (l.cursor.rest.take (Scan.identifier (b :: rest)))
        rw [hrest]
        exact Scan.identifier_take hword (by simpa using hdigit)
      · dsimp only at hbody
        split at hbody
        · cases hbody
        · exact hl.body? hbody
    · rw [if_neg hdigit, if_neg hword]
      exact Ensures.ite (fun _ => hlone lexQuoted_ensures) (fun _ =>
        hlone (take_lettered (Scan.symbol_safe b rest) (symbol_type b rest).1)) l hl

theorem lexWithin_ensures {mode : ReadMode} {flags : ReadFlags} {fuel : Nat} :
    Ensures (lexWithin mode flags fuel) Token.Lettered := by
  have hend (loc : Location) : (⟨.endOfFile, [], loc⟩ : Token).Lettered := by simp [Token.Lettered]
  induction fuel generalizing mode with
  | zero => exact .bind .location fun _ _ => .pure (hend _)
  | succ fuel ih =>
    unfold lexWithin
    refine .bind .get fun l _ => .bind (.modify fun l hl => { hl with }) fun _ _ => ?_
    refine .bind .get fun l _ => ?_
    split
    · exact .ite (fun _ => .fail_bind trivial) fun _ => .pure (hend _)
    · exact take_lettered trivial (by decide)
    · cases mode with
      | raw => exact lexRaw_ensures
      | quoted => exact lexQuoted_ensures
      | normal =>
        refine .bind lexNormal_ensures ?_
        rintro ⟨token, body⟩ ⟨htoken, hbody⟩
        match body with
        | none => exact .pure htoken
        | some [] => exact ih
        | some (first :: more) =>
          obtain ⟨hfirst, hmore⟩ := List.forall_mem_cons.1 (hbody _ rfl)
          refine .bind (.modify fun l hl => { hl with queue := ?_ }) fun _ _ => .pure hfirst
          exact List.forall_mem_append.2 ⟨hl.queue, List.forall_mem_map.2 hmore⟩

theorem read_ensures {mode : ReadMode} {flags : ReadFlags} :
    Ensures (read mode flags) Token.Lettered := by
  refine .bind .get fun l hl => ?_
  split
  · rename_i token rest hqueue
    have hwait : ∀ t ∈ token :: rest, t.Lettered := hqueue ▸ hl.queue
    obtain ⟨htoken, hrest⟩ := List.forall_mem_cons.1 hwait
    exact .bind (.modify fun _ hm => { hm with queue := hrest }) fun _ _ => .pure htoken
  · exact .bind .get fun _ _ => lexWithin_ensures

theorem peek_ensures {mode : ReadMode} {flags : ReadFlags} :
    Ensures (peek mode flags) Token.Lettered := by
  refine .bind .get fun l hl => ?_
  split
  · rename_i token rest hqueue
    exact .pure (hl.queue token (hqueue ▸ List.mem_cons_self))
  · refine .bind (.bind .get fun _ _ => lexWithin_ensures) fun token htoken => ?_
    refine .bind (.modify fun l hl => { hl with queue := ?_ }) fun _ _ => .pure htoken
    exact List.forall_mem_cons.2 ⟨htoken, hl.queue⟩

theorem consume_ensures : Ensures consume fun _ => True :=
  .modify fun _ hl => { hl with queue := fun t ht => hl.queue t (List.mem_of_mem_drop ht) }

theorem expect_ensures {type : TokenType} :
    Ensures (expect type) fun token => token.type = type ∧ token.Lettered := by
  refine .bind read_ensures fun token htoken => .ite (fun h => ?_) fun _ => .fail trivial
  exact .pure ⟨of_decide_eq_true h, htoken⟩

theorem skipLineEnds_ensures : Ensures skipLineEnds fun _ => True := by
  refine .bind .get fun l _ => ?_
  induction l.remaining using skipLineEndsWithin.induct with
  | case1 bound ih =>
    rw [skipLineEndsWithin]
    refine .bind peek_ensures fun token _ => .ite (fun _ => ?_) fun _ => .pure trivial
    refine .bind consume_ensures fun _ _ => .bind .get fun l _ => ?_
    exact .dite (fun less => ih l less) fun _ => .fail trivial

theorem macroBodyWithin_ensures {bound : Remaining} :
    Ensures (macroBodyWithin bound) fun body => ∀ t ∈ body, t.Lettered := by
  induction bound using macroBodyWithin.induct with
  | case1 bound ih =>
    rw [macroBodyWithin]
    refine .bind peek_ensures fun token htoken => .ite (fun _ => .pure (by simp)) fun _ => ?_
    refine .bind consume_ensures fun _ _ => .bind .get fun l _ => ?_
    refine .dite (fun less => .bind (ih l less) fun body hbody => .pure ?_) fun _ => .fail trivial
    exact List.forall_mem_cons.2 ⟨htoken, hbody⟩

theorem defineMacro_ensures : Ensures defineMacro fun _ => True := by
  refine .bind read_ensures fun name _ => .ite (fun _ => .fail_bind trivial) fun _ => ?_
  refine .bind .get fun l _ => .ite (fun _ => .fail_bind trivial) fun _ => .bind .get fun _ _ => ?_
  refine .bind macroBodyWithin_ensures fun body hbody => .modify fun l hl => ?_
  exact { hl with
    macros := List.forall_mem_append.2 ⟨hl.macros, List.forall_mem_singleton.2 hbody⟩ }

end Lexer

/-! ### Running under a contract -/

/-- The options of a compilation, and a condition that reading on and reporting warnings cannot
break. -/
structure Contract where
  options : Options
  Kept : CompileContext → CompileState → Prop
  reading : ∀ {c s}, Kept c s → ∀ lexer warnings,
    Kept c { s with lexer := lexer, warnings := warnings }

/-- A contract holds when the condition does, under the options, and the lexer is lettered. -/
structure Contract.Holds (K : Contract) (c : CompileContext) (s : CompileState) : Prop where
  options : c.options = K.options
  lexer : s.lexer.Lettered
  kept : K.Kept c s

/-- The compiler runs a reader on its own lexer. -/
theorem run_lift (x : Lex α) (c : CompileContext) (s : CompileState) :
    (liftM x : Compiler α) c s = match x s.lexer with
      | .ok a l => .ok a { s with lexer := l }
      | .error e l => .error e { s with lexer := l } := rfl

section

variable {x : Compiler α} {f : α → Compiler β} {c : CompileContext} {s t : CompileState}

theorem bind_run {a : α} (h : x c s = .ok a t) : (x >>= f) c s = f a c t := by
  change EStateM.bind (x c) (fun a => f a c) s = f a c t
  rw [EStateM.bind, h]

theorem bind_run_error {e : CompileError} (h : x c s = .error e t) :
    (x >>= f) c s = .error e t := by
  change EStateM.bind (x c) (fun a => f a c) s = .error e t
  rw [EStateM.bind, h]

end

namespace Contract

variable {K : Contract} {P : α → Prop} {Q : β → Prop}

def Ensures (K : Contract) (x : Compiler α) (P : α → Prop) : Prop :=
  ∀ c s, K.Holds c s →
    match x c s with
    | .ok a s' => K.Holds c s' ∧ P a
    | .error e _ => e.cause.Reachable

/-- Runs under the contract; nothing is said about the result. -/
abbrev Keeps (K : Contract) (x : Compiler α) : Prop := K.Ensures x fun _ => True

namespace Ensures

variable {x y : Compiler α} {f : α → Compiler β} {loc : Location} {cause : Cause}

theorem pure {a : α} (h : P a) : K.Ensures (pure a) P := fun _ _ hs => ⟨hs, h⟩

theorem fail (h : cause.Reachable) : K.Ensures (Compiler.fail loc cause) P :=
  fun _ _ _ => h

theorem bind (hx : K.Ensures x P) (hf : ∀ a, P a → K.Ensures (f a) Q) :
    K.Ensures (x >>= f) Q := by
  intro c s hs
  have hrun : (x >>= f) c s = EStateM.bind (x c) (fun a => f a c) s := rfl
  have h := hx c s hs
  rw [hrun, EStateM.bind]
  cases hxs : x c s with
  | ok a s' =>
    rw [hxs] at h
    exact hf a h.2 c s' h.1
  | error e s' =>
    rw [hxs] at h
    exact h

/-- What would follow a failure is not run. -/
theorem fail_bind (h : cause.Reachable) :
    K.Ensures (Compiler.fail loc cause >>= f) Q :=
  (fail (P := fun _ => False) h).bind fun _ hfalse => hfalse.elim

theorem ite {p : Prop} [Decidable p] (hx : p → K.Ensures x P) (hy : ¬ p → K.Ensures y P) :
    K.Ensures (if p then x else y) P := by
  split
  · exact hx ‹p›
  · exact hy ‹¬ p›

theorem dite {p : Prop} [Decidable p] {x : p → Compiler α} {y : ¬ p → Compiler α}
    (hx : ∀ h, K.Ensures (x h) P) (hy : ∀ h, K.Ensures (y h) P) :
    K.Ensures (if h : p then x h else y h) P := by
  split
  · apply hx
  · apply hy

/-- A check that fails when `p` holds, and what follows it. -/
theorem guard {p : Prop} [Decidable p] {y : Compiler β} (h : cause.Reachable)
    (hy : ¬ p → K.Ensures y Q) :
    K.Ensures (if p then Compiler.fail loc cause >>= f else y) Q :=
  ite (fun _ => fail_bind h) hy

/-- Two branches that are followed by the same. -/
theorem ite_bind {p : Prop} [Decidable p] (hx : p → K.Ensures x P) (hy : ¬ p → K.Ensures y P)
    (hf : ∀ a, P a → K.Ensures (f a) Q) : K.Ensures (if p then x >>= f else y >>= f) Q :=
  ite (fun h => (hx h).bind hf) fun h => (hy h).bind hf

theorem located {x : Except Cause α} (hx : Yields Cause.Reachable P x) :
    K.Ensures (Compiler.located loc x) P := by
  cases x with
  | ok a => exact pure hx
  | error cause => exact fail hx

theorem mono {P' : α → Prop} (hx : K.Ensures x P) (h : ∀ a, P a → P' a) : K.Ensures x P' := by
  intro c s hs
  have hrun := hx c s hs
  cases hxs : x c s with
  | ok a s' =>
    rw [hxs] at hrun
    exact ⟨hrun.1, h a hrun.2⟩
  | error e s' =>
    rw [hxs] at hrun
    exact hrun

theorem keeps (hx : K.Ensures x P) : K.Keeps x := hx.mono fun _ _ => trivial

theorem lift {x : Lex α} (hx : Lexer.Ensures x P) : K.Ensures (liftM x) P := by
  intro c s hs
  have hrun := hx s.lexer hs.lexer
  unfold Lexer.EnsuresAt at hrun
  rw [run_lift]
  cases hl : x s.lexer with
  | ok a l =>
    rw [hl] at hrun
    exact ⟨⟨hs.options, hrun.1, K.reading hs.kept l s.warnings⟩, hrun.2⟩
  | error e l =>
    rw [hl] at hrun
    exact hrun

end Ensures

/-! ### What every contract allows -/

theorem ensures_options : K.Ensures Compiler.options (· = K.options) :=
  fun _ _ hs => ⟨hs, hs.options⟩

theorem ensures_state : K.Ensures (getThe CompileState) fun s => ∃ c, K.Holds c s :=
  fun c _ hs => ⟨hs, c, hs⟩

theorem keeps_location : K.Keeps Compiler.location := fun _ _ hs => ⟨hs, trivial⟩

theorem keeps_remaining : K.Keeps Compiler.remaining := fun _ _ hs => ⟨hs, trivial⟩

theorem keeps_warn {loc : Location} {w : Warning} : K.Keeps (Compiler.warn loc w) :=
  fun _ s hs => ⟨⟨hs.options, hs.lexer, K.reading hs.kept s.lexer _⟩, trivial⟩

/-- A loop ends with what its last step gives, if every step that goes on keeps the invariant. -/
theorem ensures_repeatFrom {I : σ → Prop} {step : σ → Compiler (σ ⊕ α)} {s : σ} (hs : I s)
    (hstep : ∀ s, I s → K.Ensures (step s) (Sum.elim I P)) :
    K.Ensures (Compiler.repeatFrom s step) P := by
  refine .bind keeps_remaining fun bound _ => ?_
  induction bound, s using Compiler.repeatWithin.induct with
  | case1 bound s ih =>
    rw [Compiler.repeatWithin]
    refine (hstep s hs).bind fun result hresult => ?_
    cases result with
    | inr a => exact .pure hresult
    | inl next =>
      refine .bind keeps_remaining fun now _ => .dite (fun less => ih next now less hresult) ?_
      exact fun _ => .bind keeps_location fun _ _ => .fail trivial

end Contract

end ApeScript
