import ApeScript.Proofs.OptionalBraces
import ApeScript.Proofs.RestatedCommand

/-!
# Lines of a window under conditions

A window that is written has at most one condition before a directive, on a line of its own.
`Compiler.Leaps` says that a loop goes on from one spot as it does from another, with another state
and other inline switches; leaps follow each other, and `Compiler.Crosses` is the leap over a text.
`Compiler.crosses_line` gives the leap over the line of a directive and the condition before it,
from what the directive reads after its keyword under that condition.
-/

namespace ApeScript

/-- A draft that says what `w` does, whatever was closed last. -/
def WindowDraft.Over (w v : WindowDraft) : Prop := v = { w with closed := v.closed }

/-- The options of the plain dialect, whatever the name and the hash of the script are. -/
def CompileContext.Plain (c : CompileContext) : Prop :=
  c.options = { Options.defaults with file := c.options.file, hash := c.options.hash }

namespace CompileContext.Plain

variable {c : CompileContext}

theorem optimize (hc : c.Plain) : c.options.optimize = false := by rw [hc]; rfl

theorem allowExprEscapes (hc : c.Plain) : c.options.allowExprEscapes = true := by rw [hc]; rfl

theorem legacyCam (hc : c.Plain) : c.options.legacyCam = false := by rw [hc]; rfl

theorem legacyTopLevel (hc : c.Plain) : c.options.legacyTopLevel = false := by rw [hc]; rfl

theorem legacySetNaming (hc : c.Plain) : c.options.legacySetNaming = false := by rw [hc]; rfl

theorem legacyLabeledCommands (hc : c.Plain) : c.options.legacyLabeledCommands = false := by
  rw [hc]; rfl

theorem legacyComments (hc : c.Plain) : c.options.legacyComments = false := by rw [hc]; rfl

theorem legacyMacros (hc : c.Plain) : c.options.legacyMacros = false := by rw [hc]; rfl

theorem allowExpFloats (hc : c.Plain) : c.options.allowExpFloats = true := by rw [hc]; rfl

theorem warningsAsErrors (hc : c.Plain) : c.options.warningsAsErrors = false := by rw [hc]; rfl

theorem effective (hc : c.Plain) : c.options.effective = c.options := by rw [hc]; rfl

end CompileContext.Plain

namespace Compiler

open Lexer
open Script (conditionLine)

variable {α σ : Type} {c : CompileContext} {p q r : Spot}

/-! ### Leaps of a loop -/

/-- The inline switches made so far, and how many labels they have taken. -/
structure Inlined where
  count : Nat
  switches : List Switch

structure StandsWith (m : Inlined) (p : Spot) (s : CompileState) : Prop where
  lexer : s.lexer.At p
  count : s.inlineCount = m.count
  switches : s.inline = m.switches

variable {m m₁ m₂ : Inlined} {x : Compiler α} {P : α → Prop} {A A₁ A₂ : σ → Prop}
  {step : σ → Compiler (σ ⊕ α)} {text text₁ text₂ : Bytes}

/-- What reads on makes no inline switches. -/
theorem Reads.standing (h : Reads x c p q P) (m : Inlined) :
    Succeeds (x c) (StandsWith m p) (StandsWith m q) P := by
  intro s hs
  obtain ⟨a, t, hrun, ha, ht, hbase⟩ := h s s ⟨hs.lexer, rfl⟩
  refine ⟨a, t, hrun, ha, ht, ?_, ?_⟩
  · rw [hbase]
    exact hs.count
  · rw [hbase]
    exact hs.switches

/-- The plain setting is the one without macros in which numbers may have exponents. -/
theorem reads_of_stands (h : ReadsFrom x c (Stands .plain p) (Stands .plain q) P) :
    Reads x c p q P := by
  rw [← at_eq_stands, ← at_eq_stands] at h
  exact h

theorem stands_of_reads (h : Reads x c p q P) :
    ReadsFrom x c (Stands .plain p) (Stands .plain q) P := by
  rw [← at_eq_stands, ← at_eq_stands]
  exact h

/-- A loop goes on from the spot `p` as from the spot `q`: from a state with `A` as from one with
`B`, after `m'` in place of `m` was made. -/
def Leaps (step : σ → Compiler (σ ⊕ α)) (c : CompileContext) (A : σ → Prop) (m : Inlined) (p : Spot)
    (B : σ → Prop) (m' : Inlined) (q : Spot) : Prop :=
  ∀ a s, A a → StandsWith m p s → ∃ b t, B b ∧ StandsWith m' q t ∧
    repeatWithin step p.remaining a c s = repeatWithin step q.remaining b c t

theorem Leaps.refl : Leaps step c A m p A m p := fun a s ha hs => ⟨a, s, ha, hs, rfl⟩

theorem Leaps.trans (h₁ : Leaps step c A m p A₁ m₁ q) (h₂ : Leaps step c A₁ m₁ q A₂ m₂ r) :
    Leaps step c A m p A₂ m₂ r := by
  intro a s ha hs
  obtain ⟨b, t, hb, ht, hleap⟩ := h₁ a s ha hs
  obtain ⟨d, u, hd, hu, hleap'⟩ := h₂ b t hb ht
  exact ⟨d, u, hd, hu, hleap.trans hleap'⟩

/-- A round that goes on and leaves less to read. -/
theorem Leaps.round (hless : q.remaining.Less p.remaining)
    (h : ∀ a, A a → Succeeds (step a c) (StandsWith m p) (StandsWith m₁ q)
      fun result => ∃ b, A₁ b ∧ result = .inl b) : Leaps step c A m p A₁ m₁ q := by
  intro a s ha hs
  obtain ⟨_, t, hrun, ⟨b, hb, rfl⟩, ht⟩ := h a ha s hs
  refine ⟨b, t, hb, ht, ?_⟩
  have hnow : remaining c t = .ok q.remaining t := by
    rw [← ht.lexer.remaining_eq]
    rfl
  rw [repeatWithin, bind_run hrun]
  simp only
  rw [bind_run hnow, dif_pos hless]

/-- The rounds up to a round that ends the loop. -/
theorem Leaps.succeeds {a : σ} (h : Leaps step c A m p A₁ m₁ q) (ha : A a)
    (hstop : ∀ b, A₁ b → Succeeds (step b c) (StandsWith m₁ q) (StandsWith m₂ r)
      fun result => ∃ z, P z ∧ result = .inr z) :
    Succeeds (repeatFrom a step c) (StandsWith m p) (StandsWith m₂ r) P := by
  intro s hs
  obtain ⟨b, t, hb, ht, hleap⟩ := h a s ha hs
  obtain ⟨_, u, hrun, ⟨z, hz, rfl⟩, hu⟩ := hstop b hb t ht
  have hnow : remaining c s = .ok p.remaining s := by
    rw [← hs.lexer.remaining_eq]
    rfl
  refine ⟨z, u, ?_, hz, hu⟩
  rw [repeatFrom, bind_run hnow, hleap, repeatWithin, bind_run hrun]
  rfl

def Crosses (step : σ → Compiler (σ ⊕ α)) (c : CompileContext) (text : Bytes) (A : σ → Prop)
    (m : Inlined) (B : σ → Prop) (m' : Inlined) : Prop :=
  ∀ rest, Leaps step c A m ⟨[], text ++ rest⟩ B m' ⟨[], rest⟩

theorem Crosses.nil : Crosses step c [] A m A m := fun _ => .refl

theorem Crosses.append (h₁ : Crosses step c text₁ A m A₁ m₁)
    (h₂ : Crosses step c text₂ A₁ m₁ A₂ m₂) : Crosses step c (text₁ ++ text₂) A m A₂ m₂ := by
  intro rest
  have h := (h₁ (text₂ ++ rest)).trans (h₂ rest)
  rwa [← List.append_assoc] at h

theorem less_of_length {ks ks' : List Lexeme} {s t : Bytes} (h : t.length < s.length) :
    (Spot.mk ks t).remaining.Less (Spot.mk ks' s).remaining := Or.inl h

/-! ### Computations that succeed or fail -/

variable {β : Type} {Q : β → Prop} {o : Option (Inlined × Spot)} {ok ok₁ ok₂ : Bool}

/-- The computation ends at a spot, after inline switches were made, or fails if there is none. -/
structure ComesTo (x : Compiler α) (c : CompileContext) (m : Inlined) (p : Spot)
    (o : Option (Inlined × Spot)) (P : α → Prop) : Prop where
  succeeds : ∀ m' q, o = some (m', q) → Succeeds (x c) (StandsWith m p) (StandsWith m' q) P
  fails : o = none → ∀ s, StandsWith m p s → ∃ e t, x c s = .error e t

namespace ComesTo

theorem of_succeeds {x : Compiler α} (h : Succeeds (x c) (StandsWith m p) (StandsWith m' q) P) :
    ComesTo x c m p (some (m', q)) P :=
  ⟨by rintro _ _ ⟨⟩; exact h, by rintro ⟨⟩⟩

theorem after {x : Compiler α} {f : α → Compiler β}
    (hx : Succeeds (x c) (StandsWith m p) (StandsWith m₁ q) P)
    (hf : ∀ a, P a → ComesTo (f a) c m₁ q o Q) : ComesTo (x >>= f) c m p o Q where
  succeeds m' r hr := succeeds_bind hx fun a ha => (hf a ha).succeeds m' r hr
  fails hnone s hs := by
    obtain ⟨a, t, hrun, ha, ht⟩ := hx s hs
    obtain ⟨e, u, hfail⟩ := (hf a ha).fails hnone t ht
    exact ⟨e, u, (bind_run hrun).trans hfail⟩

theorem andThen {x : Compiler α} {f : α → Compiler β} {o' : Option (Inlined × Spot)}
    (hx : ComesTo x c m p o P)
    (hf : ∀ m₁ q, o = some (m₁, q) → ∀ a, P a → ComesTo (f a) c m₁ q o' Q)
    (hnone : o = none → o' = none) : ComesTo (x >>= f) c m p o' Q := by
  cases o with
  | some there => exact .after (hx.succeeds _ _ rfl) (hf _ _ rfl)
  | none =>
    rw [hnone rfl]
    refine ⟨by rintro _ _ ⟨⟩, fun _ s hs => ?_⟩
    obtain ⟨e, t, hfail⟩ := hx.fails rfl s hs
    exact ⟨e, t, bind_run_error hfail⟩

/-- What succeeds comes after what may fail. -/
theorem thenIf {x : Compiler α} {f : α → Compiler β}
    (hx : ComesTo x c m p (if ok then some (m₁, q) else none) P)
    (hf : ∀ a, P a → Succeeds (f a c) (StandsWith m₁ q) (StandsWith m₂ r) Q) :
    ComesTo (x >>= f) c m p (if ok then some (m₂, r) else none) Q := by
  cases ok with
  | true => exact .after (hx.succeeds _ _ rfl) fun a ha => .of_succeeds (hf a ha)
  | false => exact hx.andThen (by simp) fun _ => rfl

/-- What reads on makes no inline switches. -/
theorem of_runs {x : Compiler α} {accepted : Bool}
    (h : Runs x c (Stands .plain p) (if accepted then some (Stands .plain q) else none) P)
    (m : Inlined) : ComesTo x c m p (if accepted then some (m, q) else none) P where
  succeeds m' r hr := by
    cases accepted with
    | false => cases hr
    | true =>
      cases hr
      exact (reads_of_stands (h.reads _ rfl)).standing m
  fails hnone s hs := by
    cases accepted with
    | true => cases hnone
    | false => exact h.fails rfl s (by rw [← at_eq_stands]; exact hs.lexer)

end ComesTo

/-- The loop fails from a spot on. -/
def Breaks (step : σ → Compiler (σ ⊕ α)) (c : CompileContext) (A : σ → Prop) (m : Inlined)
    (p : Spot) : Prop :=
  ∀ a s, A a → StandsWith m p s → ∃ e t, repeatWithin step p.remaining a c s = .error e t

theorem Leaps.breaks (h : Leaps step c A m p A₁ m₁ q) (hbreaks : Breaks step c A₁ m₁ q) :
    Breaks step c A m p := by
  intro a s ha hs
  obtain ⟨b, t, hb, ht, hleap⟩ := h a s ha hs
  rw [hleap]
  exact hbreaks b t hb ht

theorem Breaks.round (h : ∀ a, A a → ComesTo (step a) c m p none fun _ => True) :
    Breaks step c A m p := by
  intro a s ha hs
  obtain ⟨e, t, hfail⟩ := (h a ha).fails rfl s hs
  exact ⟨e, t, by rw [repeatWithin]; exact bind_run_error hfail⟩

/-- A loop goes on at another spot, or fails before. -/
def LeapsIf (step : σ → Compiler (σ ⊕ α)) (c : CompileContext) (ok : Bool) (A : σ → Prop)
    (m : Inlined) (p : Spot) (B : σ → Prop) (m' : Inlined) (q : Spot) : Prop :=
  if ok then Leaps step c A m p B m' q else Breaks step c A m p

theorem Leaps.leapsIf (h : Leaps step c A m p A₁ m₁ q) :
    LeapsIf step c true A m p A₁ m₁ q := h

namespace LeapsIf

theorem trans (h₁ : LeapsIf step c ok₁ A m p A₁ m₁ q) (h₂ : LeapsIf step c ok₂ A₁ m₁ q A₂ m₂ r) :
    LeapsIf step c (ok₁ && ok₂) A m p A₂ m₂ r := by
  cases ok₁ with
  | false => exact h₁
  | true =>
    have hleaps : Leaps step c A m p A₁ m₁ q := h₁
    cases ok₂ with
    | true => exact hleaps.trans h₂
    | false => exact hleaps.breaks h₂

theorem round (hless : q.remaining.Less p.remaining)
    (h : ∀ a, A a → ComesTo (step a) c m p (if ok then some (m₁, q) else none)
      fun result => ∃ b, A₁ b ∧ result = .inl b) : LeapsIf step c ok A m p A₁ m₁ q := by
  cases ok with
  | true => exact Leaps.round hless fun a ha => (h a ha).succeeds _ _ rfl
  | false => exact Breaks.round fun a ha => ⟨by rintro _ _ ⟨⟩, (h a ha).fails⟩

/-- The rounds up to a round that ends the loop. -/
theorem comesTo {a : σ} (h : LeapsIf step c ok A m p A₁ m₁ q) (ha : A a)
    (hstop : ∀ b, A₁ b → Succeeds (step b c) (StandsWith m₁ q) (StandsWith m₂ r)
      fun result => ∃ z, P z ∧ result = .inr z) :
    ComesTo (repeatFrom a step) c m p (if ok then some (m₂, r) else none) P := by
  cases ok with
  | true => exact .of_succeeds (Leaps.succeeds h ha hstop)
  | false =>
    refine ⟨by rintro _ _ ⟨⟩, fun _ s hs => ?_⟩
    have hnow : remaining c s = .ok p.remaining s := by
      rw [← hs.lexer.remaining_eq]
      rfl
    rw [repeatFrom, bind_run hnow]
    exact h a s ha hs

end LeapsIf

/-- A loop passes over a text, or fails in it. -/
def CrossesIf (step : σ → Compiler (σ ⊕ α)) (c : CompileContext) (text : Bytes) (ok : Bool)
    (A : σ → Prop) (m : Inlined) (B : σ → Prop) (m' : Inlined) : Prop :=
  ∀ rest, LeapsIf step c ok A m ⟨[], text ++ rest⟩ B m' ⟨[], rest⟩

theorem Crosses.crossesIf (h : Crosses step c text A m A₁ m₁) :
    CrossesIf step c text true A m A₁ m₁ := h

theorem CrossesIf.append (h₁ : CrossesIf step c text₁ ok₁ A m A₁ m₁)
    (h₂ : CrossesIf step c text₂ ok₂ A₁ m₁ A₂ m₂) :
    CrossesIf step c (text₁ ++ text₂) (ok₁ && ok₂) A m A₂ m₂ := by
  intro rest
  rw [List.append_assoc]
  exact (h₁ _).trans (h₂ rest)

/-! ### Conditions -/

inductive Governs : Option Expr → List ConditionBlock → Prop
  | none : Governs none []
  | some (e : Expr) (loc : Location) : Governs (some e) [⟨e.parsed, false, false, false, loc⟩]

variable {w w' v : WindowDraft} {cond : Option Expr} {word args rest : Bytes}

theorem Governs.unbraced {blocks : List ConditionBlock} (h : Governs cond blocks) :
    ∀ b ∈ blocks, b.braced = false := by
  cases h with
  | none => simp
  | some => simp

theorem reads_toExpr_restored {e : Expr} (hc : c.Plain) (he : e.Stored) (loc : Location) :
    Reads (toExpr e.parsed loc) c p p (· = e.restored) := by
  intro base s hs
  refine ⟨e.restored, s, ?_, rfl, hs⟩
  exact toExpr_run hc.optimize he.isFloat (hc.allowExprEscapes ▸ he.layout)

theorem reads_activeCondition_governed (hc : c.Plain) (hcond : ∀ e ∈ cond, e.Stored)
    (hv : Governs cond v.blocks) :
    Reads (activeCondition v) c p p (· = (cond.map Expr.restored, true)) := by
  unfold activeCondition
  generalize v.blocks = blocks at hv
  cases hv with
  | none => exact .pure rfl
  | some e loc =>
    refine .bind .options ?_
    rintro _ rfl
    rw [hc.optimize]
    refine .bind (reads_toExpr_restored hc (hcond e rfl) loc) ?_
    rintro _ rfl
    exact .pure rfl

/-- After a blank, the text of a condition and the line end behind it are read up to the keyword
on the next line, which has then been looked at. -/
theorem reads_openIf_governs {e : Expr} (he : e.Stored) (hword : Script.Identifier word)
    (hargs : ∀ b ∈ args.head?, isIdentifierByte b = false) (loc : Location) :
    Reads (openIf w loc) c
      ⟨[], 32 :: 40 :: (Script.expressionSource e ++ 41 :: 10 :: 9 :: (word ++ args))⟩
      ⟨[(.identifier, word)], args⟩
      (· = { w with blocks := ⟨e.parsed, false, false, false, loc⟩ :: w.blocks }) := by
  have hsource : Reads parseExpr c
      ⟨[], Script.expressionSource e ++ 41 :: 10 :: 9 :: (word ++ args)⟩
      ⟨[(.closeParen, [41])], 10 :: 9 :: (word ++ args)⟩ (· = e.parsed) := by
    refine reads_of_stands (readsFrom_parseExpr rfl he ?_ rfl (by simp))
    simp [EndsOperand, isIdentifierByte, Bytes.isDigit, Bytes.isLower, Bytes.isUpper]
  have htab : firstToken? true .normal {} (9 :: (word ++ args)) =
      some ((.identifier, word), args) := by
    have hgap : Scan.gap (9 :: (word ++ args)) =
        ((Scan.gap (word ++ args)).1 + 1, (Scan.gap (word ++ args)).2) :=
      Scan.gapFrom_succ 0 .plain _
    have hfirst : firstToken? true .normal {} (word ++ args) =
        some ((.identifier, word), args) := firstToken?_identifier hword hargs
    rw [← hfirst]
    simp [firstToken?, hgap]
  have hline : Succeeds skipLineEnds (At ⟨[], 10 :: 9 :: (word ++ args)⟩)
      (At ⟨[(.identifier, word)], args⟩) fun _ => True := by
    intro l hl
    rw [at_eq_stands] at hl
    have hlead : Grammar.Lead .plain [10] := Grammar.lead_line
    obtain ⟨m, hskip, hm⟩ := hlead htab (literal_plain _ _) (by simp) l hl
    rw [at_eq_stands]
    exact ⟨(), m, hskip, trivial, hm⟩
  refine .bind (.lift (succeeds_expect (succeeds_read rfl))) fun _ _ => .bind hsource ?_
  rintro _ rfl
  refine .bind (.lift (succeeds_expect succeeds_read_queued)) fun _ _ => ?_
  rw [he.isFloat]
  refine .bind (.lift hline) fun _ _ => .bind (.lift succeeds_peek_queued) fun token ht => ?_
  have htype : token.type = .identifier := congrArg Prod.fst ht
  rw [htype]
  exact .pure rfl

/-! ### Lines -/

/-- A draft that says what `w` does in the blocks of a condition, which no directive has used. -/
structure Amid (cond : Option Expr) (w v : WindowDraft) : Prop where
  governs : Governs cond v.blocks
  eq_with : v = { w with blocks := v.blocks, closed := v.closed }

/-- A round after its first token, other than that of another directive. -/
theorem comesTo_parseWindowRound {Q : WindowDraft → Prop} {k : Lexeme} {ks : List Lexeme}
    (hpeek : Succeeds peekNormal (At p) (At ⟨k :: ks, rest⟩) (·.lexeme = k)) (hhash : k.1 ≠ .hash)
    (hend : k.1 ≠ .endOfFile)
    (hdirective : ∀ loc, ComesTo (parseDirective v ⟨k.1, k.2, loc⟩) c m ⟨ks, rest⟩ o Q) :
    ComesTo (parseWindowRound v) c m p o fun result => ∃ v', Q v' ∧ result = .inl v' := by
  refine .after ((Reads.lift hpeek).standing m) fun token ht => ?_
  obtain ⟨type, word, loc⟩ := token
  cases ht
  simp only
  split
  · contradiction
  · contradiction
  · refine .after ((Reads.lift succeeds_consume).standing m) fun _ _ => ?_
    refine (hdirective loc).andThen (fun m₁ q ho v' hv' => ?_) id
    rw [ho]
    exact .of_succeeds (.pure ⟨v', hv', rfl⟩)

theorem succeeds_parseWindowRound {Q : WindowDraft → Prop} {k : Lexeme} {ks : List Lexeme}
    (hpeek : Succeeds peekNormal (At p) (At ⟨k :: ks, rest⟩) (·.lexeme = k)) (hhash : k.1 ≠ .hash)
    (hend : k.1 ≠ .endOfFile)
    (hdirective : ∀ loc, Succeeds (parseDirective v ⟨k.1, k.2, loc⟩ c) (StandsWith m ⟨ks, rest⟩)
      (StandsWith m₁ q) Q) :
    Succeeds (parseWindowRound v c) (StandsWith m p) (StandsWith m₁ q)
      fun result => ∃ v', Q v' ∧ result = .inl v' :=
  (comesTo_parseWindowRound hpeek hhash hend fun loc => .of_succeeds (hdirective loc)).succeeds _ _
    rfl

/-- A directive after its keyword, under the condition before it. -/
theorem leapsIf_directive (hw' : w'.blocks = []) (hword : isKeyword word = true)
    (command : WindowDraft → Location → Compiler WindowDraft)
    (hparse : ∀ v loc, parseCommand v ⟨.identifier, word, loc⟩ = command v loc)
    (hcommand : ∀ blocks, Governs cond blocks → ∀ loc, ∃ q, Spot.EndsLine rest q ∧
      ComesTo (command { w with blocks := blocks, closed := [] } loc) c m
        ⟨[], args ++ 10 :: rest⟩ (if ok then some (m₁, q) else none)
        (· = { w' with blocks := blocks, closed := [] }))
    (hpeek : Succeeds peekNormal (At p) (At ⟨[(.identifier, word)], args ++ 10 :: rest⟩)
      (·.lexeme = (.identifier, word)))
    (hp : (args ++ 10 :: rest).length ≤ p.rest.length) :
    LeapsIf parseWindowRound c ok (Amid cond w) m p w'.Over m₁ ⟨[], rest⟩ := by
  simp only [isKeyword, Bool.and_eq_true, bne_iff_ne, and_assoc] at hword
  obtain ⟨-, -, helse, hif⟩ := hword
  have hdirective (v : WindowDraft) (hv : Amid cond w v) : ComesTo (parseWindowRound v) c m p
      (if ok then some (m₁, ⟨[(.endOfLine, [10])], rest⟩) else none)
        fun result => ∃ v', w'.Over v' ∧ result = .inl v' := by
    refine comesTo_parseWindowRound hpeek (by simp) (by simp) fun loc => ?_
    simp only [parseDirective, reduceCtorEq, if_false, Token.is, decide_true, Bool.true_and, helse,
      hif, decide_false, Bool.false_eq_true, ne_eq, not_true_eq_false, hparse]
    have hopen : { v with closed := [] } = { w with blocks := v.blocks, closed := [] } := by
      rw [hv.eq_with]
    obtain ⟨q, hq, hcomes⟩ := hcommand _ hv.governs loc
    rw [hopen]
    refine hcomes.thenIf ?_
    rintro _ rfl
    refine succeeds_bind ((Reads.lift (succeeds_peek_endsLine hq)).standing m₁) fun next hnext => ?_
    have htype : next.type = .endOfLine := congrArg Prod.fst hnext
    rw [htype]
    refine .pure ?_
    have hdone : (v.blocks.map fun b => { b with used := true }).dropWhile (!·.braced) = [] := by
      simpa [List.dropWhile_eq_nil_iff] using hv.governs.unbraced
    simp [WindowDraft.Over, WindowDraft.closeUnbraced, WindowDraft.markUsed, hdone, hw']
  have hrest : (10 :: rest).length ≤ p.rest.length := by
    refine Nat.le_trans ?_ hp
    simp
  have hline : Leaps parseWindowRound c w'.Over m₁ ⟨[(.endOfLine, [10])], rest⟩ w'.Over m₁
      ⟨[], rest⟩ := by
    refine .round ?_ fun v hv => ?_
    · right
      simp [Spot.remaining]
    · refine succeeds_parseWindowRound succeeds_peek_queued (by simp) (by simp) fun loc => ?_
      exact .pure hv
  have hall := (LeapsIf.round (less_of_length hrest) hdirective).trans hline.leapsIf
  rwa [Bool.and_true] at hall

/-- The line of a condition leads into its blocks. -/
theorem leaps_condition {e : Expr} (hw : w.blocks = []) (he : e.Stored)
    (hword : Script.Identifier word) (hargs : ∀ b ∈ args.head?, isIdentifierByte b = false) :
    Leaps parseWindowRound c w.Over m ⟨[], conditionLine (some e) ++ (word ++ args)⟩
      (Amid (some e) w) m ⟨[(.identifier, word)], args⟩ := by
  have htext : conditionLine (some e) ++ (word ++ args) =
      utf8 "if" ++ 32 :: 40 :: (Script.expressionSource e ++ 41 :: 10 :: 9 :: (word ++ args)) := by
    have hstart : utf8 "if (" = utf8 "if" ++ [32, 40] := rfl
    have hend : utf8 ")\n\t" = [41, 10, 9] := rfl
    simp [conditionLine, hstart, hend]
  have hless : args.length < (conditionLine (some e) ++ (word ++ args)).length := by
    rw [htext]
    simp
    omega
  refine .round (less_of_length hless) fun v hv => ?_
  rw [htext]
  have hfirst : first? .normal {} (utf8 "if" ++
      32 :: 40 :: (Script.expressionSource e ++ 41 :: 10 :: 9 :: (word ++ args))) = some
        ((.identifier, utf8 "if"),
          32 :: 40 :: (Script.expressionSource e ++ 41 :: 10 :: 9 :: (word ++ args))) :=
    first?_identifier (.of_all rfl) (by simp +decide)
  refine succeeds_parseWindowRound (succeeds_peek hfirst) (by simp) (by simp) fun loc => ?_
  have hif : parseDirective v ⟨.identifier, utf8 "if", loc⟩ = openIf { v with closed := [] } loc :=
    rfl
  rw [hif]
  refine ((reads_openIf_governs he hword hargs loc).standing m).mono ?_
  rintro _ rfl
  have hblocks : v.blocks = [] := by rw [hv, hw]
  rw [hblocks]
  exact ⟨.some e loc, by rw [hv]⟩

/-- The line of a directive, after the line of its condition if it has one. -/
theorem crossesIf_line (cond : Option Expr) (hw : w.blocks = []) (hw' : w'.blocks = [])
    (hcond : ∀ e ∈ cond, e.Stored) (hword : isKeyword word = true) (hargs : Spaced args)
    (command : WindowDraft → Location → Compiler WindowDraft)
    (hparse : ∀ v loc, parseCommand v ⟨.identifier, word, loc⟩ = command v loc)
    (hcommand : ∀ blocks, Governs cond blocks → ∀ loc rest, ∃ q, Spot.EndsLine rest q ∧
      ComesTo (command { w with blocks := blocks, closed := [] } loc) c m
        ⟨[], args ++ 10 :: rest⟩ (if ok then some (m₁, q) else none)
        (· = { w' with blocks := blocks, closed := [] })) :
    CrossesIf parseWindowRound c (conditionLine cond ++ (word ++ args ++ [10])) ok w.Over m w'.Over
      m₁ := by
  intro rest
  have hidentifier : Script.Identifier word := by
    simp only [isKeyword, Bool.and_eq_true] at hword
    exact .of_all (by simp [hword])
  have htext : conditionLine cond ++ (word ++ args ++ [10]) ++ rest =
      conditionLine cond ++ (word ++ (args ++ 10 :: rest)) := by simp
  rw [htext]
  have hdirective {p : Spot} := leapsIf_directive (p := p) hw' hword command hparse
    fun blocks hblocks loc => hcommand blocks hblocks loc rest
  cases cond with
  | none =>
    have hplain : Leaps parseWindowRound c w.Over m ⟨[], word ++ (args ++ 10 :: rest)⟩
        (Amid none w) m ⟨[], word ++ (args ++ 10 :: rest)⟩ := by
      intro v s hv hs
      have hblocks : v.blocks = [] := by rw [hv, hw]
      exact ⟨v, s, ⟨hblocks ▸ .none, by rw [hblocks]; rw [hv, hw]⟩, hs, rfl⟩
    exact hplain.leapsIf.trans (hdirective
      (succeeds_peek (first?_identifier hidentifier (hargs.delimits rest))) (by simp))
  | some e =>
    refine (leaps_condition hw (hcond e rfl) hidentifier (hargs.delimits rest)).leapsIf.trans ?_
    exact hdirective succeeds_peek_queued (Nat.le_refl _)

theorem crosses_line (cond : Option Expr) (hw : w.blocks = []) (hw' : w'.blocks = [])
    (hcond : ∀ e ∈ cond, e.Stored) (hword : isKeyword word = true) (hargs : Spaced args)
    (command : WindowDraft → Location → Compiler WindowDraft)
    (hparse : ∀ v loc, parseCommand v ⟨.identifier, word, loc⟩ = command v loc)
    (hcommand : ∀ blocks, Governs cond blocks → ∀ loc rest, ∃ q, Spot.EndsLine rest q ∧
      Succeeds (command { w with blocks := blocks, closed := [] } loc c)
        (StandsWith m ⟨[], args ++ 10 :: rest⟩) (StandsWith m₁ q)
        (· = { w' with blocks := blocks, closed := [] })) :
    Crosses parseWindowRound c (conditionLine cond ++ (word ++ args ++ [10])) w.Over m w'.Over
      m₁ := by
  have hline : CrossesIf parseWindowRound c (conditionLine cond ++ (word ++ args ++ [10])) true
      w.Over m w'.Over m₁ := by
    refine crossesIf_line cond hw hw' hcond hword hargs command hparse
      fun blocks hblocks loc rest => ?_
    obtain ⟨q, hq, hsucceeds⟩ := hcommand blocks hblocks loc rest
    exact ⟨q, hq, .of_succeeds hsucceeds⟩
  exact hline

end Compiler

end ApeScript
