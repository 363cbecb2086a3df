import ApeScript.Proofs.EnclosedCommands
import ApeScript.Proofs.SkeletonLines

/-!
# Skeletons as windows

A window that is filled with a skeleton is accepted exactly if its blocks go through the skeleton's
signs with none left open, and the conditions around every text can be laid out together. The reader
of the window is followed up to the sign at which it fails, if there is one: `Compiler.Decides` says
from which condition on it succeeds.
-/

namespace ApeScript

open Script (Shown)

theorem Value.isFloat_invert {v : Value} (hv : v.isFloat = true) : v.invert.isFloat = true := by
  unfold Value.isFloat at *
  induction v with
  | const x => rfl
  | floatVar name => rfl
  | binary op l r ihl ihr =>
    cases op <;> simp_all [Value.invert, Value.result, Operator.result]
  | _ => cases hv

/-! ### Conditions that are numbers -/

namespace Nest

def OfNumbers (n : Nest Value) : Prop := ∀ g ∈ n.closed ++ n.opened, g.condition.isFloat = true

variable {n m : Nest Value} {opened closed : List (Guard Value)} {sign : Sign Condition Shown}

theorem OfNumbers.leave (h : OfNumbers ⟨opened, closed⟩) :
    OfNumbers (Nest.leave ⟨opened, closed⟩) := by
  intro g hg
  rw [Nest.leave, List.append_assoc, List.takeWhile_append_dropWhile] at hg
  exact h g hg

theorem OfNumbers.step? (h : n.OfNumbers)
    (hstep : n.step? Value.invert (sign.map Condition.value) = some m) : m.OfNumbers := by
  have hopened : ∀ g ∈ n.opened, g.condition.isFloat = true :=
    fun g hg => h g (List.mem_append_right _ hg)
  cases sign with
  | plain text =>
    cases hstep
    exact leave hopened
  | opening condition braced =>
    cases hstep
    exact List.forall_mem_cons.2 ⟨condition.isFloat, hopened⟩
  | otherwise braced =>
    simp only [Sign.map, Nest.step?] at hstep
    split at hstep
    · cases hstep
    · rename_i inner outer hclosed
      split at hstep
      · cases hstep
      · cases hstep
        have hclosed : ∀ g ∈ inner :: outer, g.condition.isFloat = true :=
          fun g hg => h g (List.mem_append_left _ (hclosed ▸ hg))
        obtain ⟨hinner, houter⟩ := List.forall_mem_cons.1 hclosed
        refine List.forall_mem_cons.2 ⟨Value.isFloat_invert hinner, ?_⟩
        exact List.forall_mem_append.2 ⟨houter, hopened⟩
  | closing =>
    simp only [Sign.map, Nest.step?] at hstep
    split at hstep
    · cases hstep
    · rename_i top rest hstack
      split at hstep
      · cases hstep
        apply leave
        rwa [hstack] at hopened
      · cases hstep

end Nest

namespace Compiler

open Lexer

variable {α β σ : Type} {c : CompileContext} {p q r : Spot} {w w' : WindowDraft} {loc : Location}
  {rest word : Bytes}

/-! ### Computations that may fail -/

/-- The computation fails from every state at the spot. -/
def Fails (x : Compiler α) (c : CompileContext) (p : Spot) : Prop :=
  ∀ s, s.lexer.At p → ∃ e t, x c s = .error e t

/-- The computation succeeds from the spot under a condition, and fails otherwise. -/
structure Decides (x : Compiler α) (c : CompileContext) (p q : Spot) (A : Prop) (P : α → Prop) :
    Prop where
  reads : A → Reads x c p q P
  fails : ¬ A → Fails x c p

namespace Fails

variable {x : Compiler α} {f : α → Compiler β} {P : α → Prop}

theorem fail {cause : Cause} : Fails (fail loc cause : Compiler α) c p := FailsFrom.fail

theorem left (h : Fails x c p) : Fails (x >>= f) c p := FailsFrom.left h

theorem bind (hx : Reads x c p q P) (hf : ∀ a, P a → Fails (f a) c q) : Fails (x >>= f) c p :=
  FailsFrom.bind hx hf

end Fails

namespace Decides

variable {x : Compiler α} {f : α → Compiler β} {A B : Prop} {P P' : α → Prop} {Q : β → Prop}

theorem of_reads (h : Reads x c p q P) (hA : A) : Decides x c p q A P :=
  ⟨fun _ => h, fun hn => absurd hA hn⟩

theorem of_fails (h : Fails x c p) (hA : ¬ A) : Decides x c p q A P :=
  ⟨fun ha => absurd ha hA, fun _ => h⟩

theorem congr (h : Decides x c p q A P) (hAB : A ↔ B) : Decides x c p q B P :=
  ⟨fun hb => h.reads (hAB.2 hb), fun hb => h.fails (mt hAB.1 hb)⟩

theorem mono (h : Decides x c p q A P) (hP : ∀ a, P a → P' a) : Decides x c p q A P' :=
  ⟨fun ha base => (h.reads ha base).mono hP, h.fails⟩

/-- What comes first succeeds. -/
theorem bind (hx : Reads x c p q P) (hf : ∀ a, P a → Decides (f a) c q r A Q) :
    Decides (x >>= f) c p r A Q :=
  ⟨fun ha => .bind hx fun a h => (hf a h).reads ha, fun ha => .bind hx fun a h => (hf a h).fails ha⟩

/-- What comes first may fail, and so may what follows. -/
theorem both (hx : Decides x c p q A P) (hf : ∀ a, P a → Decides (f a) c q r B Q) :
    Decides (x >>= f) c p r (A ∧ B) Q := by
  refine ⟨fun hab => .bind (hx.reads hab.1) fun a h => (hf a h).reads hab.2, fun hab => ?_⟩
  by_cases hA : A
  · exact .bind (hx.reads hA) fun a h => (hf a h).fails fun hb => hab ⟨hA, hb⟩
  · exact .left (hx.fails hA)

theorem andThen (hx : Decides x c p q A P) (hf : ∀ a, P a → Reads (f a) c q r Q) :
    Decides (x >>= f) c p r A Q :=
  (both hx fun a h => of_reads (hf a h) trivial).congr (iff_of_eq (and_true A))

theorem guard {G : Prop} [Decidable G] {cause : Cause} {y : β → Compiler α}
    (h : ¬ G → Decides x c p q A P) :
    Decides (if G then fail loc cause >>= y else x) c p q (¬ G ∧ A) P := by
  split
  · exact of_fails (.left .fail) fun hA => hA.1 ‹G›
  · exact (h ‹¬ G›).congr (iff_and_self.2 fun _ => ‹¬ G›)

theorem located {a : Except Cause α} :
    Decides (located loc a) c p p (∃ b, a = .ok b) fun _ => True := by
  cases a with
  | ok b => exact of_reads (.pure trivial) ⟨b, rfl⟩
  | error cause => exact of_fails .fail (by simp)

variable {step : σ → Compiler (σ ⊕ α)} {bound : Remaining} {I : σ → Prop} {s : σ}

/-- A round of a loop that may fail, and the rounds after it. -/
theorem goOn (h : Decides (step s) c p q A fun next => ∃ s', next = .inl s' ∧ I s')
    (hless : q.remaining.Less bound)
    (hrest : ∀ s', I s' → Decides (repeatWithin step q.remaining s') c q r B P) :
    Decides (repeatWithin step bound s) c p r (A ∧ B) P := by
  rw [repeatWithin]
  refine .both h ?_
  rintro _ ⟨s', rfl, hs'⟩
  refine .bind .remaining ?_
  rintro _ rfl
  rw [dif_pos hless]
  exact hrest s' hs'

theorem repeatFrom (h : Decides (repeatWithin step p.remaining s) c p q A P) :
    Decides (Compiler.repeatFrom s step) c p q A P := by
  refine .bind .remaining ?_
  rintro _ rfl
  exact h

end Decides

/-! ### Conditions and texts -/

theorem isFloat_conjoin {v : Value} {l : List Value} (h : Value.conjoin l = some v)
    (hl : ∀ u ∈ l, u.isFloat = true) : v.isFloat = true := by
  cases l with
  | nil => cases h
  | cons first rest =>
    cases h
    obtain ⟨hfirst, hrest⟩ := List.forall_mem_cons.1 hl
    clear hl
    induction rest generalizing first with
    | nil => exact hfirst
    | cons u rest ih =>
      obtain ⟨hu, hrest⟩ := List.forall_mem_cons.1 hrest
      apply ih _ _ hrest
      simp_all [Value.isFloat, Value.result, Operator.result]

theorem decides_toExpr {v : Value} (hoptimize : c.options.optimize = false)
    (hv : v.isFloat = true) : Decides (toExpr v loc) c p p
      (∃ e, v.layout c.options.allowExprEscapes = .ok e) fun _ => True := by
  refine .bind .options ?_
  rintro _ rfl
  rw [hoptimize]
  refine .bind (.pure rfl) ?_
  rintro _ rfl
  simp only [hv, Bool.not_true, Bool.false_eq_true, if_false]
  exact .located

/-- The conditions of the open branches are laid out together, or this fails. -/
theorem decides_activeCondition (hoptimize : c.options.optimize = false)
    (hw : w.nest.OfNumbers) : Decides (activeCondition w) c p p
      (∃ e, Laid c.options w.nest.conditions e) fun _ => True := by
  have hfloat : ∀ v ∈ w.nest.conditions, v.isFloat = true := by
    intro v hv
    obtain ⟨g, hg, rfl⟩ := List.mem_map.1 hv
    exact hw g (List.mem_append_right _ (List.mem_reverse.1 hg))
  rw [WindowDraft.nest_conditions] at hfloat ⊢
  unfold activeCondition
  cases hblocks : w.blocks.reverse with
  | nil => exact .of_reads (.pure trivial) ⟨none, .none⟩
  | cons outermost rest =>
    rw [hblocks] at hfloat
    obtain ⟨v, hv⟩ : ∃ v, Value.conjoin ((outermost :: rest).map (·.condition)) = some v :=
      ⟨_, rfl⟩
    have hlaid : (∃ e, v.layout c.options.allowExprEscapes = .ok e) ↔
        ∃ e, Laid c.options ((outermost :: rest).map (·.condition)) e := by
      unfold Laid
      rw [hv]
      constructor
      · rintro ⟨e, he⟩
        exact ⟨some e, .some he⟩
      · rintro ⟨_, ⟨he⟩⟩
        exact ⟨_, he⟩
    dsimp only
    rw [hv]
    refine .bind .options ?_
    rintro _ rfl
    rw [hoptimize]
    have hexpr : Decides (toExpr v outermost.loc) c p p
        (∃ e, v.layout c.options.allowExprEscapes = .ok e) fun _ => True :=
      decides_toExpr hoptimize (isFloat_conjoin hv hfloat)
    exact .congr (.andThen hexpr fun _ _ => .pure trivial) hlaid

theorem decides_parseCommand_body (hoptimize : c.options.optimize = false)
    (hw : w.nest.OfNumbers) (text : Shown) :
    Decides (parseCommand w ⟨.identifier, utf8 "body", loc⟩) c
      ⟨[], 32 :: (Script.quote text.1 ++ 10 :: rest)⟩ ⟨[(.endOfLine, [10])], rest⟩
      (∃ e, Laid c.options w.nest.conditions e) (·.nest = w.nest) := by
  have htext : Decides (parseFormattedText w CommandCode.body) c
      ⟨[], 32 :: (Script.quote text.1 ++ 10 :: rest)⟩ ⟨[(.endOfLine, [10])], rest⟩
      (∃ e, Laid c.options w.nest.conditions e) fun _ => True := by
    refine .andThen (decides_activeCondition hoptimize hw) fun r _ => ?_
    exact .bind reads_parseText fun _ _ => .bind reads_parseFormatList_line fun _ _ => .pure trivial
  exact .andThen htext fun _ _ => .pure rfl

/-! ### Blocks -/

/-- Where an opened block starts, of which the first token is looked at if it has no braces. -/
def blockSpot (word : Bytes) (braced : Bool) (l : List (Sign Condition Shown)) : Spot :=
  if braced then ⟨[], 10 :: signLines word l⟩ else ⟨[firstLexeme word l], afterFirst word l⟩

variable {braced : Bool} {l : List (Sign Condition Shown)}

theorem reaches_blockSpot (hword : Script.Identifier word) :
    (blockSpot word braced l).Reaches (signLines word l) := by
  cases braced with
  | true => exact Or.inr .unread
  | false => exact Or.inl (.seen (first?_signLines hword))

theorem blockSpot_length : (blockSpot word braced l).rest.length <
    (10 :: (braceLine braced ++ signLines word l)).length := by
  have hafter : (afterFirst word l).length ≤ (signLines word l).length := by
    cases l with
    | nil => rfl
    | cons sign rest => simp [afterFirst, signLines_cons]
  cases braced with
  | true => simp [blockSpot, braceLine, show utf8 "\x7b\n" = [123, 10] from rfl]
  | false => simpa [blockSpot, braceLine] using Nat.lt_succ_of_le hafter

theorem reads_openBlock (hword : Script.Identifier word) {b : ConditionBlock}
    (hb : b.braced = false) : Reads (openBlock w b) c
      ⟨[], 10 :: (braceLine braced ++ signLines word l)⟩ (blockSpot word braced l)
      (· = { w with blocks := { b with braced := braced } :: w.blocks }) := by
  cases braced with
  | true =>
    have hbrace : first? .normal {} (braceLine true ++ signLines word l) =
        some ((.openBrace, [123]), 10 :: signLines word l) := rfl
    have hskip : Succeeds skipLineEnds _ _ fun _ => True :=
      succeeds_skipLineEnds_reaches (Or.inr .unread) hbrace (by simp)
    refine .bind (.lift hskip) fun _ _ => ?_
    refine .bind (.lift succeeds_peek_queued) fun token ht => ?_
    have htype : token.type = .openBrace := congrArg Prod.fst ht
    rw [if_pos htype]
    exact .bind (.lift succeeds_consume) fun _ _ => .pure rfl
  | false =>
    have hfirst := first?_signLines (l := l) hword
    have hline : (firstLexeme word l).1 ≠ .endOfLine := firstLexeme_ne (Or.inl rfl)
    refine .bind (.lift (succeeds_skipLineEnds_reaches (Or.inr .unread) hfirst hline)) fun _ _ => ?_
    refine .bind (.lift succeeds_peek_queued) fun token ht => ?_
    have htype : token.type = (firstLexeme word l).1 := congrArg Prod.fst ht
    rw [if_neg (htype ▸ firstLexeme_ne (Or.inr rfl))]
    exact .pure (by rw [← hb])

theorem reads_openIf (hdefault : c.options = Options.defaults) (hword : Script.Identifier word)
    (condition : Condition) :
    Reads (openIf w loc) c ⟨[], (Sign.opening condition braced).after ++ signLines word l⟩
      (blockSpot word braced l)
      (·.nest = ⟨⟨condition.value, braced, false⟩ :: w.nest.opened, w.nest.closed⟩) := by
  have hafter : (Sign.opening condition braced).after ++ signLines word l =
      utf8 " (" ++ (condition.text ++ 41 :: 10 :: (braceLine braced ++ signLines word l)) := by
    simp [Sign.after]
  rw [hafter]
  refine .bind (.lift (succeeds_expect (succeeds_read first?_openParen))) fun _ _ => ?_
  refine .bind (condition.reads hdefault) ?_
  rintro _ rfl
  refine .bind (.lift (succeeds_expect succeeds_read_queued)) fun _ _ => ?_
  rw [condition.isFloat]
  intro base
  refine (reads_openBlock hword rfl base).mono ?_
  rintro _ rfl
  rfl

theorem decides_openElse (hword : Script.Identifier word) (hw : w.nest.OfNumbers) :
    Decides (openElse w loc) c ⟨[], 10 :: (braceLine braced ++ signLines word l)⟩
      (blockSpot word braced l)
      (∃ m, w.nest.step? Value.invert (.otherwise braced : Sign Value Shown) = some m)
      (w.nest.step? Value.invert (.otherwise braced : Sign Value Shown) = some ·.nest) := by
  unfold openElse
  split
  · rename_i hclosed
    exact .of_fails .fail (by simp [Nest.step?, WindowDraft.nest, hclosed])
  · rename_i inner outer hclosed
    have hstep : w.nest.step? Value.invert (.otherwise braced : Sign Value Shown) =
        if inner.isElse then none else some ⟨⟨inner.condition.invert, braced, true⟩ ::
          (outer ++ w.blocks).map ConditionBlock.guard, []⟩ := by
      simp [Nest.step?, WindowDraft.nest, hclosed, ConditionBlock.guard]
    have hfloat : inner.condition.invert.isFloat = true :=
      Value.isFloat_invert (hw inner.guard (by simp [WindowDraft.nest, hclosed]))
    rw [hstep]
    refine .congr (.guard fun helse => .guard fun _ => .of_reads (A := True) (fun base =>
      (reads_openBlock hword rfl base).mono ?_) trivial) ?_
    · rintro _ rfl
      rw [if_neg helse]
      rfl
    · by_cases helse : inner.isElse = true
      · simp [helse]
      · simp [helse, hfloat]

theorem decides_closeBrace (hempty : c.options.allowEmptyBlocks = true) :
    Decides (closeBrace w loc) c p p
      (∃ m, w.nest.step? Value.invert (.closing : Sign Value Shown) = some m)
      (w.nest.step? Value.invert (.closing : Sign Value Shown) = some ·.nest) := by
  unfold closeBrace
  split
  · rename_i hblocks
    exact .of_fails .fail (by simp [Nest.step?, WindowDraft.nest, hblocks])
  · rename_i top rest hblocks
    have hstep : w.nest.step? Value.invert (.closing : Sign Value Shown) =
        if top.braced then some (Nest.leave ⟨rest.map ConditionBlock.guard, [top.guard]⟩)
        else none := by
      simp [Nest.step?, WindowDraft.nest, hblocks, ConditionBlock.guard]
    rw [hstep]
    refine .congr (.guard fun hbraced => .bind .options (A := True) ?_) ?_
    · rintro _ rfl
      simp only [hempty, Bool.not_true, Bool.and_false, Bool.false_eq_true, if_false]
      refine .of_reads (.pure ?_) trivial
      rw [WindowDraft.nest_closeUnbraced, if_pos (by simpa using hbraced)]
      rfl
    · cases top.braced <;> simp

/-! ### Directives -/

def directiveSpot (word : Bytes) (l : List (Sign Condition Shown)) :
    Sign Condition Shown → Spot
  | .plain _ => ⟨[(.endOfLine, [10])], signLines word l⟩
  | .opening _ braced => blockSpot word braced l
  | .otherwise braced => blockSpot word braced l
  | .closing => ⟨[], 10 :: signLines word l⟩

theorem reaches_directiveSpot (hword : Script.Identifier word) (sign : Sign Condition Shown) :
    (directiveSpot word l sign).Reaches (signLines word l) := by
  cases sign with
  | plain text => exact Or.inr (.seen first?_line)
  | opening condition braced => exact reaches_blockSpot hword
  | otherwise braced => exact reaches_blockSpot hword
  | closing => exact Or.inr .unread

theorem directiveSpot_less (sign : Sign Condition Shown) :
    (directiveSpot word l sign).remaining.Less
      (Spot.mk [sign.lexeme word] (sign.after ++ signLines word l)).remaining := by
  have hblock (b : Bool) : (blockSpot word b l).rest.length <
      (10 :: (braceLine b ++ signLines word l)).length := blockSpot_length
  cases sign with
  | plain text =>
    left
    simp [directiveSpot, Spot.remaining, Sign.after]
    omega
  | opening condition braced =>
    left
    have := hblock braced
    simp only [directiveSpot, Spot.remaining, Sign.after, List.length_append,
      List.length_cons] at *
    omega
  | otherwise braced =>
    left
    simpa [directiveSpot, Spot.remaining, Sign.after] using hblock braced
  | closing =>
    right
    simp [directiveSpot, Spot.remaining, Sign.after, Sign.lexeme]

/-- The blocks can go on with the sign: it can stand there, and the conditions around a directive
can be laid out. -/
def GoesOn (o : Options) (n : Nest Value) (sign : Sign Value Shown) : Prop :=
  (∃ m, n.step? Value.invert sign = some m) ∧ ∀ x ∈ n.record sign, ∃ e, Laid o x.2 e

/-- A sign changes the blocks as a nest, if they can go on with it. -/
theorem decides_parseDirective (hdefault : c.options = Options.defaults)
    (hw : w.nest.OfNumbers)
    (sign : Sign Condition Shown) :
    Decides (parseDirective w ⟨(sign.lexeme (utf8 "body")).1, (sign.lexeme (utf8 "body")).2, loc⟩) c
      ⟨[], sign.after ++ signLines (utf8 "body") l⟩ (directiveSpot (utf8 "body") l sign)
      (GoesOn c.options w.nest (sign.map Condition.value))
      (w.nest.step? Value.invert (sign.map Condition.value) = some ·.nest) := by
  have hword : Script.Identifier (utf8 "body") := .of_all rfl
  have hoptimize : c.options.optimize = false := by
    rw [hdefault]
    rfl
  have hempty : c.options.allowEmptyBlocks = true := by
    rw [hdefault]
    rfl
  have hcleared : WindowDraft.nest { w with closed := [] } = ⟨w.nest.opened, []⟩ := rfl
  have hw' : (WindowDraft.nest { w with closed := [] }).OfNumbers :=
    fun g hg => hw g (List.mem_append_right _ hg)
  cases sign with
  | plain text =>
    have hafter : (Sign.plain text).after ++ signLines (utf8 "body") l =
        32 :: (Script.quote text.1 ++ 10 :: signLines (utf8 "body") l) := by simp [Sign.after]
    rw [hafter]
    refine .congr (.andThen (decides_parseCommand_body hoptimize hw' text) fun w' hnest => ?_) ?_
    · refine .bind (.lift succeeds_peek_queued) fun next hnext => ?_
      have htype : next.type = .endOfLine := congrArg Prod.fst hnext
      rw [htype]
      refine .pure ?_
      rw [WindowDraft.nest_closeUnbraced, WindowDraft.nest_markUsed, hnest]
      rfl
    · simp [GoesOn, Nest.record, Sign.map, Nest.step?, hcleared, Nest.conditions]
  | opening condition braced =>
    have hgoes : GoesOn c.options w.nest (.opening condition.value braced) := by
      simp [GoesOn, Nest.step?, Nest.record]
    refine .of_reads (fun base => ?_) hgoes
    refine (reads_openIf hdefault hword condition base).mono fun w' hnest => ?_
    rw [hnest]
    rfl
  | otherwise braced =>
    refine (decides_openElse hword hw).congr ?_
    simp [GoesOn, Nest.record, Sign.map]
  | closing =>
    refine (decides_closeBrace hempty).congr ?_
    simp [GoesOn, Nest.record, Sign.map, Nest.step?, hcleared]

/-! ### Bodies -/

/-- The blocks can go through the signs: every sign can stand where it does, and the conditions
around every directive can be laid out. -/
def Admits (o : Options) (n : Nest Value) (signs : List (Sign Value Shown)) : Prop :=
  ∃ m found, n.run? Value.invert signs = some (m, found) ∧ ∀ x ∈ found, ∃ e, Laid o x.2 e

theorem admits_cons {o : Options} {n m : Nest Value} {sign : Sign Value Shown}
    {signs : List (Sign Value Shown)} (hstep : n.step? Value.invert sign = some m) :
    Admits o n (sign :: signs) ↔ GoesOn o n sign ∧ Admits o m signs := by
  constructor
  · rintro ⟨last, found, hrun, hlaid⟩
    obtain ⟨k, after, hk, hafter, rfl⟩ := Nest.run?_cons_eq_some.1 hrun
    cases hk.symm.trans hstep
    obtain ⟨hrecord, hafters⟩ := List.forall_mem_append.1 hlaid
    exact ⟨⟨⟨m, hstep⟩, hrecord⟩, last, after, hafter, hafters⟩
  · rintro ⟨⟨-, hrecord⟩, last, after, hafter, hafters⟩
    exact ⟨last, _, Nest.run?_cons_eq_some.2 ⟨m, after, hstep, hafter, rfl⟩,
      List.forall_mem_append.2 ⟨hrecord, hafters⟩⟩

theorem decides_parseWindowRound (hdefault : c.options = Options.defaults)
    (hw : w.nest.OfNumbers)
    {sign : Sign Condition Shown} (hp : p.Before (signLines (utf8 "body") (sign :: l))) :
    Decides (parseWindowRound w) c p (directiveSpot (utf8 "body") l sign)
      (GoesOn c.options w.nest (sign.map Condition.value))
      fun next => ∃ w', next = .inl w' ∧
        w.nest.step? Value.invert (sign.map Condition.value) = some w'.nest := by
  have hfirst : first? .normal {} (signLines (utf8 "body") (sign :: l)) =
      some (sign.lexeme (utf8 "body"), sign.after ++ signLines (utf8 "body") l) :=
    first?_signLines (.of_all rfl)
  have hstart : (sign.lexeme (utf8 "body")).1 ≠ .hash ∧
      (sign.lexeme (utf8 "body")).1 ≠ .endOfFile := by
    cases sign <;> simp [Sign.lexeme]
  refine .bind (.lift (succeeds_peek_before hp hfirst)) fun token ht => ?_
  obtain ⟨type, text, loc⟩ := token
  obtain ⟨rfl, rfl⟩ := Prod.mk.inj ht
  simp only
  split
  · exact absurd ‹_› hstart.1
  · exact absurd ‹_› hstart.2
  · refine .bind (.lift succeeds_consume) fun _ _ => ?_
    refine .andThen (decides_parseDirective hdefault hw sign) fun w' hstep => ?_
    exact .pure ⟨w', rfl, hstep⟩

/-- The end of a line before the rounds of a body. -/
theorem decides_rounds_reaches {text : Bytes} {A : Prop} {P : WindowDraft × Bool → Prop}
    (h : ∀ p : Spot, p.Before text →
      Decides (repeatWithin parseWindowRound p.remaining w) c p q A P)
    (hp : p.Reaches text) : Decides (repeatWithin parseWindowRound p.remaining w) c p q A P := by
  rcases hp with hp | hp
  · exact h p hp
  · have hround : Reads (parseWindowRound w) c p ⟨[], text⟩ (· = .inl w) :=
      reads_parseWindowRound (succeeds_peek_before hp first?_line) (by simp) (by simp)
        fun _ => .pure rfl
    have hdecides : Decides (parseWindowRound w) c p ⟨[], text⟩ True
        fun next => ∃ w', next = .inl w' ∧ w' = w :=
      .of_reads (fun base => (hround base).mono fun _ h => ⟨w, h, rfl⟩) trivial
    refine (hdecides.goOn (less_of_line hp) ?_).congr (iff_of_eq (true_and A))
    rintro _ rfl
    exact h _ .unread

/-- The rounds of a body, by induction on its signs. -/
theorem decides_rounds (hdefault : c.options = Options.defaults) (hw : w.nest.OfNumbers)
    (hp : p.Reaches (signLines (utf8 "body") l)) :
    Decides (repeatWithin parseWindowRound p.remaining w) c p ⟨[(.endOfFile, [])], []⟩
      (Admits c.options w.nest (l.map (Sign.map Condition.value)))
      fun last => last.2 = false ∧ ∃ found, w.nest.run? Value.invert
        (l.map (Sign.map Condition.value)) = some (last.1.nest, found) := by
  induction l generalizing w p with
  | nil =>
    refine decides_rounds_reaches (fun p hp => ?_) hp
    have hround : Reads (parseWindowRound w) c p ⟨[(.endOfFile, [])], []⟩
        (· = .inr (w, false)) := by
      refine .bind (.lift (succeeds_peek_before hp rfl)) fun token ht => ?_
      have htype : token.type = .endOfFile := congrArg Prod.fst ht
      rw [htype]
      exact .pure rfl
    have hadmits : Admits c.options w.nest (([] : List (Sign Condition Shown)).map
      (Sign.map Condition.value)) := ⟨w.nest, [], rfl, by simp⟩
    refine .of_reads (fun base => (Reads.stop hround base).mono ?_) hadmits
    rintro _ rfl
    exact ⟨rfl, [], rfl⟩
  | cons sign l ih =>
    refine decides_rounds_reaches (fun p hp => ?_) hp
    have hround := decides_parseWindowRound hdefault hw hp
    -- the next blocks are known only if the sign can stand here
    cases hstep : w.nest.step? Value.invert (sign.map Condition.value) with
    | none =>
      refine .of_fails ?_ ?_
      · rw [repeatWithin]
        refine .left (hround.fails ?_)
        rintro ⟨⟨m, hm⟩, -⟩
        cases hm.symm.trans hstep
      · rintro ⟨m, found, hrun, -⟩
        obtain ⟨k, after, hk, -⟩ := Nest.run?_cons_eq_some.1 hrun
        cases hk.symm.trans hstep
    | some m =>
      have hless : (directiveSpot (utf8 "body") l sign).remaining.Less p.remaining :=
        less_of_first hp (first?_signLines (.of_all rfl)) (afterFirst_length (by decide))
          (directiveSpot_less sign)
      refine (hround.goOn hless fun w' hw' => ?_).congr (admits_cons hstep).symm
      obtain rfl : m = w'.nest := Option.some.inj (hstep.symm.trans hw')
      refine (ih (hw.step? hstep) (reaches_directiveSpot (.of_all rfl) sign)).mono ?_
      rintro last ⟨hlast, found, hrun⟩
      exact ⟨hlast, _, Nest.run?_cons_eq_some.2 ⟨_, found, hstep, hrun, rfl⟩⟩

/-! ### Windows and scripts -/

/-- What a window needs to be accepted with a skeleton. -/
theorem decides_compileWindow (hdefault : c.options = Options.defaults) {label : Label}
    (hlabel : label.isInline = false) (hzero : label ≠ 0) {p : Skeleton} (hp : p.Grammatical) :
    Decides compileWindow c ⟨[], 32 :: (label.text ++ 10 :: signLines (utf8 "body") p.signs)⟩
      ⟨[(.endOfFile, [])], []⟩
      (p.isDirect = true ∧ ∀ x ∈ (p.map Condition.value).enclosed Value.invert [],
        ∃ e, Laid c.options x.2 e) (·.2 = false) := by
  have hstart : WindowDraft.nest {} = ⟨[], []⟩ := rfl
  have htraced : Nest.Traced Value.invert (p.map Condition.value) := Nest.run?_signs hp.map
  have hrun := htraced ⟨[], []⟩ (Or.inr rfl)
  rw [Passage.signs_map, Passage.isDirect_map] at hrun
  have hadmits : Admits c.options ⟨[], []⟩ (p.signs.map (Sign.map Condition.value)) ↔
      p.isDirect = true ∧ ∀ x ∈ (p.map Condition.value).enclosed Value.invert [],
        ∃ e, Laid c.options x.2 e := by
    unfold Admits
    rw [hrun]
    by_cases hdirect : p.isDirect = true
    · simp [hdirect, Nest.conditions]
    · simp [hdirect]
  refine .bind (reads_parseDefinitionLabel hlabel hzero) ?_
  rintro _ rfl
  refine .bind (.lift (succeeds_read rfl)) fun token ht => ?_
  have htype : token.type = .endOfLine := congrArg Prod.fst ht
  rw [htype, ← hadmits]
  have hnumbers : (WindowDraft.nest {}).OfNumbers := by simp [hstart, Nest.OfNumbers]
  refine .andThen (.repeatFrom (decides_rounds hdefault hnumbers (Or.inl .unread))) ?_
  rintro ⟨draft, afterHash⟩ ⟨rfl, found, hlast⟩
  have hblocks : draft.blocks = [] := by
    rw [hstart, hrun] at hlast
    split at hlast
    · obtain ⟨hnest, -⟩ := Prod.mk.inj (Option.some.inj hlast)
      have hopened : draft.nest.opened = [] := by simp [← hnest, Nest.pass, Nest.leave]
      exact List.map_eq_nil_iff.1 hopened
    · cases hlast
  simp only [hblocks]
  exact .pure rfl

theorem decides_compileProgram {text : Bytes} {A : Prop} (htop : c.options.legacyTopLevel = false)
    (h : Decides (parseTopDirective {}) c ⟨[], text⟩ ⟨[(.endOfFile, [])], []⟩ A
      (·.afterHash = false)) :
    Decides compileProgram c ⟨[], 35 :: text⟩ ⟨[], []⟩ A fun _ => True := by
  have hround : Decides (parseProgramRound {}) c ⟨[], 35 :: text⟩ ⟨[(.endOfFile, [])], []⟩ A
      fun next => ∃ d, next = .inl d ∧ d.afterHash = false := by
    refine .bind reads_findHash ?_
    rintro _ rfl
    exact .andThen h fun d hd => .pure ⟨d, rfl, hd⟩
  have hend {d : ProgramDraft} (hd : d.afterHash = false) :
      Reads (parseProgramRound d) c ⟨[(.endOfFile, [])], []⟩ ⟨[], []⟩ (· = .inr d) := by
    unfold parseProgramRound
    rw [hd]
    refine .bind reads_findHash_end ?_
    rintro _ rfl
    exact .pure rfl
  have hrounds : Decides (repeatFrom {} parseProgramRound) c ⟨[], 35 :: text⟩ ⟨[], []⟩ A
      fun _ => True := by
    have hless : (Spot.mk [(.endOfFile, [])] []).remaining.Less
        (Spot.mk [] (35 :: text)).remaining := by
      left
      simp [Spot.remaining]
    refine .repeatFrom ((hround.goOn hless fun d hd => ?_).congr (iff_of_eq (and_true A)))
    exact .of_reads (fun base => (Reads.stop (hend hd) base).mono fun _ _ => trivial) trivial
  refine .bind .options ?_
  rintro _ rfl
  simp only [htop, Bool.false_eq_true, if_false]
  exact .andThen hrounds fun d _ => .bind .get fun s _ => .pure trivial

end Compiler

def Accepted (script : Bytes) : Prop :=
  ∃ f, (compile script Options.defaults).result = .ok f

theorem accepted_iff_isOk {script : Bytes} :
    Accepted script ↔ (compile script Options.defaults).result.isOk = true := by
  unfold Accepted
  cases (compile script Options.defaults).result with
  | ok f => exact iff_of_true ⟨f, rfl⟩ rfl
  | error e => exact iff_of_false (by simp) (by simp [Except.isOk, Except.toBool])

instance (script : Bytes) : Decidable (Accepted script) := decidable_of_iff' _ accepted_iff_isOk

def Compiler.scriptStart (script : Bytes) : CompileState := ⟨.ofSource script [] true, [], 0, []⟩

theorem Compiler.at_scriptStart (script : Bytes) : (scriptStart script).lexer.At ⟨[], script⟩ :=
  ⟨rfl, rfl, rfl, rfl, rfl⟩

theorem accepted_iff_compileProgram {script : Bytes} (hreturn : 13 ∉ script) :
    Accepted script ↔ ∃ f t, Compiler.compileProgram ⟨Options.defaults, 0⟩
      (Compiler.scriptStart script) = .ok f t := by
  have hprepared : prepareSource Options.defaults script = .ok script :=
    congrArg Except.ok (normalizeNewlines_eq_self hreturn)
  have hhash : effectiveHash Options.defaults = .ok 0 := rfl
  have heffective : Options.defaults.effective = Options.defaults := rfl
  have hstart : (⟨.ofSource script Options.defaults.file Options.defaults.allowExpFloats, [], 0, []⟩ :
      CompileState) = Compiler.scriptStart script := rfl
  unfold Accepted
  simp only [compile, heffective, hhash, hprepared, hstart]
  cases hrun : Compiler.compileProgram ⟨Options.defaults, 0⟩ (Compiler.scriptStart script) with
  | ok f t =>
    refine iff_of_true ⟨f, ?_⟩ ⟨f, t, rfl⟩
    -- warnings are reported and change nothing
    dsimp only
    split
    · rfl
    · rfl
  | error e t => exact iff_of_false (by simp [CompileOutcome.ofFailure]) (by simp)

theorem accepted_iff {script : Bytes} {A : Prop} (hreturn : 13 ∉ script)
    (h : Compiler.Decides Compiler.compileProgram ⟨Options.defaults, 0⟩ ⟨[], script⟩ ⟨[], []⟩ A
      fun _ => True) : Accepted script ↔ A := by
  rw [accepted_iff_compileProgram hreturn]
  constructor
  · rintro ⟨f, t, hrun⟩
    by_contra hA
    obtain ⟨e, u, hfails⟩ := h.fails hA _ (Compiler.at_scriptStart script)
    cases hrun.symm.trans hfails
  · intro hA
    obtain ⟨f, t, hrun, -⟩ := h.reads hA (Compiler.scriptStart script) _
      ⟨Compiler.at_scriptStart script, rfl⟩
    exact ⟨f, t, hrun⟩

/-- A window of a skeleton is accepted if every branch without braces that has an `else` is a single
directive, and the conditions around every text can be laid out. -/
theorem accepted_window {label : Label} (hlabel : label.isInline = false) (hzero : label ≠ 0)
    {p : Skeleton} (hp : p.Grammatical) :
    Accepted (windowScript label (signLines (utf8 "body") p.signs)) ↔
      p.isDirect = true ∧ ∀ x ∈ (p.map Condition.value).enclosed Value.invert [],
        ∃ e, Laid Options.defaults x.2 e := by
  have hreturn : 13 ∉ windowScript label (signLines (utf8 "body") p.signs) := by
    have hstart : 13 ∉ utf8 "#window " := by decide
    have hlines : 13 ∉ signLines (utf8 "body") p.signs := not_mem_signLines (by decide)
    simp [windowScript, label.text_not_mem_return, hstart, hlines]
  refine accepted_iff hreturn (Compiler.decides_compileProgram rfl ?_)
  refine .bind (.lift (Lexer.succeeds_read rfl)) fun kind hkind => ?_
  obtain ⟨type, word, loc⟩ := kind
  cases hkind
  refine .andThen (Compiler.decides_compileWindow rfl hlabel hzero hp) ?_
  rintro ⟨window, afterHash⟩ rfl
  exact .pure rfl

end ApeScript
