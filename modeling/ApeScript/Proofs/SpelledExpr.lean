import ApeScript.Proofs.SpelledTokens
import ApeScript.Proofs.WritableFile

/-!
# Compilations of a text without definitions

`Compiler.Tidies` says of a part of the compiler that it keeps its lexer tidy. The strings of what
is parsed are parts of tokens, so they have no carriage return: those of values, also when these are
inverted, folded and laid out, and those of formatting values, which without definitions have no
quote either.
-/

namespace ApeScript

open Script (Mild)

/-- Strings without carriage returns. -/
def Returnless (strings : List Bytes) : Prop := ∀ s ∈ strings, 13 ∉ s

theorem Returnless.subset {ss ts : List Bytes} (h : Returnless ts) (hsub : ss ⊆ ts) :
    Returnless ss := fun s hs => h s (hsub hs)

@[simp]
theorem returnless_nil : Returnless [] := by simp [Returnless]

@[simp]
theorem returnless_cons {s : Bytes} {ss : List Bytes} :
    Returnless (s :: ss) ↔ 13 ∉ s ∧ Returnless ss := List.forall_mem_cons

@[simp]
theorem returnless_append {ss ts : List Bytes} :
    Returnless (ss ++ ts) ↔ Returnless ss ∧ Returnless ts := List.forall_mem_append

@[simp]
theorem returnless_flatMap {α : Type} {f : α → List Bytes} {l : List α} :
    Returnless (l.flatMap f) ↔ ∀ a ∈ l, Returnless (f a) := by
  simp only [Returnless, List.mem_flatMap]
  exact ⟨fun h a ha s hs => h s ⟨a, ha, hs⟩, fun h s ⟨a, ha, hs⟩ => h a ha s hs⟩

/-! ### Strings of values -/

theorem Escape.map_cons_eq_ok {x : Except Cause Bytes} {b : UInt8} {t : Bytes}
    (h : x.map (b :: ·) = .ok t) : ∃ rest, x = .ok rest ∧ t = b :: rest := by
  cases x with
  | error => cases h
  | ok rest =>
    cases h
    exact ⟨rest, rfl, rfl⟩

theorem Escape.return_not_mem_unescape {escapes newlineToSpace : Bool} {s t : Bytes}
    (h : unescape escapes newlineToSpace s = .ok t) (hs : 13 ∉ s) : 13 ∉ t := by
  fun_induction unescape escapes newlineToSpace s generalizing t with
  | case1 =>
    cases h
    exact hs
  | case2 | case3 => cases h
  | case4 b hb c more r hresolve ih =>
    obtain ⟨t, ht, rfl⟩ := map_cons_eq_ok h
    simp only [List.mem_cons, not_or] at hs
    refine List.not_mem_cons_of_ne_of_not_mem ?_ (ih ht hs.2.2)
    rintro rfl
    simp only [resolve?] at hresolve
    split_ifs at hresolve <;> cases hresolve
  | case5 b rest hb ih =>
    obtain ⟨t, ht, rfl⟩ := map_cons_eq_ok h
    simp only [List.mem_cons, not_or] at hs
    refine List.not_mem_cons_of_ne_of_not_mem ?_ (ih ht hs.2)
    split
    · decide
    · exact hs.1

namespace Value

def texts : Value → List Bytes
  | floatVar name | stringVar name => [name]
  | stringConst raw => [raw]
  | binary _ l r => l.texts ++ r.texts
  | _ => []

theorem texts_invert (v : Value) : v.invert.texts ⊆ v.texts := by
  induction v with
  | binary op l r ihl ihr =>
    cases op with
    | or | and =>
      simp only [invert]
      split
      · exact List.nil_subset _
      · exact List.append_subset.2 ⟨List.Subset.trans ihl (List.subset_append_left ..),
          List.Subset.trans ihr (List.subset_append_right ..)⟩
    | _ => simp [invert, texts]
  | _ => simp [invert, texts]

theorem texts_fold {v v' : Value} (h : v.fold = .ok v') : v'.texts ⊆ v.texts := by
  induction v generalizing v' with
  | binary op l r ihl ihr =>
    obtain ⟨l', hl, h⟩ := bind_eq_ok.1 h
    obtain ⟨r', hr, h⟩ := bind_eq_ok.1 h
    have hboth : (binary op l' r').texts ⊆ (binary op l r).texts :=
      List.append_subset.2 ⟨List.Subset.trans (ihl hl) (List.subset_append_left ..),
        List.Subset.trans (ihr hr) (List.subset_append_right ..)⟩
    split at h
    · obtain ⟨x, -, h⟩ := bind_eq_ok.1 h
      cases h
      exact List.nil_subset _
    · cases h
      exact hboth
  | _ =>
    cases h
    exact List.Subset.refl _

theorem texts_conjoin {vs : List Value} {v : Value} (h : conjoin vs = some v)
    (hvs : ∀ v ∈ vs, Returnless v.texts) : Returnless v.texts := by
  cases vs with
  | nil => cases h
  | cons first rest =>
    cases h
    obtain ⟨hfirst, hrest⟩ := List.forall_mem_cons.1 hvs
    clear hvs
    induction rest generalizing first with
    | nil => exact hfirst
    | cons v rest ih =>
      obtain ⟨hv, hrest⟩ := List.forall_mem_cons.1 hrest
      exact ih (binary .and first v) (returnless_append.2 ⟨hfirst, hv⟩) hrest

theorem strings_node {op : Operator} {pos : UInt64} {left right : UInt64 → Except Cause Side}
    {e : Expr} (h : node op pos left right = .ok e)
    (hl : ∀ pos side, left pos = .ok side → Returnless side.value.strings)
    (hr : ∀ pos side, right pos = .ok side → Returnless side.value.strings) :
    Returnless e.strings := by
  rw [node] at h
  split at h
  · cases h
  · obtain ⟨l, hleft, h⟩ := bind_eq_ok.1 h
    obtain ⟨r, hright, h⟩ := bind_eq_ok.1 h
    cases h
    exact returnless_append.2 ⟨hl _ l hleft, hr _ r hright⟩

theorem strings_toSide {escapes : Bool} {v : Value} {pos : UInt64} {side : Side}
    (h : v.toSide escapes pos = .ok side) (hv : Returnless v.texts) :
    Returnless side.value.strings := by
  induction v generalizing pos side with
  | const | floatVar | stringVar =>
    cases h
    exact hv
  | stringConst raw =>
    obtain ⟨t, ht, h⟩ := bind_eq_ok.1 h
    cases h
    simpa [Operand.strings] using Escape.return_not_mem_unescape ht (by simpa [texts] using hv)
  | binary op l r ihl ihr =>
    obtain ⟨hl, hr⟩ := returnless_append.1 hv
    obtain ⟨e, he, h⟩ := bind_eq_ok.1 h
    cases h
    exact strings_node he (fun _ _ h => ihl h hl) fun _ _ h => ihr h hr
  | invalid => cases h

theorem strings_layout {escapes : Bool} {v : Value} {e : Expr} (h : v.layout escapes = .ok e)
    (hv : Returnless v.texts) : Returnless e.strings := by
  have hside {v : Value} (hv : Returnless v.texts) (pos : UInt64) (side : Side)
      (h : v.toSide escapes pos = .ok side) : Returnless side.value.strings :=
    strings_toSide h hv
  have hzero : Returnless (const .zero).texts := returnless_nil
  unfold layout at h
  split at h
  · obtain ⟨hl, hr⟩ := returnless_append.1 hv
    exact strings_node h (hside hl) (hside hr)
  · exact strings_node h (hside hzero) (hside hv)

theorem StoredAs.strings {o : Options} {v : Value} {e : Expr} (h : v.StoredAs o e)
    (hv : Returnless v.texts) : Returnless e.strings := by
  obtain ⟨v', hfold, hlayout⟩ := h
  refine strings_layout hlayout ?_
  split at hfold
  · exact hv.subset (texts_fold hfold)
  · cases hfold
    exact hv

end Value

/-! ### What is parsed -/

/-- A formatting value without carriage returns and, if `unquoted`, without quotes. -/
structure FormatValue.Mild (unquoted : Bool) (v : FormatValue) : Prop where
  strings : Returnless v.strings
  unquoted : unquoted = true → 34 ∉ v.literal

structure Placed.Mild (free : Bool) (p : Placed) : Prop where
  strings : Returnless p.strings
  worded : free = true → p.statement.Worded

def Switch.Mild (free : Bool) (s : Switch) : Prop := ∀ p ∈ s.commands, p.Mild free

structure CompileState.Tidy (free ready : Bool) (s : CompileState) : Prop where
  lexer : s.lexer.Tidy free ready
  lettered : s.lexer.Lettered
  inline : ∀ w ∈ s.inline, w.Mild free

theorem CompileState.Tidy.hushed {free ready : Bool} {s t : CompileState} (hs : s.Tidy free ready)
    (h : s.Hushed t) : t.Tidy free ready := by
  rw [h]
  exact { hs with }

namespace Compiler

variable {α β σ : Type} {free r r' r'' : Bool} {c : CompileContext} {loc : Location} {token : Token}

def Tidies (c : CompileContext) (free r : Bool) (x : Compiler α) (r' : Bool) (P : α → Prop) :
    Prop :=
  ∀ s : CompileState, s.Tidy free r → Gives x c s fun a t => t.Tidy free r' ∧ P a

namespace Tidies

variable {x y : Compiler α} {f : α → Compiler β} {P : α → Prop} {Q : β → Prop} {cause : Cause}

theorem pure {a : α} (h : P a) : Tidies c free r (pure a) r P := fun _ hs => .pure ⟨hs, h⟩

theorem fail : Tidies c free r (Compiler.fail loc cause) r' P := fun _ _ => .fail

theorem bind (hx : Tidies c free r x r' P) (hf : ∀ a, P a → Tidies c free r' (f a) r'' Q) :
    Tidies c free r (x >>= f) r'' Q :=
  fun s hs => (hx s hs).bind fun a t ht => hf a ht.2 t ht.1

theorem ite {p : Prop} [Decidable p] (hx : p → Tidies c free r x r' P)
    (hy : ¬ p → Tidies c free r y r' P) : Tidies c free r (if p then x else y) r' P := by
  split
  · exact hx ‹p›
  · exact hy ‹¬ p›

theorem dite {p : Prop} [Decidable p] {x : p → Compiler α} {y : ¬ p → Compiler α}
    (hx : ∀ h, Tidies c free r (x h) r' P) (hy : ∀ h, Tidies c free r (y h) r' P) :
    Tidies c free r (if h : p then x h else y h) r' P := by
  split
  · apply hx
  · apply hy

/-- What would follow a failure is not run. -/
theorem fail_bind : Tidies c free r (Compiler.fail loc cause >>= f) r' Q := fun _ _ => .fail_bind

theorem guard {p : Prop} [Decidable p] {z : Compiler β} (hz : ¬ p → Tidies c free r z r' Q) :
    Tidies c free r (if p then Compiler.fail loc cause >>= f else z) r' Q :=
  ite (fun _ => fail_bind) hz

/-- Two branches that are followed by the same. -/
theorem ite_bind {p : Prop} [Decidable p] (hx : p → Tidies c free r x r' P)
    (hy : ¬ p → Tidies c free r y r' P) (hf : ∀ a, P a → Tidies c free r' (f a) r'' Q) :
    Tidies c free r (if p then x >>= f else y >>= f) r'' Q :=
  ite (fun h => (hx h).bind hf) fun h => (hy h).bind hf

theorem mono {P' : α → Prop} (hx : Tidies c free r x r' P) (h : ∀ a, P a → P' a) :
    Tidies c free r x r' P' :=
  fun s hs => (hx s hs).mono fun a _ ht => ⟨ht.1, h a ht.2⟩

theorem and {P' : α → Prop} (hx : Tidies c free r x r' P)
    (hx' : ∀ s : CompileState, s.Tidy free r → Gives x c s fun a _ => P' a) :
    Tidies c free r x r' fun a => P a ∧ P' a :=
  fun s hs a t h => ⟨(hx s hs a t h).1, (hx s hs a t h).2, hx' s hs a t h⟩

/-- What holds whether or not a token waits holds when none does. -/
theorem any (hx : Tidies c free false x r' P) : Tidies c free r x r' P := by
  intro s hs
  refine hx s { hs with lexer := ?_ }
  cases r with
  | true => exact hs.lexer.weaken false
  | false => exact hs.lexer

theorem weaken (hx : Tidies c free r x true P) : Tidies c free r x r' P :=
  fun s hs => (hx s hs).mono fun _ _ ht => ⟨{ ht.1 with lexer := ht.1.lexer.weaken r' }, ht.2⟩

theorem lift {x : Lex α} {P' : α → Prop} (hx : Lexer.Tidies free r x r' P)
    (hlettered : Lexer.Ensures x P') :
    Tidies c free r (liftM x) r' fun a => P a ∧ P' a := by
  refine fun s hs => Gives.lift.mono ?_
  rintro a _ ⟨l, hrun, rfl⟩
  have hensures := hlettered s.lexer hs.lettered
  rw [Lexer.EnsuresAt, hrun] at hensures
  obtain ⟨hl, ha⟩ := hx s.lexer hs.lexer a l hrun
  exact ⟨⟨hl, hensures.1, hs.inline⟩, ha, hensures.2⟩

end Tidies

/-! ### What every part may do -/

section

variable {mode : ReadMode} {flags : ReadFlags} {type : TokenType}

theorem tidies_options : Tidies c free r options r (· = c.options) :=
  fun _ hs => Gives.options.mono fun _ _ h => ⟨h.2 ▸ hs, h.1⟩

theorem tidies_state : Tidies c free r (getThe CompileState) r (·.Tidy free r) := by
  rintro s hs _ _ ⟨⟩
  exact ⟨hs, hs⟩

theorem tidies_location : Tidies c free r location r fun _ => True := by
  rintro s hs _ _ ⟨⟩
  exact ⟨hs, trivial⟩

theorem tidies_remaining : Tidies c free r remaining r fun _ => True := by
  rintro s hs _ _ ⟨⟩
  exact ⟨hs, trivial⟩

theorem tidies_warn {w : Warning} : Tidies c free r (warn loc w) r fun _ => True := by
  rintro s hs _ _ ⟨⟩
  exact ⟨{ hs with }, trivial⟩

theorem tidies_located {x : Except Cause α} : Tidies c free r (located loc x) r (x = .ok ·) :=
  fun _ hs => Gives.located.mono fun _ _ h => ⟨h.2 ▸ hs, h.1⟩

theorem tidies_read : Tidies c free r (liftM (Lexer.read mode flags)) true fun t =>
    Mild free t.text ∧ t.Lettered := .lift Lexer.tidies_read Lexer.read_ensures

theorem tidies_peek : Tidies c free r (liftM (Lexer.peek mode flags)) false fun t =>
    Mild free t.text ∧ t.Lettered := .lift Lexer.tidies_peek Lexer.peek_ensures

theorem tidies_consume : Tidies c free r (liftM Lexer.consume) true fun _ => True :=
  Tidies.mono (.lift Lexer.tidies_consume Lexer.consume_ensures) fun _ _ => trivial

theorem tidies_expect : Tidies c free r (liftM (Lexer.expect type)) true fun t =>
    t.type = type ∧ Mild free t.text ∧ t.Lettered :=
  Tidies.mono (.lift Lexer.tidies_expect Lexer.expect_ensures) fun _ h => ⟨h.1.1, h.1.2, h.2.2⟩

theorem tidies_skipLineEnds : Tidies c free r (liftM Lexer.skipLineEnds) false fun _ => True :=
  Tidies.mono (.lift Lexer.tidies_skipLineEnds Lexer.skipLineEnds_ensures) fun _ _ => trivial

/-- A raw word that is read where nothing waits. -/
theorem tidies_readRaw : Tidies c free true (liftM (Lexer.read .raw flags)) true fun t =>
    (Mild free t.text ∧ t.Lettered) ∧ (free = true → Lexer.Stood flags t) := by
  refine tidies_read.and fun s hs =>
    gives_lift (Q := fun t _ => free = true → Lexer.Stood flags t) ?_
  rintro t m h rfl
  exact Lexer.stood_readRaw hs.lexer t m h

theorem tidies_peekRaw : Tidies c free true (liftM (Lexer.peek .raw flags)) false fun t =>
    (Mild free t.text ∧ t.Lettered) ∧ (free = true → Lexer.Stood flags t) := by
  refine tidies_peek.and fun s hs =>
    gives_lift (Q := fun t _ => free = true → Lexer.Stood flags t) ?_
  rintro t m h rfl
  exact Lexer.stood_peekRaw hs.lexer t m h

/-- A token that is read where nothing waits. -/
theorem tidies_readSharp : Tidies c free true (liftM (Lexer.read .normal flags)) true fun t =>
    (Mild free t.text ∧ t.Lettered) ∧ (free = true → Lexer.Sharp flags t) := by
  refine tidies_read.and fun s hs =>
    gives_lift (Q := fun t _ => free = true → Lexer.Sharp flags t) ?_
  rintro t m h rfl
  exact (Lexer.read_waits hs.lexer.waits h).2

theorem tidies_repeatFrom {I : σ → Prop} {P : α → Prop} {step : σ → Compiler (σ ⊕ α)} {a : σ}
    (ha : I a) (hstep : ∀ a, I a → Tidies c free false (step a) false (Sum.elim I P)) :
    Tidies c free r (repeatFrom a step) false P := by
  refine Tidies.any fun s hs => ?_
  refine .repeatFrom (I := fun a t => t.Tidy free false ∧ I a)
    (P := fun b t => t.Tidy free false ∧ P b) ⟨hs, ha⟩ fun a t h => ?_
  refine (hstep a h.2 t h.1).mono fun result u hu => ?_
  cases result with
  | inl => exact hu
  | inr => exact hu

end

/-- A part of a token is a part of the text. -/
theorem unquoted_part (t : Token) : t.unquoted <:+: t.text := by
  rw [Token.unquoted]
  split
  · rename_i rest htext
    rw [htext]
    split
    · exact (List.dropLast_prefix rest).isInfix.trans (List.suffix_cons 34 rest).isInfix
    · exact (List.suffix_cons 34 rest).isInfix
  · exact List.infix_rfl

/-- The bytes of a string literal, escapes decoded. -/
theorem tidies_stringValue {newlineToSpace : Bool} (ht : Mild free token.text) :
    Tidies c free r (stringValue token newlineToSpace) r (13 ∉ ·) :=
  tidies_located.mono fun _ h =>
    Escape.return_not_mem_unescape h (ht.part (unquoted_part token)).returns

/-! ### Expressions -/

theorem tidies_floatOfToken : Tidies c free r (floatOfToken token) r fun _ => True :=
  fun _ hs => gives_floatOfToken.mono fun _ _ h => ⟨h.2 ▸ hs, trivial⟩

theorem texts_ofName (name : Bytes) : (Value.ofName name).texts = [name] := by
  rw [Value.ofName]
  split <;> rfl

theorem tidies_parseTier {tiers : List (List Operator)} {bound : Lexer.Remaining} {level : ℕ} :
    Tidies c free r (parseTier tiers bound level) false (Returnless ·.texts) := by
  refine .any ?_
  -- only the tail of a tier is given a value; it has no carriage return if what it is given has none
  refine parseTier.induct tiers
    (fun bound level =>
      Tidies c free false (parseTier tiers bound level) false (Returnless ·.texts))
    (fun bound level left => Returnless left.texts →
      Tidies c free false (parseTierRest tiers bound level left) false (Returnless ·.texts))
    (fun bound => Tidies c free false (parseNegation tiers bound) false (Returnless ·.texts))
    (fun bound => Tidies c free false (parseOperand tiers bound) false (Returnless ·.texts))
    ?zero ?succ ?rest ?negation ?operand bound level
  case zero =>
    intro bound hnegation
    rw [parseTier]
    exact hnegation
  case succ =>
    intro bound level hleft hrest
    rw [parseTier]
    exact hleft.bind fun left htexts => hrest left htexts
  case rest =>
    intro bound level left hright hrest hleft
    rw [parseTierRest]
    refine .bind tidies_peek fun token _ => ?_
    split
    · exact .pure hleft
    · rename_i op _
      refine .bind tidies_consume fun _ _ => .bind tidies_remaining fun now _ => ?_
      refine .dite (fun less => .any ?_) fun _ => .fail
      refine (hright now less).bind fun right htexts => ?_
      exact hrest op now less right (returnless_append.2 ⟨hleft, htexts⟩)
  case negation =>
    intro bound hnegation hoperand
    rw [parseNegation]
    refine .bind tidies_peek fun token _ => .ite (fun _ => ?_) fun _ => hoperand
    refine .bind tidies_consume fun _ _ => .bind tidies_remaining fun now _ => ?_
    refine .dite (fun less => .any ?_) fun _ => .fail
    refine (hnegation now less).bind fun v hv => .guard fun _ => ?_
    cases v with
    | const => exact .pure hv
    | _ => exact .pure hv
  case operand =>
    intro bound hinner
    rw [parseOperand]
    refine .bind tidies_peek fun token ht => ?_
    split
    · refine .bind tidies_consume fun _ _ => .bind tidies_remaining fun now _ => ?_
      refine .dite (fun less => .any ?_) fun _ => .fail
      refine (hinner now less).bind fun v hv => ?_
      refine .bind tidies_read fun closing _ => .guard fun _ => ?_
      exact .weaken (.pure hv)
    · refine .bind tidies_consume fun _ _ => .weaken (.pure ?_)
      simpa [Value.texts] using (ht.1.part (unquoted_part token)).returns
    · refine .bind tidies_consume fun _ _ => .bind tidies_floatOfToken fun _ _ => ?_
      exact .weaken (.pure returnless_nil)
    · refine .bind tidies_consume fun _ _ => .weaken (.pure ?_)
      simpa [texts_ofName] using ht.1.returns
    · exact .fail

theorem tidies_parseExpr : Tidies c free r parseExpr false (Returnless ·.texts) :=
  .bind tidies_options fun _ _ => .bind tidies_remaining fun _ _ => tidies_parseTier

theorem tidies_parseNumeric : Tidies c free r parseNumeric false (Returnless ·.texts) := by
  refine .bind tidies_location fun loc _ => .bind tidies_parseExpr fun v hv => ?_
  refine .ite (fun _ => ?_) fun _ => .pure hv
  refine .bind tidies_options fun o _ => .guard fun _ => ?_
  exact .bind tidies_warn fun _ _ => .pure hv

theorem tidies_toExpr {v : Value} (hv : Returnless v.texts) :
    Tidies c free r (toExpr v loc) r (Returnless ·.strings) :=
  fun _ hs => gives_toExpr.mono fun _ _ h => ⟨hs.hushed h.2, h.1.strings hv⟩

theorem tidies_toExpr_some {v : Value} (hv : Returnless v.texts) :
    Tidies c free r (toExpr v loc >>= fun e => pure (some e)) r fun e =>
      Returnless (e.toList.flatMap Expr.strings) :=
  (tidies_toExpr hv).bind fun e he => .pure (by simpa using he)

theorem tidies_toCondition {o : Option Value} (ho : ∀ v ∈ o, Returnless v.texts) :
    Tidies c free r (toCondition o loc) r fun p =>
      Returnless (p.1.toList.flatMap Expr.strings) := by
  have hsome {v : Value} (hv : Returnless v.texts) :
      Tidies c free r (toExpr v loc >>= fun e => pure (some e, true)) r
        fun p : Option Expr × Bool => Returnless (p.1.toList.flatMap Expr.strings) :=
    (tidies_toExpr hv).bind fun e he => .pure (by simpa using he)
  cases o with
  | none => exact .pure (by simp)
  | some v =>
    refine .bind tidies_options fun o _ => .ite (fun _ => ?_) fun _ => hsome (ho v rfl)
    refine .bind tidies_located fun folded hfolded => ?_
    split
    · exact .pure (by simp)
    · exact hsome ((ho v rfl).subset (Value.texts_fold hfolded))

/-! ### Labels and arguments -/

theorem tidies_labelOfTokens {high low : Token} :
    Tidies c free r (labelOfTokens high low) r fun _ => True := by
  refine .bind tidies_located fun h _ => .bind tidies_located fun l _ => ?_
  split
  · exact .pure trivial
  · exact .fail

theorem tidies_parseLabel : Tidies c free r parseLabel true fun _ => True := by
  refine .bind tidies_expect fun high _ => .bind tidies_expect fun _ _ => ?_
  exact .bind tidies_expect fun low _ => tidies_labelOfTokens

theorem tidies_parseDefinitionLabel : Tidies c free r parseDefinitionLabel true fun _ => True := by
  refine .bind tidies_peek fun _ _ => .bind tidies_parseLabel fun label _ => ?_
  exact .guard fun _ => .pure trivial

theorem tidies_formatValueOfToken {unquoted : Bool} (ht : Mild free token.text)
    (hunbroken : unquoted = true → token.Unbroken) :
    Tidies c free r (formatValueOfToken token) r (FormatValue.Mild unquoted) := by
  unfold formatValueOfToken
  split
  · refine .bind tidies_floatOfToken fun _ _ => .pure ⟨returnless_nil, fun _ => ?_⟩
    exact List.not_mem_nil
  · refine .pure ⟨?_, fun _ => List.not_mem_nil⟩
    simpa [FormatValue.strings, Operand.strings] using ht.returns
  · refine .pure ⟨?_, fun h => hunbroken h ‹_›⟩
    simpa [FormatValue.strings, Operand.strings] using (ht.part (unquoted_part token)).returns
  · exact .fail

theorem tidies_parseFormatValue :
    Tidies c free true parseFormatValue true (FormatValue.Mild free) := by
  refine .bind tidies_readSharp fun token ht => ?_
  exact tidies_formatValueOfToken ht.1.1 fun hfree => ht.2 hfree rfl rfl

theorem tidies_parseFormatList :
    Tidies c free r parseFormatList false fun vs => ∀ v ∈ vs, v.Mild free := by
  refine tidies_repeatFrom (I := fun vs => ∀ v ∈ vs, v.Mild free) (by simp) fun vs hvs => ?_
  refine .bind tidies_peek fun token _ => .ite (fun _ => .pure hvs) fun _ => ?_
  refine .bind tidies_consume fun _ _ => .bind tidies_parseFormatValue fun v hv => ?_
  exact .weaken (.pure (Contract.forall_mem_concat hvs hv))

/-- A name, whether or not it is quoted. -/
theorem tidies_parseName : Tidies c free r parseName true (13 ∉ ·) := by
  refine .bind tidies_state fun s _ => .ite (fun _ => ?_) fun _ => ?_
  · exact .bind tidies_read fun token ht => .pure (ht.1.part (unquoted_part token)).returns
  · refine .bind tidies_read fun token ht => ?_
    split
    · exact .fail
    · exact .fail
    · exact .pure (ht.1.part (unquoted_part token)).returns
    · exact .pure ht.1.returns

/-- A bare word that is read where nothing waits. -/
theorem tidies_parseWord {stopComma : Bool} :
    Tidies c free true (parseWord stopComma) true fun s =>
      13 ∉ s ∧ (free = true → Script.RawWord (Scan.bareFlags stopComma) s) := by
  refine .bind tidies_readRaw fun token ht => .guard fun hline => ?_
  extract_lets text rest rest'
  have htext : 13 ∉ text ∧ (free = true → Script.RawWord (Scan.bareFlags stopComma) text) := by
    constructor
    · change 13 ∉ if token.type = .string then token.unquoted else token.text
      split
      · exact (ht.1.1.part (unquoted_part token)).returns
      · exact ht.1.1.returns
    · intro hfree
      obtain ⟨hraw, hword⟩ := Lexer.Stood.word (ht.2 hfree) rfl hline
      change Script.RawWord _ (if token.type = .string then token.unquoted else token.text)
      rwa [if_neg (by simp [hraw])]
  have hrest (u : Unit) : Tidies c free true (rest u) true fun s =>
      13 ∉ s ∧ (free = true → Script.RawWord (Scan.bareFlags stopComma) s) := .pure htext
  have hrest' (u : Unit) : Tidies c free true (rest' u) true fun s =>
      13 ∉ s ∧ (free = true → Script.RawWord (Scan.bareFlags stopComma) s) :=
    .ite (fun _ => .bind tidies_warn fun u _ => hrest u) fun _ => hrest ()
  exact .ite (fun _ => .bind tidies_warn fun u _ => hrest' u) fun _ => hrest' ()

/-- Where there are no definitions none is read. -/
theorem tidies_parseDefine : Tidies c free r parseDefine false fun _ => True := by
  refine .bind tidies_peek fun token ht => .ite (fun _ => .pure trivial) fun hdefine => ?_
  cases free with
  | true =>
    have hword : token.is (utf8 "define") = true := by simpa using hdefine
    exact absurd (congrArg Prod.snd (Token.is_eq_true.1 hword)) (ht.1.ne_define rfl)
  | false =>
    refine .bind tidies_consume fun _ _ => .bind (P := fun _ => True) ?_ fun _ _ => .pure trivial
    exact (Tidies.lift Lexer.tidies_defineMacro Lexer.defineMacro_ensures).mono fun _ _ => trivial

end Compiler

end ApeScript
