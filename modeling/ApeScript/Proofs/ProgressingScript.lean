import ApeScript.Compile.SwitchBody
import ApeScript.Proofs.LexerProgress
import ApeScript.Proofs.MovedSwitch
import ApeScript.Proofs.SitedScript

/-!
# Every loop of the compiler reads on

No part of the compiler leaves more to read than there was, and none fails because a loop did not
read on: each round that is followed by another, and each part that calls itself, takes a token
first. `Compiler.Steady x` says the first two of a part, and `Compiler.Spends x` that it takes a
token; there is a rule for each way in which compilers are put together.
-/

namespace ApeScript

namespace Compiler

open Lexer (Remaining UpTo Below Shows)

variable {α β σ : Type} {r bound : Remaining} {loc : Location} {cause : Cause} {token : Token}
  {type : TokenType} {mode : ReadMode} {flags : ReadFlags}

/-- From where `P` holds of the lexer, a compiler gets to where `Q` holds, or fails for another
reason than a loop that does not read on. -/
def Progress (P : Lexer → Prop) (x : Compiler α) (Q : α → Lexer → Prop) : Prop :=
  ∀ c s, P s.lexer →
    match x c s with
    | .ok a t => Q a t.lexer
    | .error e _ => e.cause.Direct

/-- From where no more than `r` is left to read to where no more is. -/
abbrev Within (r : Remaining) (x : Compiler α) : Prop := Progress (UpTo r) x fun _ => UpTo r

def Steady (x : Compiler α) : Prop := ∀ r, Within r x

/-- Leaves less to read than there was. -/
def Spends (x : Compiler α) : Prop := ∀ r, Progress (UpTo r) x fun _ => Below r

def Proceeds (round : σ → Compiler (σ ⊕ α)) : Prop :=
  ∀ a r, Progress (UpTo r) (round a) (Sum.elim (fun _ => Below r) fun _ => UpTo r)

namespace Progress

variable {x y : Compiler α} {f : α → Compiler β} {P P' : Lexer → Prop} {Q : α → Lexer → Prop}
  {R : β → Lexer → Prop}

theorem pure {a : α} (h : ∀ l, P l → Q a l) : Progress P (pure a : Compiler α) Q :=
  fun _ s => h s.lexer

theorem fail (h : cause.Direct) : Progress P (fail loc cause) Q := fun _ _ _ => h

theorem bind (hx : Progress P x Q) (hf : ∀ a, Progress (Q a) (f a) R) :
    Progress P (x >>= f) R := by
  intro c s hs
  have hrun : (x >>= f) c s = EStateM.bind (x c) (fun a => f a c) s := rfl
  have h := hx c s hs
  rw [hrun, EStateM.bind]
  cases hxs : x c s with
  | ok a t =>
    rw [hxs] at h
    exact hf a c t h
  | error e t =>
    rw [hxs] at h
    exact h

theorem ite {p : Prop} [Decidable p] (hx : p → Progress P x Q) (hy : ¬ p → Progress P y Q) :
    Progress P (if p then x else y) Q := by
  split
  · exact hx ‹p›
  · exact hy ‹¬ p›

/-- What would follow a failure is not run. -/
theorem fail_bind (h : cause.Direct) : Progress P (Compiler.fail loc cause >>= f) R :=
  .bind (Q := fun _ _ => False) (.fail h) fun _ _ _ hfalse => hfalse.elim

/-- A check that fails when `p` holds, and what follows it. -/
theorem guard {p : Prop} [Decidable p] {z : Compiler β} (h : cause.Direct)
    (hz : ¬ p → Progress P z R) :
    Progress P (if p then Compiler.fail loc cause >>= f else z) R :=
  .ite (fun _ => .fail_bind h) hz

/-- More is known before, and less has to be known after. -/
theorem mono {Q' : α → Lexer → Prop} (hx : Progress P x Q) (hP : ∀ l, P' l → P l)
    (hQ : ∀ a l, Q a l → Q' a l) : Progress P' x Q' := by
  intro c s hs
  have h := hx c s (hP s.lexer hs)
  cases hxs : x c s with
  | ok a t =>
    rw [hxs] at h
    exact hQ a t.lexer h
  | error e t =>
    rw [hxs] at h
    exact h

theorem lift {x : Lex α} (hx : Lexer.Progress P x Q) : Progress P (liftM x : Compiler α) Q := by
  intro c s hs
  have h := hx s.lexer hs
  rw [run_lift]
  cases hl : x s.lexer with
  | ok a l =>
    rw [hl] at h
    exact h
  | error e l =>
    rw [hl] at h
    exact h

/-- A compiler that has read on goes on. -/
theorem spent {k : (now : Remaining) → now.Less bound → Compiler β} {stuck : Remaining → Compiler β}
    (hr : r.AtMost bound) (h : ∀ now less, now.Less r → Progress (UpTo now) (k now less) R) :
    Progress (Below r) (do
      let now ← remaining
      if less : now.Less bound then k now less else stuck now) R := by
  intro c s hs
  have hless : s.lexer.remaining.Less bound := Remaining.AtMost.less hs.less hr
  have hrun : (remaining >>= fun now => if less : now.Less bound then k now less
      else stuck now) c s = k s.lexer.remaining hless c s := by
    rw [bind_run (rfl : remaining c s = .ok s.lexer.remaining s), dif_pos hless]
  rw [hrun]
  exact h _ hless hs.less c s hs.counted.upTo

/-- Starting from what is left to read then. -/
theorem measured {x : Remaining → Compiler α}
    (h : ∀ now, now.AtMost r → Progress (UpTo now) (x now) Q) :
    Progress (UpTo r) (remaining >>= x) Q := by
  intro c s hs
  rw [bind_run (rfl : remaining c s = .ok s.lexer.remaining s)]
  exact h _ hs.atMost c s hs.counted.upTo

/-- What is left at the end is measured by what was left at the start. -/
theorem fromRemaining {x : Remaining → Compiler α}
    (h : ∀ now, Progress (UpTo now) (x now) fun _ => UpTo now) :
    Progress (UpTo r) (remaining >>= x) fun _ => UpTo r :=
  .measured fun now hnow => (h now).mono (fun _ h => h) fun _ _ h =>
    ⟨h.counted, h.atMost.trans hnow⟩

end Progress

/-- Less is left after what leaves no more than less. -/
theorem Within.below {now : Remaining} {x : Compiler α} (hx : Within now x) (less : now.Less r) :
    Progress (UpTo now) x fun _ => Below r :=
  hx.mono (fun _ h => h) fun _ _ h => h.below less

theorem Within.upTo {now : Remaining} {x : Compiler α} (hx : Within now x) (less : now.Less r) :
    Progress (UpTo now) x fun _ => UpTo r :=
  hx.mono (fun _ h => h) fun _ _ h => (h.below less).upTo

namespace Steady

variable {x y : Compiler α} {f : α → Compiler β}

theorem below (hx : Steady x) (r : Remaining) : Progress (Below r) x fun _ => Below r := by
  intro c s hs
  exact (hx s.lexer.remaining).below hs.less c s hs.counted.upTo

theorem pure (a : α) : Steady (pure a : Compiler α) := fun _ => .pure fun _ h => h

theorem throw {e : CompileError} (h : e.cause.Direct) : Steady (throw e : Compiler α) :=
  fun _ _ _ _ => h

theorem fail (h : cause.Direct) : Steady (fail loc cause : Compiler α) := fun _ => .fail h

theorem bind (hx : Steady x) (hf : ∀ a, Steady (f a)) : Steady (x >>= f) :=
  fun r => (hx r).bind fun a => hf a r

theorem ite {p : Prop} [Decidable p] (hx : Steady x) (hy : Steady y) :
    Steady (if p then x else y) := by
  split
  · exact hx
  · exact hy

/-- Two ways to get what follows. -/
theorem ite_bind {p : Prop} [Decidable p] (hx : Steady x) (hy : Steady y)
    (hf : ∀ a, Steady (f a)) : Steady (if p then x >>= f else y >>= f) :=
  .ite (.bind hx hf) (.bind hy hf)

theorem fail_bind (h : cause.Direct) : Steady (Compiler.fail loc cause >>= f) :=
  fun _ => .fail_bind h

/-- A check that fails, and what follows it. -/
theorem guard {p : Prop} [Decidable p] {z : Compiler β} (h : cause.Direct) (hz : Steady z) :
    Steady (if p then Compiler.fail loc cause >>= f else z) :=
  fun r => .guard h fun _ => hz r

theorem located {x : Except Cause α} {P : α → Prop} (hx : Yields Cause.Direct P x) :
    Steady (located loc x) := by
  cases x with
  | ok a => exact .pure a
  | error cause => exact .fail hx

end Steady

/-! ### What every compiler may do -/

theorem steady_options : Steady options := fun _ _ _ hs => hs

theorem steady_context : Steady (readThe CompileContext) := fun _ _ _ hs => hs

theorem steady_state : Steady (getThe CompileState) := fun _ _ _ hs => hs

theorem steady_location : Steady location := fun _ _ _ hs => hs

theorem steady_warn {w : Warning} : Steady (warn loc w) := fun _ _ _ hs => hs

/-- A change of what has been made so far. -/
theorem steady_modify {f : CompileState → CompileState} (h : ∀ s, (f s).lexer = s.lexer) :
    Steady (modifyThe CompileState f) := by
  intro r c s hs
  change UpTo r (f s).lexer
  rw [h s]
  exact hs

theorem steady_read : Steady (Lexer.read mode flags) := fun _ => .lift Lexer.progress_read

theorem steady_peek (h : flags.stopParen = false) : Steady (Lexer.peek mode flags) := fun _ =>
  .mono (.lift (Lexer.progress_peek h)) (fun _ h => h) fun _ _ h => h.toUpTo

theorem steady_consume : Steady Lexer.consume := fun _ => .lift Lexer.progress_consume

theorem spends_expect (htype : type ≠ .endOfFile) : Spends (Lexer.expect type) := fun _ =>
  .lift (Lexer.progress_expect htype)

theorem Spends.steady {x : Compiler α} (hx : Spends x) : Steady x := fun r =>
  (hx r).mono (fun _ h => h) fun _ _ h => h.upTo

theorem steady_expect (htype : type ≠ .endOfFile) : Steady (Lexer.expect type) :=
  (spends_expect htype).steady

theorem steady_skipLineEnds : Steady Lexer.skipLineEnds := fun _ =>
  .lift Lexer.progress_skipLineEnds

theorem steady_defineMacro : Steady Lexer.defineMacro := fun _ => .lift Lexer.progress_defineMacro

/-- A loop whose rounds read on comes to an end. -/
theorem steady_repeatFrom {round : σ → Compiler (σ ⊕ α)} {a : σ} (h : Proceeds round) :
    Steady (repeatFrom a round) := by
  refine fun r => .fromRemaining fun bound => ?_
  induction bound, a using repeatWithin.induct with
  | case1 bound a ih =>
    rw [repeatWithin]
    refine .bind (h a bound) fun result => ?_
    cases result with
    | inr b => exact .pure fun _ h => h
    | inl next =>
      exact .spent (.inr rfl) fun now less _ => Within.upTo (ih next now less) less

/-! ### Expressions -/

theorem steady_stringValue {newlineToSpace : Bool} : Steady (stringValue token newlineToSpace) :=
  .located (Value.unescape_direct ..)

theorem steady_floatOfToken : Steady (floatOfToken token) := by
  refine .guard (by trivial) ?_
  split
  · exact .fail (by trivial)
  · exact .ite (.pure _) (.fail (by trivial))

theorem peekNormal_shows : Progress (UpTo r) Lexer.peekNormal fun t => Shows r t :=
  .lift (Lexer.progress_peek rfl)

theorem consume_below (htype : token.type ≠ .endOfFile) :
    Progress (Shows r token) Lexer.consume fun _ => Below r :=
  .lift (Lexer.progress_take htype)

theorem type_of_operatorOf? {tier : List Operator} {op : Operator}
    (h : operatorOf? tier token = some op) : token.type = .operator := by
  by_contra hne
  rw [operatorOf?, if_neg hne] at h
  cases h

/-- The parser of expressions, by the tiers, the tails of tiers, the negations and the operands that
call one another. -/
theorem within_parseTier {tiers : List (List Operator)} {bound : Lexer.Remaining} {level : Nat} :
    Within bound (parseTier tiers bound level) := by
  refine parseTier.induct tiers
    (fun bound level => Within bound (parseTier tiers bound level))
    (fun bound level left => Within bound (parseTierRest tiers bound level left))
    (fun bound => Within bound (parseNegation tiers bound))
    (fun bound => Within bound (parseOperand tiers bound))
    ?zero ?succ ?rest ?negation ?operand bound level
  case zero =>
    intro bound hnegation
    rw [parseTier]
    exact hnegation
  case succ =>
    intro bound level hleft hrest
    rw [parseTier]
    exact hleft.bind fun left => hrest left
  case rest =>
    intro bound level left hright hrest
    rw [parseTierRest]
    refine .bind peekNormal_shows fun token => ?_
    split
    · exact .pure fun _ h => h.toUpTo
    · rename_i op hop
      refine .bind (consume_below (by simp [type_of_operatorOf? hop])) fun _ => ?_
      refine .spent (.inr rfl) fun now less _ => ?_
      exact Within.upTo (.bind (hright now less) fun right => hrest op now less right) less
  case negation =>
    intro bound hnegation hoperand
    rw [parseNegation]
    refine .bind peekNormal_shows fun token => .ite (fun htype => ?_) fun _ => ?_
    · refine .bind (consume_below (by simp [htype.1])) fun _ => ?_
      refine .spent (.inr rfl) fun now less _ => ?_
      refine ((hnegation now less).below less).bind fun v => .guard trivial fun _ => ?_
      cases v with
      | const x => exact .pure fun _ h => h.upTo
      | _ => exact .pure fun _ h => h.upTo
    · exact hoperand.mono (fun _ h => h.toUpTo) fun _ _ h => h
  case operand =>
    intro bound hinner
    rw [parseOperand]
    refine .bind peekNormal_shows fun token => ?_
    have hdrop {x : Compiler Value} (hx : Within bound x) :
        Progress (Shows bound token) (Lexer.consume >>= fun _ => x) fun _ => UpTo bound :=
      .bind ((steady_consume bound).mono (fun _ h => h.toUpTo) fun _ _ h => h) fun _ => hx
    split
    · rename_i htype
      refine .bind (consume_below (by simp [htype])) fun _ => .spent (.inr rfl) fun now less _ => ?_
      refine Within.upTo (.bind (hinner now less) fun v => ?_) less
      exact .bind (steady_read now) fun closing => .guard trivial fun _ => .pure fun _ h => h
    · exact hdrop (.pure fun _ h => h)
    · exact hdrop (.bind (steady_floatOfToken bound) fun _ => .pure fun _ h => h)
    · exact hdrop (.pure fun _ h => h)
    · exact .fail trivial

theorem steady_parseExpr : Steady parseExpr :=
  .bind steady_options fun _ _ => .fromRemaining fun _ => within_parseTier

theorem steady_parseNumeric : Steady parseNumeric := by
  refine .bind steady_location fun loc => .bind steady_parseExpr fun v => ?_
  refine .ite (.bind steady_options fun o => .guard trivial ?_) (.pure _)
  exact .bind steady_warn fun _ => .pure _

theorem steady_toExpr {v : Value} : Steady (toExpr v loc) := by
  refine .bind steady_options fun o => ?_
  extract_lets store
  have hstore (v : Value) : Steady (store v) := by
    have hlayout : Steady (located loc (v.layout o.allowExprEscapes)) :=
      .located (Value.layout_direct ..)
    refine .ite ?_ hlayout
    split
    · exact .bind steady_warn fun _ => hlayout
    · exact .bind (.fail trivial) fun _ => hlayout
  exact .ite (.bind (.located (Value.fold_direct v)) hstore) (.bind (.pure _) hstore)

theorem steady_toExpr? {o : Option Value} : Steady (toExpr? o loc) := by
  cases o with
  | none => exact .pure _
  | some v => exact .bind steady_toExpr fun _ => .pure _

theorem steady_toCondition {o : Option Value} : Steady (toCondition o loc) := by
  have hsome (v : Value) : Steady (toExpr v loc >>= fun e => pure (some e, true)) :=
    .bind steady_toExpr fun _ => .pure _
  cases o with
  | none => exact .pure _
  | some v =>
    refine .bind steady_options fun o => .ite ?_ (hsome v)
    refine .bind (.located (Value.fold_direct v)) fun folded => ?_
    split
    · exact .pure _
    · exact hsome folded

/-! ### Labels and arguments -/

theorem steady_labelOfTokens {high low : Token} : Steady (labelOfTokens high low) := by
  refine .bind (.located (labelHalf_direct ..)) fun h => ?_
  refine .bind (.located (labelHalf_direct ..)) fun l => ?_
  split
  · exact .pure _
  · exact .fail trivial

theorem steady_parseLabel : Steady parseLabel :=
  .bind (steady_expect (by decide)) fun _ => .bind (steady_expect (by decide)) fun _ =>
    .bind (steady_expect (by decide)) fun _ => steady_labelOfTokens

theorem steady_parseDefinitionLabel : Steady parseDefinitionLabel :=
  .bind (steady_peek rfl) fun _ => .bind steady_parseLabel fun _ => .guard trivial (.pure _)

theorem steady_formatValueOfToken : Steady (formatValueOfToken token) := by
  unfold formatValueOfToken
  split
  · exact .bind steady_floatOfToken fun _ => .pure _
  · exact .pure _
  · exact .pure _
  · exact .fail trivial

theorem steady_parseFormatValue : Steady parseFormatValue :=
  .bind steady_read fun _ => steady_formatValueOfToken

/-- A round that starts with a comma reads on. -/
theorem proceeds_parseFormatRound : Proceeds parseFormatRound := by
  refine fun values r => .bind peekNormal_shows fun token => .ite (fun _ => ?_) fun htype => ?_
  · exact .pure fun _ h => h.toUpTo
  · refine .bind (consume_below (by simp [not_not.1 htype])) fun _ => ?_
    exact .bind (steady_parseFormatValue.below r) fun _ => .pure fun _ h => h

theorem steady_parseFormatList : Steady parseFormatList :=
  steady_repeatFrom proceeds_parseFormatRound

theorem steady_parseName : Steady parseName := by
  refine .bind steady_state fun s => .ite (.bind steady_read fun _ => .pure _) ?_
  refine .bind steady_read fun token => ?_
  split
  · exact .fail trivial
  · exact .fail trivial
  · exact .pure _
  · exact .pure _

theorem steady_parseWord {stopComma : Bool} : Steady (parseWord stopComma) := by
  refine .bind steady_read fun token => .guard trivial ?_
  extract_lets word rest rest'
  have hrest (u : Unit) : Steady (rest u) := .pure _
  have hrest' (u : Unit) : Steady (rest' u) := .ite (.bind steady_warn hrest) (hrest ())
  exact .ite (.bind steady_warn hrest') (hrest' ())

theorem steady_parseDefine : Steady parseDefine := by
  refine .bind (steady_peek rfl) fun token => .ite (.pure _) ?_
  exact .bind steady_consume fun _ => .bind steady_defineMacro fun _ => .pure _

end Compiler

/-! ### Switches -/

theorem Draft.simplifyIf_direct (s : DraftStatement) (condition : Value) (inner alt : Draft) :
    Yields (fun e : CompileError => e.cause.Direct) (fun _ => True)
      (simplifyIf s condition inner alt) := by
  unfold simplifyIf
  split
  · trivial
  · simp only
    split
    · trivial
    · trivial
  · trivial

theorem Draft.simplify_direct (optimize : Bool) (d : Draft) :
    Yields (fun e : CompileError => e.cause.Direct) (fun _ => True) (d.simplify optimize) := by
  induction d with
  | done => trivial
  | step s inner alt rest ihi iha ihr =>
    have hrest (here : Draft) : Yields (fun e : CompileError => e.cause.Direct) (fun _ => True)
        (simplify optimize rest >>= fun rest' => pure (here ++ rest')) :=
      ihr.bind fun _ _ => trivial
    rw [simplify]
    split
    · rename_i condition _ _
      extract_lets choose
      have hchoose (folded : Value) : Yields (fun e : CompileError => e.cause.Direct)
          (fun _ => True) (choose folded) := by
        refine ihi.bind fun inner' _ => iha.bind fun alt' _ => ?_
        split
        · exact hrest _
        · exact (simplifyIf_direct ..).bind fun here _ => hrest here
      split
      · have hfold := Value.fold_direct condition
        cases hv : condition.fold with
        | ok folded => exact hchoose folded
        | error cause =>
          rw [hv] at hfold
          exact hfold
      · exact hchoose condition
    · refine ihi.bind fun inner' _ => ?_
      split
      · trivial
      · exact hrest _
    · exact hrest _

namespace Compiler

open Lexer (Remaining UpTo Below Shows)

variable {α : Type} {r bound : Remaining} {loc : Location} {token : Token} {type : StatementType}

theorem steady_nextPlace {cc step : UInt64} : Steady (emit.liftExcept (nextPlace cc step loc)) := by
  unfold nextPlace
  split
  · exact .throw trivial
  · exact .pure _

theorem steady_emit {d : Draft} (cc : UInt64) : Steady (emit cc d) := by
  induction d generalizing cc with
  | done => exact .pure _
  | step s inner alt rest ihi iha ihr =>
    -- the block, the alternative and the rest are placed in the same way, each only if not empty
    have hblock {sub : Draft} {step : UInt64} {loc : Location}
        {next : List Placed → Compiler (List Placed)} (hsub : ∀ cc, Steady (emit cc sub))
        (hnext : ∀ ps, Steady (next ps)) :
        Steady (if sub.isDone then pure [] >>= next else
          emit.liftExcept (nextPlace cc step loc) >>= fun place => emit place sub >>= next) :=
      .ite (.bind (.pure _) hnext) (.bind steady_nextPlace fun place => (hsub place).bind hnext)
    rw [emit]
    refine .bind steady_toExpr? fun expr => ?_
    exact hblock ihi fun _ => hblock iha fun _ => hblock ihr fun _ => .pure _

theorem steady_emitAll {d : Draft} : Steady (emitAll d) := by
  refine .bind steady_options fun o => ?_
  have hsimple := d.simplify_direct o.optimize
  split
  · rename_i e he
    rw [he] at hsimple
    exact .throw hsimple
  · exact .pure _
  · exact steady_emit 1

theorem steady_parseOptionalWord : Steady (parseOptionalWord type loc) := by
  refine .bind (steady_peek rfl) fun token => .ite (.pure _) ?_
  exact .bind steady_consume fun _ => .bind steady_parseFormatList fun _ => .pure _

theorem steady_parseQuotedStatement : Steady (parseQuotedStatement type loc) :=
  .bind steady_read fun _ => .bind steady_stringValue fun _ =>
    .bind steady_parseFormatList fun _ => .pure _

theorem steady_parseRestOfLine {missing : Cause} (h : missing.Direct) :
    Steady (parseRestOfLine missing) :=
  .bind steady_read fun _ => .guard h (.pure _)

theorem steady_parseLabeled : Steady (parseLabeled type loc) :=
  .bind steady_parseLabel fun _ => .pure _

theorem steady_parseGoto : Steady (parseGoto loc) :=
  .bind steady_options fun _ =>
    .ite (.bind (steady_parseRestOfLine trivial) fun _ => .pure _) steady_parseLabeled

theorem steady_parseDestination : Steady parseDestination :=
  .bind steady_options fun _ => .ite (steady_expect (by decide))
    (.bind steady_read fun _ => .guard trivial (.pure _))

theorem steady_parseAssigned : Steady parseAssigned := by
  refine .bind steady_state fun s => .ite ?_ (.bind steady_read fun _ => .guard trivial (.pure _))
  exact .bind steady_read fun _ => .bind steady_stringValue fun _ => .pure _

theorem steady_parseSet : Steady (parseSet token) := by
  refine .guard trivial (.bind (steady_expect (by decide)) fun _ => .ite ?_ ?_)
  · exact .bind steady_parseAssigned fun _ => .bind steady_parseFormatList fun _ => .pure _
  · exact .bind steady_parseExpr fun _ => .bind steady_parseFormatList fun _ => .pure _

theorem steady_parseSimple : Steady (parseSimple token) := by
  unfold parseSimple
  split
  · exact steady_parseOptionalWord
  · exact steady_parseQuotedStatement
  · refine .ite (.bind steady_parseDestination fun _ => steady_parseSet) ?_
    refine .ite (.bind steady_parseDestination fun _ => .pure _) (.ite steady_parseGoto ?_)
    refine .ite (.pure _) (.ite steady_parseLabeled (.ite steady_parseLabeled ?_))
    exact .ite (.bind (steady_parseRestOfLine trivial) fun _ => .pure _) steady_parseSet

theorem spends_parseCondition : Spends parseCondition := fun r =>
  .bind (spends_expect (by decide) r) fun _ => .bind (steady_parseNumeric.below r) fun _ =>
    .bind ((steady_expect (by decide)).below r) fun _ => .pure fun _ h => h

theorem steady_checkStatementEnd {elseMayFollow : Bool} :
    Steady (checkStatementEnd elseMayFollow) :=
  .bind (steady_peek rfl) fun _ => .ite (.fail trivial) (.pure _)

def Under (bound : Remaining) (x : Compiler α) : Prop := ∀ r, r.AtMost bound → Within r x

theorem Under.within {x : Compiler α} (hx : Under bound x) : Within bound x := hx bound (.inr rfl)

theorem Under.below {x : Compiler α} (hx : Under bound x) (hr : r.AtMost bound) :
    Progress (Below r) x fun _ => Below r := by
  intro c s hs
  have hless := Remaining.AtMost.less hs.less hr
  exact (hx s.lexer.remaining (.inl hless)).below hs.less c s hs.counted.upTo

/-- The parser of statements, by the statements, the bodies they govern and the blocks in braces
that call one another. -/
theorem under_parseStatement {elseMayFollow : Bool} :
    Under bound (parseStatement bound token elseMayFollow) := by
  have hstatement (bound : Remaining) (token : Token) (elseMayFollow : Bool)
      (hif : Under bound (parseIf bound token.loc))
      (hwhile : Under bound (parseWhile bound token.loc)) :
      Under bound (parseStatement bound token elseMayFollow) := by
    intro r hr
    rw [parseStatement]
    refine .guard trivial fun _ => .ite (fun _ => ?_) fun _ => ?_
    · refine (hif r hr).bind ?_
      rintro ⟨d, needsCheck⟩
      refine .ite (fun _ => ?_) fun _ => .pure fun _ h => h
      exact .bind (steady_checkStatementEnd r) fun _ => .pure fun _ h => h
    · extract_lets finish
      have hfinish (d : Draft) : Within r (finish d) :=
        .bind (steady_checkStatementEnd r) fun _ => .pure fun _ h => h
      exact .ite (fun _ => (hwhile r hr).bind hfinish) fun _ =>
        (steady_parseSimple r).bind hfinish
  refine parseStatement.induct
    (fun bound token elseMayFollow => Under bound (parseStatement bound token elseMayFollow))
    (fun bound loc => Under bound (parseWhile bound loc))
    (fun bound elseMayFollow => Under bound (parseBody bound elseMayFollow))
    (fun bound opened isEmpty => Under bound (parseBlock bound opened isEmpty))
    (fun bound loc => Under bound (parseIf bound loc))
    ?other ?statement ?loop ?body ?block ?branch bound token elseMayFollow
  -- the two cases differ in whether the token is a word, which `hstatement` does not ask
  case other | statement =>
    intro bound token elseMayFollow _ hif hwhile
    exact hstatement bound token elseMayFollow hif hwhile
  case loop =>
    intro bound loc hbody r hr
    rw [parseWhile]
    refine .bind (spends_parseCondition r) fun condition => .spent hr fun now less lessr => ?_
    exact Within.upTo (.bind (hbody now less).within fun inner => .pure fun _ h => h) lessr
  case body =>
    intro bound elseMayFollow hblock hstatement r hr
    rw [parseBody]
    refine .bind (steady_skipLineEnds r) fun _ => .bind (steady_read r) fun token => ?_
    exact .ite (fun _ => hblock token r hr) fun _ => hstatement token r hr
  case block =>
    intro bound opened isEmpty hskip hstatement hrest r hr
    rw [parseBlock]
    refine .bind peekNormal_shows fun token => ?_
    split
    · refine .mono ?_ (fun _ h => h.toUpTo) fun _ _ h => h
      refine .bind (steady_consume r) fun _ => .bind (steady_options r) fun o => ?_
      exact .guard trivial fun _ => .pure fun _ h => h
    · exact .fail trivial
    · rename_i htype
      refine .bind (consume_below (by simp [htype])) fun _ => .spent hr fun now less lessr => ?_
      exact Within.upTo (hskip now less).within lessr
    · refine .mono ?_ (fun _ h => h.toUpTo) fun _ _ h => h
      refine .bind (spends_expect (by decide) r) fun first => ?_
      refine .bind ((hstatement first).below hr) fun d => .spent hr fun now less lessr => ?_
      exact Within.upTo (.bind (hrest now less).within fun rest => .pure fun _ h => h) lessr
  case branch =>
    intro bound loc hinner halt r hr
    rw [parseIf]
    refine .bind (spends_parseCondition r) fun condition => .spent hr fun now less lessr => ?_
    refine .bind ((hinner now less).within.below lessr) fun inner => ?_
    refine .bind ((steady_peek rfl).below r) fun _ => ?_
    refine .bind (steady_skipLineEnds.below r) fun _ => ?_
    refine .bind ((steady_peek rfl).below r) fun next => .ite (fun _ => ?_) fun _ => ?_
    · exact .pure fun _ h => h.upTo
    · refine .bind (steady_consume.below r) fun _ => .spent hr fun later less lessr => ?_
      exact Within.upTo (.bind (halt later less).within fun alt => .pure fun _ h => h) lessr

/-- Each statement, line end and definition of a switch reads on. -/
theorem proceeds_switchRound {inline : Bool} : Proceeds (switchRound inline loc) := by
  refine fun d r => .bind peekNormal_shows fun token => ?_
  split
  · rename_i htype
    refine .bind (consume_below (by simp [htype])) fun _ => ?_
    refine .bind (steady_parseDefine.below r) fun defined => .ite (fun _ => ?_) fun _ => ?_
    · exact .pure fun _ h => h
    · exact .pure fun _ h => h.upTo
  · exact .guard trivial fun _ => .pure fun _ h => h.toUpTo
  · rename_i htype
    exact .bind (consume_below (by simp [htype])) fun _ => .pure fun _ h => h
  · refine .ite (fun _ => .pure fun _ h => h.toUpTo) fun _ => ?_
    refine .mono (.measured fun bound hbound => ?_) (fun _ h => h.toUpTo) fun _ _ h => h
    refine .bind (spends_expect (by decide) bound) fun first => ?_
    refine .bind (under_parseStatement.below (.inr rfl)) fun d' => .pure fun _ h => ?_
    exact ⟨h.counted, Remaining.AtMost.less h.less hbound⟩

theorem steady_compileSwitch {label : Label} {inline : Bool} :
    Steady (compileSwitch label inline) := by
  rw [compileSwitch_eq]
  refine .bind steady_location fun loc => .bind (steady_repeatFrom proceeds_switchRound) ?_
  rintro ⟨draft, afterHash⟩
  exact .bind steady_emitAll fun _ => .pure _

end Compiler

end ApeScript
