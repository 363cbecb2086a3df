import ApeScript.Proofs.Elsewhere
import ApeScript.Proofs.EmittedSwitch

/-!
# A switch at another place

The same statements at another place are parsed into a draft that differs in places only
(`Draft.Alike`), and are compiled to the same switch. The places decide nothing but where a failure
and a warning are reported.
-/

namespace ApeScript

/-- What `x` gives, `y` gives as well, but for `R`. -/
def Except.Agree {ε α β : Type} (R : α → β → Prop) (x : Except ε α) (y : Except ε β) : Prop :=
  ∀ a, x = .ok a → ∃ b, y = .ok b ∧ R a b

namespace Except.Agree

variable {ε ε' α β γ δ : Type} {R : α → β → Prop} {S : γ → δ → Prop}

theorem pure {a : α} {b : β} (h : R a b) : Agree (ε := ε) R (pure a) (pure b) := by
  rintro _ ⟨⟩
  exact ⟨b, rfl, h⟩

theorem bind {x : Except ε α} {y : Except ε β} {f : α → Except ε γ} {g : β → Except ε δ}
    (hx : Agree R x y) (hf : ∀ a b, R a b → Agree S (f a) (g b)) :
    Agree S (x >>= f) (y >>= g) := by
  intro r h
  obtain ⟨a, ha, hr⟩ := bind_eq_ok.1 h
  obtain ⟨b, hb, hab⟩ := hx a ha
  obtain ⟨r', hr', hs⟩ := hf a b hab r hr
  exact ⟨r', bind_eq_ok.2 ⟨b, hb, hr'⟩, hs⟩

theorem mapError {x : Except ε α} {f g : ε → ε'} : Agree Eq (x.mapError f) (x.mapError g) := by
  cases x with
  | ok a => exact fun b h => ⟨b, h, rfl⟩
  | error e => rintro _ ⟨⟩

end Except.Agree

/-- Two statements that differ in their places only, which are related by `At`. -/
structure DraftStatement.AlikeBy (At : Location → Location → Prop) (s s' : DraftStatement) :
    Prop where
  eq : s' = { s with loc := s'.loc }
  loc : At s.loc s'.loc

namespace Draft

/-- Two drafts that differ in places only, which are related by `At`. -/
inductive AlikeBy (At : Location → Location → Prop) : Draft → Draft → Prop
  | done : AlikeBy At done done
  | step {s s' : DraftStatement} {inner inner' alt alt' rest rest' : Draft} (head : s.AlikeBy At s')
    (hinner : AlikeBy At inner inner') (halt : AlikeBy At alt alt')
    (hrest : AlikeBy At rest rest') : AlikeBy At (step s inner alt rest) (step s' inner' alt' rest')

/-- Two drafts that differ in places only. -/
abbrev Alike : Draft → Draft → Prop := AlikeBy fun _ _ => True

variable {At : Location → Location → Prop} {d d' d'' e e' here : Draft} {s s' : DraftStatement}
  {condition : Value} {optimize : Bool}

theorem append_done (d : Draft) : d ++ done = d := by
  induction d with
  | done => rfl
  | step s inner alt rest _ _ ih => exact congrArg (step s inner alt) ih

theorem append_assoc (d₁ d₂ d₃ : Draft) : d₁ ++ d₂ ++ d₃ = d₁ ++ (d₂ ++ d₃) := by
  induction d₁ with
  | done => rfl
  | step s inner alt rest _ _ ih => exact congrArg (step s inner alt) ih

theorem Alike.refl (d : Draft) : d.Alike d := by
  induction d with
  | done => exact .done
  | step s inner alt rest ihi iha ihr => exact .step ⟨rfl, trivial⟩ ihi iha ihr

theorem Alike.symm (h : d.Alike d') : d'.Alike d := by
  induction h with
  | done => exact .done
  | step head _ _ _ ihi iha ihr => exact .step ⟨by rw [head.eq], trivial⟩ ihi iha ihr

theorem Alike.trans (h : d.Alike d') (h' : d'.Alike d'') : d.Alike d'' := by
  induction h generalizing d'' with
  | done => exact h'
  | step head _ _ _ ihi iha ihr =>
    cases h' with
    | step head' hi ha hr =>
      exact .step ⟨head'.eq.trans (by rw [head.eq]), trivial⟩ (ihi hi) (iha ha) (ihr hr)

theorem AlikeBy.append (h : d.AlikeBy At d') (he : e.AlikeBy At e') :
    (d ++ e).AlikeBy At (d' ++ e') := by
  induction h with
  | done => exact he
  | step head hi ha _ _ _ ihr => exact .step head hi ha ihr

theorem AlikeBy.single (h : s.AlikeBy At s') : (single s).AlikeBy At (.single s') :=
  .step h .done .done .done

/-- An `if` is simplified without regard to its place. -/
theorem AlikeBy.simplifyIf (hd : d.AlikeBy At d') (he : e.AlikeBy At e')
    (hloc : At s.loc s'.loc) : Except.Agree (AlikeBy At) (simplifyIf s condition d e)
      (Draft.simplifyIf s' condition d' e') := by
  intro here h
  cases hd with
  | done =>
    cases he with
    | done =>
      cases h
      exact ⟨.done, rfl, .done⟩
    | step head hi ha hr =>
      obtain ⟨-, hdone, -⟩ | ⟨-, -, hfloat, rfl⟩ | ⟨hne, -⟩ := simplifyIf_ok h
      · cases hdone
      · exact ⟨_, if_pos hfloat, .step ⟨rfl, hloc⟩ (.step head hi ha hr) .done .done⟩
      · exact absurd rfl hne
  | step head hi ha hr =>
    cases h
    exact ⟨_, rfl, .step ⟨rfl, hloc⟩ (.step head hi ha hr) he .done⟩

/-- Drafts that differ in places only are simplified alike. -/
theorem AlikeBy.simplify (h : d.AlikeBy At d') :
    Except.Agree (AlikeBy At) (d.simplify optimize) (d'.simplify optimize) := by
  induction h with
  | done => exact .pure .done
  | @step s s' inner inner' alt alt' rest rest' head hi ha hr ihi iha ihr =>
    -- whatever is left of the statement, what is left of the rest is put after it
    have hrest {here here' : Draft} (h : here.AlikeBy At here') :
        Except.Agree (AlikeBy At) (rest.simplify optimize >>= fun left => pure (here ++ left))
          (rest'.simplify optimize >>= fun left => pure (here' ++ left)) :=
      ihr.bind fun _ _ hleft => .pure (h.append hleft)
    obtain ⟨type, str, format, expr, loc⟩ := s
    have hloc : At loc s'.loc := head.loc
    rw [head.eq, Draft.simplify, Draft.simplify]
    split
    · rename_i condition htype hexpr
      cases htype
      cases hexpr
      split
      case' isTrue => refine .bind (R := Eq) .mapError ?_
      case' isFalse => refine .bind (R := Eq) (.pure rfl) ?_
      all_goals
        rintro folded _ rfl
        refine ihi.bind fun i i' hi => iha.bind fun a a' ha => ?_
        split
        · refine .bind (.pure ?_) fun _ _ => hrest
          split
          · exact ha
          · exact hi
        · exact .bind (hi.simplifyIf ha hloc) fun _ _ => hrest
    · rename_i htype
      cases htype
      refine ihi.bind fun i i' hi => ?_
      cases hi with
      | done => rintro _ ⟨⟩
      | step head' hi ha hr =>
        exact hrest (.step ⟨rfl, hloc⟩ (.step head' hi ha hr) .done .done)
    · exact hrest (.step ⟨rfl, hloc⟩ hi ha .done)

end Draft

namespace Compiler

open Lexer

variable {c : CompileContext} {loc loc' : Location} {type : StatementType} {text : Bytes}
  {tokenType : TokenType} {d d' : Draft} {bound : Remaining} {elseMayFollow : Bool}

/-! ### Emission -/

theorem stays_toExpr {v : Value} : Stays c (toExpr v loc) (toExpr v loc') := by
  refine .options ?_
  extract_lets store store'
  have hstore (v : Value) : Stays c (store v) (store' v) := by
    refine .ite (fun _ => ?_) fun _ => .located
    split
    · exact .bind .warn fun _ => .located
    · exact .fail_bind
  exact .ite (fun _ => .bind .located hstore) fun _ => hstore v

theorem stays_toExpr? {v : Option Value} : Stays c (toExpr? v loc) (toExpr? v loc') := by
  cases v with
  | none => exact .pure rfl
  | some v => exact .bind stays_toExpr fun _ => .pure rfl

theorem stays_liftExcept {α : Type} {x y : Except CompileError α} (h : Except.Agree Eq x y) :
    Stays c (emit.liftExcept x) (emit.liftExcept y) := by
  cases x with
  | error e => rintro _ _ _ _ - ⟨⟩
  | ok a =>
    obtain ⟨b, rfl, rfl⟩ := h a rfl
    exact .pure rfl

theorem agree_nextPlace {cc step : UInt64} :
    Except.Agree Eq (nextPlace cc step loc) (nextPlace cc step loc') := by
  unfold nextPlace
  split
  · rintro _ ⟨⟩
  · exact .pure rfl

theorem stays_emit {cc : UInt64} (h : d.Alike d') : Stays c (emit cc d) (emit cc d') := by
  induction h generalizing cc with
  | done => exact .pure rfl
  | @step s s' inner inner' alt alt' rest rest' head hi ha hr ihi iha ihr =>
    -- the block, the alternative and the rest are emitted in the same way, each only if not empty
    have hblock {sub sub' : Draft} {step : UInt64} {loc loc' : Location} {α : Type}
        {f g : List Placed → Compiler α} (hsub : sub.Alike sub')
        (ih : ∀ {cc : UInt64}, Stays c (emit cc sub) (emit cc sub'))
        (hf : ∀ ps, Stays c (f ps) (g ps)) :
        Stays c (if sub.isDone then pure [] >>= f else
            emit.liftExcept (nextPlace cc step loc) >>= fun place => emit place sub >>= f)
          (if sub'.isDone then pure [] >>= g else
            emit.liftExcept (nextPlace cc step loc') >>= fun place => emit place sub' >>= g) := by
      cases hsub with
      | done => exact .bind (.pure rfl) hf
      | step => exact .bind (stays_liftExcept agree_nextPlace) fun _ => .bind ih hf
    rw [head.eq, emit, emit]
    refine .bind stays_toExpr? fun expr => hblock hi ihi fun ps => hblock ha iha fun qs => ?_
    exact hblock hr ihr fun rs => .pure rfl

theorem stays_emitAll (h : d.Alike d') : Stays c (emitAll d) (emitAll d') := by
  refine .options ?_
  cases hs : d.simplify c.options.optimize with
  | error e => rintro _ _ _ _ - ⟨⟩
  | ok e =>
    obtain ⟨e', hs', halike⟩ := h.simplify e hs
    rw [hs']
    cases halike with
    | done => exact .pure rfl
    | step head hi ha hr => exact stays_emit (.step head hi ha hr)

/-! ### Expressions and arguments -/

theorem stays_stringValue {newlineToSpace : Bool} :
    Stays c (stringValue ⟨tokenType, text, loc⟩ newlineToSpace)
      (stringValue ⟨tokenType, text, loc'⟩ newlineToSpace) :=
  .located

theorem stays_floatOfToken :
    Stays c (floatOfToken ⟨tokenType, text, loc⟩) (floatOfToken ⟨tokenType, text, loc'⟩) := by
  refine .guard fun _ => ?_
  dsimp only
  split
  · exact .fail
  · exact .ite (fun _ => .pure rfl) fun _ => .fail

theorem stays_parseTier {tiers : List (List Operator)} {level : Nat} :
    Stays c (parseTier tiers bound level) (parseTier tiers bound level) := by
  refine parseTier.induct tiers
    (fun bound level => Stays c (parseTier tiers bound level) (parseTier tiers bound level))
    (fun bound level left =>
      Stays c (parseTierRest tiers bound level left) (parseTierRest tiers bound level left))
    (fun bound => Stays c (parseNegation tiers bound) (parseNegation tiers bound))
    (fun bound => Stays c (parseOperand tiers bound) (parseOperand tiers bound))
    ?zero ?succ ?rest ?negation ?operand bound level
  case zero =>
    intro bound hnegation
    rw [parseTier]
    exact hnegation
  case succ =>
    intro bound level hleft hrest
    rw [parseTier]
    exact .bind hleft fun left => hrest left
  case rest =>
    intro bound level left hright hrest
    rw [parseTierRest]
    refine .token moves_peek fun type text loc loc' => ?_
    have hloc : operatorOf? (tiers.getD level []) ⟨type, text, loc⟩ =
        operatorOf? (tiers.getD level []) ⟨type, text, loc'⟩ := rfl
    rw [hloc]
    split
    · exact .pure rfl
    · rename_i op _
      refine .join (.lift moves_consume) fun _ _ _ => .bind .remaining fun now => ?_
      refine .dite (fun less => ?_) fun _ => .fail
      exact .bind (hright now less) fun right => hrest op now less right
  case negation =>
    intro bound hnegation hoperand
    rw [parseNegation]
    refine .token moves_peek fun type text loc loc' => .ite (fun _ => ?_) fun _ => hoperand
    refine .join (.lift moves_consume) fun _ _ _ => .bind .remaining fun now => ?_
    refine .dite (fun less => ?_) fun _ => .fail
    refine .bind (hnegation now less) fun v => .guard fun _ => ?_
    cases v with
    | _ => exact .pure rfl
  case operand =>
    intro bound hinner
    rw [parseOperand]
    refine .token moves_peek fun type text loc loc' => ?_
    cases type with
    | openParen =>
      refine .join (.lift moves_consume) fun _ _ _ => .bind .remaining fun now => ?_
      refine .dite (fun less => ?_) fun _ => .fail
      refine .bind (hinner now less) fun v => ?_
      exact .token moves_read fun _ _ _ _ => .guard fun _ => .pure rfl
    | string => exact .join (.lift moves_consume) fun _ _ _ => .pure rfl
    | number =>
      exact .join (.lift moves_consume) fun _ _ _ => .bind stays_floatOfToken fun _ => .pure rfl
    | identifier => exact .join (.lift moves_consume) fun _ _ _ => .pure rfl
    | _ => exact .fail

theorem stays_parseExpr : Stays c parseExpr parseExpr :=
  .options (.bind .remaining fun _ => stays_parseTier)

theorem stays_parseNumeric : Stays c parseNumeric parseNumeric := by
  refine .join .location fun loc loc' _ => .bind stays_parseExpr fun v => ?_
  refine .ite (fun _ => ?_) fun _ => .pure rfl
  exact .options (.guard fun _ => .bind .warn fun _ => .pure rfl)

theorem stays_labelOfTokens {tokenType' : TokenType} {text' : Bytes} {loc₂ loc₂' : Location} :
    Stays c (labelOfTokens ⟨tokenType, text, loc⟩ ⟨tokenType', text', loc₂⟩)
      (labelOfTokens ⟨tokenType, text, loc'⟩ ⟨tokenType', text', loc₂'⟩) := by
  refine .bind .located fun h => .bind .located fun l => ?_
  split
  · exact .pure rfl
  · exact .fail

theorem stays_parseLabel : Stays c parseLabel parseLabel :=
  .token moves_expect fun _ _ _ _ => .token moves_expect fun _ _ _ _ =>
    .token moves_expect fun _ _ _ _ => stays_labelOfTokens

theorem stays_formatValueOfToken : Stays c (formatValueOfToken ⟨tokenType, text, loc⟩)
    (formatValueOfToken ⟨tokenType, text, loc'⟩) := by
  cases tokenType with
  | number => exact .bind stays_floatOfToken fun _ => .pure rfl
  | identifier | string => exact .pure rfl
  | _ => exact .fail

theorem stays_parseFormatValue : Stays c parseFormatValue parseFormatValue :=
  .token moves_read fun _ _ _ _ => stays_formatValueOfToken

theorem stays_parseFormatList : Stays c parseFormatList parseFormatList := by
  refine .repeatFrom (I := Eq) rfl ?_
  rintro values _ rfl
  refine .token moves_peek fun _ _ _ _ => .ite (fun _ => .pure (.inr rfl)) fun _ => ?_
  exact .join (.lift moves_consume) fun _ _ _ => .bind stays_parseFormatValue fun _ =>
    .pure (.inl rfl)

theorem stays_parseDefine : Stays c parseDefine parseDefine := by
  refine .token moves_peek fun _ _ _ _ => .ite (fun _ => .pure rfl) fun _ => ?_
  exact .join (.lift moves_consume) fun _ _ _ => .join (.lift moves_defineMacro) fun _ _ _ =>
    .pure rfl

/-! ### Statements -/

theorem moves_parseOptionalWord :
    Moves c (parseOptionalWord type loc) (parseOptionalWord type loc') Draft.Alike := by
  refine .token moves_peek fun _ _ _ _ => .ite (fun _ => .pure (.single ⟨rfl, trivial⟩)) fun _ => ?_
  refine .join (.lift moves_consume) fun _ _ _ => .bind stays_parseFormatList fun _ => ?_
  exact .pure (.single ⟨rfl, trivial⟩)

theorem moves_parseQuotedStatement :
    Moves c (parseQuotedStatement type loc) (parseQuotedStatement type loc') Draft.Alike :=
  .token moves_read fun _ _ _ _ => .bind stays_stringValue fun _ =>
    .bind stays_parseFormatList fun _ => .pure (.single ⟨rfl, trivial⟩)

theorem stays_parseRestOfLine {missing : Cause} :
    Stays c (parseRestOfLine missing) (parseRestOfLine missing) :=
  .token moves_read fun _ _ _ _ => .guard fun _ => .pure rfl

theorem moves_parseLabeled :
    Moves c (parseLabeled type loc) (parseLabeled type loc') Draft.Alike :=
  .bind stays_parseLabel fun _ => .pure (.single ⟨rfl, trivial⟩)

theorem moves_parseGoto : Moves c (parseGoto loc) (parseGoto loc') Draft.Alike := by
  refine .options (.ite (fun _ => ?_) fun _ => moves_parseLabeled)
  exact .bind stays_parseRestOfLine fun _ => .pure (.single ⟨rfl, trivial⟩)

theorem moves_parseDestination : Moves c parseDestination parseDestination Token.Alike := by
  refine .options (.ite (fun _ => .lift moves_expect) fun _ => ?_)
  exact .token moves_read fun _ _ _ _ => .guard fun _ => .pure rfl

theorem stays_parseAssigned : Stays c parseAssigned parseAssigned := by
  refine .nextIsQuote_bind ?_ ?_
  · exact .token moves_read fun _ _ _ _ => .bind stays_stringValue fun _ => .pure rfl
  · exact .token moves_read fun _ _ _ _ => .guard fun _ => .pure rfl

theorem moves_parseSet : Moves c (parseSet ⟨tokenType, text, loc⟩)
    (parseSet ⟨tokenType, text, loc'⟩) Draft.Alike := by
  refine .guard fun _ => .token moves_expect fun _ _ _ _ => .ite (fun _ => ?_) fun _ => ?_
  · exact .bind stays_parseAssigned fun _ => .bind stays_parseFormatList fun _ =>
      .pure (.single ⟨rfl, trivial⟩)
  · exact .bind stays_parseExpr fun _ => .bind stays_parseFormatList fun _ => .pure (.single ⟨rfl, trivial⟩)

/-- What is done with the variable that a statement names. -/
theorem moves_destination {f : Token → Compiler Draft}
    (hf : ∀ (type : TokenType) (text : Bytes) (loc loc' : Location),
      Moves c (f ⟨type, text, loc⟩) (f ⟨type, text, loc'⟩) Draft.Alike) :
    Moves c (parseDestination >>= f) (parseDestination >>= f) Draft.Alike := by
  refine .join moves_parseDestination ?_
  rintro ⟨type, text, loc⟩ ⟨type', text', loc'⟩ h
  obtain ⟨rfl, rfl⟩ := Prod.mk.inj h
  exact hf type text loc loc'

theorem moves_parseSimple : Moves c (parseSimple ⟨tokenType, text, loc⟩)
    (parseSimple ⟨tokenType, text, loc'⟩) Draft.Alike := by
  unfold parseSimple
  dsimp only
  generalize wordStatements.find? (·.1 = text) = word, quotedStatements.find? (·.1 = text) = quoted
  obtain _ | ⟨_, type⟩ := word
  · obtain _ | ⟨_, type⟩ := quoted
    · refine .ite (fun _ => moves_destination fun _ _ _ _ => moves_parseSet) fun _ => ?_
      refine .ite (fun _ => moves_destination fun _ _ _ _ => .pure (.single ⟨rfl, trivial⟩)) fun _ => ?_
      refine .ite (fun _ => moves_parseGoto) fun _ => ?_
      refine .ite (fun _ => .pure (.single ⟨rfl, trivial⟩)) fun _ => ?_
      refine .ite (fun _ => moves_parseLabeled) fun _ => ?_
      refine .ite (fun _ => moves_parseLabeled) fun _ => ?_
      refine .ite (fun _ => ?_) fun _ => moves_parseSet
      exact .bind stays_parseRestOfLine fun _ => .pure (.single ⟨rfl, trivial⟩)
    · exact moves_parseQuotedStatement
  · exact moves_parseOptionalWord

theorem stays_parseCondition : Stays c parseCondition parseCondition :=
  .token moves_expect fun _ _ _ _ => .bind stays_parseNumeric fun _ =>
    .token moves_expect fun _ _ _ _ => .pure rfl

theorem stays_checkStatementEnd :
    Stays c (checkStatementEnd elseMayFollow) (checkStatementEnd elseMayFollow) :=
  .token moves_peek fun _ _ _ _ => .ite (fun _ => .fail) fun _ => .pure rfl

theorem moves_parseStatement :
    Moves c (parseStatement bound ⟨tokenType, text, loc⟩ elseMayFollow)
      (parseStatement bound ⟨tokenType, text, loc'⟩ elseMayFollow) Draft.Alike := by
  have hstatement (bound : Remaining) (type : TokenType) (text : Bytes) (loc : Location)
      (elseMayFollow : Bool)
      (hif : ∀ loc', Moves c (parseIf bound loc) (parseIf bound loc') fun r r' =>
        r.1.Alike r'.1 ∧ r.2 = r'.2)
      (hwhile : ∀ loc', Moves c (parseWhile bound loc) (parseWhile bound loc') Draft.Alike)
      (loc' : Location) : Moves c (parseStatement bound ⟨type, text, loc⟩ elseMayFollow)
        (parseStatement bound ⟨type, text, loc'⟩ elseMayFollow) Draft.Alike := by
    rw [parseStatement, parseStatement]
    refine .guard fun _ => .ite (fun _ => ?_) fun _ => ?_
    · refine .join (hif loc') ?_
      rintro ⟨d, needsCheck⟩ ⟨d', _⟩ ⟨hd, rfl⟩
      refine .ite (fun _ => ?_) fun _ => .pure hd
      exact .bind stays_checkStatementEnd fun _ => .pure hd
    · extract_lets finish
      have hfinish (d d' : Draft) (hd : d.Alike d') :
          Moves c (finish d) (finish d') Draft.Alike :=
        .bind stays_checkStatementEnd fun _ => .pure hd
      exact .ite (fun _ => .join (hwhile loc') hfinish) fun _ => .join moves_parseSimple hfinish
  -- the parsers of statements and blocks call one another on less of the text
  refine parseStatement.induct
    (fun bound token elseMayFollow => ∀ loc', Moves c (parseStatement bound token elseMayFollow)
      (parseStatement bound ⟨token.type, token.text, loc'⟩ elseMayFollow) Draft.Alike)
    (fun bound loc => ∀ loc', Moves c (parseWhile bound loc) (parseWhile bound loc') Draft.Alike)
    (fun bound elseMayFollow => Moves c (parseBody bound elseMayFollow)
      (parseBody bound elseMayFollow) Draft.Alike)
    (fun bound opened isEmpty => ∀ opened', Moves c (parseBlock bound opened isEmpty)
      (parseBlock bound opened' isEmpty) Draft.Alike)
    (fun bound loc => ∀ loc', Moves c (parseIf bound loc) (parseIf bound loc') fun r r' =>
      r.1.Alike r'.1 ∧ r.2 = r'.2)
    ?other ?statement ?loop ?body ?block ?branch bound ⟨tokenType, text, loc⟩ elseMayFollow loc'
  case other | statement =>
    intro bound token elseMayFollow _ hif hwhile
    exact hstatement bound token.type token.text token.loc elseMayFollow hif hwhile
  case loop =>
    intro bound loc hbody loc'
    rw [parseWhile, parseWhile]
    refine .bind stays_parseCondition fun condition => .bind .remaining fun now => ?_
    refine .dite (fun less => .join (hbody now less) fun _ _ hi => ?_) fun _ => .fail
    exact .pure (.step ⟨rfl, trivial⟩ hi .done .done)
  case body =>
    intro bound elseMayFollow hblock hnext
    rw [parseBody]
    refine .join (.lift moves_skipLineEnds) fun _ _ _ => .token moves_read fun _ _ loc _ => ?_
    exact .ite (fun _ => hblock ⟨_, _, loc⟩ _) fun _ => hnext ⟨_, _, loc⟩ _
  case block =>
    intro bound opened isEmpty hskip hnext hrest opened'
    rw [parseBlock, parseBlock]
    refine .token moves_peek fun type _ _ _ => ?_
    have hother : Moves c
        (do let first ← liftM (expect .identifier)
            let d ← parseStatement bound first false
            let now ← remaining
            if now.Less bound then return d ++ (← parseBlock now opened false)
            else fail opened .stalled)
        (do let first ← liftM (expect .identifier)
            let d ← parseStatement bound first false
            let now ← remaining
            if now.Less bound then return d ++ (← parseBlock now opened' false)
            else fail opened' .stalled) Draft.Alike := by
      refine .token moves_expect fun _ _ loc _ => .join (hnext ⟨_, _, loc⟩ _) fun d d' hd => ?_
      refine .bind .remaining fun now => .dite (fun less => ?_) fun _ => .fail
      exact .join (hrest now less opened') fun _ _ hr => .pure (hd.append hr)
    cases type with
    | closeBrace =>
      exact .join (.lift moves_consume) fun _ _ _ => .options (.guard fun _ => .pure .done)
    | endOfFile => exact .fail
    | endOfLine =>
      refine .join (.lift moves_consume) fun _ _ _ => .bind .remaining fun now => ?_
      exact .dite (fun less => hskip now less opened') fun _ => .fail
    | _ => exact hother
  case branch =>
    intro bound loc hinner halt loc'
    rw [parseIf, parseIf]
    refine .bind stays_parseCondition fun condition => .bind .remaining fun now => ?_
    refine .dite (fun less => .join (hinner now less) fun inner inner' hi => ?_) fun _ => .fail
    refine .token moves_peek fun _ _ _ _ => .join (.lift moves_skipLineEnds) fun _ _ _ => ?_
    refine .token moves_peek fun _ _ _ _ => .ite (fun _ => ?_) fun _ => ?_
    · exact .pure ⟨.step ⟨rfl, trivial⟩ hi .done .done, rfl⟩
    · refine .join (.lift moves_consume) fun _ _ _ => .bind .remaining fun later => ?_
      refine .dite (fun less => .join (halt later less) fun _ _ ha => ?_) fun _ => .fail
      exact .pure ⟨.step ⟨rfl, trivial⟩ hi ha .done, rfl⟩

/-- A round of the loop over the statements of a switch. -/
def switchRound (inline : Bool) (loc : Location) (d : Draft) :
    Compiler (Draft ⊕ (Draft × Bool)) := do
  let token ← Lexer.peekNormal
  match token.type with
  | .hash =>
    Lexer.consume
    if ← parseDefine then return .inl d
    return .inr (d, true)
  | .endOfFile =>
    if inline then fail loc .unclosedBlock
    return .inr (d, false)
  | .endOfLine =>
    Lexer.consume
    return .inl d
  | type =>
    if type = .closeBrace ∧ inline then return .inr (d, false)
    let bound ← remaining
    let first ← Lexer.expect .identifier
    return .inl (d ++ (← parseStatement bound first false))

theorem compileSwitch_eq {label : Label} {inline : Bool} : compileSwitch label inline = (do
    let loc ← location
    let (draft, afterHash) ← repeatFrom Draft.done (switchRound inline loc)
    return (⟨label, ← emitAll draft⟩, afterHash) : Compiler (Switch × Bool)) := rfl

theorem moves_switchRound {inline : Bool} (hd : d.Alike d') :
    Moves c (switchRound inline loc d) (switchRound inline loc' d')
      (Sum.LiftRel Draft.Alike fun r r' => r.1.Alike r'.1 ∧ r.2 = r'.2) := by
  refine .token moves_peek fun type _ _ _ => ?_
  have hother : Moves c
      (do if type = .closeBrace ∧ inline then return .inr (d, false)
          let bound ← remaining
          let first ← liftM (expect .identifier)
          return .inl (d ++ (← parseStatement bound first false)))
      (do if type = .closeBrace ∧ inline then return .inr (d', false)
          let bound ← remaining
          let first ← liftM (expect .identifier)
          return .inl (d' ++ (← parseStatement bound first false)))
      (Sum.LiftRel Draft.Alike fun r r' => r.1.Alike r'.1 ∧ r.2 = r'.2) := by
    refine .ite (fun _ => .pure (.inr ⟨hd, rfl⟩)) fun _ => .bind .remaining fun bound => ?_
    refine .token moves_expect fun _ _ _ _ => .join moves_parseStatement fun _ _ h => ?_
    exact .pure (.inl (hd.append h))
  cases type with
  | hash =>
    refine .join (.lift moves_consume) fun _ _ _ => .bind stays_parseDefine fun defined => ?_
    exact .ite (fun _ => .pure (.inl hd)) fun _ => .pure (.inr ⟨hd, rfl⟩)
  | endOfFile => exact .guard fun _ => .pure (.inr ⟨hd, rfl⟩)
  | endOfLine => exact .join (.lift moves_consume) fun _ _ _ => .pure (.inl hd)
  | _ => exact hother

end Compiler

end ApeScript
