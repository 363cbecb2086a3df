import ApeScript.Compile.Program
import ApeScript.Proofs.TrackedLexer

/-!
# Places of a script's diagnostics

Every part of the compiler, given places of the text that the lexer tracks, fails and warns at
places of that text only. Places are kept in the statements of a switch and in the open and closed
blocks of a window; all others come from tokens and from the cursor.
-/

namespace ApeScript

variable {file text : Bytes}

/-! ### Values -/

namespace Value

theorem evaluate_direct (op : Operator) (x y : Binary32) :
    Yields Cause.Direct (fun _ => True) (op.evaluate x y) := by
  have hfinite (z : Binary32) : Yields Cause.Direct (fun _ => True)
      (if z.isFinite then Except.ok z else Except.error Cause.nonFinite) := by
    split
    · trivial
    · trivial
  cases op with
  | add | sub | mul => exact hfinite _
  | div =>
    simp only [Operator.evaluate]
    split
    · trivial
    · exact hfinite _
  | _ => trivial

theorem fold_direct (v : Value) : Yields Cause.Direct (fun _ => True) v.fold := by
  induction v with
  | binary op l r ihl ihr =>
    refine ihl.bind fun l' _ => ihr.bind fun r' _ => ?_
    split
    · exact (evaluate_direct ..).bind fun _ _ => trivial
    · trivial
  | _ => trivial

theorem unescape_direct (escapes newlineToSpace : Bool) (s : Bytes) :
    Yields Cause.Direct (fun _ => True) (Escape.unescape escapes newlineToSpace s) := by
  fun_induction Escape.unescape escapes newlineToSpace s
  case case1 | case2 | case3 => trivial
  case case4 ih | case5 ih => exact ih.map fun _ _ => trivial

theorem node_direct {op : Operator} {pos : UInt64} {left right : UInt64 → Except Cause Side}
    (hl : ∀ pos, Yields Cause.Direct (fun _ => True) (left pos))
    (hr : ∀ pos, Yields Cause.Direct (fun _ => True) (right pos)) :
    Yields Cause.Direct (fun _ => True) (node op pos left right) := by
  unfold node
  split
  · trivial
  · exact (hl _).bind fun _ _ => (hr _).bind fun _ _ => trivial

theorem toSide_direct (escapes : Bool) (v : Value) (pos : UInt64) :
    Yields Cause.Direct (fun _ => True) (v.toSide escapes pos) := by
  induction v generalizing pos with
  | stringConst raw => exact (unescape_direct ..).bind fun _ _ => trivial
  | binary op l r ihl ihr => exact (node_direct ihl ihr).bind fun _ _ => trivial
  | _ => trivial

theorem layout_direct (escapes : Bool) (v : Value) :
    Yields Cause.Direct (fun _ => True) (v.layout escapes) := by
  have hnode (op : Operator) (l r : Value) : Yields Cause.Direct (fun _ => True)
      (node op 1 (l.toSide escapes) (r.toSide escapes)) :=
    node_direct (toSide_direct escapes l) (toSide_direct escapes r)
  cases v with
  | binary op l r => exact hnode op l r
  | _ => exact hnode ..

end Value

namespace Compiler

variable {loc : Location} {token : Token} {type : StatementType}

theorem sites_stringValue {newlineToSpace : Bool} (ht : token.Sited file text) :
    Sited file text (stringValue token newlineToSpace) :=
  .located ht (Value.unescape_direct ..).raised

/-! ### Expressions -/

theorem sites_floatOfToken (ht : token.Sited file text) : Sited file text (floatOfToken token) := by
  refine .guard ht trivial fun _ => ?_
  split
  · exact .fail ht trivial
  · exact .ite (fun _ => .pure trivial) fun _ => .fail ht trivial

/-- The parser of expressions, by the tiers, the tails of tiers, the negations and the operands that
call one another. -/
theorem sites_parseTier {tiers : List (List Operator)} {bound : Lexer.Remaining} {level : Nat} :
    Sited file text (parseTier tiers bound level) := by
  refine parseTier.induct tiers
    (fun bound level => Sited file text (parseTier tiers bound level))
    (fun bound level left => Sited file text (parseTierRest tiers bound level left))
    (fun bound => Sited file text (parseNegation tiers bound))
    (fun bound => Sited file text (parseOperand tiers bound))
    ?zero ?succ ?rest ?negation ?operand bound level
  case zero =>
    intro bound hnegation
    rw [parseTier]
    exact hnegation
  case succ =>
    intro bound level hleft hrest
    rw [parseTier]
    exact hleft.bind fun left _ => hrest left
  case rest =>
    intro bound level left hright hrest
    rw [parseTierRest]
    refine .bind (.lift Lexer.sites_peek) fun token htoken => ?_
    split
    · exact .pure trivial
    · rename_i op _
      refine .bind (.lift Lexer.sites_consume) fun _ _ => .bind sites_remaining fun now _ => ?_
      refine .dite (fun less => ?_) fun _ => .fail htoken trivial
      exact (hright now less).bind fun right _ => hrest op now less right
  case negation =>
    intro bound hnegation hoperand
    rw [parseNegation]
    refine .bind (.lift Lexer.sites_peek) fun token htoken => ?_
    refine .ite (fun _ => ?_) fun _ => hoperand
    refine .bind (.lift Lexer.sites_consume) fun _ _ => .bind sites_remaining fun now _ => ?_
    refine .dite (fun less => ?_) fun _ => .fail htoken trivial
    refine (hnegation now less).bind fun v _ => .guard htoken trivial fun _ => ?_
    cases v with
    | const x => exact .pure trivial
    | _ => exact .pure trivial
  case operand =>
    intro bound hinner
    rw [parseOperand]
    refine .bind (.lift Lexer.sites_peek) fun token htoken => ?_
    split
    · refine .bind (.lift Lexer.sites_consume) fun _ _ => .bind sites_remaining fun now _ => ?_
      refine .dite (fun less => ?_) fun _ => .fail htoken trivial
      refine (hinner now less).bind fun v _ => ?_
      refine .bind (.lift Lexer.sites_read) fun closing hclosing => ?_
      exact .guard hclosing trivial fun _ => .pure trivial
    · exact .bind (.lift Lexer.sites_consume) fun _ _ => .pure trivial
    · refine .bind (.lift Lexer.sites_consume) fun _ _ => ?_
      exact (sites_floatOfToken htoken).bind fun _ _ => .pure trivial
    · exact .bind (.lift Lexer.sites_consume) fun _ _ => .pure trivial
    · exact .fail htoken trivial

theorem sites_parseExpr : Sited file text parseExpr :=
  .bind sites_options fun _ _ => .bind sites_remaining fun _ _ => sites_parseTier

theorem sites_parseNumeric : Sited file text parseNumeric := by
  refine .bind sites_location fun loc hloc => .bind sites_parseExpr fun v _ => ?_
  refine .ite (fun _ => ?_) fun _ => .pure trivial
  refine .bind sites_options fun o _ => .guard hloc trivial fun _ => ?_
  exact (sites_warn hloc).bind fun _ _ => .pure trivial

theorem sites_toExpr {v : Value} (hloc : loc.Within file text) : Sited file text (toExpr v loc) := by
  refine .bind sites_options fun o _ => ?_
  extract_lets store
  have hstore (v : Value) : Sited file text (store v) := by
    have hlayout : Sited file text (located loc (v.layout o.allowExprEscapes)) :=
      .located hloc (Value.layout_direct ..).raised
    refine .ite (fun _ => ?_) fun _ => hlayout
    split
    · exact (sites_warn hloc).bind fun _ _ => hlayout
    · exact .fail_bind hloc trivial
  refine .ite_bind (fun _ => .located hloc (Value.fold_direct v).raised) (fun _ => .pure trivial) ?_
  exact fun v _ => hstore v

theorem sites_toExpr? {o : Option Value} (hloc : loc.Within file text) :
    Sited file text (toExpr? o loc) := by
  cases o with
  | none => exact .pure trivial
  | some v => exact (sites_toExpr hloc).bind fun _ _ => .pure trivial

theorem sites_toCondition {o : Option Value} (hloc : loc.Within file text) :
    Sited file text (toCondition o loc) := by
  have hsome (v : Value) : Sited file text (toExpr v loc >>= fun e => pure (some e, true)) :=
    (sites_toExpr hloc).bind fun _ _ => .pure trivial
  cases o with
  | none => exact .pure trivial
  | some v =>
    refine .bind sites_options fun o _ => .ite (fun _ => ?_) fun _ => hsome v
    refine .bind (.located hloc (Value.fold_direct v).raised) fun folded _ => ?_
    split
    · exact .pure trivial
    · exact hsome folded

/-! ### Labels and arguments -/

theorem labelHalf_direct (limit value : Nat) (s : Bytes) :
    Yields Cause.Direct (fun _ => True) (labelHalf limit value s) := by
  fun_induction labelHalf limit value s
  case case1 | case2 | case3 => trivial
  case case4 ih => exact ih

theorem sites_labelOfTokens {high low : Token} (hhigh : high.Sited file text) (hlow : low.Sited file text) :
    Sited file text (labelOfTokens high low) := by
  refine .bind (.located hhigh (labelHalf_direct ..).raised) fun h _ => ?_
  refine .bind (.located hlow (labelHalf_direct ..).raised) fun l _ => ?_
  split
  · exact .pure trivial
  · exact .fail hhigh trivial

theorem sites_parseLabel : Sited file text parseLabel := by
  refine .bind (.lift Lexer.sites_expect) fun high hhigh => ?_
  refine .bind (.lift Lexer.sites_expect) fun _ _ => ?_
  exact .bind (.lift Lexer.sites_expect) fun low hlow => sites_labelOfTokens hhigh hlow

theorem sites_parseDefinitionLabel : Sited file text parseDefinitionLabel := by
  refine .bind (.lift Lexer.sites_peek) fun first hfirst => .bind sites_parseLabel fun label _ => ?_
  exact .guard hfirst trivial fun _ => .pure trivial

theorem sites_formatValueOfToken (ht : token.Sited file text) :
    Sited file text (formatValueOfToken token) := by
  unfold formatValueOfToken
  split
  · exact (sites_floatOfToken ht).bind fun _ _ => .pure trivial
  · exact .pure trivial
  · exact .pure trivial
  · exact .fail ht trivial

theorem sites_parseFormatValue : Sited file text parseFormatValue :=
  .bind (.lift Lexer.sites_read) fun _ ht => sites_formatValueOfToken ht

theorem sites_parseFormatList : Sited file text parseFormatList := by
  refine sites_repeatFrom (I := fun _ => True) trivial fun vs _ => ?_
  refine .bind (.lift Lexer.sites_peek) fun token _ => .ite (fun _ => .pure trivial) fun _ => ?_
  refine .bind (.lift Lexer.sites_consume) fun _ _ => ?_
  exact .bind sites_parseFormatValue fun _ _ => .pure trivial

theorem sites_parseName : Sited file text parseName := by
  refine .bind sites_state fun s _ => .ite (fun _ => ?_) fun _ => ?_
  · exact .bind (.lift Lexer.sites_read) fun _ _ => .pure trivial
  · refine .bind (.lift Lexer.sites_read) fun token htoken => ?_
    split
    · exact .fail htoken trivial
    · exact .fail htoken trivial
    · exact .pure trivial
    · exact .pure trivial

theorem sites_parseWord {stopComma : Bool} : Sited file text (parseWord stopComma) := by
  refine .bind (.lift Lexer.sites_read) fun token ht => .guard ht trivial fun _ => ?_
  extract_lets word rest rest'
  have hrest (u : Unit) : Sited file text (rest u) := .pure trivial
  have hrest' (u : Unit) : Sited file text (rest' u) :=
    .ite (fun _ => (sites_warn ht).bind fun u _ => hrest u) fun _ => hrest ()
  exact .ite (fun _ => (sites_warn ht).bind fun u _ => hrest' u) fun _ => hrest' ()

theorem sites_parseDefine : Sited file text parseDefine := by
  refine .bind (.lift Lexer.sites_peek) fun token _ => .ite (fun _ => .pure trivial) fun _ => ?_
  refine .bind (.lift Lexer.sites_consume) fun _ _ => ?_
  exact .bind (.lift Lexer.sites_defineMacro) fun _ _ => .pure trivial

end Compiler

/-! ### Switches -/

namespace Draft

def Sited (file text : Bytes) : Draft → Prop
  | done => True
  | step s inner alt rest =>
      s.loc.Within file text ∧ inner.Sited file text ∧ alt.Sited file text ∧ rest.Sited file text

theorem Sited.append {d d' : Draft} (hd : d.Sited file text) (hd' : d'.Sited file text) :
    (d ++ d').Sited file text := by
  change (Draft.append d d').Sited file text
  induction d with
  | done => exact hd'
  | step s inner alt rest _ _ ih => exact ⟨hd.1, hd.2.1, hd.2.2.1, ih hd.2.2.2⟩

theorem Sited.single {s : DraftStatement} (hs : s.loc.Within file text) : (single s).Sited file text :=
  ⟨hs, trivial, trivial, trivial⟩

theorem Sited.firstLoc {d : Draft} {loc : Location} (hd : d.Sited file text) (hloc : loc.Within file text) :
    (d.firstLoc loc).Within file text := by
  cases d with
  | done => exact hloc
  | step => exact hd.1

theorem simplifyIf_sited {s : DraftStatement} {condition : Value} {inner alt : Draft}
    (hs : s.loc.Within file text) (hi : inner.Sited file text) (ha : alt.Sited file text) :
    Yields (CompileError.Sited file text) (Sited file text) (simplifyIf s condition inner alt) := by
  unfold simplifyIf
  split
  · trivial
  · simp only
    split
    · exact ⟨hs, ha, trivial, trivial⟩
    · exact ⟨hs, trivial⟩
  · exact ⟨hs, hi, ha, trivial⟩

theorem simplify_sited {optimize : Bool} {d : Draft} (hd : d.Sited file text) :
    Yields (CompileError.Sited file text) (Sited file text) (d.simplify optimize) := by
  induction d with
  | done => trivial
  | step s inner alt rest ihi iha ihr =>
    obtain ⟨hs, hi, ha, hr⟩ := hd
    have hrest {here : Draft} (hhere : here.Sited file text) :
        Yields (CompileError.Sited file text) (Sited file text)
          (simplify optimize rest >>= fun rest' => pure (here ++ rest')) :=
      (ihr hr).bind fun rest' hr' => hhere.append hr'
    rw [simplify]
    split
    · rename_i condition _ _
      extract_lets choose
      have hchoose (folded : Value) :
          Yields (CompileError.Sited file text) (Sited file text) (choose folded) := by
        refine (ihi hi).bind fun inner' hi' => (iha ha).bind fun alt' ha' => ?_
        split
        · split
          · exact hrest ha'
          · exact hrest hi'
        · exact (simplifyIf_sited hs hi' ha').bind fun here hhere => hrest hhere
      split
      · have hfold := (Value.fold_direct condition).raised
        cases hv : condition.fold with
        | ok folded => exact hchoose folded
        | error cause =>
          rw [hv] at hfold
          exact ⟨hs, hfold⟩
      · exact hchoose condition
    · refine (ihi hi).bind fun inner' hi' => ?_
      split
      · exact ⟨hs, trivial⟩
      · exact hrest ⟨hs, hi', trivial, trivial⟩
    · exact hrest ⟨hs, hi, ha, trivial⟩

end Draft

namespace Compiler

variable {loc : Location} {token : Token} {type : StatementType}

theorem sites_nextPlace {cc step : UInt64} (hloc : loc.Within file text) :
    Sited file text (emit.liftExcept (nextPlace cc step loc)) := by
  unfold nextPlace
  split
  · exact .throw ⟨hloc, trivial⟩
  · exact .pure trivial

theorem sites_emit {d : Draft} (hd : d.Sited file text) (cc : UInt64) : Sited file text (emit cc d) := by
  induction d generalizing cc with
  | done => exact .pure trivial
  | step s inner alt rest ihi iha ihr =>
    obtain ⟨hs, hi, ha, hr⟩ := hd
    -- the block, the alternative and the rest are placed in the same way, each only if not empty
    have hblock {sub : Draft} {step : UInt64} {loc : Location}
        {next : List Placed → Compiler (List Placed)} (hloc : loc.Within file text)
        (hsub : ∀ cc, Sited file text (emit cc sub)) (hnext : ∀ ps, Sited file text (next ps)) :
        Sited file text (if sub.isDone then pure [] >>= next else
          emit.liftExcept (nextPlace cc step loc) >>= fun place => emit place sub >>= next) := by
      refine .ite (fun _ => .bind (P := fun _ => True) (.pure trivial) fun ps _ => hnext ps) ?_
      intro _
      exact (sites_nextPlace hloc).bind fun place _ => (hsub place).bind fun ps _ => hnext ps
    rw [emit]
    refine (sites_toExpr? hs).bind fun expr _ => ?_
    refine hblock hs (ihi hi) fun inner' => hblock hs (iha ha) fun alt' => ?_
    exact hblock (hr.firstLoc hs) (ihr hr) fun rest' => .pure trivial

theorem sites_emitAll {d : Draft} (hd : d.Sited file text) : Sited file text (emitAll d) := by
  refine .bind sites_options fun o _ => ?_
  have hsimple : Yields (CompileError.Sited file text) (Draft.Sited file text) (d.simplify o.optimize) :=
    Draft.simplify_sited hd
  split
  · rename_i e he
    rw [he] at hsimple
    exact .throw hsimple
  · exact .pure trivial
  · rename_i d' _ he
    rw [he] at hsimple
    exact sites_emit hsimple 1

/-- A statement without blocks. -/
theorem sites_single {str : Option Bytes} {format : List FormatValue} {expr : Option Value}
    (hloc : loc.Within file text) :
    Sites file text (pure (.single ⟨type, str, format, expr, loc⟩)) (Draft.Sited file text) :=
  .pure (.single hloc)

theorem sites_parseOptionalWord (hloc : loc.Within file text) :
    Sites file text (parseOptionalWord type loc) (Draft.Sited file text) := by
  refine .bind (.lift Lexer.sites_peek) fun token _ => .ite (fun _ => sites_single hloc) fun _ => ?_
  refine .bind (.lift Lexer.sites_consume) fun _ _ => ?_
  exact .bind sites_parseFormatList fun _ _ => sites_single hloc

theorem sites_parseQuotedStatement (hloc : loc.Within file text) :
    Sites file text (parseQuotedStatement type loc) (Draft.Sited file text) := by
  refine .bind (.lift Lexer.sites_read) fun token ht => ?_
  refine (sites_stringValue ht).bind fun _ _ => ?_
  exact .bind sites_parseFormatList fun _ _ => sites_single hloc

theorem sites_parseRestOfLine {missing : Cause} (h : missing.Raised) :
    Sited file text (parseRestOfLine missing) :=
  .bind (.lift Lexer.sites_read) fun _ ht => .guard ht h fun _ => .pure trivial

theorem sites_parseLabeled (hloc : loc.Within file text) :
    Sites file text (parseLabeled type loc) (Draft.Sited file text) :=
  .bind sites_parseLabel fun _ _ => sites_single hloc

theorem sites_parseGoto (hloc : loc.Within file text) :
    Sites file text (parseGoto loc) (Draft.Sited file text) := by
  refine .bind sites_options fun o _ => .ite (fun _ => ?_) fun _ => sites_parseLabeled hloc
  exact .bind (sites_parseRestOfLine trivial) fun _ _ => sites_single hloc

theorem sites_parseDestination : Sites file text parseDestination (Token.Sited file text) := by
  refine .bind sites_options fun o _ => .ite (fun _ => .lift Lexer.sites_expect) fun _ => ?_
  exact .bind (.lift Lexer.sites_read) fun token ht => .guard ht trivial fun _ => .pure ht

theorem sites_parseAssigned : Sited file text parseAssigned := by
  refine .bind sites_state fun s _ => .ite (fun _ => ?_) fun _ => ?_
  · refine .bind (.lift Lexer.sites_read) fun token ht => ?_
    exact (sites_stringValue ht).bind fun _ _ => .pure trivial
  · exact .bind (.lift Lexer.sites_read) fun _ ht => .guard ht trivial fun _ => .pure trivial

theorem sites_parseSet (ht : token.Sited file text) :
    Sites file text (parseSet token) (Draft.Sited file text) := by
  refine .guard ht trivial fun _ => .bind (.lift Lexer.sites_expect) fun _ _ => ?_
  refine .ite (fun _ => .bind sites_parseAssigned fun _ _ => ?_) fun _ => ?_
  · exact .bind sites_parseFormatList fun _ _ => sites_single ht
  · refine .bind sites_parseExpr fun _ _ => ?_
    exact .bind sites_parseFormatList fun _ _ => sites_single ht

theorem sites_parseSimple (ht : token.Sited file text) :
    Sites file text (parseSimple token) (Draft.Sited file text) := by
  unfold parseSimple
  split
  · exact sites_parseOptionalWord ht
  · exact sites_parseQuotedStatement ht
  · refine .ite (fun _ => .bind sites_parseDestination fun _ hd => sites_parseSet hd) fun _ => ?_
    refine .ite (fun _ => .bind sites_parseDestination fun _ hd => sites_single hd) fun _ => ?_
    refine .ite (fun _ => sites_parseGoto ht) fun _ => ?_
    refine .ite (fun _ => sites_single ht) fun _ => ?_
    refine .ite (fun _ => sites_parseLabeled ht) fun _ => ?_
    refine .ite (fun _ => sites_parseLabeled ht) fun _ => ?_
    refine .ite (fun _ => ?_) fun _ => sites_parseSet ht
    exact .bind (sites_parseRestOfLine trivial) fun _ _ => sites_single ht

theorem sites_parseCondition : Sited file text parseCondition := by
  refine .bind (.lift Lexer.sites_expect) fun _ _ => .bind sites_parseNumeric fun v _ => ?_
  exact .bind (.lift Lexer.sites_expect) fun _ _ => .pure trivial

theorem sites_checkStatementEnd {elseMayFollow : Bool} :
    Sited file text (checkStatementEnd elseMayFollow) :=
  .bind (.lift Lexer.sites_peek) fun _ ht =>
    .ite (fun _ => .fail ht trivial) fun _ => .pure trivial

/-- The parser of statements, by the statements, the bodies they govern and the blocks in braces
that call one another. -/
theorem sites_parseStatement {bound : Lexer.Remaining} {elseMayFollow : Bool}
    (ht : token.Sited file text) :
    Sites file text (parseStatement bound token elseMayFollow) (Draft.Sited file text) := by
  have hstatement (bound : Lexer.Remaining) (token : Token) (elseMayFollow : Bool)
      (hif : token.Sited file text → Sites file text (parseIf bound token.loc) (·.1.Sited file text))
      (hwhile : token.Sited file text → Sites file text (parseWhile bound token.loc) (Draft.Sited file text))
      (ht : token.Sited file text) :
      Sites file text (parseStatement bound token elseMayFollow) (Draft.Sited file text) := by
    rw [parseStatement]
    refine .guard ht trivial fun _ => .ite (fun _ => ?_) fun _ => ?_
    · refine (hif ht).bind fun (d, needsCheck) hd => ?_
      exact .ite (fun _ => .bind sites_checkStatementEnd fun _ _ => .pure hd) fun _ => .pure hd
    · extract_lets finish
      have hfinish (d : Draft) (hd : d.Sited file text) : Sites file text (finish d) (Draft.Sited file text) :=
        .bind sites_checkStatementEnd fun _ _ => .pure hd
      exact .ite_bind (fun _ => hwhile ht) (fun _ => sites_parseSimple ht) hfinish
  refine parseStatement.induct
    (fun bound token elseMayFollow => token.Sited file text →
      Sites file text (parseStatement bound token elseMayFollow) (Draft.Sited file text))
    (fun bound loc => loc.Within file text → Sites file text (parseWhile bound loc) (Draft.Sited file text))
    (fun bound elseMayFollow => Sites file text (parseBody bound elseMayFollow) (Draft.Sited file text))
    (fun bound opened isEmpty => opened.Within file text →
      Sites file text (parseBlock bound opened isEmpty) (Draft.Sited file text))
    (fun bound loc => loc.Within file text → Sites file text (parseIf bound loc) (·.1.Sited file text))
    ?other ?statement ?loop ?body ?block ?branch bound token elseMayFollow ht
  -- the two cases differ in whether the token is a word, which `hstatement` does not ask
  case other | statement =>
    intro bound token elseMayFollow _ hif hwhile
    exact hstatement bound token elseMayFollow hif hwhile
  case loop =>
    intro bound loc hbody hloc
    rw [parseWhile]
    refine .bind sites_parseCondition fun condition _ => .bind sites_remaining fun now _ => ?_
    refine .dite (fun less => ?_) fun _ => .fail hloc trivial
    exact (hbody now less).bind fun inner hi => .pure ⟨hloc, hi, trivial, trivial⟩
  case body =>
    intro bound elseMayFollow hblock hstatement
    rw [parseBody]
    refine .bind (.lift Lexer.sites_skipLineEnds) fun _ _ => ?_
    refine .bind (.lift Lexer.sites_read) fun token ht => ?_
    exact .ite (fun _ => hblock token ht) fun _ => hstatement token ht
  case block =>
    intro bound opened isEmpty hskip hstatement hrest hopened
    rw [parseBlock]
    refine .bind (.lift Lexer.sites_peek) fun token _ => ?_
    split
    · refine .bind (.lift Lexer.sites_consume) fun _ _ => .bind sites_options fun o _ => ?_
      exact .guard hopened trivial fun _ => .pure trivial
    · exact .fail hopened trivial
    · refine .bind (.lift Lexer.sites_consume) fun _ _ => .bind sites_remaining fun now _ => ?_
      exact .dite (fun less => hskip now less hopened) fun _ => .fail hopened trivial
    · refine .bind (.lift Lexer.sites_expect) fun first hfirst => ?_
      refine (hstatement first hfirst).bind fun d hd => ?_
      refine .bind sites_remaining fun now _ => ?_
      refine .dite (fun less => ?_) fun _ => .fail hopened trivial
      exact (hrest now less hopened).bind fun rest hr => .pure (hd.append hr)
  case branch =>
    intro bound loc hinner halt hloc
    rw [parseIf]
    refine .bind sites_parseCondition fun condition _ => .bind sites_remaining fun now _ => ?_
    refine .dite (fun less => ?_) fun _ => .fail hloc trivial
    refine (hinner now less).bind fun inner hi => ?_
    refine .bind (.lift Lexer.sites_peek) fun _ _ => ?_
    refine .bind (.lift Lexer.sites_skipLineEnds) fun _ _ => ?_
    refine .bind (.lift Lexer.sites_peek) fun next _ => .ite (fun _ => ?_) fun _ => ?_
    · exact .pure ⟨hloc, hi, trivial, trivial⟩
    · refine .bind (.lift Lexer.sites_consume) fun _ _ => .bind sites_remaining fun later _ => ?_
      refine .dite (fun less => ?_) fun _ => .fail hloc trivial
      exact (halt later less).bind fun alt ha => .pure ⟨hloc, hi, ha, trivial⟩

theorem sites_compileSwitch {label : Label} {inline : Bool} :
    Sited file text (compileSwitch label inline) := by
  refine .bind sites_location fun loc hloc => ?_
  refine .bind (P := fun r => r.1.Sited file text) ?_ fun (draft, afterHash) hdraft =>
    (sites_emitAll hdraft).bind fun _ _ => .pure trivial
  refine sites_repeatFrom (I := Draft.Sited file text) trivial fun d hd => ?_
  refine .bind (.lift Lexer.sites_peek) fun token _ => ?_
  split
  · refine .bind (.lift Lexer.sites_consume) fun _ _ => ?_
    refine .bind sites_parseDefine fun defined _ => ?_
    exact .ite (fun _ => .pure hd) fun _ => .pure hd
  · exact .guard hloc trivial fun _ => .pure hd
  · exact .bind (.lift Lexer.sites_consume) fun _ _ => .pure hd
  · refine .ite (fun _ => .pure hd) fun _ => .bind sites_remaining fun bound _ => ?_
    refine .bind (.lift Lexer.sites_expect) fun first hfirst => ?_
    exact (sites_parseStatement hfirst).bind fun d' hd' => .pure (hd.append hd')

end Compiler

/-! ### Windows -/

namespace WindowDraft

structure Sited (file text : Bytes) (w : WindowDraft) : Prop where
  blocks : ∀ b ∈ w.blocks, b.loc.Within file text
  closed : ∀ b ∈ w.closed, b.loc.Within file text

variable {w : WindowDraft}

theorem Sited.clearClosed (hw : w.Sited file text) : Sited file text { w with closed := [] } :=
  { hw with closed := by simp }

theorem Sited.closeUnbraced (hw : w.Sited file text) : w.closeUnbraced.Sited file text where
  blocks := fun b hb => hw.blocks b ((List.dropWhile_sublist _).mem hb)
  closed := List.forall_mem_append.2
    ⟨hw.closed, fun b hb => hw.blocks b ((List.takeWhile_sublist _).mem hb)⟩

theorem Sited.markUsed (hw : w.Sited file text) : w.markUsed.Sited file text where
  blocks := by simpa [WindowDraft.markUsed] using hw.blocks
  closed := hw.closed

end WindowDraft

namespace Compiler

variable {w : WindowDraft} {loc : Location} {token : Token}

theorem sites_activeCondition (hw : w.Sited file text) : Sited file text (activeCondition w) := by
  have houtermost : ∀ b ∈ w.blocks.reverse, b.loc.Within file text := by simpa using hw.blocks
  unfold activeCondition
  generalize w.blocks.reverse = outermostFirst at houtermost ⊢
  cases outermostFirst with
  | nil => exact .pure trivial
  | cons outermost rest => exact sites_toCondition (houtermost outermost List.mem_cons_self)

theorem sites_checkUnconditional (hloc : loc.Within file text) :
    Sited file text (checkUnconditional w loc) :=
  .ite (fun _ => .pure trivial) fun _ => .fail hloc trivial

theorem sites_checkUnset {α : Type} {slot : Option α} {cause : Cause} (hloc : loc.Within file text)
    (h : cause.Raised) : Sited file text (checkUnset slot loc cause) :=
  .ite (fun _ => .fail hloc h) fun _ => .pure trivial

theorem sites_openBlock {b : ConditionBlock} (hw : w.Sited file text) (hb : b.loc.Within file text) :
    Sites file text (openBlock w b) (WindowDraft.Sited file text) := by
  refine .bind (.lift Lexer.sites_skipLineEnds) fun _ _ => ?_
  refine .bind (.lift Lexer.sites_peek) fun token _ => .ite (fun _ => ?_) fun _ => ?_
  · refine .bind (.lift Lexer.sites_consume) fun _ _ => .pure ?_
    exact { hw with blocks := List.forall_mem_cons.2 ⟨hb, hw.blocks⟩ }
  · exact .pure { hw with blocks := List.forall_mem_cons.2 ⟨hb, hw.blocks⟩ }

theorem sites_openIf (hw : w.Sited file text) (hloc : loc.Within file text) :
    Sites file text (openIf w loc) (WindowDraft.Sited file text) := by
  refine .bind (.lift Lexer.sites_expect) fun _ _ => .bind sites_parseExpr fun condition _ => ?_
  refine .bind (.lift Lexer.sites_expect) fun _ _ => .guard hloc trivial fun _ => ?_
  exact sites_openBlock hw hloc

theorem sites_openElse (hw : w.Sited file text) (hloc : loc.Within file text) :
    Sites file text (openElse w loc) (WindowDraft.Sited file text) := by
  unfold openElse
  split
  · exact .fail hloc trivial
  · rename_i inner outer hclosed
    have houter := (List.forall_mem_cons.1 (hclosed ▸ hw.closed)).2
    refine .guard hloc trivial fun _ => .guard hloc trivial fun _ => ?_
    exact sites_openBlock ⟨List.forall_mem_append.2 ⟨houter, hw.blocks⟩, by simp⟩ hloc

theorem sites_closeBrace (hw : w.Sited file text) (hloc : loc.Within file text) :
    Sites file text (closeBrace w loc) (WindowDraft.Sited file text) := by
  unfold closeBrace
  split
  · exact .fail hloc trivial
  · rename_i top rest hblocks
    obtain ⟨htop, hrest⟩ := List.forall_mem_cons.1 (hblocks ▸ hw.blocks)
    refine .guard hloc trivial fun _ => .bind sites_options fun o _ => ?_
    refine .guard htop trivial fun _ => .pure ?_
    have hclosed : WindowDraft.Sited file text { w with blocks := rest, closed := [top] } :=
      ⟨hrest, List.forall_mem_singleton.2 htop⟩
    exact hclosed.closeUnbraced

theorem sites_atLineEnd : Sited file text atLineEnd :=
  .bind (.lift Lexer.sites_peek) fun _ _ => .pure trivial

theorem sites_parseText : Sited file text parseText :=
  .bind (.lift Lexer.sites_read) fun _ ht => sites_stringValue ht

theorem sites_parseFormattedText {code : UInt8} (hw : w.Sited file text) :
    Sited file text (parseFormattedText w code) := by
  refine (sites_activeCondition hw).bind fun _ _ => .bind sites_parseText fun _ _ => ?_
  exact .bind sites_parseFormatList fun _ _ => .pure trivial

theorem sites_parseArgument {comma : Bool} : Sited file text (parseArgument comma) := by
  unfold parseArgument
  extract_lets argument
  have hargument : Sited file text (argument ()) := by
    refine .bind sites_location fun loc hloc => .bind sites_parseNumeric fun v _ => ?_
    exact (sites_toExpr hloc).bind fun _ _ => .pure trivial
  exact .ite (fun _ => .bind (.lift Lexer.sites_expect) fun _ _ => hargument) fun _ => hargument

theorem sites_parsePrint {withFont : Bool} (hw : w.Sited file text) :
    Sites file text (parsePrint w withFont) (WindowDraft.Sited file text) := by
  refine (sites_activeCondition hw).bind fun (condition, emits) _ => ?_
  refine .bind sites_parseArgument fun x _ => .bind sites_parseArgument fun y _ => ?_
  refine .bind sites_parseArgument fun alpha _ => ?_
  extract_lets message
  have hmessage (r : Option Expr × Option Expr × Option Expr × Option Bytes) :
      Sites file text (message r) (WindowDraft.Sited file text) := by
    refine .bind (.lift Lexer.sites_expect) fun _ _ => .bind sites_parseText fun _ _ => ?_
    refine .bind sites_parseFormatList fun format _ => .ite (fun _ => .pure hw) fun _ => ?_
    exact .pure { hw with }
  refine .ite (fun _ => ?_) fun _ => hmessage (none, none, none, none)
  refine .bind sites_parseArgument fun red _ => .bind sites_parseArgument fun green _ => ?_
  refine .bind sites_parseArgument fun blue _ => .bind (.lift Lexer.sites_expect) fun _ _ => ?_
  exact .bind sites_parseWord fun font _ => hmessage (red, green, blue, some font)

theorem sites_parseConsole {slot : Option Bytes} (hloc : loc.Within file text) :
    Sited file text (parseConsole w loc slot) := by
  refine (sites_checkUnconditional hloc).bind fun _ _ => ?_
  refine .bind (sites_checkUnset hloc trivial) fun _ _ => (sites_warn hloc).bind fun _ _ => ?_
  exact .bind sites_parseText fun _ _ => .pure trivial

theorem sites_parseNamed {slot : Option Bytes} {repeated : Cause} (hloc : loc.Within file text)
    (h : repeated.Raised) : Sited file text (parseNamed w loc slot repeated) :=
  (sites_checkUnconditional hloc).bind fun _ _ =>
    (sites_checkUnset hloc h).bind fun _ _ => sites_parseName

theorem sites_parseNextWindow {isReturn : Bool} (hw : w.Sited file text) (hloc : loc.Within file text) :
    Sites file text (parseNextWindow w loc isReturn) (WindowDraft.Sited file text) := by
  refine (sites_checkUnconditional hloc).bind fun _ _ => ?_
  refine .bind (sites_checkUnset hloc trivial) fun _ _ => ?_
  refine .ite (fun _ => .pure { hw with }) fun _ => ?_
  exact .bind (.lift Lexer.sites_read) fun token ht =>
    .guard ht trivial fun _ => .pure { hw with }

theorem sites_nextInlineLabel : Sited file text nextInlineLabel := by
  refine .bind sites_state fun s _ => .ite (fun _ => ?_) fun _ => ?_
  · exact .bind sites_location fun loc hloc => .fail_bind hloc trivial
  · refine .bind (sites_modify fun _ => ⟨rfl, rfl⟩) fun _ _ => ?_
    exact .bind sites_context fun c _ => .pure trivial

theorem sites_parseSwitchRef {slot : Option Label} (hloc : loc.Within file text) :
    Sited file text (parseSwitchRef w loc slot) := by
  refine (sites_checkUnconditional hloc).bind fun _ _ => ?_
  refine .bind (sites_checkUnset hloc trivial) fun _ _ => ?_
  refine .bind (.lift Lexer.sites_peek) fun token _ => .ite (fun _ => sites_parseLabel) fun _ => ?_
  refine .bind (.lift Lexer.sites_skipLineEnds) fun _ _ => ?_
  refine .bind (.lift Lexer.sites_expect) fun _ _ => .bind sites_nextInlineLabel fun label _ => ?_
  refine .bind sites_compileSwitch fun (switch, afterHash) _ => ?_
  refine .ite (fun _ => .bind sites_location fun _ hloc => .fail_bind hloc trivial) fun _ => ?_
  refine .bind (.lift Lexer.sites_expect) fun _ _ => ?_
  exact .bind (sites_modify fun _ => ⟨rfl, rfl⟩) fun _ _ => .pure trivial

theorem sites_parseSubWindow (hw : w.Sited file text) (hloc : loc.Within file text) :
    Sites file text (parseSubWindow w loc) (WindowDraft.Sited file text) :=
  (sites_checkUnconditional hloc).bind fun _ _ =>
    .bind sites_parseLabel fun _ _ => .pure { hw with }

theorem sites_parseFlags (hw : w.Sited file text) (hloc : loc.Within file text) :
    Sites file text (parseFlags w loc) (WindowDraft.Sited file text) := by
  refine (sites_checkUnconditional hloc).bind fun _ _ => ?_
  refine .bind (P := fun _ => True) ?_ fun flags _ => .pure { hw with }
  refine sites_repeatFrom (I := fun _ => True) trivial fun flags _ => ?_
  refine .bind sites_atLineEnd fun ended _ => .ite (fun _ => .pure trivial) fun _ => ?_
  refine .bind (.lift Lexer.sites_expect) fun token ht => ?_
  split
  · exact .guard ht trivial fun _ => .pure trivial
  · exact .fail ht trivial

theorem sites_parseDimension {slot : Option Expr} (hloc : loc.Within file text) :
    Sited file text (parseDimension w loc slot) := by
  refine (sites_checkUnconditional hloc).bind fun _ _ => ?_
  refine .bind (sites_checkUnset hloc trivial) fun _ _ => ?_
  refine .bind sites_location fun start hstart => .bind sites_parseExpr fun v _ => ?_
  exact sites_toExpr hstart

theorem sites_parseImageSize : Sited file text parseImageSize := by
  refine .bind (.lift Lexer.sites_peek) fun token _ => .ite (fun _ => .pure trivial) fun _ => ?_
  refine .bind (.lift Lexer.sites_consume) fun _ _ => .bind sites_location fun loc hloc => ?_
  refine .bind sites_parseNumeric fun v _ => ?_
  extract_lets store
  have hstore : Sited file text (store ()) := (sites_toExpr hloc).bind fun _ _ => .pure trivial
  split
  · exact .ite (fun _ => (sites_warn hloc).bind fun _ _ => hstore) fun _ => hstore
  · exact hstore

theorem sites_parseImageFlags : Sited file text parseImageFlags := by
  refine .bind (.lift Lexer.sites_peek) fun token _ => .ite (fun _ => .pure trivial) fun _ => ?_
  refine .bind (.lift Lexer.sites_consume) fun _ _ => ?_
  refine sites_repeatFrom (I := fun _ => True) trivial fun flags _ => ?_
  refine .bind (.lift Lexer.sites_expect) fun token ht => ?_
  split
  · exact .fail ht trivial
  · refine .guard ht trivial fun _ => .bind sites_atLineEnd fun ended _ => ?_
    exact .ite (fun _ => .pure trivial) fun _ => .pure trivial

theorem sites_parseImage (hw : w.Sited file text) :
    Sites file text (parseImage w) (WindowDraft.Sited file text) := by
  refine (sites_activeCondition hw).bind fun (condition, emits) _ => ?_
  refine .bind sites_parseName fun file _ => ?_
  refine .bind sites_parseArgument fun x _ => .bind sites_parseArgument fun y _ => ?_
  refine .bind sites_parseImageSize fun width _ => ?_
  refine .ite_bind (fun _ => sites_parseImageSize) (fun _ => .pure trivial) fun height _ => ?_
  refine .ite_bind (fun _ => sites_parseImageFlags) (fun _ => .pure trivial) fun flags _ => ?_
  exact .ite (fun _ => .pure hw) fun _ => .pure { hw with }

theorem sites_parseChoiceArguments : Sited file text parseChoiceArguments := by
  refine sites_repeatFrom (I := fun _ => True) trivial fun vs _ => ?_
  refine .bind (.lift Lexer.sites_peek) fun token ht => .ite (fun _ => ?_) fun _ => ?_
  · refine .bind sites_parseFormatValue fun v _ => ?_
    exact .bind (.lift Lexer.sites_expect) fun _ _ => .pure trivial
  · refine .bind (.lift Lexer.sites_consume) fun _ _ => ?_
    refine .bind (.lift Lexer.sites_peek) fun next _ => .ite (fun _ => ?_) fun _ => ?_
    · refine .bind (.lift Lexer.sites_consume) fun _ _ => ?_
      refine .bind (.lift Lexer.sites_expect) fun low hlow => ?_
      exact (sites_labelOfTokens ht hlow).bind fun label _ => .pure trivial
    · refine (sites_formatValueOfToken ht).bind fun v _ => ?_
      exact .bind (.lift Lexer.sites_expect) fun _ _ => .pure trivial

theorem sites_parseChoice (hw : w.Sited file text) :
    Sites file text (parseChoice w) (WindowDraft.Sited file text) := by
  refine (sites_activeCondition hw).bind fun (condition, emits) _ => ?_
  refine .bind (.lift Lexer.sites_read) fun token ht => (sites_stringValue ht).bind fun _ _ => ?_
  refine .bind (.lift Lexer.sites_peek) fun next _ => ?_
  extract_lets add
  have hadd (r : List FormatValue × Label) : Sites file text (add r) (WindowDraft.Sited file text) :=
    .ite (fun _ => .pure hw) fun _ => .pure { hw with }
  refine .ite (fun _ => ?_) fun _ => .bind sites_parseLabel fun label _ => hadd ([], label)
  refine .bind (.lift Lexer.sites_consume) fun _ _ => ?_
  exact .bind sites_parseChoiceArguments fun r _ => hadd r

theorem sites_parseStay : Sited file text parseStay := by
  refine sites_repeatFrom (I := fun _ => True) trivial fun stay _ => ?_
  refine .bind sites_atLineEnd fun ended _ => .ite (fun _ => .pure trivial) fun _ => ?_
  refine .bind (.lift Lexer.sites_expect) fun token ht => ?_
  exact .guard ht trivial fun _ => .guard ht trivial fun _ => .pure trivial

theorem sites_parseTalk (hw : w.Sited file text) (hloc : loc.Within file text) :
    Sites file text (parseTalk w loc) (WindowDraft.Sited file text) := by
  refine (sites_checkUnconditional hloc).bind fun _ _ => ?_
  refine .bind (sites_checkUnset hloc trivial) fun _ _ => ?_
  refine .bind (.lift Lexer.sites_expect) fun target htarget => ?_
  extract_lets animate
  have hanimate (names : Bytes × Bytes) : Sites file text (animate names) (WindowDraft.Sited file text) :=
    .bind sites_parseWord fun _ _ => .bind sites_parseStay fun _ _ => .pure { hw with }
  refine .ite (fun _ => ?_) fun _ => ?_
  · exact .bind (P := fun _ => True) (.pure trivial) fun names _ => hanimate names
  · refine .ite_bind (P := fun _ => True) (fun _ => .pure trivial)
      (fun _ => .fail htarget trivial) ?_
    exact fun names _ => hanimate names

theorem sites_parseStayWord : Sited file text parseStayWord := by
  refine .bind (.lift Lexer.sites_expect) fun token ht => .ite (fun _ => .pure trivial) fun _ => ?_
  exact .ite (fun _ => .pure trivial) fun _ => .fail ht trivial

theorem sites_parseTalkEx (hw : w.Sited file text) (hloc : loc.Within file text) :
    Sites file text (parseTalkEx w loc) (WindowDraft.Sited file text) := by
  refine (sites_checkUnconditional hloc).bind fun _ _ => ?_
  refine .bind (sites_checkUnset hloc trivial) fun _ _ => ?_
  refine .bind sites_parseWord fun name1 _ => .bind sites_parseWord fun name2 _ => ?_
  refine .bind sites_parseWord fun anim1 _ => .bind sites_parseWord fun anim2 _ => ?_
  refine .bind sites_atLineEnd fun ended _ => .ite (fun _ => .pure { hw with }) fun _ => ?_
  refine .bind sites_parseStayWord fun _ _ => .bind sites_parseStayWord fun _ _ => ?_
  exact .pure { hw with }

theorem sites_parseColor : Sited file text parseColor := by
  refine .bind (.lift Lexer.sites_expect) fun _ _ => ?_
  refine .bind (.lift Lexer.sites_read) fun token ht => ?_
  split
  · exact .pure trivial
  · exact .fail ht trivial

theorem sites_parseBackdropWord {b : Backdrop} (ht : token.Sited file text) :
    Sited file text (parseBackdropWord b token) := by
  have hcolor {f : UInt32 → Backdrop} : Sited file text (parseColor >>= fun color => pure (f color)) :=
    .bind sites_parseColor fun _ _ => .pure trivial
  refine .ite (fun _ => hcolor) fun _ => .ite (fun _ => hcolor) fun _ => ?_
  refine .ite (fun _ => hcolor) fun _ => .ite (fun _ => hcolor) fun _ => ?_
  refine .ite (fun _ => .pure trivial) fun _ => .ite (fun _ => .pure trivial) fun _ => ?_
  refine .ite (fun _ => .pure trivial) fun _ => .ite (fun _ => .pure trivial) fun _ => ?_
  exact .fail ht trivial

theorem sites_parseBackdrop {corners : Corners} : Sited file text (parseBackdrop corners) := by
  refine sites_repeatFrom (I := fun _ => True) trivial fun b _ => ?_
  refine .bind (.lift Lexer.sites_read) fun token ht => ?_
  have hgoOn (b : Backdrop) : Sites file text
      (atLineEnd >>= fun ended => if ended then pure (.inr b) else pure (.inl b))
      (Sum.elim (fun _ : Backdrop => True) fun _ : Backdrop => True) :=
    .bind sites_atLineEnd fun _ _ => .ite (fun _ => .pure trivial) fun _ => .pure trivial
  split
  · exact .guard ht trivial fun _ => hgoOn _
  · exact (sites_parseBackdropWord ht).bind fun b _ => hgoOn b
  · exact .fail_bind ht trivial

theorem sites_parseBackground (hw : w.Sited file text) :
    Sites file text (parseBackground w) (WindowDraft.Sited file text) := by
  refine (sites_activeCondition hw).bind fun (condition, emits) _ => ?_
  refine .bind sites_parseBackdrop fun b _ => ?_
  refine .ite (fun _ => .bind sites_location fun _ hloc => .fail_bind hloc trivial) fun _ => ?_
  extract_lets w' name
  split
  · exact .pure { hw with }
  · exact .pure { hw with }

theorem sites_parseCamText : Sited file text parseCamText := by
  refine .bind (.lift Lexer.sites_expect) fun _ _ => ?_
  refine .bind (.lift Lexer.sites_read) fun token ht => ?_
  refine .ite_bind (fun _ => sites_stringValue ht) (fun _ => .pure trivial) fun word _ => ?_
  exact .guard ht trivial fun _ => .bind (.lift Lexer.sites_expect) fun _ _ => .pure trivial

theorem camNumber_direct (value : Nat) (s : Bytes) :
    Yields Cause.Direct (fun _ => True) (camNumber value s) := by
  fun_induction camNumber value s
  case case1 | case2 | case3 => trivial
  case case4 ih => exact ih

theorem sites_parseCamNumber : Sited file text parseCamNumber := by
  refine .bind (.lift Lexer.sites_expect) fun _ _ => ?_
  refine .bind (.lift Lexer.sites_expect) fun token ht => ?_
  refine .bind (.lift Lexer.sites_expect) fun _ _ => ?_
  refine .bind (.located ht (camNumber_direct ..).raised) fun n _ => ?_
  exact .guard ht trivial fun _ => .pure trivial

theorem sites_parseCamSetting {c : Cam} (ht : token.Sited file text) :
    Sited file text (parseCamSetting c token) := by
  have htext {f : Bytes → Cam} : Sited file text (parseCamText >>= fun word => pure (f word)) :=
    .bind sites_parseCamText fun _ _ => .pure trivial
  have hnumber {f : UInt16 → Cam} : Sited file text (parseCamNumber >>= fun n => pure (f n)) :=
    .bind sites_parseCamNumber fun _ _ => .pure trivial
  refine .ite (fun _ => htext) fun _ => .ite (fun _ => htext) fun _ => ?_
  refine .ite (fun _ => htext) fun _ => .ite (fun _ => hnumber) fun _ => ?_
  refine .ite (fun _ => hnumber) fun _ => .ite (fun _ => hnumber) fun _ => ?_
  refine .ite (fun _ => hnumber) fun _ => .ite (fun _ => hnumber) fun _ => ?_
  refine .ite (fun _ => hnumber) fun _ => .ite (fun _ => hnumber) fun _ => ?_
  refine .ite (fun _ => hnumber) fun _ => .ite (fun _ => hnumber) fun _ => ?_
  refine .ite (fun _ => ?_) fun _ => ?_
  · exact .bind sites_parseCamNumber fun n _ => .guard ht trivial fun _ => .pure trivial
  · refine .ite (fun _ => .pure trivial) fun _ => .ite (fun _ => .pure trivial) fun _ => ?_
    exact .fail ht trivial

theorem sites_parseCamName : Sited file text parseCamName := by
  refine .bind sites_options fun o _ => .ite (fun _ => ?_) fun _ => ?_
  · exact .bind (.lift Lexer.sites_expect) fun _ _ => .pure trivial
  · refine .bind (.lift Lexer.sites_read) fun token ht => ?_
    exact .ite (fun _ => (sites_warn ht).bind fun _ _ => .pure trivial) fun _ => .pure trivial

theorem sites_parseCam (hw : w.Sited file text) (hloc : loc.Within file text) :
    Sites file text (parseCam w loc) (WindowDraft.Sited file text) := by
  refine .bind (sites_checkUnset hloc trivial) fun _ _ => ?_
  refine (sites_checkUnconditional hloc).bind fun _ _ => .bind sites_parseCamName fun name _ => ?_
  refine .bind (P := fun _ => True) ?_ fun cam _ => .pure { hw with }
  refine sites_repeatFrom (I := fun _ => True) trivial fun c _ => ?_
  refine .bind sites_atLineEnd fun ended _ => .ite (fun _ => .pure trivial) fun _ => ?_
  refine .bind (.lift Lexer.sites_expect) fun token ht => ?_
  exact (sites_parseCamSetting ht).bind fun c _ => .pure trivial

theorem sites_parseCommand (hw : w.Sited file text) (ht : token.Sited file text) :
    Sites file text (parseCommand w token) (WindowDraft.Sited file text) := by
  -- a directive whose result is stored in the draft beside its blocks
  have hstore {α : Type} {x : Compiler α} {f : α → WindowDraft} (hx : Sited file text x)
      (hf : ∀ a, (f a).Sited file text) :
      Sites file text (x >>= fun a => pure (f a)) (WindowDraft.Sited file text) :=
    hx.bind fun a _ => .pure (hf a)
  refine .ite (fun _ => hstore (sites_parseDimension ht) fun _ => { hw with }) fun _ => ?_
  refine .ite (fun _ => hstore (sites_parseDimension ht) fun _ => { hw with }) fun _ => ?_
  refine .ite (fun _ => hstore (sites_parseDimension ht) fun _ => { hw with }) fun _ => ?_
  refine .ite (fun _ => hstore (sites_parseDimension ht) fun _ => { hw with }) fun _ => ?_
  refine .ite (fun _ => hstore (sites_parseFormattedText hw) fun _ => { hw with }) fun _ => ?_
  refine .ite (fun _ => hstore (sites_parseFormattedText hw) fun _ => { hw with }) fun _ => ?_
  refine .ite (fun _ => sites_parseTalk hw ht) fun _ => ?_
  refine .ite (fun _ => sites_parseTalkEx hw ht) fun _ => ?_
  refine .ite (fun _ => sites_parseImage hw) fun _ => ?_
  refine .ite (fun _ => sites_parseFlags hw ht) fun _ => ?_
  refine .ite (fun _ => sites_parseSubWindow hw ht) fun _ => ?_
  refine .ite (fun _ => sites_parseChoice hw) fun _ => ?_
  refine .ite (fun _ => hstore (sites_parseConsole ht) fun _ => { hw with }) fun _ => ?_
  refine .ite (fun _ => hstore (sites_parseConsole ht) fun _ => { hw with }) fun _ => ?_
  refine .ite (fun _ => hstore (sites_parseNamed ht trivial) fun _ => { hw with }) fun _ => ?_
  refine .ite (fun _ => hstore (sites_parseNamed ht trivial) fun _ => { hw with }) fun _ => ?_
  refine .ite (fun _ => sites_parseNextWindow hw ht) fun _ => ?_
  refine .ite (fun _ => sites_parseNextWindow hw ht) fun _ => ?_
  refine .ite (fun _ => sites_parsePrint hw) fun _ => ?_
  refine .ite (fun _ => sites_parsePrint hw) fun _ => ?_
  refine .ite (fun _ => hstore (sites_parseSwitchRef ht) fun _ => { hw with }) fun _ => ?_
  refine .ite (fun _ => hstore (sites_parseSwitchRef ht) fun _ => { hw with }) fun _ => ?_
  refine .ite (fun _ => hstore (sites_parseSwitchRef ht) fun _ => { hw with }) fun _ => ?_
  refine .ite (fun _ => sites_parseBackground hw) fun _ => ?_
  exact .ite (fun _ => sites_parseCam hw ht) fun _ => .fail ht trivial

theorem sites_parseDirective (hw : w.Sited file text) (ht : token.Sited file text) :
    Sites file text (parseDirective w token) (WindowDraft.Sited file text) := by
  refine .ite (fun _ => .pure hw) fun _ => ?_
  refine .ite (fun _ => sites_closeBrace hw.clearClosed ht) fun _ => ?_
  refine .ite (fun _ => sites_openElse hw ht) fun _ => .guard ht trivial fun _ => ?_
  refine .ite (fun _ => sites_openIf hw.clearClosed ht) fun _ => ?_
  refine (sites_parseCommand hw.clearClosed ht).bind fun w hw => ?_
  refine .bind (.lift Lexer.sites_peek) fun next hnext => .guard hnext trivial fun _ => ?_
  exact .pure hw.markUsed.closeUnbraced

theorem sites_compileWindow : Sited file text compileWindow := by
  refine .bind sites_parseDefinitionLabel fun label _ => ?_
  refine .bind (.lift Lexer.sites_read) fun token ht => .guard ht trivial fun _ => ?_
  refine .bind (P := fun r => r.1.Sited file text) ?_ fun (draft, afterHash) hdraft => ?_
  · have hempty : WindowDraft.Sited file text {} := ⟨by simp, by simp⟩
    refine sites_repeatFrom (I := WindowDraft.Sited file text) hempty fun w hw => ?_
    refine .bind (.lift Lexer.sites_peek) fun token ht => ?_
    split
    · refine .bind (.lift Lexer.sites_consume) fun _ _ => ?_
      refine .bind sites_parseDefine fun defined _ => ?_
      exact .ite (fun _ => .pure hw) fun _ => .pure hw
    · exact .pure hw
    · refine .bind (.lift Lexer.sites_consume) fun _ _ => ?_
      exact (sites_parseDirective hw ht).bind fun w hw => .pure hw
  · dsimp only
    split
    · rename_i top _ hblocks
      exact .fail_bind (hdraft.blocks top (hblocks ▸ List.mem_cons_self)) trivial
    · exact .pure trivial

/-! ### Programs -/

theorem sites_skipToHash : Sited file text skipToHash := by
  refine sites_repeatFrom (I := fun _ => True) trivial fun _ _ => ?_
  refine .bind (.lift Lexer.sites_peek) fun token _ => .ite (fun _ => .pure trivial) fun _ => ?_
  exact .bind (.lift Lexer.sites_consume) fun _ _ => .pure trivial

theorem sites_findHash : Sited file text findHash := by
  refine .bind (.lift Lexer.sites_skipLineEnds) fun _ _ => ?_
  refine .bind (.lift Lexer.sites_read) fun token ht => .ite (fun _ => .pure trivial) fun _ => ?_
  exact .guard ht trivial fun _ => .pure trivial

theorem sites_parseTopDirective {p : ProgramDraft} : Sited file text (parseTopDirective p) := by
  refine .bind (.lift Lexer.sites_read) fun kind hkind => .guard hkind trivial fun _ => ?_
  refine .ite (fun _ => .bind sites_compileWindow fun _ _ => .pure trivial) fun _ => ?_
  refine .ite (fun _ => .bind sites_parseDefinitionLabel fun label _ => ?_) fun _ => ?_
  · exact .bind sites_compileSwitch fun _ _ => .pure trivial
  refine .ite (fun _ => ?_) fun _ => .fail hkind trivial
  exact .bind (.lift Lexer.sites_defineMacro) fun _ _ => .pure trivial

/-- A whole script fails and warns at places of its text only. -/
theorem sites_compileProgram : Sited file text compileProgram := by
  refine .bind sites_options fun _ _ => ?_
  extract_lets program
  have hprogram (u : Unit) : Sited file text (program u) := by
    refine .bind (P := fun _ => True) ?_ fun p _ => .bind sites_state fun s _ => .pure trivial
    refine sites_repeatFrom (I := fun _ => True) trivial fun p _ => ?_
    have hgoOn : Sites file text
        (parseTopDirective p >>= fun p => pure (.inl p : ProgramDraft ⊕ ProgramDraft))
        (Sum.elim (fun _ => True) fun _ => True) :=
      sites_parseTopDirective.bind fun _ _ => .pure trivial
    refine .ite (fun _ => .bind sites_findHash fun found _ => ?_) fun _ => hgoOn
    exact .ite (fun _ => .pure trivial) fun _ => hgoOn
  exact .ite (fun _ => .bind sites_skipToHash fun u _ => hprogram u) fun _ => hprogram ()

end Compiler

end ApeScript
