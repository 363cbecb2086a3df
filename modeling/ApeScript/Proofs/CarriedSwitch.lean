import ApeScript.Proofs.CompiledSwitch
import ApeScript.Proofs.MovedSwitch
import ApeScript.Proofs.Variant

/-!
# Switches of a variant

A variant of a compilation parses the same expressions and statements and emits the same switches,
whose places are those of its file.
What a statement names by a label is a label that scripts can write, below those of the inline
switches.
-/

namespace ApeScript

open Label (inlineBase)

/-- Whether statements of a type name a label. A legacy goto takes any text. -/
def StatementType.namesLabel (legacy : Bool) : StatementType → Bool
  | goSub | closeWindow => true
  | goto => !legacy
  | _ => false

def Label.SpelledBy (text : Option Bytes) : Prop :=
  ∃ l : Label, l.toNat < inlineBase ∧ text = some l.text

def DraftStatement.Labeled (legacy : Bool) (s : DraftStatement) : Prop :=
  s.type.namesLabel legacy = true → Label.SpelledBy s.str

/-- A stored statement that names a label names one that scripts can write. -/
def Statement.Labeled (legacy : Bool) (s : Statement) : Prop :=
  ∀ t : StatementType, s.type = t.code → t.namesLabel legacy = true → Label.SpelledBy s.str

namespace Variant

open Compiler

variable {V : Variant} {loc : Location} {token : Token} {type : StatementType}

@[simp]
theorem token_type : (V.token token).type = token.type := rfl

@[simp]
theorem token_text : (V.token token).text = token.text := rfl

@[simp]
theorem token_loc : (V.token token).loc = V.place token.loc := rfl

/-- A reader of the two compilations, whose token is the same but for the file. -/
abbrev Shares (V : Variant) (x : Compiler Token) : Prop :=
  V.Carries x x fun t u => u = V.token t ∧ True

/-! ### Expressions -/

theorem same_stringValue {newlineToSpace : Bool} : V.Carries (stringValue token newlineToSpace)
    (stringValue (V.token token) newlineToSpace) fun s s' => s' = s ∧ True :=
  .mono .located fun _ _ h => ⟨h.1, trivial⟩

theorem same_floatOfToken : V.Carries (floatOfToken token) (floatOfToken (V.token token))
    fun x y => y = x ∧ True := by
  refine .guard fun _ => ?_
  rw [token_text]
  split
  · exact .fail
  · exact .ite (fun _ => .pure ⟨rfl, trivial⟩) fun _ => .fail

theorem shares_peekNormal : V.Shares (liftM Lexer.peekNormal) := .lift Lexer.peek_widens

theorem shares_next : V.Shares (liftM Lexer.next) := .lift Lexer.read_widens

theorem shares_read {mode : ReadMode} {flags : ReadFlags} : V.Shares (liftM (Lexer.read mode flags)) :=
  .lift Lexer.read_widens

theorem shares_peek {mode : ReadMode} {flags : ReadFlags} : V.Shares (liftM (Lexer.peek mode flags)) :=
  .lift Lexer.peek_widens

theorem same_consume : V.Same (liftM Lexer.consume) := .lift Lexer.consume_widens

theorem shares_expect {type : TokenType} : V.Shares (liftM (Lexer.expect type)) :=
  .lift Lexer.expect_widens

theorem same_skipLineEnds : V.Same (liftM Lexer.skipLineEnds) := .lift Lexer.skipLineEnds_widens

theorem same_parseTier {tiers : List (List Operator)} {bound : Lexer.Remaining} {level : Nat} :
    V.Same (parseTier tiers bound level) := by
  refine parseTier.induct tiers
    (fun bound level => V.Same (parseTier tiers bound level))
    (fun bound level left => V.Same (parseTierRest tiers bound level left))
    (fun bound => V.Same (parseNegation tiers bound))
    (fun bound => V.Same (parseOperand tiers bound))
    ?zero ?succ ?rest ?negation ?operand bound level
  case zero =>
    intro bound hnegation
    rw [parseTier]
    exact hnegation
  case succ =>
    intro bound level hleft hrest
    rw [parseTier]
    exact .bind hleft fun left _ => hrest left
  case rest =>
    intro bound level left hright hrest
    rw [parseTierRest]
    refine .bind shares_peekNormal fun token _ => ?_
    have hsame : operatorOf? (tiers.getD level []) (V.token token) =
        operatorOf? (tiers.getD level []) token := rfl
    rw [hsame]
    split
    · exact .pure ⟨rfl, trivial⟩
    · rename_i op _
      refine .bind same_consume fun _ _ => .bind .remaining fun now _ => ?_
      refine .dite (fun less => ?_) fun _ => .fail
      exact .bind (hright now less) fun right _ => hrest op now less right
  case negation =>
    intro bound hnegation hoperand
    rw [parseNegation]
    refine .bind shares_peekNormal fun token _ => .ite (fun _ => ?_) fun _ => hoperand
    refine .bind same_consume fun _ _ => .bind .remaining fun now _ => ?_
    refine .dite (fun less => ?_) fun _ => .fail
    refine .bind (hnegation now less) fun v _ => .guard fun _ => ?_
    cases v <;> exact .pure ⟨rfl, trivial⟩
  case operand =>
    intro bound hinner
    rw [parseOperand]
    refine .bind shares_peekNormal fun token _ => ?_
    rw [token_type]
    split
    · refine .bind same_consume fun _ _ => .bind .remaining fun now _ => ?_
      refine .dite (fun less => ?_) fun _ => .fail
      refine .bind (hinner now less) fun v _ => ?_
      exact .bind shares_next fun closing _ => .guard fun _ => .pure ⟨rfl, trivial⟩
    · exact .bind same_consume fun _ _ => .pure ⟨rfl, trivial⟩
    · exact .bind same_consume fun _ _ => .bind same_floatOfToken fun _ _ => .pure ⟨rfl, trivial⟩
    · exact .bind same_consume fun _ _ => .pure ⟨rfl, trivial⟩
    · exact .fail

theorem same_parseExpr : V.Same parseExpr :=
  .options (.bind .remaining fun _ _ => same_parseTier)

/-- What is not permitted here may be permitted in the variant. -/
theorem not_permitted {a b : Bool} (h : (!(a || b)) = true) : (!a) = true := by
  cases a <;> simp_all

theorem same_parseNumeric : V.Same parseNumeric := by
  refine .bind .location fun loc _ => .bind same_parseExpr fun v _ => ?_
  refine .ite (fun _ => ?_) fun _ => .pure ⟨rfl, trivial⟩
  refine .options (.relax not_permitted fun _ => ?_)
  exact .bind .warn fun _ _ => .pure ⟨rfl, trivial⟩

/-- A value that is no number is stored only where that is permitted, and then in the variant. -/
theorem same_toExpr {v : Value} :
    V.Carries (toExpr v loc) (toExpr v (V.place loc)) fun e e' => e' = e ∧ True := by
  refine .options ?_
  extract_lets store store'
  have hlocated {x : Except Cause Expr} :
      V.Carries (located loc x) (located (V.place loc) x) fun e e' => e' = e ∧ True :=
    .mono .located fun _ _ h => ⟨h.1, trivial⟩
  have hstore (v : Value) : V.Carries (store v) (store' v) fun e e' => e' = e ∧ True := by
    refine .ite (fun _ => ?_) fun _ => hlocated
    have hother : V.other.options.allowMalformedExprs =
        (V.context.options.allowMalformedExprs || V.malformed) := rfl
    rw [hother]
    cases hpermitted : V.context.options.allowMalformedExprs with
    | false =>
      cases v <;> exact .fail_bind
    | true =>
      rw [Bool.true_or]
      split
      · exact .bind .warn fun _ _ => hlocated
      · exact .fail_bind
  refine .ite (fun _ => .bind .located fun v _ => hstore v) fun _ => hstore v

theorem same_toExpr? {v : Option Value} :
    V.Carries (toExpr? v loc) (toExpr? v (V.place loc)) fun e e' => e' = e ∧ True := by
  cases v with
  | none => exact .pure ⟨rfl, trivial⟩
  | some v => exact .bind same_toExpr fun _ _ => .pure ⟨rfl, trivial⟩

theorem same_toCondition {v : Option Value} :
    V.Carries (toCondition v loc) (toCondition v (V.place loc)) fun r r' => r' = r ∧ True := by
  cases v with
  | none => exact .pure ⟨rfl, trivial⟩
  | some v =>
    have hstored (v : Value) :
        V.Carries (toExpr v loc >>= fun e => (pure (some e, true) : Compiler (Option Expr × Bool)))
          (toExpr v (V.place loc) >>= fun e => pure (some e, true)) fun r r' => r' = r ∧ True :=
      .bind same_toExpr fun _ _ => .pure ⟨rfl, trivial⟩
    refine .options (.ite (fun _ => .bind .located fun folded _ => ?_) fun _ => hstored v)
    split
    · exact .pure ⟨rfl, trivial⟩
    · exact hstored folded

/-! ### Labels and arguments -/

theorem agrees_labelOfTokens {high low : Token} :
    V.Carries (labelOfTokens high low) (labelOfTokens (V.token high) (V.token low))
      fun l l' => l' = l ∧ l.toNat < inlineBase := by
  refine .bind .located fun h _ => .bind .located fun l _ => ?_
  split
  · exact .pure ⟨rfl, Label.ofHalves_lt ‹_›⟩
  · exact .fail

theorem agrees_parseLabel : V.Agrees parseLabel (·.toNat < inlineBase) :=
  .bind shares_expect fun _ _ => .bind shares_expect fun _ _ => .bind shares_expect fun _ _ =>
    agrees_labelOfTokens

theorem agrees_parseDefinitionLabel : V.Agrees parseDefinitionLabel (·.toNat < inlineBase) :=
  .bind shares_peekNormal fun _ _ => .bind agrees_parseLabel fun _ h => .guard fun _ => .pure ⟨rfl, h⟩

theorem same_formatValueOfToken : V.Carries (formatValueOfToken token)
    (formatValueOfToken (V.token token)) fun v v' => v' = v ∧ True := by
  unfold formatValueOfToken
  rw [token_type]
  split
  · exact .bind same_floatOfToken fun x _ => .pure ⟨rfl, trivial⟩
  · exact .pure ⟨rfl, trivial⟩
  · exact .pure ⟨rfl, trivial⟩
  · exact .fail

theorem same_parseFormatValue : V.Same parseFormatValue :=
  .bind shares_read fun _ _ => same_formatValueOfToken

theorem same_parseFormatList : V.Same parseFormatList := by
  refine .repeatSame (I := fun _ => True) trivial fun values _ => ?_
  refine .bind shares_peekNormal fun token _ => .ite (fun _ => .pure ⟨rfl, trivial⟩) fun _ => ?_
  exact .bind same_consume fun _ _ => .bind same_parseFormatValue fun v _ => .pure ⟨rfl, trivial⟩

/-- Whether a quote comes next is the same in both. -/
theorem nextIsQuote_bind {α β : Type} {x x' : Compiler α} {y y' : Compiler β} {R : α → β → Prop}
    (hx : V.Carries x y R) (hx' : V.Carries x' y' R) :
    V.Carries (getThe CompileState >>= fun s => if Lexer.nextIsQuote s.lexer then x else x')
      (getThe CompileState >>= fun s => if Lexer.nextIsQuote s.lexer then y else y') R :=
  .state fun s _ => by
    rw [show (V.state s).lexer.nextIsQuote = s.lexer.nextIsQuote from Lexer.nextIsQuote_wide s.lexer]
    exact .ite (fun _ => hx) fun _ => hx'

theorem same_parseName : V.Same parseName := by
  refine nextIsQuote_bind (.bind shares_read fun _ _ => .pure ⟨rfl, trivial⟩) ?_
  refine .bind shares_read fun token _ => ?_
  rw [token_type]
  split
  · exact .fail
  · exact .fail
  · exact .pure ⟨rfl, trivial⟩
  · exact .pure ⟨rfl, trivial⟩

theorem same_parseWord {stopComma : Bool} : V.Same (parseWord stopComma) := by
  refine .bind shares_read fun token _ => .guard fun _ => ?_
  have hreturn (text : Bytes) : V.Carries (pure text) (pure text) fun a b => b = a ∧ True :=
    .pure ⟨rfl, trivial⟩
  refine .ite (fun _ => .bind .warn fun _ _ => ?_) fun _ => ?_
  · exact .ite (fun _ => .bind .warn fun _ _ => hreturn _) fun _ => hreturn _
  · exact .ite (fun _ => .bind .warn fun _ _ => hreturn _) fun _ => hreturn _

theorem same_parseDefine : V.Same parseDefine := by
  refine .bind shares_peek fun token _ => .ite (fun _ => .pure ⟨rfl, trivial⟩) fun _ => ?_
  refine .bind same_consume fun _ _ => ?_
  exact .bind (.lift Lexer.defineMacro_widens) fun _ _ => .pure ⟨rfl, trivial⟩

/-! ### Statements -/

abbrev legacy (V : Variant) : Bool := V.context.options.legacyLabeledCommands

/-- Two drafts that are the same but for the file, and the labels that the first names. -/
structure Drafts (V : Variant) (d d' : Draft) : Prop where
  alike : d.AlikeBy (fun l l' => l' = V.place l) d'
  labeled : d.All (·.Labeled V.legacy)

theorem drafts_done : V.Drafts .done .done := ⟨.done, trivial⟩

theorem Drafts.append {d d' e e' : Draft} (hd : V.Drafts d d') (he : V.Drafts e e') :
    V.Drafts (d ++ e) (d' ++ e') :=
  ⟨hd.alike.append he.alike, hd.labeled.append he.labeled⟩

variable {str : Option Bytes} {format : List FormatValue} {expr : Option Value}

theorem drafts_single
    (h : (⟨type, str, format, expr, loc⟩ : DraftStatement).Labeled V.legacy) :
    V.Drafts (.single ⟨type, str, format, expr, loc⟩)
      (.single ⟨type, str, format, expr, V.place loc⟩) :=
  ⟨.single ⟨rfl, rfl⟩, Draft.All.single h⟩

theorem drafts_plain (h : type.namesLabel V.legacy = false) :
    V.Drafts (.single ⟨type, str, format, expr, loc⟩)
      (.single ⟨type, str, format, expr, V.place loc⟩) :=
  drafts_single fun hnames => absurd hnames (by simp [h])

theorem agrees_parseOptionalWord (h : type.namesLabel V.legacy = false) :
    V.Carries (parseOptionalWord type loc) (parseOptionalWord type (V.place loc)) V.Drafts := by
  refine .bind shares_peek fun token _ => .ite (fun _ => .pure (drafts_plain h)) fun _ => ?_
  refine .bind same_consume fun _ _ => .bind same_parseFormatList fun format _ => ?_
  exact .pure (drafts_plain h)

theorem agrees_parseQuotedStatement (h : type.namesLabel V.legacy = false) :
    V.Carries (parseQuotedStatement type loc) (parseQuotedStatement type (V.place loc)) V.Drafts := by
  refine .bind shares_read fun token _ => .bind same_stringValue fun text _ => ?_
  exact .bind same_parseFormatList fun format _ => .pure (drafts_plain h)

theorem same_parseRestOfLine {missing : Cause} : V.Same (parseRestOfLine missing) :=
  .bind shares_read fun _ _ => .guard fun _ => .pure ⟨rfl, trivial⟩

theorem agrees_parseLabeled :
    V.Carries (parseLabeled type loc) (parseLabeled type (V.place loc)) V.Drafts := by
  refine .bind agrees_parseLabel fun label hlabel => .pure (drafts_single fun _ => ?_)
  exact ⟨label, hlabel, rfl⟩

theorem agrees_parseGoto : V.Carries (parseGoto loc) (parseGoto (V.place loc)) V.Drafts := by
  refine .options (.ite (fun hlegacy => ?_) fun _ => agrees_parseLabeled)
  refine .bind same_parseRestOfLine fun _ _ => .pure (drafts_plain ?_)
  simp [StatementType.namesLabel, legacy, hlegacy]

theorem shares_parseDestination : V.Shares parseDestination := by
  refine .options (.ite (fun _ => shares_expect) fun _ => ?_)
  exact .bind shares_read fun token _ => .guard fun _ => .pure ⟨rfl, trivial⟩

theorem same_parseAssigned : V.Same parseAssigned := by
  refine nextIsQuote_bind ?_ ?_
  · exact .bind shares_read fun _ _ => .bind same_stringValue fun _ _ => .pure ⟨rfl, trivial⟩
  · exact .bind shares_read fun _ _ => .guard fun _ => .pure ⟨rfl, trivial⟩

theorem agrees_parseSet : V.Carries (parseSet token) (parseSet (V.token token)) V.Drafts := by
  refine .guard fun _ => .bind shares_expect fun _ _ => .ite (fun _ => ?_) fun _ => ?_
  · refine .bind same_parseAssigned fun _ _ => .bind same_parseFormatList fun format _ => ?_
    exact .pure (drafts_plain rfl)
  · refine .bind same_parseExpr fun v _ => .bind same_parseFormatList fun format _ => ?_
    exact .pure (drafts_plain rfl)

theorem drafts_unset : V.Drafts (unset token) (unset (V.token token)) := by
  unfold unset
  rw [token_text]
  split
  · exact drafts_plain rfl
  · exact drafts_plain rfl

/-- No statement of a table of plain statements names a label. -/
theorem not_namesLabel_of_find? {legacy : Bool} {table : List (Bytes × StatementType)}
    {name text : Bytes} (h : table.find? (·.1 = text) = some (name, type))
    (htable : ∀ entry ∈ table, ∀ legacy, entry.2.namesLabel legacy = false) :
    type.namesLabel legacy = false :=
  htable (name, type) (List.mem_of_find?_eq_some h) legacy

theorem agrees_parseSimple :
    V.Carries (parseSimple token) (parseSimple (V.token token)) V.Drafts := by
  unfold parseSimple
  rw [token_text]
  split
  · exact agrees_parseOptionalWord (not_namesLabel_of_find? ‹_ = some _› (by decide))
  · exact agrees_parseQuotedStatement (not_namesLabel_of_find? ‹_ = some _› (by decide))
  · refine .ite (fun _ => .bind shares_parseDestination fun _ _ => agrees_parseSet) fun _ => ?_
    refine .ite (fun _ => .bind shares_parseDestination fun _ _ => .pure drafts_unset)
      fun _ => ?_
    refine .ite (fun _ => agrees_parseGoto) fun _ => ?_
    refine .ite (fun _ => .pure (drafts_single fun _ => ?_)) fun _ => ?_
    · have hzero : utf8 "0:0" = Label.text 0 := by decide
      exact ⟨0, by decide, congrArg some hzero⟩
    refine .ite (fun _ => agrees_parseLabeled) fun _ =>
      .ite (fun _ => agrees_parseLabeled) fun _ => ?_
    refine .ite (fun _ => ?_) fun _ => agrees_parseSet
    exact .bind same_parseRestOfLine fun _ _ => .pure (drafts_plain rfl)

theorem same_parseCondition : V.Same parseCondition := by
  refine .bind shares_expect fun _ _ => .bind same_parseNumeric fun v _ => ?_
  exact .bind shares_expect fun _ _ => .pure ⟨rfl, trivial⟩

theorem same_checkStatementEnd {elseMayFollow : Bool} :
    V.Same (checkStatementEnd elseMayFollow) :=
  .bind shares_peekNormal fun _ _ => .ite (fun _ => .fail) fun _ => .pure ⟨rfl, trivial⟩

/-- An `if` or a `while` over blocks names no label of its own. -/
theorem drafts_control {v : Value} {inner inner' alt alt' : Draft}
    (htype : type = .ifThen ∨ type = .while) (hi : V.Drafts inner inner')
    (ha : V.Drafts alt alt') : V.Drafts (.step ⟨type, none, [], some v, loc⟩ inner alt .done)
      (.step ⟨type, none, [], some v, V.place loc⟩ inner' alt' .done) := by
  refine ⟨.step ⟨rfl, rfl⟩ hi.alike ha.alike .done, ?_, hi.labeled, ha.labeled, trivial⟩
  rcases htype with rfl | rfl <;> nofun

theorem agrees_parseStatement {bound : Lexer.Remaining} {elseMayFollow : Bool} :
    V.Carries (parseStatement bound token elseMayFollow)
      (parseStatement bound (V.token token) elseMayFollow) V.Drafts := by
  have hstatement (bound : Lexer.Remaining) (token : Token) (elseMayFollow : Bool)
      (hif : V.Carries (parseIf bound token.loc) (parseIf bound (V.place token.loc))
        fun r r' => V.Drafts r.1 r'.1 ∧ r'.2 = r.2)
      (hwhile : V.Carries (parseWhile bound token.loc) (parseWhile bound (V.place token.loc))
        V.Drafts) :
      V.Carries (parseStatement bound token elseMayFollow)
        (parseStatement bound (V.token token) elseMayFollow) V.Drafts := by
    rw [parseStatement, parseStatement]
    refine .guard fun _ => .ite (fun _ => ?_) fun _ => ?_
    · refine .join hif ?_
      rintro ⟨d, needsCheck⟩ ⟨d', _⟩ ⟨hd, rfl⟩
      refine .ite (fun _ => ?_) fun _ => .pure hd
      exact .bind same_checkStatementEnd fun _ _ => .pure hd
    · extract_lets finish
      have hfinish (d d' : Draft) (hd : V.Drafts d d') :
          V.Carries (finish d) (finish d') V.Drafts :=
        .bind same_checkStatementEnd fun _ _ => .pure hd
      exact .ite (fun _ => .join hwhile hfinish) fun _ => .join agrees_parseSimple hfinish
  -- the parsers of statements and blocks call one another on less of the text
  refine parseStatement.induct
    (fun bound token elseMayFollow => V.Carries (parseStatement bound token elseMayFollow)
      (parseStatement bound (V.token token) elseMayFollow) V.Drafts)
    (fun bound loc => V.Carries (parseWhile bound loc) (parseWhile bound (V.place loc)) V.Drafts)
    (fun bound elseMayFollow =>
      V.Carries (parseBody bound elseMayFollow) (parseBody bound elseMayFollow) V.Drafts)
    (fun bound opened isEmpty => V.Carries (parseBlock bound opened isEmpty)
      (parseBlock bound (V.place opened) isEmpty) V.Drafts)
    (fun bound loc => V.Carries (parseIf bound loc) (parseIf bound (V.place loc))
      fun r r' => V.Drafts r.1 r'.1 ∧ r'.2 = r.2)
    ?other ?statement ?loop ?body ?block ?branch bound token elseMayFollow
  case other | statement =>
    intro bound token elseMayFollow _ hif hwhile
    exact hstatement bound token elseMayFollow hif hwhile
  case loop =>
    intro bound loc hbody
    rw [parseWhile, parseWhile]
    refine .bind same_parseCondition fun condition _ => .bind .remaining fun now _ => ?_
    refine .dite (fun less => .join (hbody now less) fun _ _ hi => ?_) fun _ => .fail
    exact .pure (drafts_control (Or.inr rfl) hi drafts_done)
  case body =>
    intro bound elseMayFollow hblock hstatement
    rw [parseBody]
    refine .bind same_skipLineEnds fun _ _ => .bind shares_next fun token _ => ?_
    exact .ite (fun _ => hblock token) fun _ => hstatement token
  case block =>
    intro bound opened isEmpty hskip hstatement hrest
    rw [parseBlock, parseBlock]
    refine .bind shares_peekNormal fun token _ => ?_
    rw [token_type]
    split
    · refine .bind same_consume fun _ _ => .options (.relax ?_ fun _ => .pure drafts_done)
      -- an empty block that the variant refuses is refused here
      intro hrefused
      rw [Bool.and_eq_true] at hrefused ⊢
      exact ⟨hrefused.1, not_permitted hrefused.2⟩
    · exact .fail
    · refine .bind same_consume fun _ _ => .bind .remaining fun now _ => ?_
      exact .dite (fun less => hskip now less) fun _ => .fail
    · refine .bind shares_expect fun first _ => .join (hstatement first) fun d d' hd => ?_
      refine .bind .remaining fun now _ => .dite (fun less => ?_) fun _ => .fail
      exact .join (hrest now less) fun rest rest' hr => .pure (hd.append hr)
  case branch =>
    intro bound loc hinner halt
    rw [parseIf, parseIf]
    refine .bind same_parseCondition fun condition _ => .bind .remaining fun now _ => ?_
    refine .dite (fun less => .join (hinner now less) fun inner inner' hi => ?_) fun _ => .fail
    refine .bind shares_peekNormal fun _ _ => .bind same_skipLineEnds fun _ _ => ?_
    refine .bind shares_peekNormal fun next _ => .ite (fun _ => ?_) fun _ => ?_
    · exact .pure ⟨drafts_control (Or.inl rfl) hi drafts_done, rfl⟩
    · refine .bind same_consume fun _ _ => .bind .remaining fun later _ => ?_
      refine .dite (fun less => .join (halt later less) fun alt alt' ha => ?_) fun _ => .fail
      exact .pure ⟨drafts_control (Or.inl rfl) hi ha, rfl⟩

/-! ### Emitting -/

theorem same_liftExcept {α : Type} {x y : Except CompileError α} (h : Except.Agree Eq x y) :
    V.Carries (emit.liftExcept x) (emit.liftExcept y) fun a b => b = a ∧ True := by
  cases x with
  | error e => nofun
  | ok a =>
    obtain ⟨b, rfl, rfl⟩ := h a rfl
    exact .pure ⟨rfl, trivial⟩

/-- The places of a draft's statements that name a label name one that scripts can write. -/
abbrev PlacesLabeled (V : Variant) (ps : List Placed) : Prop :=
  ∀ p ∈ ps, p.statement.Labeled V.legacy

theorem agrees_emit {d d' : Draft} (hd : V.Drafts d d') (cc : UInt64) :
    V.Carries (emit cc d) (emit cc d') fun ps ps' => ps' = ps ∧ V.PlacesLabeled ps := by
  obtain ⟨halike, hlabeled⟩ := hd
  induction halike generalizing cc with
  | done => exact .pure ⟨rfl, List.forall_mem_nil _⟩
  | @step s s' inner inner' alt alt' rest rest' head hi ha hr ihi iha ihr =>
    obtain ⟨hs, hli, hla, hlr⟩ := hlabeled
    -- the block, the alternative and the rest are emitted in the same way, each only if not empty
    have hblock {sub sub' : Draft} {step : UInt64} {loc loc' : Location}
        {next next' : List Placed → Compiler (List Placed)}
        (hsub : sub.AlikeBy (fun l l' => l' = V.place l) sub')
        (ih : ∀ cc, V.Carries (emit cc sub) (emit cc sub') fun ps ps' =>
          ps' = ps ∧ V.PlacesLabeled ps)
        (hnext : ∀ ps, V.PlacesLabeled ps → V.Carries (next ps) (next' ps) fun ps ps' =>
          ps' = ps ∧ V.PlacesLabeled ps) :
        V.Carries (if sub.isDone then pure [] >>= next else
            emit.liftExcept (nextPlace cc step loc) >>= fun place => emit place sub >>= next)
          (if sub'.isDone then pure [] >>= next' else
            emit.liftExcept (nextPlace cc step loc') >>= fun place => emit place sub' >>= next')
          fun ps ps' => ps' = ps ∧ V.PlacesLabeled ps := by
      cases hsub with
      | done => exact hnext [] (List.forall_mem_nil _)
      | step => exact .bind (same_liftExcept agree_nextPlace) fun place _ => .bind (ih place) hnext
    obtain ⟨heq, hloc⟩ := head
    rw [heq, hloc, emit, emit]
    refine .bind same_toExpr? fun expr _ => ?_
    refine hblock hi (fun cc => ihi cc hli) fun inner' hi' => ?_
    refine hblock ha (fun cc => iha cc hla) fun alt' ha' => ?_
    refine hblock hr (fun cc => ihr cc hlr) fun rest' hr' => .pure ⟨rfl, ?_⟩
    refine List.forall_mem_cons.2 ⟨fun t ht hnames => hs ?_, ?_⟩
    · have hcode := congrArg StatementType.ofCode? ht
      rw [StatementType.ofCode?_code, StatementType.ofCode?_code] at hcode
      rw [Option.some.inj hcode]
      exact hnames
    · exact List.forall_mem_append.2 ⟨List.forall_mem_append.2 ⟨hi', ha'⟩, hr'⟩

theorem agrees_emitAll {d d' : Draft} (hd : V.Drafts d d') :
    V.Carries (emitAll d) (emitAll d') fun ps ps' => ps' = ps ∧ V.PlacesLabeled ps := by
  refine .options ?_
  have hother : V.other.options.optimize = V.context.options.optimize := rfl
  rw [hother]
  cases hs : d.simplify V.context.options.optimize with
  | error e => nofun
  | ok e =>
    obtain ⟨e', hs', halike⟩ := hd.alike.simplify e hs
    rw [hs']
    have hlabeled := hd.labeled.simplify hs fun _ _ _ _ _ _ => ⟨nofun, nofun⟩
    cases halike with
    | done =>
      refine .pure ⟨rfl, List.forall_mem_singleton.2 fun t ht hnames => ?_⟩
      cases t <;> simp_all [StatementType.code, StatementType.namesLabel]
    | step head hi ha hr => exact agrees_emit ⟨.step head hi ha hr, hlabeled⟩ 1

/-- A switch of the variant has the same statements, under the label it is given there. -/
theorem carries_compileSwitch {label label' : Label} {inline : Bool} :
    V.Carries (compileSwitch label inline) (compileSwitch label' inline) fun r r' =>
      r.1.label = label ∧ r' = ({ r.1 with label := label' }, r.2) ∧
        V.PlacesLabeled r.1.commands := by
  refine .bind .location fun loc _ => ?_
  refine .join (R := fun r r' => V.Drafts r.1 r'.1 ∧ r'.2 = r.2) ?_ ?_
  · refine .repeatFrom (I := V.Drafts) drafts_done fun d d' hd => ?_
    refine .bind shares_peekNormal fun token _ => ?_
    rw [token_type]
    split
    · refine .bind same_consume fun _ _ => .bind same_parseDefine fun defined _ => ?_
      exact .ite (fun _ => .pure (.inl hd)) fun _ => .pure (.inr ⟨hd, rfl⟩)
    · exact .guard fun _ => .pure (.inr ⟨hd, rfl⟩)
    · exact .bind same_consume fun _ _ => .pure (.inl hd)
    · refine .ite (fun _ => .pure (.inr ⟨hd, rfl⟩)) fun _ => .bind .remaining fun bound _ => ?_
      refine .bind shares_expect fun first _ => ?_
      exact .join agrees_parseStatement fun e e' he => .pure (.inl (hd.append he))
  · rintro ⟨draft, afterHash⟩ ⟨draft', _⟩ ⟨hdraft, rfl⟩
    exact .bind (agrees_emitAll hdraft) fun ps hps => .pure ⟨rfl, rfl, hps⟩

end Variant

end ApeScript
