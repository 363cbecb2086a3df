import ApeScript.Compile.SwitchBody
import ApeScript.Proofs.CompiledExpr

/-!
# Compiled switches

A draft is sound when the values and formatting values of all its statements are. Parsing gives
sound drafts, simplifying keeps them sound, and the statements emitted from a sound draft are
compiled statements, which are well formed.
-/

namespace ApeScript

structure Placed.Compiled (o : Options) (p : Placed) : Prop where
  known : p.Known
  exprs : ∀ e ∈ p.exprs, e.Compiled o
  formats : ∀ v ∈ p.statement.format, v.Compiled

theorem Placed.Compiled.wellFormed {o : Options} {p : Placed} (hp : p.Compiled o) :
    p.WellFormed :=
  ⟨hp.known, fun e he => (hp.exprs e he).wellFormed, fun v hv => (hp.formats v hv).wellTyped⟩

/-! ### What statements say -/

theorem Compiler.trimRight_trimRight (s : Bytes) :
    Compiler.trimRight (Compiler.trimRight s) = Compiler.trimRight s := by
  simp only [trimRight, List.reverse_reverse, List.dropWhile_idempotent]

/-- Variables are named by identifiers, and statements name windows by their labels. -/
structure Options.Plainly (o : Options) : Prop where
  names : o.legacySetNaming = false
  labels : o.legacyLabeledCommands = false

open Compiler (wordStatements quotedStatements trimRight isStringName) in
/-- What a parsed statement says besides the blocks it governs: its type, its text, its formatting
values, and whether it has a value. -/
inductive Said : StatementType → Option Bytes → List FormatValue → Bool → Prop
  | control {type : StatementType} (h : type = .ifThen ∨ type = .while) : Said type none [] true
  | bare {word : Bytes} {type : StatementType} (h : (word, type) ∈ wordStatements) :
    Said type none [] false
  | word {word s : Bytes} {type : StatementType} {format : List FormatValue}
    (h : (word, type) ∈ wordStatements) (hs : trimRight s = s) : Said type (some s) format false
  | quoted {word s : Bytes} {type : StatementType} {format : List FormatValue}
    (h : (word, type) ∈ quotedStatements) : Said type (some s) format false
  | setFloat {name : Bytes} {format : List FormatValue} (hname : Script.Identifier name)
    (hkind : isStringName name = false) : Said .setFloat (some name) format true
  | setString {name assigned : Bytes} {format : List FormatValue}
    (hname : Script.Identifier name) (hkind : isStringName name = true) :
    Said .setString (some (name ++ 61 :: assigned)) format false
  | unset {name : Bytes} (hname : Script.Identifier name) :
    Said (if isStringName name then .setString else .setFloat) (some name) [] false
  | labeled {type : StatementType} {label : Label}
    (h : type = .goto ∨ type = .goSub ∨ type = .closeWindow) (hlabel : label.isInline = false) :
    Said type (some label.text) [] false
  | rest {s : Bytes} : Said .externCall (some s) [] false

def Statement.Spoken (o : Options) (s : Statement) : Prop :=
  o.Plainly → ∃ type : StatementType, s.type = type.code ∧
    Said type s.str s.format s.expr.isSome

/-- A switch does nothing, or all of its statements are spoken. -/
structure Switch.Compiled (o : Options) (s : Switch) : Prop where
  label_ne_zero : s.label ≠ 0
  commands : ∀ p ∈ s.commands, p.Compiled o
  spoken : s.commands = [⟨1, StatementType.noOp.code, none, [], none⟩] ∨
    ∀ p ∈ s.commands, p.statement.Spoken o

theorem Switch.Compiled.wellFormed {o : Options} {s : Switch} (hs : s.Compiled o) :
    s.WellFormed :=
  ⟨hs.label_ne_zero, fun p hp => (hs.commands p hp).wellFormed⟩

structure DraftStatement.Sound (o : Options) (s : DraftStatement) : Prop where
  expr : ∀ v ∈ s.expr, v.Sound
  format : ∀ v ∈ s.format, v.Compiled
  said : o.Plainly → Said s.type s.str s.format s.expr.isSome

namespace Draft

variable {o : Options}

def Sound (o : Options) : Draft → Prop
  | done => True
  | step s inner alt rest => s.Sound o ∧ inner.Sound o ∧ alt.Sound o ∧ rest.Sound o

theorem Sound.append {d d' : Draft} (hd : d.Sound o) (hd' : d'.Sound o) : (d ++ d').Sound o := by
  change (Draft.append d d').Sound o
  induction d with
  | done => exact hd'
  | step s inner alt rest _ _ ih => exact ⟨hd.1, hd.2.1, hd.2.2.1, ih hd.2.2.2⟩

theorem Sound.single {s : DraftStatement} (hs : s.Sound o) : (single s).Sound o :=
  ⟨hs, trivial, trivial, trivial⟩

theorem simplifyIf_yields {s : DraftStatement} {condition : Value} {inner alt : Draft}
    (hc : condition.Sound) (hi : inner.Sound o) (ha : alt.Sound o) :
    Yields (·.cause.Reachable) (Sound o) (simplifyIf s condition inner alt) := by
  have hhead {v : Value} (hv : v.Sound) :
      (⟨.ifThen, none, [], some v, s.loc⟩ : DraftStatement).Sound o :=
    ⟨by simpa using hv, by simp, fun _ => .control (.inl rfl)⟩
  unfold simplifyIf
  split
  · trivial
  · simp only
    split
    · exact ⟨hhead (Value.invert_sound hc ‹_›), ha, trivial, trivial⟩
    · trivial
  · exact ⟨hhead hc, hi, ha, trivial⟩

theorem simplify_yields {optimize : Bool} {d : Draft} (hd : d.Sound o) :
    Yields (·.cause.Reachable) (Sound o) (d.simplify optimize) := by
  induction d with
  | done => trivial
  | step s inner alt rest ihi iha ihr =>
    obtain ⟨hs, hi, ha, hr⟩ := hd
    have hrest {here : Draft} (hhere : here.Sound o) : Yields (·.cause.Reachable) (Sound o)
        (simplify optimize rest >>= fun rest' => pure (here ++ rest')) :=
      (ihr hr).bind fun rest' hr' => hhere.append hr'
    rw [simplify]
    split
    · rename_i condition _ hcondition
      have hc : condition.Sound := hs.expr condition hcondition
      extract_lets choose
      have hchoose {folded : Value} (hfolded : folded.Sound) :
          Yields (·.cause.Reachable) (Sound o) (choose folded) := by
        refine (ihi hi).bind fun inner' hi' => (iha ha).bind fun alt' ha' => ?_
        split
        · split
          · exact hrest ha'
          · exact hrest hi'
        · exact (simplifyIf_yields hfolded hi' ha').bind fun here hhere => hrest hhere
      split
      · have hfold := Value.fold_yields hc
        cases hv : condition.fold with
        | ok folded =>
          rw [hv] at hfold
          exact hchoose hfold
        | error cause => rwa [hv] at hfold
      · exact hchoose hc
    · refine (ihi hi).bind fun inner' hi' => ?_
      split
      · trivial
      · exact hrest ⟨hs, hi', trivial, trivial⟩
    · exact hrest ⟨hs, hi, ha, trivial⟩

end Draft

theorem StatementType.ofCode?_code (t : StatementType) : ofCode? t.code = some t := by
  cases t <;> rfl

theorem StatementType.code_inj {s t : StatementType} : s.code = t.code ↔ s = t := by
  refine ⟨fun h => ?_, congrArg code⟩
  rw [← Option.some_inj, ← ofCode?_code s, h, ofCode?_code]

namespace Contract

open Compiler

variable {K : Contract} {loc : Location} {token : Token} {type : StatementType}

/-- A failure that already has a place. -/
theorem ensures_liftExcept {α : Type} {P : α → Prop} {x : Except CompileError α}
    (hx : Yields (·.cause.Reachable) P x) : K.Ensures (emit.liftExcept x) P := by
  cases x with
  | ok a => exact .pure hx
  | error e => exact fun _ _ _ => hx

theorem ensures_emit {d : Draft} (hd : d.Sound K.options) (cc : UInt64) :
    K.Ensures (emit cc d) fun ps =>
      ∀ p ∈ ps, p.Compiled K.options ∧ p.statement.Spoken K.options := by
  induction d generalizing cc with
  | done => exact .pure (by simp)
  | step s inner alt rest ihi iha ihr =>
    obtain ⟨hs, hi, ha, hr⟩ := hd
    have hplace (cc step : UInt64) (loc : Location) :
        K.Keeps (emit.liftExcept (nextPlace cc step loc)) := by
      refine ensures_liftExcept ?_
      unfold nextPlace
      split
      · trivial
      · trivial
    -- the block, the alternative and the rest are placed in the same way, each only if not empty
    have hblock {sub : Draft} {step : UInt64} {loc : Location}
        {next : List Placed → Compiler (List Placed)}
        (hsub : ∀ cc, K.Ensures (emit cc sub) fun ps =>
          ∀ p ∈ ps, p.Compiled K.options ∧ p.statement.Spoken K.options)
        (hnext : ∀ ps : List Placed,
          (∀ p ∈ ps, p.Compiled K.options ∧ p.statement.Spoken K.options) →
            K.Ensures (next ps) fun ps =>
              ∀ p ∈ ps, p.Compiled K.options ∧ p.statement.Spoken K.options) :
        K.Ensures (if sub.isDone then pure [] >>= next else
          emit.liftExcept (nextPlace cc step loc) >>= fun place => emit place sub >>= next)
          fun ps => ∀ p ∈ ps, p.Compiled K.options ∧ p.statement.Spoken K.options := by
      refine .ite (fun _ => .bind (.pure (by simp)) hnext) fun _ => ?_
      exact (hplace cc step loc).bind fun place _ => (hsub place).bind hnext
    rw [emit]
    refine (ensures_toExpr? hs.expr).bind fun expr ⟨hexpr, hsome⟩ => ?_
    refine hblock (ihi hi) fun inner' hi' => hblock (iha ha) fun alt' ha' => ?_
    refine hblock (ihr hr) fun rest' hr' => .pure ?_
    refine List.forall_mem_cons.2 ⟨⟨⟨?_, hexpr, hs.format⟩, fun hplain => ?_⟩, ?_⟩
    · simp [Placed.Known, StatementType.ofCode?_code]
    · exact ⟨s.type, rfl, hsome ▸ hs.said hplain⟩
    · exact List.forall_mem_append.2 ⟨List.forall_mem_append.2 ⟨hi', ha'⟩, hr'⟩

theorem ensures_emitAll {d : Draft} (hd : d.Sound K.options) :
    K.Ensures (emitAll d) fun ps => (∀ p ∈ ps, p.Compiled K.options) ∧
      (ps = [⟨1, StatementType.noOp.code, none, [], none⟩] ∨
        ∀ p ∈ ps, p.statement.Spoken K.options) := by
  refine .bind ensures_options fun o _ => ?_
  have hsimple : Yields (·.cause.Reachable) (Draft.Sound K.options) (d.simplify o.optimize) :=
    Draft.simplify_yields hd
  split
  · rename_i e he
    rw [he] at hsimple
    exact fun _ _ _ => hsimple
  · refine .pure ⟨List.forall_mem_singleton.2 ⟨?_, by simp [Placed.exprs], by simp⟩, .inl rfl⟩
    simp [Placed.Known, StatementType.ofCode?_code]
  · rename_i d' _ he
    rw [he] at hsimple
    exact (ensures_emit hsimple 1).mono fun ps hps =>
      ⟨fun p hp => (hps p hp).1, .inr fun p hp => (hps p hp).2⟩

/-! ### Statements -/

theorem ensures_single {str : Option Bytes} {format : List FormatValue} {expr : Option Value}
    (hformat : ∀ v ∈ format, v.Compiled) (hexpr : ∀ v ∈ expr, v.Sound)
    (hsaid : K.options.Plainly → Said type str format expr.isSome) :
    K.Ensures (pure (.single ⟨type, str, format, expr, loc⟩)) (Draft.Sound K.options) :=
  .pure (.single ⟨hexpr, hformat, hsaid⟩)

/-- A statement with a text and nothing else. -/
theorem ensures_plain {str : Option Bytes} (hsaid : K.options.Plainly → Said type str [] false) :
    K.Ensures (pure (.single ⟨type, str, [], none, loc⟩)) (Draft.Sound K.options) :=
  ensures_single (by simp) (by simp) hsaid

theorem ensures_parseOptionalWord {word : Bytes} (htype : (word, type) ∈ wordStatements) :
    K.Ensures (parseOptionalWord type loc) (Draft.Sound K.options) := by
  refine .bind (.lift Lexer.peek_ensures) fun token _ =>
    .ite (fun _ => ensures_plain fun _ => .bare htype) fun _ => ?_
  refine .bind (.lift Lexer.consume_ensures) fun _ _ => ?_
  refine .bind ensures_parseFormatList fun format hformat => ?_
  exact ensures_single hformat (by simp) fun _ => .word htype (trimRight_trimRight _)

theorem ensures_parseQuotedStatement {word : Bytes} (htype : (word, type) ∈ quotedStatements) :
    K.Ensures (parseQuotedStatement type loc) (Draft.Sound K.options) := by
  refine .bind (.lift Lexer.read_ensures) fun token _ => .bind keeps_stringValue fun text _ => ?_
  exact .bind ensures_parseFormatList fun format hformat =>
    ensures_single hformat (by simp) fun _ => .quoted htype

theorem keeps_parseRestOfLine {missing : Cause} (h : missing.Reachable) :
    K.Keeps (parseRestOfLine missing) :=
  .bind (.lift Lexer.read_ensures) fun _ _ => .guard h fun _ => .pure trivial

theorem ensures_parseLabeled (htype : type = .goto ∨ type = .goSub ∨ type = .closeWindow) :
    K.Ensures (parseLabeled type loc) (Draft.Sound K.options) :=
  .bind ensures_parseLabel fun _ hlabel => ensures_plain fun _ => .labeled htype hlabel

theorem ensures_parseGoto : K.Ensures (parseGoto loc) (Draft.Sound K.options) := by
  refine .bind ensures_options fun o ho => .ite (fun hlegacy => ?_) fun _ =>
    ensures_parseLabeled (.inl rfl)
  refine .bind (keeps_parseRestOfLine trivial) fun _ _ => ensures_plain fun hplain => ?_
  rw [ho, hplain.labels] at hlegacy
  cases hlegacy

/-- A variable is named by an identifier. -/
theorem ensures_parseDestination : K.Ensures parseDestination fun token =>
    K.options.Plainly → Script.Identifier token.text := by
  refine .bind ensures_options fun o ho => .ite (fun _ => ?_) fun hlegacy => ?_
  · exact Ensures.lift Lexer.expect_ensures |>.mono fun token ht _ => ht.2 ht.1
  · refine .bind (.lift Lexer.read_ensures) fun token _ => .guard trivial fun _ => .pure ?_
    intro hplain
    rw [ho, hplain.names] at hlegacy
    exact absurd rfl hlegacy

theorem keeps_parseAssigned : K.Keeps parseAssigned := by
  refine .bind ensures_state fun s _ => .ite (fun _ => ?_) fun _ => ?_
  · refine .bind (.lift Lexer.read_ensures) fun token _ => ?_
    exact .bind keeps_stringValue fun _ _ => .pure trivial
  · exact .bind (.lift Lexer.read_ensures) fun token _ => .guard trivial fun _ => .pure trivial

theorem ensures_parseSet (hname : K.options.Plainly → Script.Identifier token.text) :
    K.Ensures (parseSet token) (Draft.Sound K.options) := by
  refine .guard trivial fun _ => .bind (.lift Lexer.expect_ensures) fun _ _ => ?_
  refine .ite (fun hkind => .bind keeps_parseAssigned fun _ _ => ?_) fun hkind => ?_
  · exact .bind ensures_parseFormatList fun format hformat =>
      ensures_single hformat (by simp) fun hplain => .setString (hname hplain) hkind
  · refine .bind ensures_parseExpr fun v hv => ?_
    refine .bind ensures_parseFormatList fun format hformat =>
      ensures_single hformat (by simpa using hv) fun hplain => ?_
    exact .setFloat (hname hplain) (Bool.eq_false_of_not_eq_true hkind)

theorem sound_unset {o : Options} (hname : o.Plainly → Script.Identifier token.text) :
    (unset token).Sound o :=
  .single ⟨by simp, by simp, fun hplain => .unset (hname hplain)⟩

theorem ensures_parseSimple (htoken : token.type = .identifier ∧ token.Lettered) :
    K.Ensures (parseSimple token) (Draft.Sound K.options) := by
  have hreturn : Said .goto (some (Label.text 0)) [] false := .labeled (.inl rfl) rfl
  unfold parseSimple
  split
  · exact ensures_parseOptionalWord (List.mem_of_find?_eq_some ‹_ = some _›)
  · exact ensures_parseQuotedStatement (List.mem_of_find?_eq_some ‹_ = some _›)
  · refine .ite (fun _ => .bind ensures_parseDestination fun _ => ensures_parseSet) fun _ => ?_
    refine .ite (fun _ => .bind ensures_parseDestination fun _ hname => .pure (sound_unset hname))
      fun _ => ?_
    refine .ite (fun _ => ensures_parseGoto) fun _ => ?_
    refine .ite (fun _ => ensures_plain fun _ => hreturn) fun _ => ?_
    refine .ite (fun _ => ensures_parseLabeled (.inr (.inl rfl))) fun _ => ?_
    refine .ite (fun _ => ensures_parseLabeled (.inr (.inr rfl))) fun _ => ?_
    refine .ite (fun _ => ?_) fun _ => ensures_parseSet fun _ => htoken.2 htoken.1
    exact .bind (keeps_parseRestOfLine trivial) fun _ _ => ensures_plain fun _ => .rest

theorem ensures_parseCondition : K.Ensures parseCondition Value.Sound := by
  refine .bind (.lift Lexer.expect_ensures) fun _ _ => .bind ensures_parseNumeric fun v hv => ?_
  exact .bind (.lift Lexer.expect_ensures) fun _ _ => .pure hv

theorem keeps_checkStatementEnd {elseMayFollow : Bool} :
    K.Keeps (checkStatementEnd elseMayFollow) :=
  .bind (.lift Lexer.peek_ensures) fun _ _ => .ite (fun _ => .fail trivial) fun _ => .pure trivial

theorem governs_sound {o : Options} {v : Value} (hv : v.Sound)
    (htype : type = .ifThen ∨ type = .while) :
    (⟨type, none, [], some v, loc⟩ : DraftStatement).Sound o :=
  ⟨by simpa using hv, by simp, fun _ => .control htype⟩

/-- The parser of statements, by the statements, the bodies they govern and the blocks in braces
that call one another. -/
theorem ensures_parseStatement {bound : Lexer.Remaining} {elseMayFollow : Bool}
    (htoken : token.Lettered) :
    K.Ensures (parseStatement bound token elseMayFollow) (Draft.Sound K.options) := by
  have hstatement (bound : Lexer.Remaining) (token : Token) (elseMayFollow : Bool)
      (hif : K.Ensures (parseIf bound token.loc) (·.1.Sound K.options))
      (hwhile : K.Ensures (parseWhile bound token.loc) (Draft.Sound K.options))
      (htoken : token.Lettered) :
      K.Ensures (parseStatement bound token elseMayFollow) (Draft.Sound K.options) := by
    rw [parseStatement]
    refine .guard trivial fun htype => .ite (fun _ => ?_) fun _ => ?_
    · refine hif.bind fun (d, needsCheck) hd => ?_
      exact .ite (fun _ => .bind keeps_checkStatementEnd fun _ _ => .pure hd) fun _ => .pure hd
    · extract_lets finish
      have hfinish (d : Draft) (hd : d.Sound K.options) :
          K.Ensures (finish d) (Draft.Sound K.options) :=
        .bind keeps_checkStatementEnd fun _ _ => .pure hd
      have hsimple : K.Ensures (parseSimple token) (Draft.Sound K.options) :=
        ensures_parseSimple ⟨not_not.1 htype, htoken⟩
      exact .ite_bind (fun _ => hwhile) (fun _ => hsimple) hfinish
  refine parseStatement.induct
    (fun bound token elseMayFollow => token.Lettered →
      K.Ensures (parseStatement bound token elseMayFollow) (Draft.Sound K.options))
    (fun bound loc => K.Ensures (parseWhile bound loc) (Draft.Sound K.options))
    (fun bound elseMayFollow =>
      K.Ensures (parseBody bound elseMayFollow) (Draft.Sound K.options))
    (fun bound opened isEmpty =>
      K.Ensures (parseBlock bound opened isEmpty) (Draft.Sound K.options))
    (fun bound loc => K.Ensures (parseIf bound loc) (·.1.Sound K.options))
    ?other ?statement ?loop ?body ?block ?branch bound token elseMayFollow htoken
  -- the two cases differ in whether the token is a word, which `hstatement` does not ask
  case other | statement =>
    intro bound token elseMayFollow _ hif hwhile
    exact hstatement bound token elseMayFollow hif hwhile
  case loop =>
    intro bound loc hbody
    rw [parseWhile]
    refine .bind ensures_parseCondition fun condition hc => .bind keeps_remaining fun now _ => ?_
    refine .dite (fun less => (hbody now less).bind fun inner hi => ?_) fun _ => .fail trivial
    exact .pure ⟨governs_sound hc (.inr rfl), hi, trivial, trivial⟩
  case body =>
    intro bound elseMayFollow hblock hstatement
    rw [parseBody]
    refine .bind (.lift Lexer.skipLineEnds_ensures) fun _ _ => ?_
    refine .bind (.lift Lexer.read_ensures) fun token htoken => ?_
    exact .ite (fun _ => hblock token) fun _ => hstatement token htoken
  case block =>
    intro bound opened isEmpty hskip hstatement hrest
    rw [parseBlock]
    refine .bind (.lift Lexer.peek_ensures) fun token _ => ?_
    split
    · refine .bind (.lift Lexer.consume_ensures) fun _ _ => .bind ensures_options fun o _ => ?_
      exact .guard trivial fun _ => .pure trivial
    · exact .fail trivial
    · refine .bind (.lift Lexer.consume_ensures) fun _ _ => .bind keeps_remaining fun now _ => ?_
      exact .dite (fun less => hskip now less) fun _ => .fail trivial
    · refine .bind (.lift Lexer.expect_ensures) fun first hfirst => ?_
      refine (hstatement first hfirst.2).bind fun d hd => ?_
      refine .bind keeps_remaining fun now _ => .dite (fun less => ?_) fun _ => .fail trivial
      exact (hrest now less).bind fun rest hr => .pure (hd.append hr)
  case branch =>
    intro bound loc hinner halt
    rw [parseIf]
    refine .bind ensures_parseCondition fun condition hc => .bind keeps_remaining fun now _ => ?_
    refine .dite (fun less => (hinner now less).bind fun inner hi => ?_) fun _ => .fail trivial
    refine .bind (.lift Lexer.peek_ensures) fun _ _ => ?_
    refine .bind (.lift Lexer.skipLineEnds_ensures) fun _ _ => ?_
    refine .bind (.lift Lexer.peek_ensures) fun next _ => .ite (fun _ => ?_) fun _ => ?_
    · exact .pure ⟨governs_sound hc (.inl rfl), hi, trivial, trivial⟩
    · refine .bind (.lift Lexer.consume_ensures) fun _ _ => .bind keeps_remaining fun later _ => ?_
      refine .dite (fun less => (halt later less).bind fun alt ha => ?_) fun _ => .fail trivial
      exact .pure ⟨governs_sound hc (.inl rfl), hi, ha, trivial⟩

/-- The statements of a switch are well formed, whatever label it is given. -/
theorem ensures_compileSwitch {label : Label} {inline : Bool} (hlabel : label ≠ 0) :
    K.Ensures (compileSwitch label inline) (·.1.Compiled K.options) := by
  refine .bind keeps_location fun loc _ => ?_
  refine .bind (P := fun r => r.1.Sound K.options) ?_ fun (draft, afterHash) hdraft =>
    (ensures_emitAll hdraft).bind fun ps hps => .pure ⟨hlabel, hps.1, hps.2⟩
  refine ensures_repeatFrom (I := Draft.Sound K.options) trivial fun d hd => ?_
  refine .bind (.lift Lexer.peek_ensures) fun token _ => ?_
  split
  · refine .bind (.lift Lexer.consume_ensures) fun _ _ => ?_
    refine .bind keeps_parseDefine fun defined _ => ?_
    exact .ite (fun _ => .pure hd) fun _ => .pure hd
  · exact .guard trivial fun _ => .pure hd
  · exact .bind (.lift Lexer.consume_ensures) fun _ _ => .pure hd
  · refine .ite (fun _ => .pure hd) fun _ => .bind keeps_remaining fun bound _ => ?_
    refine .bind (.lift Lexer.expect_ensures) fun first hfirst => ?_
    exact .bind (ensures_parseStatement hfirst.2) fun d' hd' => .pure (hd.append hd')

end Contract

end ApeScript
