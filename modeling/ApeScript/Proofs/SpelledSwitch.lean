import ApeScript.Proofs.SpelledExpr

/-!
# Switches of a text without definitions

The statements of a switch take their words from the text, so no word has a carriage return. Without
definitions every word that is written without quotes stands in the text as it is, so it is read as
one word again. Simplifying a draft keeps its statements, and emitting them keeps their words.
-/

namespace ApeScript

open Script (Mild RawWord)

open Compiler in
theorem Compiler.wordStatements_plain :
    ∀ p ∈ wordStatements, p.2 ≠ .externCall ∧ p.2 ≠ .setString := by decide

open Compiler in
theorem Statement.worded_iff {type : StatementType} {s : Bytes} {format : List FormatValue}
    {expr : Option Expr} : Statement.Worded ⟨type.code, some s, format, expr⟩ ↔
      (∀ v ∈ format, 34 ∉ v.literal) ∧ (type = .externCall → RawWord restFlags s) ∧
      (type = .setString → ∀ name value, Bytes.cut? 61 s = some (name, value) →
        value.head? ≠ some 34 → RawWord assignedFlags value) ∧
      ((∃ word, (word, type) ∈ wordStatements) → RawWord wordFlags s) := by
  have hcall : ¬ ∃ word, (word, StatementType.externCall) ∈ wordStatements :=
    fun h => (wordStatements_plain _ h.choose_spec).1 rfl
  have hassign : ¬ ∃ word, (word, StatementType.setString) ∈ wordStatements :=
    fun h => (wordStatements_plain _ h.choose_spec).2 rfl
  rw [Worded, StatementType.ofCode?_code]
  cases type with
  | externCall => simp [hcall]
  | setString => simp [hassign]
  | _ => simp

/-- What a statement of a draft says has no carriage return, and its words, if `free`, are read as
they are. -/
structure DraftStatement.Mild (free : Bool) (s : DraftStatement) : Prop where
  str : ∀ str ∈ s.str, 13 ∉ str
  format : ∀ v ∈ s.format, v.Mild free
  expr : ∀ v ∈ s.expr, Returnless v.texts
  worded : free = true → ∀ expr, Statement.Worded ⟨s.type.code, s.str, s.format, expr⟩

/-- A statement that governs others has neither a text nor formatting values. -/
theorem DraftStatement.mild_governs {free : Bool} {type : StatementType} {v : Value}
    {loc : Location} (hv : Returnless v.texts) :
    (⟨type, none, [], some v, loc⟩ : DraftStatement).Mild free :=
  ⟨by simp, by simp, by simpa using hv, fun _ _ => ⟨by simp, by simp⟩⟩

theorem DraftStatement.Mild.placed {free : Bool} {o : Options} {s : DraftStatement} {p : Placed}
    (hs : s.Mild free) (h : s.StoredAs o p.statement) : p.Mild free where
  strings := by
    have hexpr : Returnless (p.statement.expr.toList.flatMap Expr.strings) := by
      have hrel := h.expr
      have htexts := hs.expr
      revert hrel htexts
      generalize s.expr = expr
      generalize p.statement.expr = stored
      rintro (hv | _) htexts
      · simpa using hv.strings (htexts _ rfl)
      · simp
    rw [Placed.strings, h.str, h.format]
    simp only [returnless_append, returnless_flatMap]
    exact ⟨fun str hstr => hs.str str (Option.mem_toList.1 hstr),
      fun v hv => (hs.format v hv).strings, by simpa using hexpr⟩
  worded hfree := by
    have hworded := hs.worded hfree p.statement.expr
    rwa [← h.type, ← h.str, ← h.format] at hworded

namespace Draft

variable {free optimize : Bool} {d d' : Draft}

abbrev Mild (free : Bool) (d : Draft) : Prop := d.All (·.Mild free)

theorem Mild.simplify (hd : d.Mild free) (h : d.simplify optimize = .ok d') : d'.Mild free := by
  refine All.simplify hd h fun s condition folded hs hcondition hfolded => ?_
  have htexts : Returnless folded.texts := by
    split at hfolded
    · exact (hs.expr condition hcondition).subset (Value.texts_fold hfolded)
    · cases hfolded
      exact hs.expr condition hcondition
  exact ⟨DraftStatement.mild_governs htexts,
    DraftStatement.mild_governs (htexts.subset (Value.texts_invert _))⟩

theorem Mild.placed {o : Options} {b : Block} (hd : d.Mild free) (h : d.StoredAs o b) :
    ∀ p ∈ b.placed, p.Mild free := by
  induction d generalizing b with
  | done =>
    cases b with
    | done => simp [Block.placed]
    | step => cases h
  | step s inner alt rest ihi iha ihr =>
    cases b with
    | done => cases h
    | step p inner' alt' rest' =>
      obtain ⟨hs, hi, ha, hr⟩ := hd
      obtain ⟨hp, hi', ha', hr'⟩ := h
      refine List.forall_mem_cons.2 ⟨hs.placed hp, ?_⟩
      exact List.forall_mem_append.2
        ⟨List.forall_mem_append.2 ⟨ihi hi hi', iha ha ha'⟩, ihr hr hr'⟩

end Draft

namespace Compiler

variable {free r : Bool} {c : CompileContext} {loc : Location} {token : Token}
  {type : StatementType}

theorem tidies_emitAll {d : Draft} (hd : d.Mild free) :
    Tidies c free r (emitAll d) r fun ps => ∀ p ∈ ps, p.Mild free := by
  refine .bind tidies_options fun o _ => ?_
  split
  · exact .fail
  · refine .pure (List.forall_mem_singleton.2 ⟨by simp [Placed.strings], fun _ => ?_⟩)
    exact ⟨by simp, by simp⟩
  · rename_i hsimple
    refine fun s hs => gives_emit.mono ?_
    rintro _ t ⟨ht, b, rfl, -, hstored⟩
    exact ⟨hs.hushed ht, (hd.simplify hsimple).placed hstored⟩

/-! ### Statements -/

theorem tidies_single {str : Option Bytes} {format : List FormatValue} {expr : Option Value}
    (hstr : ∀ s ∈ str, 13 ∉ s) (hformat : ∀ v ∈ format, v.Mild free)
    (hexpr : ∀ v ∈ expr, Returnless v.texts)
    (hworded : free = true → ∀ expr, Statement.Worded ⟨type.code, str, format, expr⟩) :
    Tidies c free r (pure (.single ⟨type, str, format, expr, loc⟩)) r (Draft.Mild free) :=
  .pure (.single ⟨hstr, hformat, hexpr, hworded⟩)

/-- A statement whose text is not written as a bare word. -/
theorem tidies_plain {s : Bytes} {format : List FormatValue} {expr : Option Value}
    (hstr : 13 ∉ s) (hformat : ∀ v ∈ format, v.Mild free) (hexpr : ∀ v ∈ expr, Returnless v.texts)
    (htype : type ≠ .externCall ∧ type ≠ .setString ∧ ∀ word, (word, type) ∉ wordStatements) :
    Tidies c free r (pure (.single ⟨type, some s, format, expr, loc⟩)) r (Draft.Mild free) := by
  refine tidies_single (by simpa using hstr) hformat hexpr fun hfree _ => ?_
  obtain ⟨hcall, hassign, hword⟩ := htype
  exact Statement.worded_iff.2 ⟨fun v hv => (hformat v hv).unquoted hfree,
    fun h => absurd h hcall, fun h => absurd h hassign, fun h => absurd h.choose_spec (hword _)⟩

theorem isPrefix_trimRight (s : Bytes) : trimRight s <+: s := List.rdropWhile_prefix _ _

theorem trimRight_ne_nil {s : Bytes} (h : ∀ b ∈ s.head?, 32 < b) (hne : s ≠ []) :
    trimRight s ≠ [] := by
  obtain ⟨a, s, rfl⟩ := List.exists_cons_of_ne_nil hne
  refine fun hnil => ?_
  have hblank := List.rdropWhile_eq_nil_iff.1 hnil a List.mem_cons_self
  have ha := h a rfl
  revert ha
  simp only [isTrailingBlank, Bool.or_eq_true, decide_eq_true_eq] at hblank
  rcases hblank with rfl | rfl <;> decide

theorem rawWord_trimRight {s : Bytes} (hs : RawWord wordFlags s) :
    RawWord wordFlags (trimRight s) :=
  hs.of_start (isPrefix_trimRight s) (trimRight_ne_nil hs.start hs.nonempty) rfl rfl rfl

theorem trimRight_word {s : Bytes} (hs : Script.Word s) : trimRight s = s := by
  refine List.rdropWhile_eq_self_iff.2 fun hne => ?_
  have hlast := hs.solid _ (List.getLast_mem hne)
  simp only [isTrailingBlank, Bool.or_eq_true, decide_eq_true_eq]
  rintro (h | h) <;> rw [h] at hlast <;> exact absurd hlast (by decide)

theorem tidies_parseOptionalWord {word : Bytes} (htype : (word, type) ∈ wordStatements) :
    Tidies c free true (parseOptionalWord type loc) false (Draft.Mild free) := by
  refine .bind tidies_peekRaw fun token ht => .ite (fun _ => ?_) fun hline => ?_
  · exact tidies_single (by simp) (by simp) (by simp) fun _ _ => ⟨by simp, by simp⟩
  · refine .bind tidies_consume fun _ _ => ?_
    extract_lets text
    have hreturns : 13 ∉ text := by
      change 13 ∉ if token.type = .string then token.unquoted else token.text
      split
      · exact (ht.1.1.part (unquoted_part token)).returns
      · exact ht.1.1.returns
    refine .bind tidies_parseFormatList fun format hformat => ?_
    refine tidies_single ?_ hformat (by simp) fun hfree _ => ?_
    · rintro _ ⟨⟩
      exact fun h => hreturns ((isPrefix_trimRight text).subset h)
    · obtain ⟨hraw, hword⟩ := Lexer.Stood.word (ht.2 hfree) rfl hline
      have htext : text = token.text := if_neg (by simp [hraw])
      have hother : type ≠ .externCall ∧ type ≠ .setString := wordStatements_plain _ htype
      refine Statement.worded_iff.2 ⟨fun v hv => (hformat v hv).unquoted hfree,
        fun h => absurd h hother.1, fun h => absurd h hother.2, fun _ => ?_⟩
      rw [htext]
      exact rawWord_trimRight hword

theorem tidies_parseQuotedStatement {word : Bytes} (htype : (word, type) ∈ quotedStatements) :
    Tidies c free r (parseQuotedStatement type loc) false (Draft.Mild free) := by
  refine .bind tidies_read fun token ht => .bind (tidies_stringValue ht.1) fun text htext => ?_
  refine .bind tidies_parseFormatList fun format hformat => ?_
  have hquoted : ∀ p ∈ quotedStatements, p.2 ≠ .externCall ∧ p.2 ≠ .setString ∧
      ∀ q ∈ wordStatements, q.2 ≠ p.2 := by decide
  obtain ⟨hcall, hassign, hword⟩ := hquoted _ htype
  exact tidies_plain htext hformat (by simp) ⟨hcall, hassign, fun _ h => hword _ h rfl⟩

/-- What is left of a line when it is read where nothing waits. -/
theorem tidies_parseRestOfLine {missing : Cause} :
    Tidies c free true (parseRestOfLine missing) true fun s =>
      13 ∉ s ∧ (free = true → RawWord restFlags s) :=
  .bind tidies_readRaw fun _ ht => .guard fun hline => .pure
    ⟨ht.1.1.returns, fun hfree => (Lexer.Stood.word (ht.2 hfree) rfl hline).2⟩

theorem tidies_parseLabeled (htype : type = .goto ∨ type = .goSub ∨ type = .closeWindow) :
    Tidies c free r (parseLabeled type loc) true (Draft.Mild free) := by
  refine .bind tidies_parseLabel fun label _ => ?_
  refine tidies_plain label.text_not_mem_return (by simp) (by simp) ?_
  rcases htype with rfl | rfl | rfl <;> simp [wordStatements]

theorem tidies_parseGoto (hc : c.Plain) :
    Tidies c free r (parseGoto loc) true (Draft.Mild free) := by
  refine .bind tidies_options ?_
  rintro _ rfl
  rw [hc.legacyLabeledCommands, if_neg Bool.false_ne_true]
  exact tidies_parseLabeled (.inl rfl)

/-- A variable is named by an identifier. -/
theorem tidies_parseDestination (hc : c.Plain) :
    Tidies c free r parseDestination true (Script.Identifier ·.text) := by
  refine .bind tidies_options ?_
  rintro _ rfl
  simp only [hc.legacySetNaming, Bool.not_false, if_true]
  exact tidies_expect.mono fun token ht => ht.2.2 ht.1

/-- A literal keeps its quotes; what is read without quotes is one word. -/
theorem tidies_parseAssigned : Tidies c free true parseAssigned true fun s =>
    13 ∉ s ∧ (free = true → s.head? ≠ some 34 → RawWord assignedFlags s) := by
  refine .bind tidies_state fun s _ => .ite (fun _ => ?_) fun _ => ?_
  · refine .bind tidies_read fun token ht => .bind (tidies_stringValue ht.1) fun text htext => ?_
    exact .pure ⟨by simpa using htext, fun _ h => absurd rfl h⟩
  · refine .bind tidies_readRaw fun token ht => .guard fun hline => .pure ⟨?_, fun hfree _ => ?_⟩
    · exact fun h => ht.1.1.returns ((isPrefix_trimRight token.text).subset h)
    · have hword := (Lexer.Stood.word (ht.2 hfree) rfl hline).2
      rwa [trimRight_word (hword.word rfl rfl)]

theorem tidies_parseSet (hname : Script.Identifier token.text) :
    Tidies c free r (parseSet token) false (Draft.Mild free) := by
  refine .guard fun _ => .bind tidies_expect fun _ _ => .ite (fun _ => ?_) fun _ => ?_
  · refine .bind tidies_parseAssigned fun assigned hassigned => ?_
    refine .bind tidies_parseFormatList fun format hformat => ?_
    refine tidies_single ?_ hformat (by simp) fun hfree _ => ?_
    · simp [hname.not_mem_return, hassigned.1]
    · refine Statement.worded_iff.2 ⟨fun v hv => (hformat v hv).unquoted hfree, by simp, ?_,
        by simp [wordStatements]⟩
      intro _ name value hcut hopen
      rw [Bytes.cut?_append (not_mem_assign hname)] at hcut
      cases hcut
      exact hassigned.2 hfree hopen
  · refine .bind tidies_parseExpr fun v hv => .bind tidies_parseFormatList fun format hformat => ?_
    exact tidies_plain hname.not_mem_return hformat (by simpa using hv) (by simp [wordStatements])

theorem mild_unset (hname : Script.Identifier token.text) : (unset token).Mild free := by
  refine .single ⟨by simpa using hname.not_mem_return, by simp, by simp, fun _ expr => ?_⟩
  refine Statement.worded_iff.2 ⟨by simp, ?_, fun _ name value hcut => ?_, ?_⟩
  · split <;> simp
  · rw [Bytes.cut?_eq_none (not_mem_assign hname)] at hcut
    cases hcut
  · split <;> simp [wordStatements]

theorem tidies_parseSimple (hc : c.Plain) (htoken : token.type = .identifier ∧ token.Lettered) :
    Tidies c free true (parseSimple token) false (Draft.Mild free) := by
  unfold parseSimple
  split
  · exact tidies_parseOptionalWord (List.mem_of_find?_eq_some ‹_ = some _›)
  · exact tidies_parseQuotedStatement (List.mem_of_find?_eq_some ‹_ = some _›)
  · refine .ite (fun _ => .bind (tidies_parseDestination hc) fun _ => tidies_parseSet) fun _ => ?_
    refine .ite (fun _ => .bind (tidies_parseDestination hc) fun _ hname =>
      .weaken (.pure (mild_unset hname))) fun _ => ?_
    refine .ite (fun _ => .weaken (tidies_parseGoto hc)) fun _ => .ite (fun _ => ?_) fun _ => ?_
    · exact .weaken (tidies_plain (by decide) (by simp) (by simp) (by simp [wordStatements]))
    refine .ite (fun _ => .weaken (tidies_parseLabeled (.inr (.inl rfl)))) fun _ => ?_
    refine .ite (fun _ => .weaken (tidies_parseLabeled (.inr (.inr rfl)))) fun _ => ?_
    refine .ite (fun _ => ?_) fun _ => tidies_parseSet (htoken.2 htoken.1)
    refine .bind tidies_parseRestOfLine fun s hs => .weaken ?_
    refine tidies_single (by simpa using hs.1) (by simp) (by simp) fun hfree _ => ?_
    exact Statement.worded_iff.2 ⟨by simp, fun _ => hs.2 hfree, by simp, by simp [wordStatements]⟩

theorem tidies_parseCondition : Tidies c free r parseCondition true (Returnless ·.texts) := by
  refine .bind tidies_expect fun _ _ => .bind tidies_parseNumeric fun v hv => ?_
  exact .bind tidies_expect fun _ _ => .pure hv

theorem tidies_checkStatementEnd {elseMayFollow : Bool} :
    Tidies c free r (checkStatementEnd elseMayFollow) false fun _ => True :=
  .bind tidies_peek fun _ _ => .ite (fun _ => .fail) fun _ => .pure trivial

/-- The parser of statements, by the statements, the bodies they govern and the blocks in braces
that call one another. A statement is read behind its first token. -/
theorem tidies_parseStatement (hc : c.Plain) {bound : Lexer.Remaining} {elseMayFollow : Bool}
    (htoken : token.Lettered) :
    Tidies c free true (parseStatement bound token elseMayFollow) false (Draft.Mild free) := by
  have hstatement (bound : Lexer.Remaining) (token : Token) (elseMayFollow : Bool)
      (hif : Tidies c free true (parseIf bound token.loc) false (·.1.Mild free))
      (hwhile : Tidies c free true (parseWhile bound token.loc) false (Draft.Mild free))
      (htoken : token.Lettered) :
      Tidies c free true (parseStatement bound token elseMayFollow) false (Draft.Mild free) := by
    rw [parseStatement]
    refine .guard fun htype => .ite (fun _ => ?_) fun _ => ?_
    · refine hif.bind ?_
      rintro ⟨d, needsCheck⟩ hd
      exact .ite (fun _ => .bind tidies_checkStatementEnd fun _ _ => .pure hd) fun _ => .pure hd
    · extract_lets finish
      have hfinish (d : Draft) (hd : d.Mild free) :
          Tidies c free false (finish d) false (Draft.Mild free) :=
        .bind tidies_checkStatementEnd fun _ _ => .pure hd
      have hsimple : Tidies c free true (parseSimple token) false (Draft.Mild free) :=
        tidies_parseSimple hc ⟨not_not.1 htype, htoken⟩
      exact .ite_bind (fun _ => hwhile) (fun _ => hsimple) hfinish
  refine parseStatement.induct
    (fun bound token elseMayFollow => token.Lettered →
      Tidies c free true (parseStatement bound token elseMayFollow) false (Draft.Mild free))
    (fun bound loc => Tidies c free true (parseWhile bound loc) false (Draft.Mild free))
    (fun bound elseMayFollow =>
      Tidies c free true (parseBody bound elseMayFollow) false (Draft.Mild free))
    (fun bound opened isEmpty =>
      Tidies c free false (parseBlock bound opened isEmpty) false (Draft.Mild free))
    (fun bound loc => Tidies c free true (parseIf bound loc) false (·.1.Mild free))
    ?other ?statement ?loop ?body ?block ?branch bound token elseMayFollow htoken
  -- the two cases differ in whether the token is a word, which `hstatement` does not ask
  case other | statement =>
    intro bound token elseMayFollow _ hif hwhile
    exact hstatement bound token elseMayFollow hif hwhile
  case loop =>
    intro bound loc hbody
    rw [parseWhile]
    refine .bind tidies_parseCondition fun condition hv => .bind tidies_remaining fun now _ => ?_
    refine .dite (fun less => (hbody now less).bind fun inner hi => ?_) fun _ => .fail
    exact .pure ⟨DraftStatement.mild_governs hv, hi, trivial, trivial⟩
  case body =>
    intro bound elseMayFollow hblock hstatement
    rw [parseBody]
    refine .bind tidies_skipLineEnds fun _ _ => .bind tidies_read fun token htoken => ?_
    exact .ite (fun _ => .any (hblock token)) fun _ => hstatement token htoken.2
  case block =>
    intro bound opened isEmpty hskip hstatement hrest
    rw [parseBlock]
    refine .bind tidies_peek fun token _ => ?_
    split
    · refine .bind tidies_consume fun _ _ => .bind tidies_options fun o _ => ?_
      exact .guard fun _ => .weaken (.pure trivial)
    · exact .fail
    · refine .bind tidies_consume fun _ _ => .bind tidies_remaining fun now _ => ?_
      exact .dite (fun less => .any (hskip now less)) fun _ => .fail
    · refine .bind tidies_expect fun first hfirst => ?_
      refine (hstatement first hfirst.2.2).bind fun d hd => .bind tidies_remaining fun now _ => ?_
      refine .dite (fun less => (hrest now less).bind fun rest hr => ?_) fun _ => .fail
      exact .pure (hd.append hr)
  case branch =>
    intro bound loc hinner halt
    rw [parseIf]
    refine .bind tidies_parseCondition fun condition hv => .bind tidies_remaining fun now _ => ?_
    refine .dite (fun less => (hinner now less).bind fun inner hi => ?_) fun _ => .fail
    refine .bind tidies_peek fun _ _ => .bind tidies_skipLineEnds fun _ _ => ?_
    refine .bind tidies_peek fun next _ => .ite (fun _ => ?_) fun _ => ?_
    · exact .pure ⟨DraftStatement.mild_governs hv, hi, trivial, trivial⟩
    · refine .bind tidies_consume fun _ _ => .bind tidies_remaining fun later _ => ?_
      refine .dite (fun less => (halt later less).bind fun alt ha => ?_) fun _ => .fail
      exact .pure ⟨DraftStatement.mild_governs hv, hi, ha, trivial⟩

/-- Statements up to the next directive or up to a closing brace. -/
theorem tidies_compileSwitch (hc : c.Plain) {label : Label} {inline : Bool} :
    Tidies c free r (compileSwitch label inline) false (·.1.Mild free) := by
  refine .bind tidies_location fun loc _ => ?_
  refine .bind (P := fun r => r.1.Mild free) ?_ fun r hdraft =>
    (tidies_emitAll hdraft).bind fun ps hps => .pure hps
  refine tidies_repeatFrom (I := Draft.Mild free) trivial fun d hd => ?_
  refine .bind tidies_peek fun token _ => ?_
  split
  · refine .bind tidies_consume fun _ _ => .bind tidies_parseDefine fun defined _ => ?_
    exact .ite (fun _ => .pure hd) fun _ => .pure hd
  · exact .guard fun _ => .pure hd
  · exact .bind tidies_consume fun _ _ => .weaken (.pure hd)
  · refine .ite (fun _ => .pure hd) fun _ => .bind tidies_remaining fun bound _ => ?_
    refine .bind tidies_expect fun first hfirst => ?_
    exact .bind (tidies_parseStatement hc hfirst.2.2) fun d' hd' => .pure (hd.append hd')

end Compiler

end ApeScript
