import ApeScript.Compile.Program
import ApeScript.Proofs.CamLine
import ApeScript.Proofs.Diagnostics
import ApeScript.Proofs.FormatText
import ApeScript.Proofs.ProgressingScript
import ApeScript.Proofs.VariableLines

/-!
# Every loop of a window reads on

The directives of windows and the scripts they stand in, by the rules for compilers that read on.
Most loops over words end at the end of the line and read a word otherwise (`Compiler.ReadsWords`).
-/

namespace ApeScript

namespace Compiler

open Lexer (Remaining UpTo Below Shows)

variable {α : Type} {r : Remaining} {w : WindowDraft} {loc : Location} {token : Token}

/-! ### Conditions and texts -/

theorem steady_activeCondition : Steady (activeCondition w) := by
  unfold activeCondition
  generalize w.blocks.reverse = outermostFirst
  cases outermostFirst with
  | nil => exact .pure _
  | cons outermost rest => exact steady_toCondition

theorem steady_checkUnconditional : Steady (checkUnconditional w loc) :=
  .ite (.pure _) (.fail trivial)

theorem steady_checkUnset {slot : Option α} {cause : Cause} (h : cause.Direct) :
    Steady (checkUnset slot loc cause) :=
  .ite (.fail h) (.pure _)

theorem steady_openBlock {b : ConditionBlock} : Steady (openBlock w b) :=
  .bind steady_skipLineEnds fun _ => .bind (steady_peek rfl) fun _ =>
    .ite (.bind steady_consume fun _ => .pure _) (.pure _)

theorem steady_openIf : Steady (openIf w loc) :=
  .bind (steady_expect (by decide)) fun _ => .bind steady_parseExpr fun _ =>
    .bind (steady_expect (by decide)) fun _ => .guard trivial steady_openBlock

theorem steady_openElse : Steady (openElse w loc) := by
  unfold openElse
  split
  · exact .fail trivial
  · exact .guard trivial (.guard trivial steady_openBlock)

theorem steady_closeBrace : Steady (closeBrace w loc) := by
  unfold closeBrace
  split
  · exact .fail trivial
  · exact .guard trivial (.bind steady_options fun _ => .guard trivial (.pure _))

theorem steady_atLineEnd : Steady atLineEnd := .bind (steady_peek rfl) fun _ => .pure _

theorem steady_parseText : Steady parseText := .bind steady_read fun _ => steady_stringValue

theorem steady_parseFormattedText {code : UInt8} : Steady (parseFormattedText w code) :=
  .bind steady_activeCondition fun _ => .bind steady_parseText fun _ =>
    .bind steady_parseFormatList fun _ => .pure _

theorem steady_parseArgument {comma : Bool} : Steady (parseArgument comma) := by
  unfold parseArgument
  extract_lets argument
  have hargument : Steady (argument ()) :=
    .bind steady_location fun _ => .bind steady_parseNumeric fun _ =>
      .bind steady_toExpr fun _ => .pure _
  exact .ite (.bind (steady_expect (by decide)) fun _ => hargument) hargument

theorem steady_parsePrint {withFont : Bool} : Steady (parsePrint w withFont) := by
  refine .bind steady_activeCondition fun (condition, emits) => ?_
  refine .bind steady_parseArgument fun x => .bind steady_parseArgument fun y => ?_
  refine .bind steady_parseArgument fun alpha => ?_
  extract_lets message
  have hmessage (r : Option Expr × Option Expr × Option Expr × Option Bytes) :
      Steady (message r) :=
    .bind (steady_expect (by decide)) fun _ => .bind steady_parseText fun _ =>
      .bind steady_parseFormatList fun _ => .ite (.pure _) (.pure _)
  refine .ite ?_ (hmessage (none, none, none, none))
  refine .bind steady_parseArgument fun red => .bind steady_parseArgument fun green => ?_
  refine .bind steady_parseArgument fun blue => .bind (steady_expect (by decide)) fun _ => ?_
  exact .bind steady_parseWord fun font => hmessage (red, green, blue, some font)

theorem steady_parseConsole {slot : Option Bytes} : Steady (parseConsole w loc slot) :=
  .bind steady_checkUnconditional fun _ => .bind (steady_checkUnset trivial) fun _ =>
    .bind steady_warn fun _ => .bind steady_parseText fun _ => .pure _

theorem steady_parseNamed {slot : Option Bytes} {repeated : Cause} (h : repeated.Direct) :
    Steady (parseNamed w loc slot repeated) :=
  .bind steady_checkUnconditional fun _ => .bind (steady_checkUnset h) fun _ => steady_parseName

theorem steady_parseNextWindow {isReturn : Bool} : Steady (parseNextWindow w loc isReturn) := by
  refine .bind steady_checkUnconditional fun _ => .bind (steady_checkUnset trivial) fun _ => ?_
  exact .ite (.pure _) (.bind steady_read fun _ => .guard trivial (.pure _))

/-! ### Switches and sub-windows -/

theorem steady_nextInlineLabel : Steady nextInlineLabel := by
  refine .bind steady_state fun s => .ite (.bind steady_location fun _ => .fail_bind trivial) ?_
  exact .bind (steady_modify fun _ => rfl) fun _ => .bind steady_context fun _ => .pure _

theorem steady_parseSwitchRef {slot : Option Label} : Steady (parseSwitchRef w loc slot) := by
  refine .bind steady_checkUnconditional fun _ => .bind (steady_checkUnset trivial) fun _ => ?_
  refine .bind (steady_peek rfl) fun token => .ite steady_parseLabel ?_
  refine .bind steady_skipLineEnds fun _ => .bind (steady_expect (by decide)) fun _ => ?_
  refine .bind steady_nextInlineLabel fun label => ?_
  refine .bind steady_compileSwitch fun (switch, afterHash) => ?_
  refine .ite (.bind steady_location fun _ => .fail_bind trivial) ?_
  refine .bind (steady_expect (by decide)) fun _ => ?_
  exact .bind (steady_modify fun _ => rfl) fun _ => .pure _

theorem steady_parseSubWindow : Steady (parseSubWindow w loc) :=
  .bind steady_checkUnconditional fun _ => .bind steady_parseLabel fun _ => .pure _

/-! ### Flags and dimensions -/

/-- A round ends the loop at the end of the line, and reads a word otherwise. -/
def ReadsWords {σ : Type} (round : σ → Compiler (σ ⊕ α)) (f : σ → α)
    (k : σ → Token → Compiler (σ ⊕ α)) : Prop :=
  ∀ a, round a = (do
    if ← atLineEnd then return .inr (f a)
    k a (← Lexer.expect .identifier))

theorem ReadsWords.proceeds {σ : Type} {round : σ → Compiler (σ ⊕ α)} {f : σ → α}
    {k : σ → Token → Compiler (σ ⊕ α)} (h : ReadsWords round f k)
    (hk : ∀ a token, Steady (k a token)) : Proceeds round := by
  intro a r
  rw [h a]
  refine .bind (steady_atLineEnd r) fun ended => .ite (fun _ => .pure fun _ h => h) fun _ => ?_
  refine .bind (spends_expect (by decide) r) fun token => ?_
  refine ((hk a token).below r).mono (fun _ h => h) fun result _ h => ?_
  cases result with
  | inl next => exact h
  | inr b => exact h.upTo

theorem proceeds_parseFlagsRound : Proceeds parseFlagsRound := by
  refine ReadsWords.proceeds (fun _ => rfl) fun flags token => ?_
  split
  · exact .guard trivial (.pure _)
  · exact .fail trivial

theorem parseFlags_eq : parseFlags w loc = (do
    checkUnconditional w loc
    let flags ← repeatFrom w.flags parseFlagsRound
    return { w with flags := flags }) := rfl

theorem steady_parseFlags : Steady (parseFlags w loc) := by
  rw [parseFlags_eq]
  exact .bind steady_checkUnconditional fun _ =>
    .bind (steady_repeatFrom proceeds_parseFlagsRound) fun _ => .pure _

theorem steady_parseDimension {slot : Option Expr} : Steady (parseDimension w loc slot) :=
  .bind steady_checkUnconditional fun _ => .bind (steady_checkUnset trivial) fun _ =>
    .bind steady_location fun _ => .bind steady_parseExpr fun _ => steady_toExpr

/-! ### Images -/

theorem steady_parseImageSize : Steady parseImageSize := by
  refine .bind (steady_peek rfl) fun token => .ite (.pure _) ?_
  refine .bind steady_consume fun _ => .bind steady_location fun loc => ?_
  refine .bind steady_parseNumeric fun v => ?_
  extract_lets store
  have hstore : Steady (store ()) := .bind steady_toExpr fun _ => .pure _
  split
  · exact .ite (.bind steady_warn fun _ => hstore) hstore
  · exact hstore

theorem proceeds_parseImageFlagsRound : Proceeds parseImageFlagsRound := by
  refine fun flags r => .bind (spends_expect (by decide) r) fun token => ?_
  split
  · exact .fail trivial
  · refine .guard trivial fun _ => .bind (steady_atLineEnd.below r) fun ended => ?_
    exact .ite (fun _ => .pure fun _ h => h.upTo) fun _ => .pure fun _ h => h

theorem parseImageFlags_eq : parseImageFlags = (do
    if (← Lexer.peekNormal).type ≠ .comma then return 0
    Lexer.consume
    repeatFrom 0 parseImageFlagsRound) := rfl

theorem steady_parseImageFlags : Steady parseImageFlags := by
  rw [parseImageFlags_eq]
  refine .bind (steady_peek rfl) fun token => .ite (.pure _) ?_
  exact .bind steady_consume fun _ => steady_repeatFrom proceeds_parseImageFlagsRound

theorem steady_parseImage : Steady (parseImage w) := by
  refine .bind steady_activeCondition fun _ => .bind steady_parseName fun _ => ?_
  refine .bind steady_parseArgument fun _ => .bind steady_parseArgument fun _ => ?_
  refine .bind steady_parseImageSize fun width => .ite_bind steady_parseImageSize (.pure _) ?_
  refine fun height => .ite_bind steady_parseImageFlags (.pure _) fun flags => ?_
  exact .ite (.pure _) (.pure _)

/-! ### Choices -/

theorem proceeds_parseChoiceRound : Proceeds parseChoiceRound := by
  refine fun values r => .bind (.lift (Lexer.progress_peek rfl)) fun token => ?_
  -- a value and the comma after it
  have hvalue {x : Compiler FormatValue} {P : Lexer → Prop}
      (hx : Progress P x fun _ => UpTo r) : Progress P (do
        let v ← x
        let _ ← Lexer.expect .comma
        return .inl (values ++ [v]) : Compiler (List FormatValue ⊕ (List FormatValue × Label)))
        (Sum.elim (fun _ => Below r) fun _ => UpTo r) :=
    hx.bind fun v => .bind (spends_expect (by decide) r) fun _ => .pure fun _ h => h
  refine .ite (fun _ => ?_) fun htype => ?_
  · exact hvalue ((steady_parseFormatValue r).mono (fun _ h => h.toUpTo) fun _ _ h => h)
  · refine .bind (consume_below (by simp [not_not.1 htype])) fun _ => ?_
    refine .bind ((steady_peek rfl).below r) fun next => .ite (fun _ => ?_) fun _ => ?_
    · refine .bind (steady_consume.below r) fun _ => ?_
      refine .bind ((steady_expect (by decide)).below r) fun low => ?_
      exact .bind (steady_labelOfTokens.below r) fun label => .pure fun _ h => h.upTo
    · refine hvalue ((steady_formatValueOfToken.below r).mono (fun _ h => h) fun _ _ h => h.upTo)

theorem steady_parseChoiceArguments : Steady parseChoiceArguments :=
  steady_repeatFrom proceeds_parseChoiceRound

theorem steady_parseChoice : Steady (parseChoice w) := by
  refine .bind steady_activeCondition fun (condition, emits) => ?_
  refine .bind steady_read fun token => .bind steady_stringValue fun _ => ?_
  refine .bind (steady_peek rfl) fun next => ?_
  extract_lets add
  have hadd (r : List FormatValue × Label) : Steady (add r) := .ite (.pure _) (.pure _)
  refine .ite (.bind steady_consume fun _ => ?_) ?_
  · exact .bind steady_parseChoiceArguments hadd
  · exact .bind steady_parseLabel fun label => hadd ([], label)

/-! ### Conversations -/

theorem proceeds_parseStayRound : Proceeds parseStayRound :=
  ReadsWords.proceeds (fun _ => rfl) fun _ _ => .guard trivial (.guard trivial (.pure _))

theorem parseStay_eq : parseStay = repeatFrom none parseStayRound := rfl

theorem steady_parseStay : Steady parseStay := by
  rw [parseStay_eq]
  exact steady_repeatFrom proceeds_parseStayRound

theorem steady_parseTalk : Steady (parseTalk w loc) := by
  refine .bind steady_checkUnconditional fun _ => .bind (steady_checkUnset trivial) fun _ => ?_
  refine .bind (steady_expect (by decide)) fun target => ?_
  extract_lets animate
  have hanimate (names : Bytes × Bytes) : Steady (animate names) :=
    .bind steady_parseWord fun _ => .bind steady_parseStay fun _ => .pure _
  refine .ite (.bind (.pure (npcName, playerName)) hanimate) ?_
  exact .ite_bind (.pure _) (.fail trivial) hanimate

theorem steady_parseStayWord : Steady parseStayWord :=
  .bind (steady_expect (by decide)) fun _ => .ite (.pure _) (.ite (.pure _) (.fail trivial))

theorem steady_parseTalkEx : Steady (parseTalkEx w loc) := by
  refine .bind steady_checkUnconditional fun _ => .bind (steady_checkUnset trivial) fun _ => ?_
  refine .bind steady_parseWord fun _ => .bind steady_parseWord fun _ => ?_
  refine .bind steady_parseWord fun _ => .bind steady_parseWord fun _ => ?_
  refine .bind steady_atLineEnd fun _ => .ite (.pure _) ?_
  exact .bind steady_parseStayWord fun _ => .bind steady_parseStayWord fun _ => .pure _

/-! ### Backgrounds -/

theorem steady_parseColor : Steady parseColor := by
  refine .bind (steady_expect (by decide)) fun _ => .bind steady_read fun token => ?_
  split
  · exact .pure _
  · exact .fail trivial

theorem steady_parseBackdropWord {b : Backdrop} : Steady (parseBackdropWord b token) := by
  have hcolor {f : UInt32 → Backdrop} : Steady (parseColor >>= fun color => pure (f color)) :=
    .bind steady_parseColor fun _ => .pure _
  refine .ite hcolor (.ite hcolor (.ite hcolor (.ite hcolor ?_)))
  exact .ite (.pure _) (.ite (.pure _) (.ite (.pure _) (.ite (.pure _) (.fail trivial))))

theorem proceeds_parseBackdropRound : Proceeds parseBackdropRound := by
  refine fun b r => .bind (.lift (Lexer.progress_read_token rfl)) fun token => ?_
  have hgoOn (b : Backdrop) : Progress (Below r)
      (atLineEnd >>= fun ended => if ended then pure (.inr b) else pure (.inl b))
      (Sum.elim (fun _ : Backdrop => Below r) fun _ : Backdrop => UpTo r) :=
    .bind (steady_atLineEnd.below r) fun _ =>
      .ite (fun _ => .pure fun _ h => h.upTo) fun _ => .pure fun _ h => h
  have hread (htype : token.type ≠ .endOfFile) (l : Lexer)
      (h : l.UpTo r ∧ (token.type ≠ .endOfFile → l.Below r)) : l.Below r := h.2 htype
  split
  · rename_i htype
    exact .guard trivial fun _ => (hgoOn _).mono (hread (by simp [htype])) fun _ _ h => h
  · rename_i htype
    refine .bind ((steady_parseBackdropWord.below r).mono (hread (by simp [htype])) ?_) hgoOn
    exact fun _ _ h => h
  · exact .fail_bind trivial

theorem steady_parseBackdrop {corners : Corners} : Steady (parseBackdrop corners) := by
  rw [parseBackdrop_eq]
  exact steady_repeatFrom proceeds_parseBackdropRound

theorem steady_parseBackground : Steady (parseBackground w) := by
  refine .bind steady_activeCondition fun (condition, emits) => ?_
  refine .bind steady_parseBackdrop fun b => ?_
  refine .ite (.bind steady_location fun _ => .fail_bind trivial) ?_
  extract_lets w' name
  split
  · exact .pure _
  · exact .pure _

/-! ### Cameras -/

theorem steady_parseCamText : Steady parseCamText := by
  refine .bind (steady_expect (by decide)) fun _ => .bind steady_read fun token => ?_
  refine .ite_bind steady_stringValue (.pure _) fun word => ?_
  exact .guard trivial (.bind (steady_expect (by decide)) fun _ => .pure _)

theorem steady_parseCamNumber : Steady parseCamNumber :=
  .bind (steady_expect (by decide)) fun _ => .bind (steady_expect (by decide)) fun _ =>
    .bind (steady_expect (by decide)) fun _ => .bind (.located (camNumber_direct ..)) fun _ =>
      .guard trivial (.pure _)

theorem steady_parseCamSetting {c : Cam} : Steady (parseCamSetting c token) := by
  have htext {f : Bytes → Cam} : Steady (parseCamText >>= fun word => pure (f word)) :=
    .bind steady_parseCamText fun _ => .pure _
  have hnumber {f : UInt16 → Cam} : Steady (parseCamNumber >>= fun n => pure (f n)) :=
    .bind steady_parseCamNumber fun _ => .pure _
  refine .ite htext (.ite htext (.ite htext (.ite hnumber (.ite hnumber (.ite hnumber ?_)))))
  refine .ite hnumber (.ite hnumber (.ite hnumber (.ite hnumber (.ite hnumber ?_))))
  refine .ite hnumber (.ite (.bind steady_parseCamNumber fun _ => .guard trivial (.pure _)) ?_)
  exact .ite (.pure _) (.ite (.pure _) (.fail trivial))

theorem steady_parseCamName : Steady parseCamName := by
  refine .bind steady_options fun o => .ite (.bind (steady_expect (by decide)) fun _ => .pure _) ?_
  exact .bind steady_read fun _ => .ite (.bind steady_warn fun _ => .pure _) (.pure _)

theorem proceeds_parseCamRound : Proceeds parseCamRound :=
  ReadsWords.proceeds (fun _ => rfl) fun _ _ => .bind steady_parseCamSetting fun _ => .pure _

theorem parseCam_eq : parseCam w loc = (do
    checkUnset w.cam loc .camRepeated
    checkUnconditional w loc
    let cam ← repeatFrom ⟨← parseCamName, none, none, none, .allUnset⟩ parseCamRound
    return { w with cam := some cam }) := rfl

theorem steady_parseCam : Steady (parseCam w loc) := by
  rw [parseCam_eq]
  refine .bind (steady_checkUnset trivial) fun _ => .bind steady_checkUnconditional fun _ => ?_
  exact .bind steady_parseCamName fun _ =>
    .bind (steady_repeatFrom proceeds_parseCamRound) fun _ => .pure _

/-! ### Directives -/

theorem steady_parseCommand : Steady (parseCommand w token) := by
  -- a directive whose result is stored in the draft
  have hstore {β : Type} {x : Compiler β} {f : β → WindowDraft} (hx : Steady x) :
      Steady (x >>= fun a => pure (f a)) := hx.bind fun _ => .pure _
  have hdimension {slot : Option Expr} {f : Expr → WindowDraft} :
      Steady (parseDimension w token.loc slot >>= fun e => pure (f e)) :=
    hstore steady_parseDimension
  have htext {code : UInt8} {f : List Command → WindowDraft} :
      Steady (parseFormattedText w code >>= fun cs => pure (f cs)) :=
    hstore steady_parseFormattedText
  have hswitch {slot : Option Label} {f : Label → WindowDraft} :
      Steady (parseSwitchRef w token.loc slot >>= fun label => pure (f label)) :=
    hstore steady_parseSwitchRef
  refine .ite hdimension (.ite hdimension (.ite hdimension (.ite hdimension ?_)))
  refine .ite htext (.ite htext (.ite steady_parseTalk (.ite steady_parseTalkEx ?_)))
  refine .ite steady_parseImage (.ite steady_parseFlags (.ite steady_parseSubWindow ?_))
  refine .ite steady_parseChoice (.ite (hstore steady_parseConsole) ?_)
  refine .ite (hstore steady_parseConsole) (.ite (hstore (steady_parseNamed trivial)) ?_)
  refine .ite (hstore (steady_parseNamed trivial)) (.ite steady_parseNextWindow ?_)
  refine .ite steady_parseNextWindow (.ite steady_parsePrint (.ite steady_parsePrint ?_))
  refine .ite hswitch (.ite hswitch (.ite hswitch (.ite steady_parseBackground ?_)))
  exact .ite steady_parseCam (.fail trivial)

theorem steady_parseDirective : Steady (parseDirective w token) := by
  refine .ite (.pure _) (.ite steady_closeBrace (.ite steady_openElse (.guard trivial ?_)))
  refine .ite steady_openIf (.bind steady_parseCommand fun w => ?_)
  exact .bind (steady_peek rfl) fun _ => .guard trivial (.pure _)

/-- Each line and definition of a window reads on. -/
theorem proceeds_parseWindowRound : Proceeds parseWindowRound := by
  refine fun w r => .bind peekNormal_shows fun token => ?_
  split
  · rename_i htype
    refine .bind (consume_below (by simp [htype])) fun _ => ?_
    refine .bind (steady_parseDefine.below r) fun defined => .ite (fun _ => ?_) fun _ => ?_
    · exact .pure fun _ h => h
    · exact .pure fun _ h => h.upTo
  · exact .pure fun _ h => h.toUpTo
  · rename_i htype
    exact .bind (consume_below htype) fun _ =>
      .bind (steady_parseDirective.below r) fun w => .pure fun _ h => h

theorem steady_compileWindow : Steady compileWindow := by
  refine .bind steady_parseDefinitionLabel fun label => ?_
  refine .bind steady_read fun token => .guard trivial ?_
  refine .bind (steady_repeatFrom proceeds_parseWindowRound) fun (draft, afterHash) => ?_
  dsimp only
  split
  · exact .fail_bind trivial
  · exact .pure _

/-! ### Programs -/

theorem steady_skipToHash : Steady skipToHash := by
  refine steady_repeatFrom fun _ r => ?_
  refine .bind (.lift (Lexer.progress_peek rfl)) fun token => .ite (fun _ => ?_) fun htype => ?_
  · exact .pure fun _ h => h.toUpTo
  · exact .bind (consume_below fun hend => htype (.inr hend)) fun _ => .pure fun _ h => h

/-- A number sign that is found has been read. -/
theorem progress_findHash :
    Progress (UpTo r) findHash fun found l => if found then l.Below r else l.UpTo r := by
  refine .bind (steady_skipLineEnds r) fun _ => ?_
  refine .bind (.lift (Lexer.progress_read_token rfl)) fun token => ?_
  refine .ite (fun _ => ?_) fun htype => ?_
  · exact .pure fun _ h => h.1
  · exact .guard trivial fun _ => .pure fun _ h => h.2 htype

theorem spends_parseTopDirective {p : ProgramDraft} : Spends (parseTopDirective p) := by
  refine fun r => .bind (.lift (Lexer.progress_read_token rfl)) fun kind => ?_
  refine .guard trivial fun htype => ?_
  have hend : kind.type ≠ .endOfFile := by simp [not_not.1 htype]
  refine Progress.mono (P := Below r) ?_ (fun l h => h.2 hend) fun _ _ h => h
  refine .ite (fun _ => ?_) fun _ => .ite (fun _ => ?_) fun _ => .ite (fun _ => ?_) fun _ => ?_
  · exact .bind (steady_compileWindow.below r) fun _ => .pure fun _ h => h
  · exact .bind (steady_parseDefinitionLabel.below r) fun label =>
      .bind (steady_compileSwitch.below r) fun _ => .pure fun _ h => h
  · exact .bind (steady_defineMacro.below r) fun _ => .pure fun _ h => h
  · exact .fail trivial

theorem proceeds_parseProgramRound : Proceeds parseProgramRound := by
  intro p r
  have hgoOn : Progress (UpTo r)
      (parseTopDirective p >>= fun p => pure (.inl p : ProgramDraft ⊕ ProgramDraft))
      (Sum.elim (fun _ => Below r) fun _ => UpTo r) :=
    .bind (spends_parseTopDirective r) fun _ => .pure fun _ h => h
  refine .ite (fun _ => .bind progress_findHash fun found => ?_) fun _ => hgoOn
  refine .ite (fun hfound => .pure fun l h => ?_) fun hfound => hgoOn.mono (fun l h => ?_) ?_
  · simpa [show found = false by simpa using hfound] using h
  · exact Lexer.Below.upTo (by simpa [show found = true by simpa using hfound] using h)
  · exact fun _ _ h => h

/-- No part of a compilation fails because a loop did not read on. -/
theorem steady_compileProgram : Steady compileProgram := by
  refine .bind steady_options fun o => ?_
  extract_lets program
  have hprogram (u : Unit) : Steady (program u) :=
    .bind (steady_repeatFrom proceeds_parseProgramRound) fun p =>
      .bind steady_state fun s => .pure _
  exact .ite (.bind steady_skipToHash hprogram) (hprogram ())

end Compiler

end ApeScript
