import ApeScript.Compile.WindowBody
import ApeScript.Proofs.CompiledSwitch

/-!
# Compiled windows

A window draft is sound when its conditions are and the commands collected in each of its lists are
compiled commands of the kind the list is for. Every directive keeps the draft sound, so the
commands of a window are compiled ones, which are well formed. The contract of a compilation counts
the inline switches made so far: their labels stay in the range above the labels that scripts can
write, which does not contain zero.
-/

namespace ApeScript

structure Command.Compiled (o : Options) (c : Command) : Prop where
  coded : c.Coded
  exprs : ∀ e ∈ c.exprs, e.Compiled o
  formats : ∀ v ∈ c.formats, v.Compiled

theorem Command.Compiled.wellFormed {o : Options} {c : Command} (hc : c.Compiled o) :
    c.WellFormed :=
  ⟨hc.coded, fun e he => (hc.exprs e he).wellFormed, fun v hv => (hc.formats v hv).wellTyped⟩

structure Window.Compiled (o : Options) (w : Window) : Prop where
  id_ne_zero : w.id ≠ 0
  commands : ∀ c ∈ w.commands, c.Compiled o

theorem Window.Compiled.wellFormed {o : Options} {w : Window} (hw : w.Compiled o) :
    w.WellFormed :=
  ⟨hw.id_ne_zero, fun c hc => (hw.commands c hc).wellFormed⟩

structure Command.Made (o : Options) (code : UInt8) (c : Command) : Prop where
  code_eq : c.code = code
  compiled : c.Compiled o

theorem Command.compiled_plain {o : Options} {c : Command} (hc : c.Coded) (hexprs : c.exprs = [])
    (hformats : c.formats = []) : c.Compiled o :=
  ⟨hc, by simp [hexprs], by simp [hformats]⟩

namespace WindowDraft

structure Sound (o : Options) (w : WindowDraft) : Prop where
  blocks : ∀ b ∈ w.blocks, b.condition.Sound
  closed : ∀ b ∈ w.closed, b.condition.Sound
  titles : ∀ c ∈ w.titles, c.Made o CommandCode.title
  bodies : ∀ c ∈ w.bodies, c.Made o CommandCode.body
  prints : ∀ c ∈ w.prints, c.Made o CommandCode.xyPrint
  area : ∀ e ∈ w.area.exprs, e.Compiled o
  subWindows : ∀ c ∈ w.subWindows, c.Made o CommandCode.subWindow
  images : ∀ c ∈ w.images, c.Made o CommandCode.image
  choices : ∀ c ∈ w.choices, c.Made o CommandCode.choice

variable {o : Options}

theorem sound_empty : ({} : WindowDraft).Sound o := by
  constructor <;> exact fun _ h => (List.not_mem_nil h).elim

variable {w : WindowDraft}

theorem Sound.clearClosed (hw : w.Sound o) : Sound o { w with closed := [] } :=
  { hw with closed := by simp }

theorem Sound.closeUnbraced (hw : w.Sound o) : w.closeUnbraced.Sound o where
  __ := hw
  blocks := fun b hb => hw.blocks b ((List.dropWhile_sublist _).mem hb)
  closed := List.forall_mem_append.2
    ⟨hw.closed, fun b hb => hw.blocks b ((List.takeWhile_sublist _).mem hb)⟩

theorem Sound.markUsed (hw : w.Sound o) : w.markUsed.Sound o where
  __ := hw
  blocks := by simpa [WindowDraft.markUsed] using hw.blocks

theorem Sound.commands (hw : w.Sound o) : ∀ c ∈ w.commands, c.Compiled o := by
  have hslot {α : Type} {make : α → Command} {slot : Option α} (h : ∀ a, (make a).Compiled o) :
      ∀ c ∈ (slot.map make).toList, c.Compiled o := by
    intro c hc
    obtain ⟨a, -, rfl⟩ : ∃ a, slot = some a ∧ make a = c := by simpa using hc
    exact h a
  have hunless {p : Prop} [Decidable p] {c : Command} (h : c.Compiled o) :
      ∀ c' ∈ (if p then [] else [c]), c'.Compiled o := by
    split
    · simp
    · simpa using h
  have hmade {code : UInt8} {cs : List Command} (h : ∀ c ∈ cs, c.Made o code) :
      ∀ c ∈ cs, c.Compiled o := fun c hc => (h c hc).compiled
  have hsimple {code : UInt8} (h : CommandCode.isSimpleText code = true) (text : Bytes) :
      (Command.simpleText code text).Compiled o := Command.compiled_plain h rfl rfl
  have href {code : UInt8} (h : CommandCode.isSwitchRef code = true) (label : Label) :
      (Command.switchRef code label).Compiled o := Command.compiled_plain h rfl rfl
  refine List.forall_mem_flatten.2 ?_
  simp only [List.forall_mem_cons, List.not_mem_nil, false_imp_iff, implies_true, and_true]
  refine ⟨hmade hw.titles, hmade hw.bodies, hmade hw.prints, ?_, ?_, hslot (hsimple rfl),
    hslot (hsimple rfl), hslot (href rfl), hslot (href rfl), hslot (href rfl), hslot (hsimple rfl),
    hslot (hsimple rfl), hunless ?_, hunless ?_, ?_, hmade hw.subWindows, hmade hw.images,
    hmade hw.choices, hslot (hsimple rfl)⟩
  · exact hslot fun _ => Command.compiled_plain trivial rfl rfl
  · exact hslot fun _ => Command.compiled_plain trivial rfl rfl
  · exact Command.compiled_plain trivial rfl rfl
  · exact Command.compiled_plain trivial rfl rfl
  · exact ⟨trivial, hw.area, by simp [Command.formats]⟩

end WindowDraft

namespace Contract

open Compiler

variable {K : Contract} {w : WindowDraft} {loc : Location} {token : Token}

/-! ### Conditions -/

theorem ensures_activeCondition (hw : w.Sound K.options) :
    K.Ensures (activeCondition w) fun r => ∀ e ∈ r.1.toList, e.Compiled K.options := by
  have hconditions : ∀ v ∈ w.blocks.reverse.map (·.condition), v.Sound := by
    simpa using hw.blocks
  unfold activeCondition
  generalize w.blocks.reverse = outermostFirst at hconditions ⊢
  cases outermostFirst with
  | nil => exact .pure (by simp)
  | cons outermost rest =>
    exact ensures_toCondition fun v hv => Value.conjoin_sound hconditions hv

theorem keeps_checkUnconditional : K.Keeps (checkUnconditional w loc) :=
  .ite (fun _ => .pure trivial) fun _ => .fail trivial

theorem keeps_checkUnset {α : Type} {slot : Option α} {cause : Cause}
    (h : cause.Reachable) : K.Keeps (checkUnset slot loc cause) :=
  .ite (fun _ => .fail h) fun _ => .pure trivial

theorem ensures_openBlock {b : ConditionBlock} (hw : w.Sound K.options) (hb : b.condition.Sound) :
    K.Ensures (openBlock w b) (WindowDraft.Sound K.options) := by
  refine .bind (.lift Lexer.skipLineEnds_ensures) fun _ _ => ?_
  refine .bind (.lift Lexer.peek_ensures) fun token _ => .ite (fun _ => ?_) fun _ => ?_
  · refine .bind (.lift Lexer.consume_ensures) fun _ _ => .pure ?_
    exact { hw with blocks := List.forall_mem_cons.2 ⟨hb, hw.blocks⟩ }
  · exact .pure { hw with blocks := List.forall_mem_cons.2 ⟨hb, hw.blocks⟩ }

theorem ensures_openIf (hw : w.Sound K.options) :
    K.Ensures (openIf w loc) (WindowDraft.Sound K.options) := by
  refine .bind (.lift Lexer.expect_ensures) fun _ _ => ?_
  refine .bind ensures_parseExpr fun condition hc => ?_
  refine .bind (.lift Lexer.expect_ensures) fun _ _ => .guard trivial fun _ => ?_
  exact ensures_openBlock hw hc

theorem ensures_openElse (hw : w.Sound K.options) :
    K.Ensures (openElse w loc) (WindowDraft.Sound K.options) := by
  unfold openElse
  split
  · exact .fail trivial
  · rename_i inner outer hclosed
    obtain ⟨hinner, houter⟩ := List.forall_mem_cons.1 (hclosed ▸ hw.closed)
    refine .guard trivial fun _ => .guard trivial fun hfloat => ?_
    refine ensures_openBlock ?_ (Value.invert_sound hinner (by simpa using hfloat))
    exact { hw with
      blocks := List.forall_mem_append.2 ⟨houter, hw.blocks⟩
      closed := by simp }

theorem ensures_closeBrace (hw : w.Sound K.options) :
    K.Ensures (closeBrace w loc) (WindowDraft.Sound K.options) := by
  unfold closeBrace
  split
  · exact .fail trivial
  · rename_i top rest hblocks
    obtain ⟨htop, hrest⟩ := List.forall_mem_cons.1 (hblocks ▸ hw.blocks)
    refine .guard trivial fun _ => .bind ensures_options fun o _ => .guard trivial fun _ => .pure ?_
    have hclosed : WindowDraft.Sound K.options { w with blocks := rest, closed := [top] } :=
      { hw with blocks := hrest, closed := List.forall_mem_singleton.2 htop }
    exact hclosed.closeUnbraced

/-! ### Text -/

theorem keeps_atLineEnd : K.Keeps atLineEnd :=
  .bind (.lift Lexer.peek_ensures) fun _ _ => .pure trivial

theorem keeps_parseText : K.Keeps parseText :=
  .bind (.lift Lexer.read_ensures) fun _ _ => keeps_stringValue

theorem ensures_parseFormattedText {code : UInt8} (hw : w.Sound K.options)
    (hcode : CommandCode.isFormattedText code = true) :
    K.Ensures (parseFormattedText w code) fun cs => ∀ c ∈ cs, c.Made K.options code := by
  refine (ensures_activeCondition hw).bind fun (condition, emits) hcondition => ?_
  refine .bind keeps_parseText fun text _ => .bind ensures_parseFormatList fun format hformat => ?_
  refine .pure ?_
  split
  · exact List.forall_mem_singleton.2 ⟨rfl, hcode, hcondition, hformat⟩
  · simp

theorem ensures_parseArgument {comma : Bool} :
    K.Ensures (parseArgument comma) fun r => ∀ e ∈ r.toList, e.Compiled K.options := by
  unfold parseArgument
  extract_lets argument
  have hargument : K.Ensures (argument ()) fun r => ∀ e ∈ r.toList, e.Compiled K.options := by
    refine .bind keeps_location fun loc _ => .bind ensures_parseNumeric fun v hv => ?_
    exact (ensures_toExpr hv).bind fun e he => .pure (by simpa using he)
  exact .ite (fun _ => .bind (.lift Lexer.expect_ensures) fun _ _ => hargument) fun _ => hargument

theorem ensures_parsePrint {withFont : Bool} (hw : w.Sound K.options) :
    K.Ensures (parsePrint w withFont) (WindowDraft.Sound K.options) := by
  refine (ensures_activeCondition hw).bind fun (condition, emits) hcondition => ?_
  refine .bind ensures_parseArgument fun x hx => .bind ensures_parseArgument fun y hy => ?_
  refine .bind ensures_parseArgument fun alpha halpha => ?_
  extract_lets message
  have hmessage {red green blue : Option Expr} {font : Option Bytes}
      (hred : ∀ e ∈ red.toList, e.Compiled K.options)
      (hgreen : ∀ e ∈ green.toList, e.Compiled K.options)
      (hblue : ∀ e ∈ blue.toList, e.Compiled K.options) :
      K.Ensures (message (red, green, blue, font)) (WindowDraft.Sound K.options) := by
    refine .bind (.lift Lexer.expect_ensures) fun _ _ => .bind keeps_parseText fun text _ => ?_
    refine .bind ensures_parseFormatList fun format hformat => .ite (fun _ => .pure hw) fun _ => ?_
    refine .pure { hw with prints := forall_mem_concat hw.prints ⟨rfl, trivial, ?_, hformat⟩ }
    simp only [Command.exprs, List.forall_mem_append]
    exact ⟨hx, hy, halpha, hred, hgreen, hblue, hcondition⟩
  refine .ite (fun _ => ?_) fun _ => hmessage (by simp) (by simp) (by simp)
  refine .bind ensures_parseArgument fun red hred => ?_
  refine .bind ensures_parseArgument fun green hgreen => ?_
  refine .bind ensures_parseArgument fun blue hblue => ?_
  refine .bind (.lift Lexer.expect_ensures) fun _ _ => .bind keeps_parseWord fun font _ => ?_
  exact hmessage hred hgreen hblue

theorem keeps_parseConsole {slot : Option Bytes} : K.Keeps (parseConsole w loc slot) := by
  refine .bind keeps_checkUnconditional fun _ _ => .bind (keeps_checkUnset trivial) fun _ _ => ?_
  exact .bind keeps_warn fun _ _ => .bind keeps_parseText fun _ _ => .pure trivial

theorem keeps_parseNamed {slot : Option Bytes} {repeated : Cause}
    (h : repeated.Reachable) : K.Keeps (parseNamed w loc slot repeated) :=
  .bind keeps_checkUnconditional fun _ _ => (keeps_checkUnset h).bind fun _ _ => keeps_parseName

theorem ensures_parseNextWindow {isReturn : Bool} (hw : w.Sound K.options) :
    K.Ensures (parseNextWindow w loc isReturn) (WindowDraft.Sound K.options) := by
  refine .bind keeps_checkUnconditional fun _ _ => .bind (keeps_checkUnset trivial) fun _ _ => ?_
  refine .ite (fun _ => .pure { hw with }) fun _ => ?_
  exact .bind (.lift Lexer.read_ensures) fun token _ => .guard trivial fun _ => .pure { hw with }

/-! ### Inline switches -/

/-- The contract of a compilation: the hash is in range, the inline switches have been counted up to
their limit at most, and those that were made are compiled switches. -/
def compiling (o : Options) : Contract where
  options := o
  Kept c s := c.hash ≤ Options.maxHash ∧ s.inlineCount ≤ maxInline ∧
    ∀ switch ∈ s.inline, switch.Compiled o
  reading h _ _ := h

/-- The labels of inline switches start above zero and end below 2^32. -/
theorem inlineLabel_ne_zero {hash count : Nat} (hhash : hash ≤ Options.maxHash)
    (hcount : count < maxInline) :
    UInt32.ofNat (Label.inlineBase + hash * maxInline + count) ≠ 0 := by
  simp only [Options.maxHash, maxInline, Label.inlineBase] at hhash hcount ⊢
  have hlt : 1000000000 + hash * 10000 + count < 2 ^ 32 := by omega
  intro h
  have hzero := congrArg UInt32.toNat h
  rw [UInt32.toNat_ofNat', Nat.mod_eq_of_lt hlt, UInt32.toNat_zero] at hzero
  omega

theorem ensures_nextInlineLabel {o : Options} :
    (compiling o).Ensures nextInlineLabel (· ≠ 0) := by
  rintro c s ⟨ho, hlexer, hhash, hcount, hinline⟩
  have hrun : nextInlineLabel c s =
      if s.inlineCount = maxInline then .error ⟨s.lexer.cursor.loc, .tooManyInline⟩ s
      else .ok (UInt32.ofNat (Label.inlineBase + c.hash * maxInline + s.inlineCount))
        { s with inlineCount := s.inlineCount + 1 } := by
    change (if s.inlineCount = maxInline then _ else _ : Compiler Label) c s = _
    split <;> rfl
  rw [hrun]
  split_ifs with hfull
  · trivial
  · have hless : s.inlineCount < maxInline := Nat.lt_of_le_of_ne hcount hfull
    exact ⟨⟨ho, hlexer, hhash, hless, hinline⟩, inlineLabel_ne_zero hhash hless⟩

theorem keeps_inline {o : Options} {switch : Switch} (h : switch.Compiled o) :
    (compiling o).Keeps
      (modifyThe CompileState fun s => { s with inline := s.inline ++ [switch] }) := by
  rintro c s ⟨ho, hlexer, hhash, hcount, hinline⟩
  exact ⟨⟨ho, hlexer, hhash, hcount, forall_mem_concat hinline h⟩, trivial⟩

/-- A window may refer to switches, and hold those in braces. -/
def Inlines (K : Contract) : Prop :=
  ∀ w loc slot, K.Keeps (parseSwitchRef w loc slot)

theorem inlines_compiling {o : Options} : (compiling o).Inlines := by
  intro w loc slot
  refine .bind keeps_checkUnconditional fun _ _ => .bind (keeps_checkUnset trivial) fun _ _ => ?_
  refine .bind (.lift Lexer.peek_ensures) fun token _ => ?_
  refine .ite (fun _ => ensures_parseLabel.keeps) fun _ => ?_
  refine .bind (.lift Lexer.skipLineEnds_ensures) fun _ _ => ?_
  refine .bind (.lift Lexer.expect_ensures) fun _ _ => ?_
  refine .bind ensures_nextInlineLabel fun label hlabel => ?_
  refine .bind (ensures_compileSwitch hlabel) fun (switch, afterHash) hswitch => ?_
  refine .ite (fun _ => .bind keeps_location fun _ _ => .fail_bind trivial) fun _ => ?_
  refine .bind (.lift Lexer.expect_ensures) fun _ _ => ?_
  exact (keeps_inline hswitch).bind fun _ _ => .pure trivial

/-! ### Flags and dimensions -/

theorem ensures_parseSubWindow (hw : w.Sound K.options) :
    K.Ensures (parseSubWindow w loc) (WindowDraft.Sound K.options) := by
  refine .bind keeps_checkUnconditional fun _ _ => .bind ensures_parseLabel fun label _ => .pure ?_
  have hmade : (Command.subWindow label).Made K.options CommandCode.subWindow :=
    ⟨rfl, Command.compiled_plain trivial rfl rfl⟩
  exact { hw with subWindows := forall_mem_concat hw.subWindows hmade }

theorem ensures_parseFlags (hw : w.Sound K.options) :
    K.Ensures (parseFlags w loc) (WindowDraft.Sound K.options) := by
  refine .bind keeps_checkUnconditional fun _ _ => ?_
  refine .bind (P := fun _ => True) ?_ fun flags _ => .pure { hw with }
  refine ensures_repeatFrom (I := fun _ => True) trivial fun flags _ => ?_
  refine .bind keeps_atLineEnd fun ended _ => .ite (fun _ => .pure trivial) fun _ => ?_
  refine .bind (.lift Lexer.expect_ensures) fun token _ => ?_
  split
  · exact .guard trivial fun _ => .pure trivial
  · exact .fail trivial

theorem ensures_parseDimension {slot : Option Expr} :
    K.Ensures (parseDimension w loc slot) (Expr.Compiled K.options) := by
  refine .bind keeps_checkUnconditional fun _ _ => .bind (keeps_checkUnset trivial) fun _ _ => ?_
  refine .bind keeps_location fun start _ => .bind ensures_parseExpr fun v hv => ?_
  exact ensures_toExpr hv

/-! ### Images -/

theorem ensures_parseImageSize :
    K.Ensures parseImageSize fun r => ∀ e ∈ r.toList, e.Compiled K.options := by
  refine .bind (.lift Lexer.peek_ensures) fun token _ => .ite (fun _ => .pure (by simp)) fun _ => ?_
  refine .bind (.lift Lexer.consume_ensures) fun _ _ => .bind keeps_location fun loc _ => ?_
  refine .bind ensures_parseNumeric fun v hv => ?_
  extract_lets store
  have hstore : K.Ensures (store ()) fun r => ∀ e ∈ r.toList, e.Compiled K.options :=
    (ensures_toExpr hv).bind fun e he => .pure (by simpa using he)
  split
  · exact .ite (fun _ => .bind keeps_warn fun _ _ => hstore) fun _ => hstore
  · exact hstore

theorem keeps_parseImageFlags : K.Keeps parseImageFlags := by
  refine .bind (.lift Lexer.peek_ensures) fun token _ => .ite (fun _ => .pure trivial) fun _ => ?_
  refine .bind (.lift Lexer.consume_ensures) fun _ _ => ?_
  refine ensures_repeatFrom (I := fun _ => True) trivial fun flags _ => ?_
  refine .bind (.lift Lexer.expect_ensures) fun token _ => ?_
  split
  · exact .fail trivial
  · refine .guard trivial fun _ => .bind keeps_atLineEnd fun ended _ => ?_
    exact .ite (fun _ => .pure trivial) fun _ => .pure trivial

theorem made_image {i : Image} (hcondition : ∀ e ∈ i.condition.toList, e.Compiled K.options)
    (harea : ∀ e ∈ i.area.exprs, e.Compiled K.options) :
    (Command.image i).Made K.options CommandCode.image :=
  ⟨rfl, trivial, List.forall_mem_append.2 ⟨hcondition, harea⟩, by simp [Command.formats]⟩

theorem ensures_parseImage (hw : w.Sound K.options) :
    K.Ensures (parseImage w) (WindowDraft.Sound K.options) := by
  refine (ensures_activeCondition hw).bind fun (condition, emits) hcondition => ?_
  refine .bind keeps_parseName fun file _ => ?_
  refine .bind ensures_parseArgument fun x hx => .bind ensures_parseArgument fun y hy => ?_
  refine .bind ensures_parseImageSize fun width hwidth => ?_
  refine .ite_bind (fun _ => ensures_parseImageSize) (fun _ => .pure (by simp)) ?_
  intro height hheight
  refine .ite_bind (fun _ => keeps_parseImageFlags) (fun _ => .pure trivial) fun flags _ => ?_
  refine .ite (fun _ => .pure hw) fun _ => .pure ?_
  have harea : ∀ e ∈ Area.exprs ⟨x, y, width, height⟩, e.Compiled K.options :=
    Area.forall_mem_exprs.2 ⟨hx, hy, hwidth, hheight⟩
  exact { hw with images := forall_mem_concat hw.images (made_image hcondition harea) }

/-! ### Choices -/

theorem ensures_parseChoiceArguments :
    K.Ensures parseChoiceArguments fun r => ∀ v ∈ r.1, v.Compiled := by
  refine ensures_repeatFrom (I := fun vs => ∀ v ∈ vs, v.Compiled) (by simp) fun vs hvs => ?_
  refine .bind (.lift Lexer.peek_ensures) fun token htoken => .ite (fun _ => ?_) fun _ => ?_
  · refine .bind ensures_parseFormatValue fun v hv => ?_
    exact .bind (.lift Lexer.expect_ensures) fun _ _ => .pure (forall_mem_concat hvs hv)
  · refine .bind (.lift Lexer.consume_ensures) fun _ _ => ?_
    refine .bind (.lift Lexer.peek_ensures) fun next _ => .ite (fun _ => ?_) fun _ => ?_
    · refine .bind (.lift Lexer.consume_ensures) fun _ _ => ?_
      refine .bind (.lift Lexer.expect_ensures) fun low _ => ?_
      exact .bind ensures_labelOfTokens fun label _ => .pure hvs
    · refine .bind (ensures_formatValueOfToken htoken) fun v hv => ?_
      exact .bind (.lift Lexer.expect_ensures) fun _ _ => .pure (forall_mem_concat hvs hv)

theorem ensures_parseChoice (hw : w.Sound K.options) :
    K.Ensures (parseChoice w) (WindowDraft.Sound K.options) := by
  refine (ensures_activeCondition hw).bind fun (condition, emits) hcondition => ?_
  refine .bind (.lift Lexer.read_ensures) fun token _ => .bind keeps_stringValue fun text _ => ?_
  refine .bind (.lift Lexer.peek_ensures) fun next _ => ?_
  extract_lets add
  have hadd {format : List FormatValue} {label : Label} (hformat : ∀ v ∈ format, v.Compiled) :
      K.Ensures (add (format, label)) (WindowDraft.Sound K.options) := by
    refine .ite (fun _ => .pure hw) fun _ => .pure ?_
    have hmade : (Command.choice condition text format label).Made K.options CommandCode.choice :=
      ⟨rfl, trivial, hcondition, hformat⟩
    exact { hw with choices := forall_mem_concat hw.choices hmade }
  refine .ite (fun _ => ?_) fun _ => .bind ensures_parseLabel fun _ _ => hadd (by simp)
  refine .bind (.lift Lexer.consume_ensures) fun _ _ => ?_
  exact .bind ensures_parseChoiceArguments fun (format, label) hformat => hadd hformat

/-! ### Conversations -/

theorem keeps_parseStay : K.Keeps parseStay := by
  refine ensures_repeatFrom (I := fun _ => True) trivial fun stay _ => ?_
  refine .bind keeps_atLineEnd fun ended _ => .ite (fun _ => .pure trivial) fun _ => ?_
  refine .bind (.lift Lexer.expect_ensures) fun token _ => ?_
  exact .guard trivial fun _ => .guard trivial fun _ => .pure trivial

theorem ensures_parseTalk (hw : w.Sound K.options) :
    K.Ensures (parseTalk w loc) (WindowDraft.Sound K.options) := by
  refine .bind keeps_checkUnconditional fun _ _ => .bind (keeps_checkUnset trivial) fun _ _ => ?_
  refine .bind (.lift Lexer.expect_ensures) fun target _ => ?_
  extract_lets animate
  have hanimate (names : Bytes × Bytes) : K.Ensures (animate names) (WindowDraft.Sound K.options) :=
    .bind keeps_parseWord fun _ _ => .bind keeps_parseStay fun _ _ => .pure { hw with }
  refine .ite (fun _ => ?_) fun _ => ?_
  · exact .bind (P := fun _ => True) (.pure trivial) fun names _ => hanimate names
  · refine .ite_bind (P := fun _ => True) (fun _ => .pure trivial) (fun _ => .fail trivial) ?_
    exact fun names _ => hanimate names

theorem keeps_parseStayWord : K.Keeps parseStayWord := by
  refine .bind (.lift Lexer.expect_ensures) fun token _ => .ite (fun _ => .pure trivial) fun _ => ?_
  exact .ite (fun _ => .pure trivial) fun _ => .fail trivial

theorem ensures_parseTalkEx (hw : w.Sound K.options) :
    K.Ensures (parseTalkEx w loc) (WindowDraft.Sound K.options) := by
  refine .bind keeps_checkUnconditional fun _ _ => .bind (keeps_checkUnset trivial) fun _ _ => ?_
  refine .bind keeps_parseWord fun name1 _ => .bind keeps_parseWord fun name2 _ => ?_
  refine .bind keeps_parseWord fun anim1 _ => .bind keeps_parseWord fun anim2 _ => ?_
  refine .bind keeps_atLineEnd fun ended _ => .ite (fun _ => .pure { hw with }) fun _ => ?_
  refine .bind keeps_parseStayWord fun _ _ => .bind keeps_parseStayWord fun _ _ => ?_
  exact .pure { hw with }

/-! ### Backgrounds -/

theorem keeps_parseColor : K.Keeps parseColor := by
  refine .bind (.lift Lexer.expect_ensures) fun _ _ => ?_
  refine .bind (.lift Lexer.read_ensures) fun token _ => ?_
  split
  · exact .pure trivial
  · exact .fail trivial

theorem keeps_parseBackdropWord {b : Backdrop} : K.Keeps (parseBackdropWord b token) := by
  have hcolor {f : UInt32 → Backdrop} : K.Keeps (parseColor >>= fun color => pure (f color)) :=
    .bind keeps_parseColor fun _ _ => .pure trivial
  refine .ite (fun _ => hcolor) fun _ => .ite (fun _ => hcolor) fun _ => ?_
  refine .ite (fun _ => hcolor) fun _ => .ite (fun _ => hcolor) fun _ => ?_
  refine .ite (fun _ => .pure trivial) fun _ => .ite (fun _ => .pure trivial) fun _ => ?_
  refine .ite (fun _ => .pure trivial) fun _ => .ite (fun _ => .pure trivial) fun _ => ?_
  exact .fail trivial

theorem keeps_parseBackdrop {corners : Corners} : K.Keeps (parseBackdrop corners) := by
  refine ensures_repeatFrom (I := fun _ => True) trivial fun b _ => ?_
  refine .bind (.lift Lexer.read_ensures) fun token _ => ?_
  have hgoOn (b : Backdrop) : K.Ensures
      (atLineEnd >>= fun ended => if ended then pure (.inr b) else pure (.inl b))
      (Sum.elim (fun _ : Backdrop => True) fun _ : Backdrop => True) :=
    .bind keeps_atLineEnd fun _ _ => .ite (fun _ => .pure trivial) fun _ => .pure trivial
  split
  · exact .guard trivial fun _ => hgoOn _
  · exact .bind keeps_parseBackdropWord fun b _ => hgoOn b
  · exact .fail_bind trivial

theorem ensures_parseBackground (hw : w.Sound K.options) :
    K.Ensures (parseBackground w) (WindowDraft.Sound K.options) := by
  refine (ensures_activeCondition hw).bind fun (condition, emits) hcondition => ?_
  refine .bind keeps_parseBackdrop fun b _ => ?_
  refine .ite (fun _ => .bind keeps_location fun _ _ => .fail_bind trivial) fun _ => ?_
  extract_lets w' name
  split
  · exact .pure { hw with }
  · have hzero : ∀ e ∈ (some (Expr.constant .zero)).toList, e.Compiled K.options := by
      simpa using Expr.constant_compiled Binary32.isFinite_zero K.options
    refine .pure { hw with images := forall_mem_concat hw.images (made_image hcondition ?_) }
    exact Area.forall_mem_exprs.2 ⟨hzero, hzero, by simp, by simp⟩

/-! ### Cameras -/

theorem keeps_parseCamText : K.Keeps parseCamText := by
  refine .bind (.lift Lexer.expect_ensures) fun _ _ => ?_
  refine .bind (.lift Lexer.read_ensures) fun token _ => ?_
  refine .ite_bind (fun _ => keeps_stringValue) (fun _ => .pure trivial) fun text _ => ?_
  exact .guard trivial fun _ => .bind (.lift Lexer.expect_ensures) fun _ _ => .pure trivial

theorem camNumber_yields (value : Nat) (s : Bytes) :
    Yields Cause.Reachable (fun _ => True) (camNumber value s) := by
  fun_induction camNumber value s
  case case1 | case2 | case3 => trivial
  case case4 ih => exact ih

theorem keeps_parseCamNumber : K.Keeps parseCamNumber := by
  refine .bind (.lift Lexer.expect_ensures) fun _ _ => ?_
  refine .bind (.lift Lexer.expect_ensures) fun token _ => ?_
  refine .bind (.lift Lexer.expect_ensures) fun _ _ => ?_
  exact .bind (.located (camNumber_yields ..)) fun n _ => .guard trivial fun _ => .pure trivial

theorem keeps_parseCamSetting {c : Cam} : K.Keeps (parseCamSetting c token) := by
  have htext {f : Bytes → Cam} : K.Keeps (parseCamText >>= fun text => pure (f text)) :=
    .bind keeps_parseCamText fun _ _ => .pure trivial
  have hnumber {f : UInt16 → Cam} : K.Keeps (parseCamNumber >>= fun n => pure (f n)) :=
    .bind keeps_parseCamNumber fun _ _ => .pure trivial
  refine .ite (fun _ => htext) fun _ => .ite (fun _ => htext) fun _ => ?_
  refine .ite (fun _ => htext) fun _ => .ite (fun _ => hnumber) fun _ => ?_
  refine .ite (fun _ => hnumber) fun _ => .ite (fun _ => hnumber) fun _ => ?_
  refine .ite (fun _ => hnumber) fun _ => .ite (fun _ => hnumber) fun _ => ?_
  refine .ite (fun _ => hnumber) fun _ => .ite (fun _ => hnumber) fun _ => ?_
  refine .ite (fun _ => hnumber) fun _ => .ite (fun _ => hnumber) fun _ => ?_
  refine .ite (fun _ => ?_) fun _ => ?_
  · exact .bind keeps_parseCamNumber fun n _ => .guard trivial fun _ => .pure trivial
  · refine .ite (fun _ => .pure trivial) fun _ => .ite (fun _ => .pure trivial) fun _ => ?_
    exact .fail trivial

theorem keeps_parseCamName : K.Keeps parseCamName := by
  refine .bind ensures_options fun o _ => .ite (fun _ => ?_) fun _ => ?_
  · exact .bind (.lift Lexer.expect_ensures) fun _ _ => .pure trivial
  · refine .bind (.lift Lexer.read_ensures) fun token _ => ?_
    exact .ite (fun _ => .bind keeps_warn fun _ _ => .pure trivial) fun _ => .pure trivial

theorem ensures_parseCam (hw : w.Sound K.options) :
    K.Ensures (parseCam w loc) (WindowDraft.Sound K.options) := by
  refine .bind (keeps_checkUnset trivial) fun _ _ => .bind keeps_checkUnconditional fun _ _ => ?_
  refine .bind keeps_parseCamName fun name _ => ?_
  refine .bind (P := fun _ => True) ?_ fun cam _ => .pure { hw with }
  refine ensures_repeatFrom (I := fun _ => True) trivial fun c _ => ?_
  refine .bind keeps_atLineEnd fun ended _ => .ite (fun _ => .pure trivial) fun _ => ?_
  refine .bind (.lift Lexer.expect_ensures) fun token _ => ?_
  exact .bind keeps_parseCamSetting fun c _ => .pure trivial

/-! ### Directives -/

theorem ensures_parseCommand (hK : K.Inlines) (hw : w.Sound K.options) :
    K.Ensures (parseCommand w token) (WindowDraft.Sound K.options) := by
  have harea {e : Expr} (he : e.Compiled K.options) :
      ∀ e' ∈ (some e).toList, e'.Compiled K.options := by
    simpa using he
  obtain ⟨hx, hy, hwidth, hheight⟩ := Area.forall_mem_exprs.1 hw.area
  refine .ite (fun _ => .bind ensures_parseDimension fun e he => .pure ?_) fun _ => ?_
  · exact { hw with area := Area.forall_mem_exprs.2 ⟨harea he, hy, hwidth, hheight⟩ }
  refine .ite (fun _ => .bind ensures_parseDimension fun e he => .pure ?_) fun _ => ?_
  · exact { hw with area := Area.forall_mem_exprs.2 ⟨hx, harea he, hwidth, hheight⟩ }
  refine .ite (fun _ => .bind ensures_parseDimension fun e he => .pure ?_) fun _ => ?_
  · exact { hw with area := Area.forall_mem_exprs.2 ⟨hx, hy, harea he, hheight⟩ }
  refine .ite (fun _ => .bind ensures_parseDimension fun e he => .pure ?_) fun _ => ?_
  · exact { hw with area := Area.forall_mem_exprs.2 ⟨hx, hy, hwidth, harea he⟩ }
  refine .ite (fun _ => (ensures_parseFormattedText hw rfl).bind fun cs hcs => .pure ?_) fun _ => ?_
  · exact { hw with titles := List.forall_mem_append.2 ⟨hw.titles, hcs⟩ }
  refine .ite (fun _ => (ensures_parseFormattedText hw rfl).bind fun cs hcs => .pure ?_) fun _ => ?_
  · exact { hw with bodies := List.forall_mem_append.2 ⟨hw.bodies, hcs⟩ }
  refine .ite (fun _ => ensures_parseTalk hw) fun _ => ?_
  refine .ite (fun _ => ensures_parseTalkEx hw) fun _ => ?_
  refine .ite (fun _ => ensures_parseImage hw) fun _ => ?_
  refine .ite (fun _ => ensures_parseFlags hw) fun _ => ?_
  refine .ite (fun _ => ensures_parseSubWindow hw) fun _ => ?_
  refine .ite (fun _ => ensures_parseChoice hw) fun _ => ?_
  refine .ite (fun _ => .bind keeps_parseConsole fun _ _ => .pure { hw with }) fun _ => ?_
  refine .ite (fun _ => .bind keeps_parseConsole fun _ _ => .pure { hw with }) fun _ => ?_
  refine .ite (fun _ => .bind (keeps_parseNamed trivial) fun _ _ => .pure { hw with }) fun _ => ?_
  refine .ite (fun _ => .bind (keeps_parseNamed trivial) fun _ _ => .pure { hw with }) fun _ => ?_
  refine .ite (fun _ => ensures_parseNextWindow hw) fun _ => ?_
  refine .ite (fun _ => ensures_parseNextWindow hw) fun _ => ?_
  refine .ite (fun _ => ensures_parsePrint hw) fun _ => ?_
  refine .ite (fun _ => ensures_parsePrint hw) fun _ => ?_
  refine .ite (fun _ => .bind (hK _ _ _) fun _ _ => .pure { hw with }) fun _ => ?_
  refine .ite (fun _ => .bind (hK _ _ _) fun _ _ => .pure { hw with }) fun _ => ?_
  refine .ite (fun _ => .bind (hK _ _ _) fun _ _ => .pure { hw with }) fun _ => ?_
  refine .ite (fun _ => ensures_parseBackground hw) fun _ => ?_
  exact .ite (fun _ => ensures_parseCam hw) fun _ => .fail trivial

theorem ensures_parseDirective (hK : K.Inlines) (hw : w.Sound K.options) :
    K.Ensures (parseDirective w token) (WindowDraft.Sound K.options) := by
  refine .ite (fun _ => .pure hw) fun _ => ?_
  refine .ite (fun _ => ensures_closeBrace hw.clearClosed) fun _ => ?_
  refine .ite (fun _ => ensures_openElse hw) fun _ => .guard trivial fun _ => ?_
  refine .ite (fun _ => ensures_openIf hw.clearClosed) fun _ => ?_
  refine (ensures_parseCommand hK hw.clearClosed).bind fun w hw => ?_
  refine .bind (.lift Lexer.peek_ensures) fun next _ => .guard trivial fun _ => ?_
  exact .pure hw.markUsed.closeUnbraced

theorem ensures_compileWindow (hK : K.Inlines) :
    K.Ensures compileWindow (·.1.Compiled K.options) := by
  refine .bind ensures_parseDefinitionLabel fun label hlabel => ?_
  refine .bind (.lift Lexer.read_ensures) fun token _ => .guard trivial fun _ => ?_
  refine .bind (P := fun r => r.1.Sound K.options) ?_ fun (draft, afterHash) hdraft => ?_
  · refine ensures_repeatFrom (I := WindowDraft.Sound K.options) WindowDraft.sound_empty ?_
    intro w hw
    refine .bind (.lift Lexer.peek_ensures) fun token _ => ?_
    split
    · refine .bind (.lift Lexer.consume_ensures) fun _ _ => ?_
      refine .bind keeps_parseDefine fun defined _ => ?_
      exact .ite (fun _ => .pure hw) fun _ => .pure hw
    · exact .pure hw
    · refine .bind (.lift Lexer.consume_ensures) fun _ _ => ?_
      exact (ensures_parseDirective hK hw).bind fun w hw => .pure hw
  · dsimp only
    split
    · exact .fail_bind trivial
    · exact .pure ⟨hlabel, hdraft.commands⟩

end Contract

end ApeScript
