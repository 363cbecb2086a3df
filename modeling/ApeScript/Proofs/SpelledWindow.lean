import ApeScript.Proofs.SpelledSwitch

/-!
# Windows of a text without definitions

The directives of a window take what they say from the text. So no string of a window has a carriage
return, and without definitions every word that is written without quotes is read as it is: that of
a conversation, of the next window, of a font between commas and of a camera.
-/

namespace ApeScript

open Script (Mild RawWord)

/-- A command whose strings have no carriage return and whose words, if `free`, are read as they
are. -/
structure Command.Mild (free : Bool) (d : Command) : Prop where
  strings : Returnless d.strings
  spelled : free = true → d.Spelled

namespace WindowDraft

structure Mild (free : Bool) (w : WindowDraft) : Prop where
  blocks : ∀ b ∈ w.blocks, Returnless b.condition.texts
  closed : ∀ b ∈ w.closed, Returnless b.condition.texts
  titles : ∀ d ∈ w.titles, d.Mild free
  bodies : ∀ d ∈ w.bodies, d.Mild free
  prints : ∀ d ∈ w.prints, d.Mild free
  cam : ∀ cam ∈ w.cam, (Command.cam cam).Mild free
  talk : ∀ t ∈ w.talk, (Command.talk t).Mild free
  startConsole : ∀ s ∈ w.startConsole, 13 ∉ s
  finishConsole : ∀ s ∈ w.finishConsole, 13 ∉ s
  style : ∀ s ∈ w.style, 13 ∉ s
  font : ∀ s ∈ w.font, 13 ∉ s
  area : Returnless w.area.strings
  subWindows : ∀ d ∈ w.subWindows, d.Mild free
  images : ∀ d ∈ w.images, d.Mild free
  choices : ∀ d ∈ w.choices, d.Mild free
  nextWindow : ∀ s ∈ w.nextWindow, 13 ∉ s ∧ (free = true → RawWord {} s)

variable {free : Bool} {w : WindowDraft}

theorem mild_empty : ({} : WindowDraft).Mild free := by
  constructor <;> simp [Area.strings]

theorem Mild.clearClosed (hw : w.Mild free) : Mild free { w with closed := [] } :=
  { hw with closed := by simp }

theorem Mild.closeUnbraced (hw : w.Mild free) : w.closeUnbraced.Mild free where
  __ := hw
  blocks := fun b hb => hw.blocks b ((List.dropWhile_sublist _).mem hb)
  closed := List.forall_mem_append.2
    ⟨hw.closed, fun b hb => hw.blocks b ((List.takeWhile_sublist _).mem hb)⟩

theorem Mild.markUsed (hw : w.Mild free) : w.markUsed.Mild free where
  __ := hw
  blocks := by simpa [WindowDraft.markUsed] using hw.blocks

theorem Mild.commands (hw : w.Mild free) : ∀ d ∈ w.commands, d.Mild free := by
  have hslot {α : Type} {make : α → Command} {slot : Option α}
      (h : ∀ a ∈ slot, (make a).Mild free) : ∀ d ∈ (slot.map make).toList, d.Mild free := by
    intro d hd
    obtain ⟨a, ha, rfl⟩ := Option.map_eq_some_iff.1 (Option.mem_toList.1 hd)
    exact h a ha
  have hsimple {code : UInt8} {slot : Option Bytes} (hcode : code ≠ CommandCode.nextWindow)
      (h : ∀ s ∈ slot, 13 ∉ s) : ∀ d ∈ simple code slot, d.Mild free :=
    hslot fun s hs => ⟨by simpa [Command.strings] using h s hs, fun _ h => absurd h hcode⟩
  have hempty {d : Command} (hstrings : d.strings = []) (hspelled : d.Spelled) : d.Mild free :=
    ⟨by simp [hstrings], fun _ => hspelled⟩
  have hunless {p : Prop} [Decidable p] {d : Command} (h : d.Mild free) :
      ∀ d' ∈ (if p then [] else [d]), d'.Mild free := by
    split
    · simp
    · simpa using h
  have href {code : UInt8} (slot : Option Label) : ∀ d ∈ ref code slot, d.Mild free :=
    hslot fun _ _ => hempty rfl trivial
  refine List.forall_mem_flatten.2 ?_
  simp only [List.forall_mem_cons, List.not_mem_nil, false_imp_iff, implies_true, and_true]
  exact ⟨hw.titles, hw.bodies, hw.prints, hslot hw.cam, hslot hw.talk,
    hsimple (by decide) hw.startConsole, hsimple (by decide) hw.finishConsole, href _, href _,
    href _, hsimple (by decide) hw.style, hsimple (by decide) hw.font,
    hunless (hempty rfl trivial), hunless (hempty rfl trivial),
    ⟨hw.area, fun _ => trivial⟩, hw.subWindows, hw.images, hw.choices,
    hslot fun s hs => ⟨by simpa [Command.strings] using (hw.nextWindow s hs).1,
      fun hfree _ => (hw.nextWindow s hs).2 hfree⟩⟩

end WindowDraft

namespace Compiler

open Contract (forall_mem_concat)

variable {free r : Bool} {c : CompileContext} {w : WindowDraft} {loc : Location} {token : Token}

/-! ### Conditions -/

theorem tidies_activeCondition (hw : w.Mild free) :
    Tidies c free r (activeCondition w) r fun p =>
      Returnless (p.1.toList.flatMap Expr.strings) := by
  have hconditions : ∀ v ∈ w.blocks.reverse.map (·.condition), Returnless v.texts := by
    simpa using hw.blocks
  unfold activeCondition
  generalize w.blocks.reverse = outermostFirst at hconditions ⊢
  cases outermostFirst with
  | nil => exact .pure (by simp)
  | cons outermost rest =>
    exact tidies_toCondition fun v hv => Value.texts_conjoin hv hconditions

theorem tidies_checkUnconditional : Tidies c free r (checkUnconditional w loc) r fun _ => True :=
  .ite (fun _ => .pure trivial) fun _ => .fail

theorem tidies_checkUnset {α : Type} {slot : Option α} {cause : Cause} :
    Tidies c free r (checkUnset slot loc cause) r fun _ => True :=
  .ite (fun _ => .fail) fun _ => .pure trivial

theorem tidies_openBlock {b : ConditionBlock} (hw : w.Mild free)
    (hb : Returnless b.condition.texts) :
    Tidies c free r (openBlock w b) false (WindowDraft.Mild free) := by
  refine .bind tidies_skipLineEnds fun _ _ => ?_
  refine .bind tidies_peek fun token _ => .ite (fun _ => ?_) fun _ => ?_
  · refine .bind tidies_consume fun _ _ => .weaken (.pure ?_)
    exact { hw with blocks := List.forall_mem_cons.2 ⟨hb, hw.blocks⟩ }
  · exact .pure { hw with blocks := List.forall_mem_cons.2 ⟨hb, hw.blocks⟩ }

theorem tidies_openIf (hw : w.Mild free) :
    Tidies c free r (openIf w loc) false (WindowDraft.Mild free) := by
  refine .bind tidies_expect fun _ _ => .bind tidies_parseExpr fun condition hc => ?_
  exact .bind tidies_expect fun _ _ => .guard fun _ => tidies_openBlock hw hc

theorem tidies_openElse (hw : w.Mild free) :
    Tidies c free r (openElse w loc) false (WindowDraft.Mild free) := by
  unfold openElse
  split
  · exact .fail
  · rename_i inner outer hclosed
    obtain ⟨hinner, houter⟩ := List.forall_mem_cons.1 (hclosed ▸ hw.closed)
    refine .guard fun _ => .guard fun _ => ?_
    refine tidies_openBlock ?_ (hinner.subset (Value.texts_invert _))
    exact { hw with
      blocks := List.forall_mem_append.2 ⟨houter, hw.blocks⟩
      closed := by simp }

theorem tidies_closeBrace (hw : w.Mild free) :
    Tidies c free r (closeBrace w loc) r (WindowDraft.Mild free) := by
  unfold closeBrace
  split
  · exact .fail
  · rename_i top rest hblocks
    obtain ⟨htop, hrest⟩ := List.forall_mem_cons.1 (hblocks ▸ hw.blocks)
    refine .guard fun _ => .bind tidies_options fun o _ => .guard fun _ => .pure ?_
    have hclosed : WindowDraft.Mild free { w with blocks := rest, closed := [top] } :=
      { hw with blocks := hrest, closed := List.forall_mem_singleton.2 htop }
    exact hclosed.closeUnbraced

/-! ### Text -/

theorem tidies_atLineEnd : Tidies c free r atLineEnd false fun _ => True :=
  .bind tidies_peek fun _ _ => .pure trivial

theorem tidies_parseText : Tidies c free r parseText true (13 ∉ ·) :=
  .bind tidies_read fun _ ht => tidies_stringValue ht.1

theorem tidies_parseFormattedText {code : UInt8} (hw : w.Mild free) :
    Tidies c free r (parseFormattedText w code) false fun cs => ∀ d ∈ cs, d.Mild free := by
  refine (tidies_activeCondition hw).bind ?_
  rintro ⟨condition, emits⟩ hcondition
  refine .bind tidies_parseText fun text htext => ?_
  refine .bind tidies_parseFormatList fun format hformat => ?_
  refine .pure ?_
  split
  · refine List.forall_mem_singleton.2 ⟨?_, fun hfree v hv => (hformat v hv).unquoted hfree⟩
    simp only [Command.strings, returnless_append, returnless_cons, returnless_nil, and_true]
    exact ⟨hcondition, htext, returnless_flatMap.2 fun v hv => (hformat v hv).strings⟩
  · simp

theorem tidies_parseArgument {comma : Bool} :
    Tidies c free r (parseArgument comma) false fun e =>
      Returnless (e.toList.flatMap Expr.strings) := by
  unfold parseArgument
  extract_lets argument
  have hargument {r : Bool} : Tidies c free r (argument ()) false fun e =>
      Returnless (e.toList.flatMap Expr.strings) := by
    refine .bind tidies_location fun loc _ => .bind tidies_parseNumeric fun v hv => ?_
    exact tidies_toExpr_some hv
  exact .ite (fun _ => .bind tidies_expect fun _ _ => hargument) fun _ => hargument

theorem tidies_parsePrint {withFont : Bool} (hw : w.Mild free) :
    Tidies c free r (parsePrint w withFont) false (WindowDraft.Mild free) := by
  refine (tidies_activeCondition hw).bind ?_
  rintro ⟨condition, emits⟩ hcondition
  refine .bind tidies_parseArgument fun x hx => .bind tidies_parseArgument fun y hy => ?_
  refine .bind tidies_parseArgument fun alpha halpha => ?_
  extract_lets message
  have hmessage {r : Bool} {red green blue : Option Expr} {font : Option Bytes}
      (hred : Returnless (red.toList.flatMap Expr.strings))
      (hgreen : Returnless (green.toList.flatMap Expr.strings))
      (hblue : Returnless (blue.toList.flatMap Expr.strings))
      (hfont : ∀ s ∈ font, 13 ∉ s ∧ (free = true → RawWord (Scan.bareFlags true) s)) :
      Tidies c free r (message (red, green, blue, font)) false (WindowDraft.Mild free) := by
    refine .bind tidies_expect fun _ _ => .bind tidies_parseText fun text htext => ?_
    refine .bind tidies_parseFormatList fun format hformat => .ite (fun _ => .pure hw) fun _ => ?_
    refine .pure { hw with prints := forall_mem_concat hw.prints ⟨?_, fun hfree => ?_⟩ }
    · have hword : Returnless font.toList := fun s hs => (hfont s (Option.mem_toList.1 hs)).1
      have hformats : Returnless (format.flatMap FormatValue.strings) :=
        returnless_flatMap.2 fun v hv => (hformat v hv).strings
      simp only [Command.strings, returnless_append, returnless_cons, returnless_nil, and_true]
      exact ⟨hx, hy, halpha, hred, hgreen, hblue, hword, htext, hcondition, hformats⟩
    · exact ⟨fun v hv => (hformat v hv).unquoted hfree, fun s hs => (hfont s hs).2 hfree⟩
  refine .ite (fun _ => ?_) fun _ => hmessage (by simp) (by simp) (by simp) (by simp)
  refine .bind tidies_parseArgument fun red hred => ?_
  refine .bind tidies_parseArgument fun green hgreen => ?_
  refine .bind tidies_parseArgument fun blue hblue => ?_
  refine .bind tidies_expect fun _ _ => .bind tidies_parseWord fun font hfont => ?_
  exact hmessage hred hgreen hblue (by simpa using hfont)

theorem tidies_parseConsole {slot : Option Bytes} :
    Tidies c free r (parseConsole w loc slot) true (13 ∉ ·) := by
  refine .bind tidies_checkUnconditional fun _ _ => .bind tidies_checkUnset fun _ _ => ?_
  refine .bind tidies_warn fun _ _ => .bind tidies_parseText fun text htext => .pure ?_
  simpa using htext

theorem tidies_parseNamed {slot : Option Bytes} {repeated : Cause} :
    Tidies c free r (parseNamed w loc slot repeated) true (13 ∉ ·) :=
  .bind tidies_checkUnconditional fun _ _ => .bind tidies_checkUnset fun _ _ => tidies_parseName

theorem tidies_parseNextWindow {isReturn : Bool} (hw : w.Mild free) :
    Tidies c free true (parseNextWindow w loc isReturn) true (WindowDraft.Mild free) := by
  refine .bind tidies_checkUnconditional fun _ _ => .bind tidies_checkUnset fun _ _ => ?_
  refine .ite (fun _ => .pure { hw with nextWindow := ?_ }) fun _ => ?_
  · rintro _ ⟨⟩
    rw [show utf8 "0:0" = [48, 58, 48] from rfl]
    have hword : Script.Word [48, 58, 48] := ⟨by decide, by simp, by decide, by decide⟩
    exact ⟨by decide, fun _ =>
      hword.raw (by simp [Scan.rawStops]) rfl (.inr (by decide)) (.inr (by decide))⟩
  · refine .bind tidies_readRaw fun token ht => .guard fun hline => ?_
    refine .pure { hw with nextWindow := ?_ }
    rintro _ ⟨⟩
    exact ⟨ht.1.1.returns, fun hfree => (Lexer.Stood.word (ht.2 hfree) rfl hline).2⟩

/-! ### Switches and sub-windows -/

theorem tidies_modify {f : CompileState → CompileState}
    (h : ∀ s : CompileState, s.Tidy free r → (f s).Tidy free r) :
    Tidies c free r (modifyThe CompileState f) r fun _ => True := by
  rintro s hs _ _ ⟨⟩
  exact ⟨h s hs, trivial⟩

theorem tidies_nextInlineLabel : Tidies c free r nextInlineLabel r fun _ => True := by
  refine .bind tidies_state fun s _ => ?_
  refine .ite (fun _ => .bind tidies_location fun _ _ => .fail_bind) fun _ => ?_
  refine .bind (tidies_modify fun s hs => { hs with }) fun _ _ => ?_
  rintro s hs _ _ ⟨⟩
  exact ⟨hs, trivial⟩

theorem tidies_parseSwitchRef (hc : c.Plain) {slot : Option Label} :
    Tidies c free r (parseSwitchRef w loc slot) true fun _ => True := by
  refine .bind tidies_checkUnconditional fun _ _ => .bind tidies_checkUnset fun _ _ => ?_
  refine .bind tidies_peek fun token _ => .ite (fun _ => tidies_parseLabel) fun _ => ?_
  refine .bind tidies_skipLineEnds fun _ _ => .bind tidies_expect fun _ _ => ?_
  refine .bind tidies_nextInlineLabel fun label _ => ?_
  refine .bind (tidies_compileSwitch hc) ?_
  rintro ⟨switch, afterHash⟩ hswitch
  refine .ite (fun _ => .bind tidies_location fun _ _ => .fail_bind) fun _ => ?_
  refine .bind tidies_expect fun _ _ => ?_
  refine .bind (tidies_modify fun s hs => ?_) fun _ _ => .pure trivial
  exact { hs with inline := forall_mem_concat hs.inline hswitch }

theorem tidies_parseSubWindow (hw : w.Mild free) :
    Tidies c free r (parseSubWindow w loc) true (WindowDraft.Mild free) := by
  refine .bind tidies_checkUnconditional fun _ _ => .bind tidies_parseLabel fun label _ => .pure ?_
  have hmild : (Command.subWindow label).Mild free := ⟨by simp [Command.strings], fun _ => trivial⟩
  exact { hw with subWindows := forall_mem_concat hw.subWindows hmild }

/-! ### Flags, dimensions and images -/

theorem tidies_parseFlags (hw : w.Mild free) :
    Tidies c free r (parseFlags w loc) false (WindowDraft.Mild free) := by
  refine .bind tidies_checkUnconditional fun _ _ => ?_
  refine .bind (P := fun _ => True) ?_ fun flags _ => .pure { hw with }
  refine tidies_repeatFrom (I := fun _ => True) trivial fun flags _ => ?_
  refine .bind tidies_atLineEnd fun ended _ => .ite (fun _ => .pure trivial) fun _ => ?_
  refine .bind tidies_expect fun token _ => ?_
  split
  · exact .guard fun _ => .weaken (.pure trivial)
  · exact .fail

theorem tidies_parseDimension {slot : Option Expr} :
    Tidies c free r (parseDimension w loc slot) false (Returnless ·.strings) := by
  refine .bind tidies_checkUnconditional fun _ _ => .bind tidies_checkUnset fun _ _ => ?_
  refine .bind tidies_location fun start _ => .bind tidies_parseExpr fun v hv => ?_
  exact tidies_toExpr hv

theorem tidies_parseImageSize : Tidies c free r parseImageSize false fun e =>
    Returnless (e.toList.flatMap Expr.strings) := by
  refine .bind tidies_peek fun token _ => .ite (fun _ => .pure (by simp)) fun _ => ?_
  refine .bind tidies_consume fun _ _ => .bind tidies_location fun loc _ => ?_
  refine .bind tidies_parseNumeric fun v hv => ?_
  extract_lets store
  have hstore : Tidies c free false (store ()) false fun e =>
      Returnless (e.toList.flatMap Expr.strings) := tidies_toExpr_some hv
  split
  · exact .ite (fun _ => .bind tidies_warn fun _ _ => hstore) fun _ => hstore
  · exact hstore

theorem tidies_parseImageFlags : Tidies c free r parseImageFlags false fun _ => True := by
  refine .bind tidies_peek fun token _ => .ite (fun _ => .pure trivial) fun _ => ?_
  refine .bind tidies_consume fun _ _ => ?_
  refine tidies_repeatFrom (I := fun _ => True) trivial fun flags _ => ?_
  refine .bind tidies_expect fun token _ => ?_
  split
  · exact .fail
  · refine .guard fun _ => .bind tidies_atLineEnd fun ended _ => ?_
    exact .ite (fun _ => .pure trivial) fun _ => .pure trivial

theorem mild_image {i : Image} (hcondition : Returnless (i.condition.toList.flatMap Expr.strings))
    (hfile : 13 ∉ i.file) (harea : Returnless i.area.strings) : (Command.image i).Mild free := by
  refine ⟨?_, fun _ => trivial⟩
  simp only [Command.strings, returnless_append, returnless_cons, returnless_nil, and_true]
  exact ⟨hcondition, hfile, harea⟩

theorem returnless_area {x y width height : Option Expr} :
    Returnless (Area.strings ⟨x, y, width, height⟩) ↔
      Returnless (x.toList.flatMap Expr.strings) ∧ Returnless (y.toList.flatMap Expr.strings) ∧
      Returnless (width.toList.flatMap Expr.strings) ∧
      Returnless (height.toList.flatMap Expr.strings) := by
  simp only [Area.strings, returnless_append]

theorem tidies_parseImage (hw : w.Mild free) :
    Tidies c free r (parseImage w) false (WindowDraft.Mild free) := by
  refine (tidies_activeCondition hw).bind ?_
  rintro ⟨condition, emits⟩ hcondition
  refine .bind tidies_parseName fun file hfile => ?_
  refine .bind tidies_parseArgument fun x hx => .bind tidies_parseArgument fun y hy => ?_
  refine .bind tidies_parseImageSize fun width hwidth => ?_
  refine .ite_bind (fun _ => tidies_parseImageSize) (fun _ => .pure (by simp)) ?_
  intro height hheight
  refine .ite_bind (fun _ => tidies_parseImageFlags) (fun _ => .pure trivial) fun flags _ => ?_
  refine .ite (fun _ => .pure hw) fun _ => .pure ?_
  have himage : (Command.image ⟨condition, file, ⟨x, y, width, height⟩, flags⟩).Mild free :=
    mild_image hcondition hfile (returnless_area.2 ⟨hx, hy, hwidth, hheight⟩)
  exact { hw with images := forall_mem_concat hw.images himage }

/-! ### Choices -/

/-- The arguments of a choice; without definitions no formatting string of theirs has a quote. -/
theorem tidies_parseChoiceArguments :
    Tidies c free true parseChoiceArguments false fun r => ∀ v ∈ r.1, v.Mild free := by
  have hquotes (s : CompileState) (hs : s.Tidy free true) : Gives parseChoiceArguments c s fun r _ =>
      free = true → ∀ v ∈ r.1, 34 ∉ v.literal := by
    cases free with
    | true => exact (gives_parseChoiceArguments hs.lexer.waits).mono fun r t h _ => h
    | false => exact fun r t _ h => absurd h Bool.false_ne_true
  have hvalue {token : Token} {r : Bool} (ht : Mild free token.text) :
      Tidies c free r (formatValueOfToken token) r (FormatValue.Mild false) :=
    tidies_formatValueOfToken ht fun h => absurd h Bool.false_ne_true
  have hstrings : Tidies c free true parseChoiceArguments false fun r =>
      ∀ v ∈ r.1, v.Mild false := by
    refine tidies_repeatFrom (I := fun vs => ∀ v ∈ vs, v.Mild false) (by simp) ?_
    refine fun vs hvs => .bind tidies_peek fun token ht => .ite (fun _ => ?_) fun _ => ?_
    · refine .bind (.bind tidies_read fun t ht => hvalue ht.1) fun v hv => ?_
      exact .bind tidies_expect fun _ _ => .weaken (.pure (forall_mem_concat hvs hv))
    · refine .bind tidies_consume fun _ _ => .bind tidies_peek fun next _ => .ite (fun _ => ?_) ?_
      · refine .bind tidies_consume fun _ _ => .bind tidies_expect fun low _ => ?_
        exact .bind tidies_labelOfTokens fun label _ => .weaken (.pure hvs)
      · intro _
        refine .bind (hvalue ht.1) fun v hv => ?_
        exact .bind tidies_expect fun _ _ => .weaken (.pure (forall_mem_concat hvs hv))
  exact (hstrings.and hquotes).mono fun r h v hv =>
    ⟨(h.1 v hv).strings, fun hfree => h.2 hfree v hv⟩

theorem tidies_parseChoice (hw : w.Mild free) :
    Tidies c free r (parseChoice w) false (WindowDraft.Mild free) := by
  refine (tidies_activeCondition hw).bind ?_
  rintro ⟨condition, emits⟩ hcondition
  refine .bind tidies_read fun token ht => .bind (tidies_stringValue ht.1) fun text htext => ?_
  refine .bind tidies_peek fun next _ => ?_
  extract_lets add
  have hadd {r : Bool} {format : List FormatValue} {label : Label}
      (hformat : ∀ v ∈ format, v.Mild free) :
      Tidies c free r (add (format, label)) r (WindowDraft.Mild free) := by
    refine .ite (fun _ => .pure hw) fun _ => .pure ?_
    have hchoice : (Command.choice condition text format label).Mild free := by
      refine ⟨?_, fun hfree v hv => (hformat v hv).unquoted hfree⟩
      simp only [Command.strings, returnless_append, returnless_cons, returnless_nil, and_true]
      exact ⟨hcondition, htext, returnless_flatMap.2 fun v hv => (hformat v hv).strings⟩
    exact { hw with choices := forall_mem_concat hw.choices hchoice }
  refine .ite (fun _ => ?_) fun _ =>
    .bind tidies_parseLabel fun _ _ => .weaken (hadd (List.forall_mem_nil _))
  refine .bind tidies_consume fun _ _ => ?_
  refine .bind tidies_parseChoiceArguments ?_
  rintro ⟨format, label⟩ hformat
  exact hadd hformat

/-! ### Conversations -/

theorem tidies_parseStay : Tidies c free r parseStay false fun _ => True := by
  refine tidies_repeatFrom (I := fun _ => True) trivial fun stay _ => ?_
  refine .bind tidies_atLineEnd fun ended _ => .ite (fun _ => .pure trivial) fun _ => ?_
  refine .bind tidies_expect fun token _ => ?_
  exact .guard fun _ => .guard fun _ => .weaken (.pure trivial)

/-- A bare word that ends at a blank. -/
theorem tidies_parseWord_blank : Tidies c free true (parseWord false) true fun s =>
    13 ∉ s ∧ (free = true → Script.Word s) :=
  tidies_parseWord.mono fun _ h => ⟨h.1, fun hfree => (h.2 hfree).word rfl rfl⟩

theorem tidies_parseTalk (hw : w.Mild free) :
    Tidies c free r (parseTalk w loc) false (WindowDraft.Mild free) := by
  refine .bind tidies_checkUnconditional fun _ _ => .bind tidies_checkUnset fun _ _ => ?_
  refine .bind tidies_expect fun target _ => ?_
  extract_lets animate
  have hanimate {name1 name2 : Bytes} (h : 13 ∉ name1 ∧ 13 ∉ name2) :
      Tidies c free true (animate (name1, name2)) false (WindowDraft.Mild free) := by
    refine .bind tidies_parseWord_blank fun anim hanim => .bind tidies_parseStay fun _ _ => .pure ?_
    refine { hw with talk := ?_ }
    rintro _ ⟨⟩
    exact ⟨by simpa [Command.strings] using ⟨hanim.1, h⟩, fun hfree => ⟨hanim.2 hfree, by simp⟩⟩
  have hnpc : 13 ∉ npcName := by decide
  have hplayer : 13 ∉ playerName := by decide
  refine .ite (fun _ => .bind (.pure rfl) ?_) fun _ => .ite (fun _ => .bind (.pure rfl) ?_) ?_
  · rintro _ rfl
    exact hanimate ⟨hnpc, hplayer⟩
  · rintro _ rfl
    exact hanimate ⟨hplayer, hnpc⟩
  · exact fun _ => .fail_bind

theorem tidies_parseStayWord : Tidies c free r parseStayWord true fun _ => True := by
  refine .bind tidies_expect fun token _ => .ite (fun _ => .pure trivial) fun _ => ?_
  exact .ite (fun _ => .pure trivial) fun _ => .fail

theorem tidies_parseTalkEx (hw : w.Mild free) :
    Tidies c free true (parseTalkEx w loc) false (WindowDraft.Mild free) := by
  refine .bind tidies_checkUnconditional fun _ _ => .bind tidies_checkUnset fun _ _ => ?_
  refine .bind tidies_parseWord_blank fun name1 hname1 => ?_
  refine .bind tidies_parseWord_blank fun name2 hname2 => ?_
  refine .bind tidies_parseWord_blank fun anim1 hanim1 => ?_
  refine .bind tidies_parseWord_blank fun anim2 hanim2 => ?_
  have hdone (stay1 stay2 : UInt32) : WindowDraft.Mild free
      { w with talk := some ⟨anim1, some anim2, name1, name2, stay1, stay2⟩ } := by
    refine { hw with talk := ?_ }
    rintro _ ⟨⟩
    refine ⟨by simpa [Command.strings] using ⟨hanim1.1, hanim2.1, hname1.1, hname2.1⟩,
      fun hfree => ⟨hanim1.2 hfree, ?_⟩⟩
    rintro _ ⟨⟩
    exact ⟨hanim2.2 hfree, hname1.2 hfree, hname2.2 hfree⟩
  refine .bind tidies_atLineEnd fun ended _ => .ite (fun _ => .pure (hdone 1 1)) fun _ => ?_
  refine .bind tidies_parseStayWord fun _ _ => .bind tidies_parseStayWord fun _ _ => ?_
  exact .weaken (.pure (hdone _ _))

/-! ### Backgrounds -/

theorem tidies_parseColor : Tidies c free r parseColor true fun _ => True := by
  refine .bind tidies_expect fun _ _ => .bind tidies_read fun token _ => ?_
  split
  · exact .pure trivial
  · exact .fail

theorem tidies_parseBackdropWord {b : Backdrop} (hb : ∀ s ∈ b.name, 13 ∉ s) :
    Tidies c free true (parseBackdropWord b token) true fun b => ∀ s ∈ b.name, 13 ∉ s := by
  have hcolor {f : UInt32 → Backdrop} (hf : ∀ color, (f color).name = b.name) :
      Tidies c free true (parseColor >>= fun color => pure (f color)) true
        fun b => ∀ s ∈ b.name, 13 ∉ s :=
    .bind tidies_parseColor fun color _ => .pure (by rwa [hf color])
  refine .ite (fun _ => hcolor fun _ => rfl) fun _ => ?_
  refine .ite (fun _ => hcolor fun _ => rfl) fun _ => ?_
  refine .ite (fun _ => hcolor fun _ => rfl) fun _ => ?_
  refine .ite (fun _ => hcolor fun _ => rfl) fun _ => ?_
  refine .ite (fun _ => .pure hb) fun _ => .ite (fun _ => .pure hb) fun _ => ?_
  exact .ite (fun _ => .pure hb) fun _ => .ite (fun _ => .pure hb) fun _ => .fail

theorem tidies_parseBackdrop {corners : Corners} :
    Tidies c free r (parseBackdrop corners) false fun b => ∀ s ∈ b.name, 13 ∉ s := by
  refine tidies_repeatFrom (I := fun b => ∀ s ∈ b.name, 13 ∉ s) (by simp) fun b hb => ?_
  refine .bind tidies_read fun token ht => ?_
  have hgoOn {b : Backdrop} (hb : ∀ s ∈ b.name, 13 ∉ s) : Tidies c free true
      (atLineEnd >>= fun ended => if ended then pure (.inr b) else pure (.inl b)) false
      (Sum.elim (fun b : Backdrop => ∀ s ∈ b.name, 13 ∉ s)
        fun b : Backdrop => ∀ s ∈ b.name, 13 ∉ s) :=
    .bind tidies_atLineEnd fun _ _ => .ite (fun _ => .pure hb) fun _ => .pure hb
  split
  · refine .guard fun _ => hgoOn ?_
    rintro _ ⟨⟩
    exact (ht.1.part (unquoted_part token)).returns
  · exact .bind (tidies_parseBackdropWord hb) fun b hb => hgoOn hb
  · exact .fail_bind

theorem tidies_parseBackground (hw : w.Mild free) :
    Tidies c free r (parseBackground w) false (WindowDraft.Mild free) := by
  refine (tidies_activeCondition hw).bind ?_
  rintro ⟨condition, emits⟩ hcondition
  refine .bind tidies_parseBackdrop fun b hb => ?_
  refine .ite (fun _ => .bind tidies_location fun _ _ => .fail_bind) fun _ => ?_
  extract_lets w' name
  have hname : ∀ s ∈ name, 13 ∉ s := by
    intro s hs
    change s ∈ b.name.orElse _ at hs
    cases hgiven : b.name with
    | some s' =>
      rw [hgiven] at hs
      exact hb s (hgiven ▸ hs)
    | none =>
      rw [hgiven, Option.orElse] at hs
      split_ifs at hs <;> cases hs <;> decide
  split
  · exact .pure { hw with }
  · rename_i file hfile
    have hzero : Returnless ((some (Expr.constant .zero)).toList.flatMap Expr.strings) := by
      simp [Expr.constant, Expr.strings, Expr.toOperand, Operand.strings]
    have hplain : 13 ∉ file := by
      split at hfile
      · exact hname file hfile
      · cases hfile
    refine .pure { hw with images := forall_mem_concat hw.images (mild_image hcondition hplain ?_) }
    exact returnless_area.2 ⟨hzero, hzero, by simp, by simp⟩

/-! ### Cameras -/

/-- A text in parentheses. -/
theorem tidies_parseCamText : Tidies c free r parseCamText true fun s =>
    13 ∉ s ∧ (free = true → Script.Enclosed s) := by
  refine .bind tidies_expect fun _ _ => .bind tidies_readRaw fun token ht => ?_
  extract_lets enclose
  have henclose {text : Bytes} (h : 13 ∉ text)
      (henclosed : free = true → text ≠ [] → Script.Enclosed text) :
      Tidies c free true (enclose text) true fun s =>
        13 ∉ s ∧ (free = true → Script.Enclosed s) := by
    refine .guard fun hne => .bind tidies_expect fun _ _ => .pure ⟨h, fun hfree => ?_⟩
    exact henclosed hfree (by simpa using hne)
  refine .ite (fun hstring => ?_) fun _ => ?_
  · refine .bind (tidies_stringValue ht.1.1) fun text htext => henclose htext fun hfree => ?_
    rcases ht.2 hfree with ⟨htype, -⟩ | ⟨htype, -⟩ | ⟨htype, -⟩ <;>
      exact absurd (htype.symm.trans hstring) (by decide)
  · refine .bind (.pure rfl) ?_
    rintro _ rfl
    refine henclose ht.1.1.returns fun hfree hne => ?_
    rcases ht.2 hfree with ⟨-, ⟨-, hempty⟩ | hword⟩ | ⟨-, hline⟩ | ⟨-, hempty⟩
    · exact absurd hempty hne
    · exact .inl (hword.phrase ht.1.1.returns)
    · exact .inr hline
    · exact absurd hempty hne

theorem tidies_parseCamNumber : Tidies c free r parseCamNumber true fun _ => True := by
  refine .bind tidies_expect fun _ _ => .bind tidies_expect fun token _ => ?_
  refine .bind tidies_expect fun _ _ => .bind tidies_located fun n _ => ?_
  exact .guard fun _ => .pure trivial

/-- A camera as far as its settings are read. -/
theorem tidies_parseCamSetting {cam : Cam} (hcam : (Command.cam cam).Mild free) :
    Tidies c free true (parseCamSetting cam token) true fun cam => (Command.cam cam).Mild free := by
  obtain ⟨hname, hsource, htarget, howner⟩ : 13 ∉ cam.name ∧ Returnless cam.source.toList ∧
      Returnless cam.target.toList ∧ Returnless cam.owner.toList := by
    simpa only [Command.strings, returnless_append, returnless_cons, returnless_nil, and_true] using
      hcam.strings
  have hlegible : free = true → cam.Legible := hcam.spelled
  have hmild {cam' : Cam} (hname : 13 ∉ cam'.name) (hsource : Returnless cam'.source.toList)
      (htarget : Returnless cam'.target.toList) (howner : Returnless cam'.owner.toList)
      (hlegible : free = true → cam'.Legible) : (Command.cam cam').Mild free := by
    refine ⟨?_, hlegible⟩
    simp only [Command.strings, returnless_append, returnless_cons, returnless_nil, and_true]
    exact ⟨hname, hsource, htarget, howner⟩
  have htext {f : Bytes → Cam} (hf : ∀ text, 13 ∉ text → (free = true → Script.Enclosed text) →
      (Command.cam (f text)).Mild free) :
      Tidies c free true (parseCamText >>= fun text => pure (f text)) true
        fun cam => (Command.cam cam).Mild free :=
    .bind tidies_parseCamText fun text ht => .pure (hf text ht.1 ht.2)
  have hparams {p : CamParams}
      (hocclude : free = true → p.occlude = CamParams.unset ∨ p.occlude ≤ 1) :
      (Command.cam { cam with params := p }).Mild free :=
    hmild hname hsource htarget howner fun hfree =>
      { hlegible hfree with occlude := hocclude hfree }
  have hoccludes (hfree : free = true) := (hlegible hfree).occlude
  have hnumber {f : UInt16 → Cam} (hf : ∀ n, (Command.cam (f n)).Mild free) :
      Tidies c free true (parseCamNumber >>= fun n => pure (f n)) true
        fun cam => (Command.cam cam).Mild free :=
    .bind tidies_parseCamNumber fun n _ => .pure (hf n)
  refine .ite (fun _ => htext fun text ht henclosed => ?_) fun _ => ?_
  · exact hmild hname (by simpa using ht) htarget howner fun hfree =>
      { hlegible hfree with source := by simpa using henclosed hfree }
  refine .ite (fun _ => htext fun text ht henclosed => ?_) fun _ => ?_
  · exact hmild hname hsource (by simpa using ht) howner fun hfree =>
      { hlegible hfree with target := by simpa using henclosed hfree }
  refine .ite (fun _ => htext fun text ht henclosed => ?_) fun _ => ?_
  · exact hmild hname hsource htarget (by simpa using ht) fun hfree =>
      { hlegible hfree with owner := by simpa using henclosed hfree }
  refine .ite (fun _ => hnumber fun _ => hparams hoccludes) fun _ => ?_
  refine .ite (fun _ => hnumber fun _ => hparams hoccludes) fun _ => ?_
  refine .ite (fun _ => hnumber fun _ => hparams hoccludes) fun _ => ?_
  refine .ite (fun _ => hnumber fun _ => hparams hoccludes) fun _ => ?_
  refine .ite (fun _ => hnumber fun _ => hparams hoccludes) fun _ => ?_
  refine .ite (fun _ => hnumber fun _ => hparams hoccludes) fun _ => ?_
  refine .ite (fun _ => hnumber fun _ => hparams hoccludes) fun _ => ?_
  refine .ite (fun _ => hnumber fun _ => hparams hoccludes) fun _ => ?_
  refine .ite (fun _ => hnumber fun _ => hparams hoccludes) fun _ => ?_
  refine .ite (fun _ => .bind tidies_parseCamNumber fun n _ => .guard fun hn => ?_) fun _ => ?_
  · exact .pure (hparams fun _ => .inr (UInt16.not_lt.1 hn))
  refine .ite (fun _ => .pure (hparams hoccludes)) fun _ => ?_
  exact .ite (fun _ => .pure (hparams hoccludes)) fun _ => .fail

theorem tidies_parseCam (hc : c.Plain) (hw : w.Mild free) :
    Tidies c free r (parseCam w loc) false (WindowDraft.Mild free) := by
  refine .bind tidies_checkUnset fun _ _ => .bind tidies_checkUnconditional fun _ _ => ?_
  have hname : Tidies c free r parseCamName true Script.Identifier := by
    refine .bind tidies_options ?_
    rintro _ rfl
    simp only [hc.legacyCam, Bool.not_false, if_true]
    exact .bind tidies_expect fun token ht => .pure (ht.2.2 ht.1)
  refine hname.bind fun name hname => ?_
  refine .bind (P := fun cam => (Command.cam cam).Mild free) ?_ fun cam hcam => .pure ?_
  · refine tidies_repeatFrom (I := fun cam => (Command.cam cam).Mild free) ?_ fun cam hcam => ?_
    · refine ⟨by simpa [Command.strings] using hname.not_mem_return, fun _ => ?_⟩
      exact ⟨hname, by simp, by simp, by simp, .inl rfl⟩
    · refine .bind tidies_atLineEnd fun ended _ => .ite (fun _ => .pure hcam) fun _ => ?_
      refine .bind tidies_expect fun token _ => ?_
      exact .bind (tidies_parseCamSetting hcam) fun cam' hcam' => .weaken (.pure hcam')
  · exact { hw with cam := by simpa using hcam }

/-! ### Directives -/

theorem tidies_parseCommand (hc : c.Plain) (hw : w.Mild free) :
    Tidies c free true (parseCommand w token) false (WindowDraft.Mild free) := by
  have hsome {e : Expr} (he : Returnless e.strings) :
      Returnless ((some e).toList.flatMap Expr.strings) := by
    simpa using he
  obtain ⟨hx, hy, hwidth, hheight⟩ := returnless_area.1 hw.area
  refine .ite (fun _ => .bind tidies_parseDimension fun e he => .pure ?_) fun _ => ?_
  · exact { hw with area := returnless_area.2 ⟨hsome he, hy, hwidth, hheight⟩ }
  refine .ite (fun _ => .bind tidies_parseDimension fun e he => .pure ?_) fun _ => ?_
  · exact { hw with area := returnless_area.2 ⟨hx, hsome he, hwidth, hheight⟩ }
  refine .ite (fun _ => .bind tidies_parseDimension fun e he => .pure ?_) fun _ => ?_
  · exact { hw with area := returnless_area.2 ⟨hx, hy, hsome he, hheight⟩ }
  refine .ite (fun _ => .bind tidies_parseDimension fun e he => .pure ?_) fun _ => ?_
  · exact { hw with area := returnless_area.2 ⟨hx, hy, hwidth, hsome he⟩ }
  refine .ite (fun _ => (tidies_parseFormattedText hw).bind fun cs hcs => .pure ?_) fun _ => ?_
  · exact { hw with titles := List.forall_mem_append.2 ⟨hw.titles, hcs⟩ }
  refine .ite (fun _ => (tidies_parseFormattedText hw).bind fun cs hcs => .pure ?_) fun _ => ?_
  · exact { hw with bodies := List.forall_mem_append.2 ⟨hw.bodies, hcs⟩ }
  refine .ite (fun _ => tidies_parseTalk hw) fun _ => ?_
  refine .ite (fun _ => tidies_parseTalkEx hw) fun _ => ?_
  refine .ite (fun _ => tidies_parseImage hw) fun _ => ?_
  refine .ite (fun _ => tidies_parseFlags hw) fun _ => ?_
  refine .ite (fun _ => .weaken (tidies_parseSubWindow hw)) fun _ => ?_
  refine .ite (fun _ => tidies_parseChoice hw) fun _ => ?_
  refine .ite (fun _ => .bind tidies_parseConsole fun s hs => .weaken (.pure ?_)) fun _ => ?_
  · exact { hw with startConsole := by simpa using hs }
  refine .ite (fun _ => .bind tidies_parseConsole fun s hs => .weaken (.pure ?_)) fun _ => ?_
  · exact { hw with finishConsole := by simpa using hs }
  refine .ite (fun _ => .bind tidies_parseNamed fun s hs => .weaken (.pure ?_)) fun _ => ?_
  · exact { hw with font := by simpa using hs }
  refine .ite (fun _ => .bind tidies_parseNamed fun s hs => .weaken (.pure ?_)) fun _ => ?_
  · exact { hw with style := by simpa using hs }
  refine .ite (fun _ => .weaken (tidies_parseNextWindow hw)) fun _ => ?_
  refine .ite (fun _ => .weaken (tidies_parseNextWindow hw)) fun _ => ?_
  refine .ite (fun _ => tidies_parsePrint hw) fun _ => ?_
  refine .ite (fun _ => tidies_parsePrint hw) fun _ => ?_
  refine .ite (fun _ => .bind (tidies_parseSwitchRef hc) fun _ _ => .weaken (.pure ?_)) fun _ => ?_
  · exact { hw with }
  refine .ite (fun _ => .bind (tidies_parseSwitchRef hc) fun _ _ => .weaken (.pure ?_)) fun _ => ?_
  · exact { hw with }
  refine .ite (fun _ => .bind (tidies_parseSwitchRef hc) fun _ _ => .weaken (.pure ?_)) fun _ => ?_
  · exact { hw with }
  refine .ite (fun _ => tidies_parseBackground hw) fun _ => ?_
  exact .ite (fun _ => tidies_parseCam hc hw) fun _ => .fail

theorem tidies_parseDirective (hc : c.Plain) (hw : w.Mild free) :
    Tidies c free true (parseDirective w token) false (WindowDraft.Mild free) := by
  refine .ite (fun _ => .weaken (.pure hw)) fun _ => ?_
  refine .ite (fun _ => .weaken (tidies_closeBrace hw.clearClosed)) fun _ => ?_
  refine .ite (fun _ => tidies_openElse hw) fun _ => .guard fun _ => ?_
  refine .ite (fun _ => tidies_openIf hw.clearClosed) fun _ => ?_
  refine (tidies_parseCommand hc hw.clearClosed).bind fun w hw => ?_
  exact .bind tidies_peek fun next _ => .guard fun _ => .pure hw.markUsed.closeUnbraced

theorem tidies_compileWindow (hc : c.Plain) : Tidies c free r compileWindow false fun r =>
    ∀ d ∈ r.1.commands, d.Mild free := by
  refine .bind tidies_parseDefinitionLabel fun label _ => ?_
  refine .bind tidies_read fun token _ => .guard fun _ => ?_
  refine .bind (tidies_repeatFrom (I := WindowDraft.Mild free) (P := fun r => r.1.Mild free)
    WindowDraft.mild_empty fun w hw => ?_) fun r hdraft => ?_
  · refine .bind tidies_peek fun token _ => ?_
    split
    · refine .bind tidies_consume fun _ _ => .bind tidies_parseDefine fun defined _ => ?_
      exact .ite (fun _ => .pure hw) fun _ => .pure hw
    · exact .pure hw
    · refine .bind tidies_consume fun _ _ => ?_
      exact (tidies_parseDirective hc hw).bind fun w hw => .pure hw
  · dsimp only
    split
    · exact .fail_bind
    · exact .pure hdraft.commands

end Compiler

end ApeScript
