import ApeScript.Proofs.RestoredImages

/-!
# Lines of a command

Every command but a switch reference has lines of its own. `Compiler.conveys_command` says of each of
them that its lines, if it has any, take a window to what `WindowDraft.told` adds to it: the command
as it is read back.
-/

namespace ApeScript

/-! ### What the lines of a command say -/

def WindowDraft.say (w : WindowDraft) : Command → WindowDraft
  | c@(.formattedText code ..) =>
      if code = CommandCode.title then { w with titles := w.titles ++ [c] }
      else { w with bodies := w.bodies ++ [c] }
  | .talk t => { w with talk := some t }
  | .dimensions area => { w with area := area }
  | c@(.image _) => { w with images := w.images ++ [c] }
  | .flags bits => { w with flags := w.flags ||| bits &&& WindowFlags.mask WindowFlags.settable }
  | c@(.subWindow _) => { w with subWindows := w.subWindows ++ [c] }
  | c@(.choice ..) => { w with choices := w.choices ++ [c] }
  | .simpleText code text =>
      if code = CommandCode.startConsole then { w with startConsole := some text }
      else if code = CommandCode.finishConsole then { w with finishConsole := some text }
      else if code = CommandCode.font then { w with font := some text }
      else if code = CommandCode.style then { w with style := some text }
      else { w with nextWindow := some text }
  | c@(.print _) => { w with prints := w.prints ++ [c] }
  | .switchRef code label =>
      if code = CommandCode.startSwitch then { w with startSwitch := some label }
      else if code = CommandCode.thinkSwitch then { w with thinkSwitch := some label }
      else { w with finishSwitch := some label }
  | .background corners => { w with corners := corners }
  | .cam c => { w with cam := some c }
  | .blank => w

theorem CommandCode.isSwitchRef_iff {code : UInt8} : CommandCode.isSwitchRef code = true ↔
    code = CommandCode.startSwitch ∨ code = CommandCode.thinkSwitch ∨
      code = CommandCode.finishSwitch := by
  simp [CommandCode.isSwitchRef, or_assoc]

namespace Command

def paints (asBackground : Bool) : Command → Bool
  | background _ => true
  | image i => asBackground && i.isBackdrop
  | _ => false

/-- Commands whose words are read back: what is written without quotes is one word. -/
def Worded (asBackground : Bool) : Command → Prop
  | formattedText code _ _ format =>
      CommandCode.isFormattedText code = true ∧ ∀ v ∈ format, v.Stored
  | talk t => Script.Word t.anim1 ∧
      ∀ anim2 ∈ t.anim2, Script.Word anim2 ∧ Script.Word t.name1 ∧ Script.Word t.name2
  | image i =>
      if asBackground && i.isBackdrop then Script.Closed i.file ∧
        (ImageFlags.has i.flags ImageFlags.stretch && ImageFlags.has i.flags ImageFlags.tile) = false
      else i.flags = 0 ∨ i.area.width.isSome
  | subWindow label => label.isInline = false
  | switchRef code label => CommandCode.isSwitchRef code = true ∧ label.isInline = false
  | choice _ _ format label => (∀ v ∈ format, v.Stored) ∧ label.isInline = false
  | simpleText code text =>
      code = CommandCode.nextWindow → Script.RawWord {} text
  | print p => (∀ v ∈ p.format, v.Stored) ∧
      (p.isFull = true → ∀ s ∈ p.font, Script.RawWord (Scan.bareFlags true) s)
  | cam c => c.Legible
  | _ => True

/-- What is written in quotes ends at its closing quote. Only the names of backgrounds are read with
their escapes, and written without. -/
def closes (asBackground : Bool) : Command → Bool
  | image i => !(asBackground && i.isBackdrop) || i.closes
  | _ => true

theorem Worded.closes {asBackground : Bool} {d : Command} (hd : d.Worded asBackground) :
    d.closes asBackground = true := by
  cases d with
  | image i =>
    rw [Command.closes]
    rw [Worded] at hd
    cases hplaced : asBackground && i.isBackdrop with
    | true =>
      rw [hplaced, if_pos rfl] at hd
      exact (Image.closed_iff hd.1.plain).1 hd.1
    | false => rfl
  | _ => rfl

def Fits (w : WindowDraft) : Command → Prop
  | talk _ => w.talk = none
  | dimensions _ => w.area = ⟨none, none, none, none⟩
  | simpleText code _ =>
      if code = CommandCode.startConsole then w.startConsole = none
      else if code = CommandCode.finishConsole then w.finishConsole = none
      else if code = CommandCode.font then w.font = none
      else if code = CommandCode.style then w.style = none
      else w.nextWindow = none
  | switchRef code _ =>
      if code = CommandCode.startSwitch then w.startSwitch = none
      else if code = CommandCode.thinkSwitch then w.thinkSwitch = none
      else w.finishSwitch = none
  | background _ => w.corners = ⟨0, 0, 0, 0⟩
  | cam _ => w.cam = none
  | _ => True

def toldTo (w : WindowDraft) (asBackground : Bool) (c : Command) : WindowDraft :=
  if c.paints asBackground then { w.say (c.restated asBackground) with hasBackground := true }
  else w.say (c.restated asBackground)

end Command

namespace Compiler

open Lexer
open Script (conditionLine expressionSource formatSource)

variable {c : CompileContext} {w w₁ w₂ : WindowDraft} {command : Command} {asBackground : Bool}
  {lines lines₁ lines₂ : Bytes}

/-! ### Conversations -/

theorem conveys_talk {t : Talk} (hw : w.blocks = []) (hslot : w.talk = none) (ht : t.Legible) :
    Conveys c asBackground (.talk t) w { w with talk := some t.reread } := by
  obtain ⟨hanim1, hpair⟩ := ht
  have hflat : { w with blocks := [], closed := [] }.Flat := ⟨rfl, rfl⟩
  cases hanim2 : t.anim2 with
  | some anim2 =>
    simp only [hanim2] at hpair
    refine conveys_plain (utf8 "talk_ex") (32 :: (t.name1 ++ 32 :: (t.name2 ++ 32 ::
      (t.anim1 ++ 32 :: (anim2 ++ stayText t))))) hw hw rfl (.blank _) ?_ parseTalkEx
      (fun _ _ => rfl) fun loc rest => ?_
    · have hstart : utf8 "talk_ex " = utf8 "talk_ex" ++ [32] := rfl
      simp only [Script.writeCommand, Script.writeTalk, hanim2, stayText]
      split <;> simp [utf8_blank, utf8_newline, hstart]
    · simpa using reads_parseTalkEx hflat hslot hanim2 hpair.2.1 hpair.2.2 hanim1 hpair.1 loc
  | none =>
    simp only [hanim2] at hpair
    have hconveys {target : Bytes} (htarget : target = utf8 "npc" ∧ t.name1 = npcName ∧
        t.name2 = playerName ∨ target = utf8 "player" ∧ t.name1 = playerName ∧ t.name2 = npcName)
        (hwritten : Script.writeCommand asBackground (.talk t) = .ok (utf8 "talk" ++ 32 ::
          (target ++ 32 :: (t.anim1 ++ (if t.stay2 = 0 then utf8 " nostay" else []))) ++ [10])) :
        Conveys c asBackground (.talk t) w { w with talk := some t.reread } := by
      refine conveys_plain (utf8 "talk") _ hw hw rfl (.blank _) hwritten parseTalk (fun _ _ => rfl)
        fun loc rest => ⟨_, .seen, ?_⟩
      simpa using reads_parseTalk hflat hslot hanim2 htarget hanim1 loc
    have hstay : utf8 (if t.stay2 = 0 then " nostay\n" else "\n") =
        (if t.stay2 = 0 then utf8 " nostay" else []) ++ [10] := by
      split <;> rfl
    have hnpc : utf8 "_click_" = npcName := rfl
    have hplayer : utf8 "playerchar0" = playerName := rfl
    rcases hpair with ⟨hname1, hname2⟩ | ⟨hname1, hname2⟩
    · refine hconveys (.inl ⟨rfl, hname1, hname2⟩) ?_
      have hstart : utf8 "talk npc " = utf8 "talk" ++ 32 :: (utf8 "npc" ++ [32]) := rfl
      rw [Script.writeCommand, Script.writeTalk, hanim2, hstay, hname1, hname2, hnpc, hplayer]
      simp [pure, bind, Except.pure, Except.bind, hstart]
    · refine hconveys (.inr ⟨rfl, hname1, hname2⟩) ?_
      have hstart : utf8 "talk player " = utf8 "talk" ++ 32 :: (utf8 "player" ++ [32]) := rfl
      have hne : ¬ playerName = npcName := by decide
      rw [Script.writeCommand, Script.writeTalk, hanim2, hstay, hname1, hname2, hnpc, hplayer]
      simp [pure, bind, Except.pure, Except.bind, hstart, hne]

/-- Without a second animation a conversation that is written is between the clicked character and
the player. -/
theorem legible_of_writeTalk {t : Talk} (h : Script.writeTalk t = .ok lines)
    (ht : (Command.talk t).Worded asBackground) : t.Legible := by
  refine ⟨ht.1, ?_⟩
  cases hanim2 : t.anim2 with
  | some anim2 => exact ht.2 anim2 hanim2
  | none =>
    by_cases hnpc : t.name1 = npcName ∧ t.name2 = playerName
    · exact .inl hnpc
    by_cases hplayer : t.name1 = playerName ∧ t.name2 = npcName
    · exact .inr hplayer
    rw [Script.writeTalk, hanim2] at h
    simp only [show utf8 "_click_" = npcName from rfl, show utf8 "playerchar0" = playerName from rfl,
      if_neg hnpc, if_neg hplayer] at h
    cases h

/-! ### Flags -/

theorem crosses_flag {f : UInt32 × Bytes} (hf : f ∈ WindowFlags.settable) (hw : w.blocks = [])
    (m : Inlined) : Crosses parseWindowRound c (utf8 "flags " ++ f.2 ++ utf8 "\n") w.Over m
      { w with flags := w.flags ||| f.1 }.Over m := by
  have htext : utf8 "flags " ++ f.2 ++ utf8 "\n" =
      conditionLine none ++ (utf8 "flags" ++ 32 :: f.2 ++ [10]) := by
    have hword : utf8 "flags " = utf8 "flags" ++ [32] := rfl
    simp [conditionLine, hword, utf8_newline]
  rw [htext]
  refine crosses_line none hw hw (by simp) rfl (.blank _) parseFlags (fun _ _ => rfl)
    fun blocks hblocks loc rest => ⟨_, .seen, ?_⟩
  cases hblocks
  have hflat : { w with blocks := [], closed := [] }.Flat := ⟨rfl, rfl⟩
  have hloop := (finishes_parseFlagsRound (c := c) hf w.flags).reads rest
  rw [List.append_nil] at hloop
  refine Reads.standing (.bind (reads_checkUnconditional hflat loc) fun _ _ => .bind hloop ?_) m
  rintro _ rfl
  exact .pure rfl

theorem crosses_flags {l : List (UInt32 × Bytes)} (hl : ∀ f ∈ l, f ∈ WindowFlags.settable)
    (hw : w.blocks = []) (m : Inlined) :
    Crosses parseWindowRound c (l.flatMap fun f => utf8 "flags " ++ f.2 ++ utf8 "\n") w.Over m
      { w with flags := l.foldl (fun bits (f : UInt32 × Bytes) => bits ||| f.1) w.flags }.Over m := by
  induction l generalizing w with
  | nil => exact .nil
  | cons f l ih =>
    rw [List.flatMap_cons]
    exact .append (crosses_flag (hl f List.mem_cons_self) hw m)
      (ih (w := { w with flags := w.flags ||| f.1 }) (fun f hf => hl f (List.mem_cons_of_mem _ hf)) hw)

theorem conveys_flags {bits : UInt32} (hw : w.blocks = []) (hbits : WindowFlags.unnamed bits = 0) :
    Conveys c asBackground (.flags bits) w
      { w with flags := w.flags ||| bits &&& WindowFlags.mask WindowFlags.settable } := by
  have hnamed : ∀ f ∈ WindowFlags.settable, f ∈ WindowFlags.named :=
    fun _ => List.mem_of_mem_filter
  refine ⟨_, writeFlags_eq hbits, fun m => ?_⟩
  rw [← WindowFlags.foldl_filter_or hnamed]
  exact crosses_flags (fun _ => List.mem_of_mem_filter) hw m

/-! ### Dimensions -/

theorem reads_dimension {e : Expr} (hc : c.Plain) (he : e.Stored) {slot : Option Expr}
    (hslot : slot = none) {v : WindowDraft} (hv : v.Flat) (loc : Location) {rest : Bytes} :
    Reads (parseDimension v loc slot) c ⟨[], 32 :: (expressionSource e ++ 10 :: rest)⟩
      ⟨[(.endOfLine, [10])], rest⟩ (· = e.restored) := by
  refine .bind (reads_checkUnconditional hv loc) fun _ _ => ?_
  refine .bind (reads_checkUnset hslot loc _) fun _ _ => .bind .location fun start _ => ?_
  refine .bind (reads_parseExpr_stored he (endsExpr_line rest)) ?_
  rintro _ rfl
  exact reads_toExpr_restored hc he start

def dimensionSource (word : Bytes) : Option Expr → Bytes
  | some e => word ++ 32 :: expressionSource e ++ [10]
  | none => []

theorem crosses_dimension {e : Option Expr} {slot : Area → Option Expr} (word : Bytes)
    (set : Area → Option Expr → Area) (area : Area) (hc : c.Plain) (he : ∀ e' ∈ e, e'.Stored)
    (hw : w.blocks = []) (hslot : slot area = none) (hnone : set area none = area)
    (hword : isKeyword word = true)
    (hparse : ∀ v loc, parseCommand v ⟨.identifier, word, loc⟩ =
      (do return { v with area := set v.area (some (← parseDimension v loc (slot v.area))) }))
    (m : Inlined) : Crosses parseWindowRound c (dimensionSource word e)
      { w with area := area }.Over m { w with area := set area (e.map Expr.restored) }.Over m := by
  cases e with
  | none =>
    rw [Option.map_none, hnone]
    exact .nil
  | some e =>
    have htext : dimensionSource word (some e) =
        conditionLine none ++ (word ++ 32 :: expressionSource e ++ [10]) := rfl
    rw [htext]
    refine crosses_line none hw hw (by simp) hword (.blank _) _ hparse
      fun blocks hblocks loc rest => ⟨_, .seen, ?_⟩
    cases hblocks
    refine Reads.standing (.bind (reads_dimension hc (he e rfl) hslot ⟨rfl, rfl⟩ loc) ?_) m
    rintro _ rfl
    exact .pure rfl

theorem conveys_dimensions {area : Area} (hc : c.Plain) (hw : w.blocks = [])
    (hslot : w.area = ⟨none, none, none, none⟩) (hexprs : ∀ e ∈ area.exprs, e.Stored) :
    Conveys c asBackground (.dimensions area) w { w with area := area.mapExpr Expr.restored } := by
  simp only [Area.forall_mem_exprs, Option.mem_toList] at hexprs
  obtain ⟨hx, hy, hwidth, hheight⟩ := hexprs
  have htext : Script.writeArea area = dimensionSource (utf8 "width") area.width ++
      dimensionSource (utf8 "height") area.height ++ dimensionSource (utf8 "xpos") area.x ++
        dimensionSource (utf8 "ypos") area.y := by
    have hline (word : String) (e : Option Expr) : dimensionSource (utf8 word) e =
        match e with
        | some e => utf8 word ++ utf8 " " ++ expressionSource e ++ utf8 "\n"
        | none => [] := by
      cases e <;> simp [dimensionSource, utf8_blank, utf8_newline]
    simp only [hline]
    rfl
  refine ⟨_, congrArg Except.ok htext, fun m => ?_⟩
  have hwidths := crosses_dimension (utf8 "width") (fun a e => { a with width := e })
    ⟨none, none, none, none⟩ hc hwidth hw rfl rfl rfl (fun _ _ => rfl) m
  have hheights := crosses_dimension (utf8 "height") (fun a e => { a with height := e })
    ⟨none, none, area.width.map Expr.restored, none⟩ hc hheight hw rfl rfl rfl (fun _ _ => rfl) m
  have hxs := crosses_dimension (utf8 "xpos") (fun a e => { a with x := e })
    ⟨none, none, area.width.map Expr.restored, area.height.map Expr.restored⟩ hc hx hw rfl rfl rfl
    (fun _ _ => rfl) m
  have hys := crosses_dimension (utf8 "ypos") (fun a e => { a with y := e })
    ⟨area.x.map Expr.restored, none, area.width.map Expr.restored,
      area.height.map Expr.restored⟩ hc hy hw rfl rfl rfl (fun _ _ => rfl) m
  have hstart : w = { w with area := ⟨none, none, none, none⟩ } := by rw [← hslot]
  rw [hstart]
  exact ((hwidths.append hheights).append hxs).append hys

/-! ### Consoles, names and the next window -/

theorem conveys_startConsole {text : Bytes} (hw : w.blocks = []) (hslot : w.startConsole = none) :
    Conveys c asBackground (.simpleText CommandCode.startConsole text) w
      { w with startConsole := some (Script.withoutNewline text ++ [10]) } := by
  refine conveys_plain (utf8 "startconsole")
    (32 :: Script.quote (Script.withoutNewline text)) hw hw rfl (.blank _) rfl _
    (fun _ _ => rfl) fun loc rest => ⟨_, .unread, .bind (reads_parseConsole ⟨rfl, rfl⟩ hslot loc) ?_⟩
  rintro _ rfl
  exact .pure rfl

theorem conveys_finishConsole {text : Bytes} (hw : w.blocks = []) (hslot : w.finishConsole = none) :
    Conveys c asBackground (.simpleText CommandCode.finishConsole text) w
      { w with finishConsole := some (Script.withoutNewline text ++ [10]) } := by
  refine conveys_plain (utf8 "finishconsole")
    (32 :: Script.quote (Script.withoutNewline text)) hw hw rfl (.blank _) rfl _
    (fun _ _ => rfl) fun loc rest => ⟨_, .unread, .bind (reads_parseConsole ⟨rfl, rfl⟩ hslot loc) ?_⟩
  rintro _ rfl
  exact .pure rfl

/-- A name that is written is one that is read. -/
theorem plain_of_quoteName? {s text : Bytes} (h : Script.quoteName? s = some text) :
    Script.Plain s := by
  rw [Script.quoteName?] at h
  split at h
  · cases h
  · rename_i hnone
    simp only [List.any_eq_true, Bool.or_eq_true, decide_eq_true_eq, not_exists, not_and,
      not_or] at hnone
    exact ⟨fun hmem => (hnone 34 hmem).1 rfl, fun hmem => (hnone 10 hmem).2 rfl⟩

theorem plain_of_writeNamed {word s : Bytes} (h : Script.writeNamed word s = .ok lines) :
    Script.Plain s := by
  cases hname : Script.quoteName? s with
  | none =>
    rw [Script.writeNamed, hname] at h
    cases h
  | some => exact plain_of_quoteName? hname

theorem writeNamed_eq {word s : Bytes} (hs : Script.Plain s) :
    Script.writeNamed word s = .ok (word ++ 32 :: 34 :: (s ++ [34]) ++ [10]) := by
  rw [Script.writeNamed, Script.quoteName?_of_plain hs]
  simp [utf8_blank, utf8_newline]

theorem conveys_font {text : Bytes} (hw : w.blocks = []) (hslot : w.font = none)
    (htext : Script.Plain text) : Conveys c asBackground (.simpleText CommandCode.font text) w
      { w with font := some text } := by
  refine conveys_plain (utf8 "font") _ hw hw rfl (.blank _) (writeNamed_eq htext) _ (fun _ _ => rfl)
    fun loc rest => ⟨⟨[], 10 :: rest⟩, .unread, ?_⟩
  have hline : 32 :: 34 :: (text ++ [34]) ++ 10 :: rest = 32 :: 34 :: (text ++ 34 :: 10 :: rest) := by
    simp
  rw [hline]
  refine .bind (reads_parseNamed htext ⟨rfl, rfl⟩ hslot loc _) ?_
  rintro _ rfl
  exact .pure rfl

theorem conveys_style {text : Bytes} (hw : w.blocks = []) (hslot : w.style = none)
    (htext : Script.Plain text) : Conveys c asBackground (.simpleText CommandCode.style text) w
      { w with style := some text } := by
  refine conveys_plain (utf8 "style") _ hw hw rfl (.blank _) (writeNamed_eq htext) _ (fun _ _ => rfl)
    fun loc rest => ⟨⟨[], 10 :: rest⟩, .unread, ?_⟩
  have hline : 32 :: 34 :: (text ++ [34]) ++ 10 :: rest = 32 :: 34 :: (text ++ 34 :: 10 :: rest) := by
    simp
  rw [hline]
  refine .bind (reads_parseNamed htext ⟨rfl, rfl⟩ hslot loc _) ?_
  rintro _ rfl
  exact .pure rfl

theorem conveys_nextWindow {text : Bytes} (hw : w.blocks = []) (hslot : w.nextWindow = none)
    (htext : Script.RawWord {} text) :
    Conveys c asBackground (.simpleText CommandCode.nextWindow text) w
      { w with nextWindow := some text } := by
  have hwritten : Script.writeCommand asBackground (.simpleText CommandCode.nextWindow text) =
      if text = utf8 "0:0" then .ok (utf8 "return\n")
      else if Script.isLabelText text then .ok (utf8 "goto " ++ text ++ utf8 "\n")
      else .ok (utf8 "nextwindow " ++ text ++ utf8 "\n") := rfl
  have hread (loc : Location) (rest : Bytes) :
      Reads (parseNextWindow { w with blocks := [], closed := [] } loc false) c
        ⟨[], 32 :: (text ++ 10 :: rest)⟩ ⟨[], 10 :: rest⟩
          (· = { w with nextWindow := some text, blocks := [], closed := [] }) :=
    reads_parseNextWindow (w := { w with blocks := [], closed := [] }) htext ⟨rfl, rfl⟩ hslot loc
  have hline (word : Bytes) : word ++ [32] ++ text ++ utf8 "\n" = word ++ 32 :: text ++ [10] := by
    simp [utf8_newline]
  by_cases hzero : text = utf8 "0:0"
  · rw [if_pos hzero] at hwritten
    refine conveys_plain (utf8 "return") _ hw hw rfl .nil hwritten
      (fun v loc => parseNextWindow v loc true) (fun _ _ => rfl) fun loc rest => ⟨_, .unread, ?_⟩
    refine .bind (reads_checkUnconditional ⟨rfl, rfl⟩ loc) fun _ _ => ?_
    refine .bind (reads_checkUnset hslot loc _) fun _ _ => .pure ?_
    rw [hzero]
  rw [if_neg hzero] at hwritten
  by_cases hlabel : Script.isLabelText text = true
  · rw [if_pos hlabel] at hwritten
    exact conveys_plain (utf8 "goto") _ hw hw rfl (.blank _)
      (hwritten.trans (congrArg Except.ok (hline (utf8 "goto"))))
      (fun v loc => parseNextWindow v loc false) (fun _ _ => rfl)
      fun loc rest => ⟨_, .unread, hread loc rest⟩
  · rw [if_neg hlabel] at hwritten
    exact conveys_plain (utf8 "nextwindow") _ hw hw rfl (.blank _)
      (hwritten.trans (congrArg Except.ok (hline (utf8 "nextwindow"))))
      (fun v loc => parseNextWindow v loc false) (fun _ _ => rfl)
      fun loc rest => ⟨_, .unread, hread loc rest⟩

/-! ### Sub-windows, choices, backgrounds and cameras -/

theorem conveys_subWindow {label : Label} (hw : w.blocks = []) (hlabel : label.isInline = false) :
    Conveys c asBackground (.subWindow label) w
      { w with subWindows := w.subWindows ++ [.subWindow label] } := by
  refine conveys_plain (utf8 "subwindow") _ hw hw rfl (.blank label.text) rfl parseSubWindow
    (fun _ _ => rfl) fun loc rest => ⟨_, .unread, ?_⟩
  exact reads_parseSubWindow hlabel ⟨rfl, rfl⟩ loc

theorem conveys_background {corners : Corners} (hw : w.blocks = [])
    (hslot : w.corners = ⟨0, 0, 0, 0⟩) : Conveys c asBackground (.background corners) w
      { w with corners := corners, hasBackground := true } := by
  have hpainted := paintAll_writtenCorners corners
  have hwritten := writeCorners_eq corners
  obtain ⟨k, l, hcorners⟩ := exists_writtenCorners corners
  rw [hcorners] at hwritten hpainted
  refine conveys_plain (utf8 "background") _ hw hw rfl (.blank _) (congrArg Except.ok hwritten)
    (fun v _ => parseBackground v) (fun _ _ => rfl) fun loc rest => ⟨_, .seen, ?_⟩
  rw [← hpainted, ← hslot]
  exact reads_parseBackground ⟨rfl, rfl⟩ k l

theorem conveys_cam {cam : Cam} (hc : c.Plain) (hw : w.blocks = []) (hslot : w.cam = none)
    (hcam : cam.Legible) :
    Conveys c asBackground (.cam cam) w { w with cam := some cam.reread } := by
  refine conveys_plain (utf8 "cam") _ hw hw rfl (.blank (cam.name ++ camSettings cam))
    (congrArg Except.ok (writeCam_eq cam)) parseCam (fun _ _ => rfl)
    fun loc rest => ⟨_, .seen, ?_⟩
  simpa using reads_parseCam hc.legacyCam hcam (w := { w with blocks := [], closed := [] })
    ⟨rfl, rfl⟩ hslot loc

def choiceSource (format : List FormatValue) : Bytes :=
  if format.isEmpty then [] else formatSource format ++ [44]

theorem reads_choice {cond : Option Expr} {text rest : Bytes} {format : List FormatValue}
    {label : Label} (hc : c.Plain) (hcond : ∀ e ∈ cond, e.Stored) (hformat : ∀ v ∈ format, v.Stored)
    (hlabel : label.isInline = false) (hblocks : Governs cond w.blocks) :
    Reads (parseChoice w) c
      ⟨[], 32 :: (Script.quote text ++ (choiceSource format ++ 32 :: (label.text ++ 10 :: rest)))⟩
      ⟨[], 10 :: rest⟩
      (· = { w with choices := w.choices ++ [.choice (cond.map Expr.restored) text
        (format.map FormatValue.reread) label] }) := by
  have hscan (rest : Bytes) : Scan.quotedFrom {} 1 (Script.escape text ++ 34 :: rest) =
      .done (1 + (Script.escape text).length + 1) := Scan.quotedFrom_escape rfl text
  have hquote (rest : Bytes) : 32 :: (Script.quote text ++ rest) =
      32 :: 34 :: (Script.escape text ++ 34 :: rest) := by
    simp [Script.quote, Script.escape]
  refine .bind (reads_activeCondition_governed hc hcond hblocks) ?_
  rintro _ rfl
  rw [hquote]
  refine .bind (.lift (succeeds_read (first?_literal .quoted _ (by simp) (hscan _))))
    fun token ht => ?_
  have htext : token.text = 34 :: (Script.escape text ++ [34]) := congrArg Prod.snd ht
  rw [stringValue, Token.unquoted_of_text htext]
  refine .bind (.located (Script.unescape_escape false text)) ?_
  rintro _ rfl
  cases format with
  | nil =>
    refine .bind (.lift (succeeds_peek (first?_label label))) fun token ht => ?_
    have htype : token.type = .number := congrArg Prod.fst ht
    rw [htype]
    refine .bind (reads_parseLabel hlabel succeeds_read_queued) ?_
    rintro _ rfl
    exact .bind (.pure rfl) fun _ h => h ▸ .pure rfl
  | cons v format =>
    have htext : choiceSource (v :: format) ++ 32 :: (label.text ++ 10 :: rest) =
        formatSource (v :: format) ++ 44 :: 32 :: (label.text ++ 10 :: rest) := by
      simp [choiceSource]
    obtain ⟨more, hmore⟩ : ∃ more, formatSource (v :: format) ++ 44 :: 32 :: (label.text ++
        10 :: rest) = 44 :: more := ⟨_, formatSource_cons⟩
    have hloop : Reads parseChoiceArguments c ⟨[], more⟩ ⟨[], 10 :: rest⟩
        (· = ((v :: format).map FormatValue.reread, label)) :=
      reads_of_stands (readsFrom_parseChoiceArguments rfl (fun v hv => (hformat v hv).compiled)
        (fun v hv => (hformat v hv).unquoted) hlabel (endsExpr_line rest).operand hmore.symm)
    rw [htext, hmore]
    refine .bind (.lift (succeeds_peek rfl)) fun token ht => ?_
    have htype : token.type = .comma := congrArg Prod.fst ht
    rw [htype]
    refine .bind (.lift succeeds_consume) fun _ _ => .bind hloop ?_
    rintro _ rfl
    exact .pure rfl

theorem conveys_choice {cond : Option Expr} {text : Bytes} {format : List FormatValue}
    {label : Label} (hc : c.Plain) (hw : w.blocks = []) (hcond : ∀ e ∈ cond, e.Stored)
    (hformat : ∀ v ∈ format, v.Stored) (hlabel : label.isInline = false) :
    Conveys c asBackground (.choice cond text format label) w
      { w with choices := w.choices ++ [.choice (cond.map Expr.restored) text
        (format.map FormatValue.reread) label] } := by
  refine conveys_directive (utf8 "choice") (32 :: (Script.quote text ++
    (choiceSource format ++ 32 :: label.text))) cond hw hw hcond rfl (.blank _) ?_
    (fun v _ => parseChoice v) (fun _ _ => rfl) fun blocks hblocks loc rest => ⟨_, .unread, ?_⟩
  · have hword : utf8 "choice " = utf8 "choice" ++ [32] := rfl
    have hcomma : utf8 "," = [44] := rfl
    simp [Script.writeCommand, choiceSource, hword, hcomma, utf8_blank, utf8_newline]
  · simpa using reads_choice (w := { w with blocks := blocks, closed := [] }) hc hcond hformat
      hlabel hblocks

/-! ### Every command -/

theorem exists_of_writePrint {p : Print} (h : Script.writePrint p = .ok lines) :
    (∃ e, p.x = some e) ∧ (∃ e, p.y = some e) ∧ ∃ e, p.alpha = some e := by
  obtain ⟨x, y, alpha, red, green, blue, font, message, condition, format⟩ := p
  cases x <;> cases y <;> cases alpha <;> first | exact ⟨⟨_, rfl⟩, ⟨_, rfl⟩, ⟨_, rfl⟩⟩ | cases h

theorem stored_of_writePrint {p : Print} (h : Script.writePrint p = .ok lines)
    (hp : (Command.print p).Worded asBackground) (hexprs : ∀ e ∈ (Command.print p).exprs, e.Stored) :
    p.Stored := by
  obtain ⟨hx, hy, halpha⟩ := exists_of_writePrint h
  exact ⟨hx, hy, halpha, hexprs, hp.2, hp.1⟩

/-- An image that is written has a name that is read. -/
theorem plain_of_writeImage {i : Image} (h : Script.writeImage asBackground i = .ok lines) :
    Script.Plain i.file := by
  cases hname : Script.quoteName? i.file with
  | none =>
    rw [Script.writeImage, hname] at h
    cases h
  | some => exact plain_of_quoteName? hname

/-- Flags without a name for the rest of them are known. -/
theorem known_of_names {flags : UInt32}
    (h : (ImageFlags.names flags).find? (Bytes.startsWith (utf8 "Unknown")) = none) :
    flags &&& ~~~ImageFlags.known = 0 := by
  by_contra hmore
  have hmem : utf8 "Unknown(" ++ Bytes.ofNat (flags &&& ~~~ImageFlags.known).toNat ++ utf8 ")" ∈
      ImageFlags.names flags := by
    simp [ImageFlags.names, hmore]
  refine List.find?_eq_none.1 h _ hmem ?_
  have htext : utf8 "Unknown(" = utf8 "Unknown" ++ [40] := rfl
  rw [htext, List.append_assoc, List.append_assoc]
  exact List.isPrefixOf_iff_prefix.2 (List.prefix_append _ _)

/-- An image that is written has a position, and a height if it has flags, which are known. -/
theorem stored_of_writeImage {i : Image} (h : Script.writeImage asBackground i = .ok lines)
    (hplaced : (asBackground && i.isBackdrop) = false) (hsized : i.flags = 0 ∨ i.area.width.isSome)
    (hexprs : ∀ e ∈ (Command.image i).exprs, e.Stored) : i.Stored := by
  have hfile := plain_of_writeImage h
  rw [Script.writeImage, Script.quoteName?_of_plain hfile] at h
  simp only [pure_bind, hplaced, Bool.false_eq_true, if_false] at h
  cases hx : i.area.x with
  | none =>
    rw [hx] at h
    cases h
  | some x =>
    cases hy : i.area.y with
    | none =>
      rw [hx, hy] at h
      cases h
    | some y =>
      simp only [hx, hy] at h
      have hheight : (!(ImageFlags.names i.flags).isEmpty && i.area.height.isNone) = false := by
        by_contra hheight
        rw [Bool.not_eq_false] at hheight
        rw [if_pos hheight] at h
        cases h
      rw [hheight, if_neg Bool.false_ne_true] at h
      cases hunknown : (ImageFlags.names i.flags).find? (Bytes.startsWith (utf8 "Unknown")) with
      | some =>
        rw [hunknown] at h
        cases h
      | none =>
        have hknown := known_of_names hunknown
        refine ⟨hfile, ⟨x, hx⟩, ⟨y, hy⟩, hexprs, hknown, hsized.elim .inl fun hwidth => ?_⟩
        rw [(names_spec hknown).1] at hheight
        by_cases hzero : i.flags = 0
        · exact .inl hzero
        · simp only [beq_eq_false_iff_ne.2 hzero, Bool.not_false, Bool.true_and,
            ← Option.not_isSome, Bool.not_eq_false'] at hheight
          exact .inr ⟨hwidth, hheight⟩

/-- The lines of a command, if it has any, take a window to what they say. -/
theorem conveys_command (hc : c.Plain) (hw : w.blocks = [])
    (hwritten : Script.writeCommand asBackground command = .ok lines)
    (hworded : command.Worded asBackground) (hexprs : ∀ e ∈ command.exprs, e.Stored)
    (hfits : command.Fits w) :
    Conveys c asBackground command w (command.toldTo w asBackground) := by
  cases command with
  | formattedText code cond text format =>
    obtain ⟨hcode, hformat⟩ := hworded
    have hcond : ∀ e ∈ cond, e.Stored := fun e he => hexprs e (Option.mem_toList.2 he)
    have hcode : code = CommandCode.body ∨ code = CommandCode.title := by
      simpa [CommandCode.isFormattedText] using hcode
    rcases hcode with rfl | rfl
    · exact conveys_body hc hw hcond hformat asBackground
    · exact conveys_title hc hw hcond hformat asBackground
  | talk t => exact conveys_talk hw hfits (legible_of_writeTalk hwritten hworded)
  | dimensions area => exact conveys_dimensions hc hw hfits hexprs
  | image i =>
    have hcond : ∀ e ∈ i.condition, e.Stored := fun e he =>
      hexprs e (List.mem_append_left _ (Option.mem_toList.2 he))
    cases hplaced : asBackground && i.isBackdrop with
    | true =>
      obtain ⟨rfl, hbackdrop⟩ := Bool.and_eq_true_iff.1 hplaced
      simp only [Command.Worded, hplaced, if_true] at hworded
      rw [Command.toldTo, Command.paints, Command.restated, Command.reread, hplaced, if_pos rfl,
        if_pos rfl]
      exact conveys_backdrop hc hw ⟨hworded.1, hcond, hbackdrop, hworded.2⟩
    | false =>
      simp only [Command.Worded, hplaced, Bool.false_eq_true, if_false] at hworded
      rw [Command.toldTo, Command.paints, Command.restated, Command.reread, hplaced,
        if_neg Bool.false_ne_true, if_neg Bool.false_ne_true]
      exact conveys_image hc hw (stored_of_writeImage hwritten hplaced hworded hexprs) hplaced
  | flags bits => exact conveys_flags hw (WindowFlags.writeFlags_eq_ok_iff.1 ⟨lines, hwritten⟩)
  | subWindow label => exact conveys_subWindow hw hworded
  | choice cond text format label =>
    exact conveys_choice hc hw (fun e he => hexprs e (Option.mem_toList.2 he)) hworded.1 hworded.2
  | simpleText code text =>
    rw [Script.writeCommand, Script.writeSimpleText] at hwritten
    split_ifs at hwritten with hstart hfinish hfont hstyle hnext
    · cases hstart
      exact conveys_startConsole hw hfits
    · cases hfinish
      exact conveys_finishConsole hw hfits
    · cases hfont
      exact conveys_font hw hfits (plain_of_writeNamed hwritten)
    · cases hstyle
      exact conveys_style hw hfits (plain_of_writeNamed hwritten)
    all_goals
      cases hnext
      exact conveys_nextWindow hw hfits (hworded rfl)
  | print p => exact conveys_print hc hw (stored_of_writePrint hwritten hworded hexprs) asBackground
  | switchRef => cases hwritten
  | background corners => exact conveys_background hw hfits
  | cam cam => exact conveys_cam hc hw hfits hworded
  | blank => cases hwritten

theorem blocks_say (w : WindowDraft) (d : Command) : (w.say d).blocks = w.blocks := by
  cases d <;> simp only [WindowDraft.say] <;> split_ifs <;> rfl

theorem blocks_toldTo (w : WindowDraft) (asBackground : Bool) (command : Command) :
    (command.toldTo w asBackground).blocks = w.blocks := by
  rw [Command.toldTo]
  split
  · exact blocks_say w _
  · exact blocks_say w _

/-- The lines of a command are refused if its quotes do not close. -/
theorem crossesIf_command (hc : c.Plain) (hw : w.blocks = [])
    (hwritten : Script.writeCommand asBackground command = .ok lines)
    (hworded : command.closes asBackground = true → command.Worded asBackground)
    (hexprs : ∀ e ∈ command.exprs, e.Stored) (hfits : command.Fits w) (m : Inlined) :
    CrossesIf parseWindowRound c lines (command.closes asBackground) w.Over m
      (command.toldTo w asBackground).Over m := by
  cases hcloses : command.closes asBackground with
  | true =>
    obtain ⟨lines', hlines, hcrosses⟩ :=
      conveys_command hc hw hwritten (hworded hcloses) hexprs hfits
    cases hwritten.symm.trans hlines
    exact (hcrosses m).crossesIf
  | false =>
    cases command with
    | image i =>
      simp only [Command.closes, Bool.or_eq_false_iff, Bool.not_eq_false'] at hcloses
      obtain ⟨hplaced, hcloses⟩ := hcloses
      obtain ⟨rfl, hbackdrop⟩ := Bool.and_eq_true_iff.1 hplaced
      have hfile := plain_of_writeImage hwritten
      cases hwritten.symm.trans (writeCommand_backdrop hfile hbackdrop)
      refine crossesIf_backdrop_false hc hw ((blocks_toldTo w true (.image i)).trans hw) hfile
        (fun e he => hexprs e (List.mem_append_left _ (Option.mem_toList.2 he))) hcloses
    | _ => cases hcloses

end Compiler

end ApeScript
