import ApeScript.Proofs.CommandLines

/-!
# Windows that are written

A window is written as the lines of its commands, a line for a background that says nothing, and the
lines of its switch references. `writeWindow_ok_iff` takes the text apart, and
`Compiler.comesTo_compileWindow` reads it up to the next directive of the script.
-/

namespace ApeScript

/-! ### The parts of a window -/

def Command.isBackdrop : Command → Bool
  | .image i => i.isBackdrop
  | _ => false

namespace Window

def asBackground (w : Window) : Bool :=
  w.commands.any (fun
    | .image i => i.isBackdrop
    | _ => false) &&
  !w.commands.any (fun
    | .background _ => true
    | _ => false) &&
  !Script.hasNoBackground w

def isPlain (w : Window) : Bool :=
  !Script.hasNoBackground w && !w.asBackground &&
  !w.commands.any (fun
    | .background _ => true
    | _ => false)

def ownCommands (w : Window) : List Command :=
  w.commands.filter fun
    | .switchRef .. => false
    | _ => true

end Window

open Script (writeCommand writeSwitchRef switchRefs writeWindow)

variable {f : File} {w : Window} {text : Bytes}

theorem writeWindow_ok_iff : writeWindow f w = .ok text ↔ ∃ body refs,
    w.ownCommands.mapM (writeCommand w.asBackground) = .ok body ∧
    (switchRefs w).mapM (fun r => writeSwitchRef f r.1 r.2) = .ok refs ∧
    text = windowScript w.id (body.flatten ++ ((if w.isPlain then plainLine else []) ++
      (refs.flatten ++ [10]))) := by
  have htext (body refs : List Bytes) : utf8 "#window " ++ Label.text w.id ++ utf8 "\n" ++
      body.flatten ++ (if w.isPlain then plainLine else []) ++ refs.flatten ++ utf8 "\n" =
        windowScript w.id (body.flatten ++ ((if w.isPlain then plainLine else []) ++
          (refs.flatten ++ [10]))) := by
    simp [windowScript, utf8_newline]
  constructor
  · intro h
    obtain ⟨body, hbody, h⟩ := bind_eq_ok.1 h
    obtain ⟨refs, hrefs, h⟩ := bind_eq_ok.1 h
    exact ⟨body, refs, hbody, hrefs, (Except.ok.inj h).symm.trans (htext body refs)⟩
  · rintro ⟨body, refs, hbody, hrefs, rfl⟩
    exact bind_eq_ok.2 ⟨body, hbody, bind_eq_ok.2 ⟨refs, hrefs,
      congrArg Except.ok (htext body refs)⟩⟩

namespace Compiler

open Lexer

variable {c : CompileContext} {w w' : WindowDraft} {asBackground : Bool} {commands : List Command}
  {body : List Bytes} {m m' : Inlined}

/-! ### Several commands -/

def allTold (asBackground : Bool) (w : WindowDraft) (commands : List Command) : WindowDraft :=
  commands.foldl (fun w c => c.toldTo w asBackground) w

def AllFit (asBackground : Bool) : WindowDraft → List Command → Prop
  | _, [] => True
  | w, c :: commands => c.Fits w ∧ AllFit asBackground (c.toldTo w asBackground) commands

theorem crossesIf_commands (hc : c.Plain) (hw : w.blocks = [])
    (hwritten : commands.mapM (writeCommand asBackground) = .ok body)
    (hworded : ∀ d ∈ commands, d.closes asBackground = true → d.Worded asBackground)
    (hexprs : ∀ d ∈ commands, ∀ e ∈ d.exprs, e.Stored) (hfit : AllFit asBackground w commands)
    (m : Inlined) :
    CrossesIf parseWindowRound c body.flatten (commands.all (·.closes asBackground)) w.Over m
      (allTold asBackground w commands).Over m := by
  induction commands generalizing w body with
  | nil =>
    cases hwritten
    exact Crosses.nil.crossesIf
  | cons d commands ih =>
    rw [List.mapM_cons] at hwritten
    obtain ⟨line, hline, hwritten⟩ := bind_eq_ok.1 hwritten
    obtain ⟨lines, hlines, hwritten⟩ := bind_eq_ok.1 hwritten
    cases hwritten
    have hfirst := crossesIf_command hc hw hline (hworded d List.mem_cons_self)
      (hexprs d List.mem_cons_self) hfit.1 m
    exact hfirst.append (ih ((blocks_toldTo w asBackground d).trans hw) hlines
      (fun d hd => hworded d (List.mem_cons_of_mem _ hd))
      (fun d hd => hexprs d (List.mem_cons_of_mem _ hd)) hfit.2)

theorem crosses_commands (hc : c.Plain) (hw : w.blocks = [])
    (hwritten : commands.mapM (writeCommand asBackground) = .ok body)
    (hworded : ∀ d ∈ commands, d.Worded asBackground)
    (hexprs : ∀ d ∈ commands, ∀ e ∈ d.exprs, e.Stored) (hfit : AllFit asBackground w commands)
    (m : Inlined) :
    Crosses parseWindowRound c body.flatten w.Over m (allTold asBackground w commands).Over m := by
  have hcrosses := crossesIf_commands hc hw hwritten (fun d hd _ => hworded d hd) hexprs hfit m
  rwa [List.all_eq_true.2 fun d hd => (hworded d hd).closes] at hcrosses

/-! ### Backgrounds and blank lines -/

theorem crosses_plainLine (hw : w.blocks = []) (hcorners : w.corners.first = 0) (m : Inlined) :
    Crosses parseWindowRound c plainLine w.Over m { w with hasBackground := true }.Over m := by
  have hline : plainLine = Script.conditionLine none ++
      (utf8 "background" ++ [(0, 0)].flatMap cornerText ++ [10]) := rfl
  rw [hline]
  refine crosses_line none hw hw (by simp) rfl (.blank _) (fun v _ => parseBackground v)
    (fun _ _ => rfl) fun blocks hblocks loc rest => ⟨_, .seen, ?_⟩
  cases hblocks
  have hpainted : { w with hasBackground := true, blocks := [], closed := [] } =
      { w with
        corners := paintAll w.corners [(0, 0)], hasBackground := true, blocks := [],
        closed := [] } := by
    rw [paintAll_black hcorners]
  rw [hpainted]
  exact (reads_parseBackground (w := { w with blocks := [], closed := [] }) ⟨rfl, rfl⟩ (0, 0)
    []).standing m

theorem crosses_line_end (m : Inlined) : Crosses parseWindowRound c [10] w.Over m w.Over m := by
  intro rest
  refine .round (less_of_length (by simp)) fun v hv => ?_
  refine succeeds_parseWindowRound (succeeds_peek rfl) (by simp) (by simp) fun loc => ?_
  exact .pure hv

/-! ### Switch references -/

theorem crosses_switchRef {code : UInt8} {label : Label} (f : File)
    (hcode : CommandCode.isSwitchRef code = true) (hlabel : label.isInline = false) :
    ∃ line, writeSwitchRef f code label = .ok line ∧ ∀ w : WindowDraft, w.blocks = [] →
      (Command.switchRef code label).Fits w →
        ∀ m, Crosses parseWindowRound c line w.Over m (w.say (.switchRef code label)).Over m := by
  have hline : writeSwitchRef f code label =
      .ok (Script.conditionLine none ++ (Script.switchDirective code ++ 32 :: label.text ++ [10])) := by
    rw [writeSwitchRef, hlabel]
    simp [Script.conditionLine, utf8_blank, utf8_newline]
  refine ⟨_, hline, fun w hw hfits m => ?_⟩
  have hread (slot : Option Label) (hslot : slot = none) (loc : Location) (rest : Bytes) :
      Reads (parseSwitchRef { w with blocks := [], closed := [] } loc slot) c
        ⟨[], 32 :: (label.text ++ 10 :: rest)⟩ ⟨[], 10 :: rest⟩ (· = label) :=
    reads_parseSwitchRef hlabel ⟨rfl, rfl⟩ hslot loc
  rcases CommandCode.isSwitchRef_iff.1 hcode with rfl | rfl | rfl
  all_goals
    refine crosses_line none hw hw (by simp) rfl (.blank _) _ (fun _ _ => rfl)
      fun blocks hblocks loc rest => ⟨_, .unread, ?_⟩
    cases hblocks
    refine Reads.standing (.bind (hread _ hfits loc rest) ?_) m
    rintro _ rfl
    exact .pure rfl

/-! ### The end of a window -/

/-- How a directive of a script ends before a text: at the end of the script, or after the number
sign of the next directive and its keyword. -/
inductive EndsBefore : Bytes → Bool → Spot → Prop
  | ended : EndsBefore [] false ⟨[(.endOfFile, [])], []⟩
  | next {word rest : Bytes} (hword : Script.Identifier word) (hdefine : word ≠ utf8 "define")
    (hrest : ∀ b ∈ rest.head?, isIdentifierByte b = false) :
    EndsBefore (35 :: (word ++ rest)) true ⟨[(.identifier, word)], rest⟩
  | line {text : Bytes} {afterHash : Bool} {q : Spot} (h : EndsBefore text afterHash q) :
    EndsBefore (10 :: text) afterHash q

theorem reads_parseDefine_other {word rest : Bytes} (hword : Script.Identifier word)
    (hdefine : word ≠ utf8 "define") (hrest : ∀ b ∈ rest.head?, isIdentifierByte b = false) :
    Reads parseDefine c ⟨[], word ++ rest⟩ ⟨[(.identifier, word)], rest⟩ (· = false) := by
  refine .bind (.lift (succeeds_peek (first?_identifier hword hrest))) fun token ht => ?_
  have htext : token.text = word := congrArg Prod.snd ht
  have hother : token.is (utf8 "define") = false := by
    simp [Token.is, htext, hdefine]
  rw [hother]
  exact .pure rfl

variable {more lines : Bytes} {afterHash : Bool} {q : Spot} {label : Label}

/-- The last rounds of a window. -/
theorem leaps_window_end (h : EndsBefore more afterHash q) (m : Inlined) :
    ∃ p, Leaps parseWindowRound c w.Over m ⟨[], more⟩ w.Over m p ∧ ∀ v, w.Over v →
      Succeeds (parseWindowRound v c) (StandsWith m p) (StandsWith m q)
        fun result => ∃ r, (w.Over r.1 ∧ r.2 = afterHash) ∧ result = .inr r := by
  induction h with
  | ended =>
    refine ⟨⟨[], []⟩, .refl, fun v hv => ?_⟩
    refine succeeds_bind ((Reads.lift (succeeds_peek rfl)).standing m) fun token ht => ?_
    have htype : token.type = .endOfFile := congrArg Prod.fst ht
    rw [htype]
    exact .pure ⟨(v, false), ⟨hv, rfl⟩, rfl⟩
  | @next word rest hword hdefine hrest =>
    refine ⟨⟨[], 35 :: (word ++ rest)⟩, .refl, fun v hv => ?_⟩
    refine succeeds_bind ((Reads.lift (succeeds_peek rfl)).standing m) fun token ht => ?_
    have htype : token.type = .hash := congrArg Prod.fst ht
    rw [htype]
    refine succeeds_bind ((Reads.lift succeeds_consume).standing m) fun _ _ => ?_
    refine succeeds_bind ((reads_parseDefine_other hword hdefine hrest).standing m) ?_
    rintro _ rfl
    exact .pure ⟨(v, true), ⟨hv, rfl⟩, rfl⟩
  | @line text afterHash q h ih =>
    obtain ⟨p, hleaps, hstop⟩ := ih
    have hline : Leaps parseWindowRound c w.Over m ⟨[], 10 :: text⟩ w.Over m ⟨[], text⟩ :=
      crosses_line_end m text
    exact ⟨p, hline.trans hleaps, hstop⟩

/-- A window, up to the next directive. -/
theorem comesTo_compileWindow {ok : Bool} (hlabel : label.isInline = false) (hzero : label ≠ 0)
    (hlines : CrossesIf parseWindowRound c lines ok (WindowDraft.Over {}) m w.Over m')
    (hw : w.blocks = []) (hmore : EndsBefore more afterHash q) :
    ComesTo compileWindow c m ⟨[], 32 :: (label.text ++ 10 :: (lines ++ more))⟩
      (if ok then some (m', q) else none) (· = (⟨label, w.commands⟩, afterHash)) := by
  refine .after ((reads_parseDefinitionLabel hlabel hzero).standing m) ?_
  rintro _ rfl
  refine .after ((Reads.lift (succeeds_read rfl)).standing m) fun token ht => ?_
  have htype : token.type = .endOfLine := congrArg Prod.fst ht
  rw [htype]
  obtain ⟨p, hleaps, hstop⟩ := leaps_window_end (c := c) (w := w) hmore m'
  have hrounds := (hlines more).trans hleaps.leapsIf
  rw [Bool.and_true] at hrounds
  have hempty : WindowDraft.Over {} {} := rfl
  refine (hrounds.comesTo hempty hstop).thenIf ?_
  rintro ⟨v, _⟩ ⟨hv, rfl⟩
  have hover : w.Over v := hv
  have hblocks : v.blocks = [] := by rw [hover, hw]
  have hcommands : v.commands = w.commands := by
    rw [hover]
    rfl
  simp only [hblocks, hcommands]
  exact .pure rfl

end Compiler

end ApeScript
