import ApeScript.Proofs.InlineLabels
import ApeScript.Proofs.SpokenWindow
import ApeScript.Proofs.WrittenWindow

/-!
# Windows that are written and read again

The commands of a window are told one after the other, each in a slot or a list of the draft that is
still free for it (`Compiler.Tells`). So a window that directives said is read back with every command
as it is read back alone (`WindowDraft.commands_reread`).
-/

namespace ApeScript

variable {w w₁ w₂ : WindowDraft} {c : Command} {cs cs' : List Command} {asBackground : Bool}
  {o : Options}

/-! ### Telling several commands -/

namespace Compiler

structure Tells (asBackground : Bool) (w : WindowDraft) (cs : List Command) (w' : WindowDraft) :
    Prop where
  fits : AllFit asBackground w cs
  told : allTold asBackground w cs = w'

namespace Tells

theorem nil : Tells asBackground w [] w := ⟨trivial, rfl⟩

theorem one (h : c.Fits w) (htold : c.toldTo w asBackground = w₁) : Tells asBackground w [c] w₁ :=
  ⟨⟨h, trivial⟩, htold⟩

theorem append (h₁ : Tells asBackground w cs w₁) (h₂ : Tells asBackground w₁ cs' w₂) :
    Tells asBackground w (cs ++ cs') w₂ := by
  induction cs generalizing w with
  | nil =>
    cases h₁.told
    exact h₂
  | cons c cs ih =>
    have hrest := ih (w := c.toldTo w asBackground) ⟨h₁.fits.2, h₁.told⟩
    exact ⟨⟨h₁.fits.1, hrest.fits⟩, hrest.told⟩

/-- A command that is told if it is there. -/
theorem slot {α : Type} {o : Option α} {make : α → Command} (put : Option α → WindowDraft)
    (hnone : put none = w) (hfits : ∀ a, (make a).Fits w)
    (htold : ∀ a, (make a).toldTo w asBackground = put (some a)) :
    Tells asBackground w (o.map make).toList (put o) := by
  cases o with
  | none => exact hnone ▸ nil
  | some a => exact one (hfits a) (htold a)

end Tells

structure Collects (asBackground : Bool) (P : Command → Prop)
    (collect : WindowDraft → List Command → WindowDraft) : Prop where
  nil : ∀ w, collect w [] = w
  append : ∀ w cs cs', collect (collect w cs) cs' = collect w (cs ++ cs')
  one : ∀ w c, P c → c.Fits w ∧ c.toldTo w asBackground = collect w [c]

theorem Collects.tells {P : Command → Prop} {collect : WindowDraft → List Command → WindowDraft}
    (h : Collects asBackground P collect) (hcs : ∀ c ∈ cs, P c) :
    Tells asBackground w cs (collect w cs) := by
  induction cs generalizing w with
  | nil =>
    rw [h.nil]
    exact .nil
  | cons c cs ih =>
    obtain ⟨hfits, htold⟩ := h.one w c (hcs c List.mem_cons_self)
    have hrest := ih (w := collect w [c]) fun d hd => hcs d (List.mem_cons_of_mem _ hd)
    rw [h.append] at hrest
    exact (Tells.one hfits htold).append hrest

end Compiler

/-! ### Lists of a draft -/

namespace Command.Coded

/-- The code of a formatted text is that of no other kind of command. -/
theorem eq_formattedText (hc : c.Coded) {code : UInt8}
    (hformatted : code = CommandCode.title ∨ code = CommandCode.body) (hcode : c.code = code) :
    ∃ condition text format, c = .formattedText code condition text format := by
  cases c with
  | formattedText _ condition text format =>
    cases hcode
    exact ⟨condition, text, format, rfl⟩
  | simpleText | switchRef =>
    cases hcode
    rcases hformatted with rfl | rfl
    · cases hc
    · cases hc
  | blank => exact hc.elim
  | _ =>
    rcases hformatted with rfl | rfl
    · cases hcode
    · cases hcode

theorem eq_print (hc : c.Coded) (hcode : c.code = CommandCode.xyPrint) : ∃ p, c = .print p := by
  cases c with
  | print p => exact ⟨p, rfl⟩
  | formattedText | simpleText | switchRef =>
    cases hcode
    cases hc
  | _ => cases hcode

theorem eq_subWindow (hc : c.Coded) (hcode : c.code = CommandCode.subWindow) :
    ∃ label, c = .subWindow label := by
  cases c with
  | subWindow label => exact ⟨label, rfl⟩
  | formattedText | simpleText | switchRef =>
    cases hcode
    cases hc
  | _ => cases hcode

theorem eq_image (hc : c.Coded) (hcode : c.code = CommandCode.image) : ∃ i, c = .image i := by
  cases c with
  | image i => exact ⟨i, rfl⟩
  | formattedText | simpleText | switchRef =>
    cases hcode
    cases hc
  | _ => cases hcode

theorem eq_choice (hc : c.Coded) (hcode : c.code = CommandCode.choice) :
    ∃ condition text format label, c = .choice condition text format label := by
  cases c with
  | choice condition text format label => exact ⟨condition, text, format, label, rfl⟩
  | formattedText | simpleText | switchRef =>
    cases hcode
    cases hc
  | _ => cases hcode

end Command.Coded

namespace Compiler

variable (o asBackground)

theorem collects_titles : Collects asBackground (Command.Made o CommandCode.title) fun w cs =>
    { w with titles := w.titles ++ cs.map (Command.restated asBackground) } where
  nil w := by simp
  append w cs cs' := by simp
  one w c h := by
    obtain ⟨condition, text, format, rfl⟩ := h.compiled.coded.eq_formattedText (.inl rfl) h.code_eq
    exact ⟨trivial, rfl⟩

theorem collects_bodies : Collects asBackground (Command.Made o CommandCode.body) fun w cs =>
    { w with bodies := w.bodies ++ cs.map (Command.restated asBackground) } where
  nil w := by simp
  append w cs cs' := by simp
  one w c h := by
    obtain ⟨condition, text, format, rfl⟩ := h.compiled.coded.eq_formattedText (.inr rfl) h.code_eq
    exact ⟨trivial, rfl⟩

theorem collects_prints : Collects asBackground (Command.Made o CommandCode.xyPrint) fun w cs =>
    { w with prints := w.prints ++ cs.map (Command.restated asBackground) } where
  nil w := by simp
  append w cs cs' := by simp
  one w c h := by
    obtain ⟨p, rfl⟩ := h.compiled.coded.eq_print h.code_eq
    exact ⟨trivial, rfl⟩

theorem collects_subWindows : Collects asBackground (Command.Made o CommandCode.subWindow)
    fun w cs => { w with subWindows := w.subWindows ++ cs.map (Command.restated asBackground) } where
  nil w := by simp
  append w cs cs' := by simp
  one w c h := by
    obtain ⟨label, rfl⟩ := h.compiled.coded.eq_subWindow h.code_eq
    exact ⟨trivial, rfl⟩

theorem collects_choices : Collects asBackground (Command.Made o CommandCode.choice) fun w cs =>
    { w with choices := w.choices ++ cs.map (Command.restated asBackground) } where
  nil w := by simp
  append w cs cs' := by simp
  one w c h := by
    obtain ⟨condition, text, format, label, rfl⟩ := h.compiled.coded.eq_choice h.code_eq
    exact ⟨trivial, rfl⟩

/-- A window with an image that is written as its background has a background when it is read. -/
theorem collects_images : Collects asBackground (Command.Made o CommandCode.image) fun w cs =>
    { w with
      images := w.images ++ cs.map (Command.restated asBackground)
      hasBackground := w.hasBackground || cs.any (Command.paints asBackground) } where
  nil w := by simp
  append w cs cs' := by simp [Bool.or_assoc]
  one w c h := by
    obtain ⟨i, rfl⟩ := h.compiled.coded.eq_image h.code_eq
    refine ⟨trivial, ?_⟩
    rw [Command.toldTo]
    split
    · rename_i hpaints
      simp [hpaints, Command.restated, Command.reread, Command.mapExpr, WindowDraft.say]
    · rename_i hpaints
      simp [hpaints, Command.restated, Command.reread, Command.mapExpr, WindowDraft.say]

/-! ### Slots of a draft -/

variable {o asBackground}

theorem tells_flags {bits : UInt32} (hw : w.flags = 0) : Tells asBackground w
    (if bits = 0 then [] else [.flags bits])
    { w with flags := bits &&& WindowFlags.mask WindowFlags.settable } := by
  by_cases hzero : bits = 0
  · have hsame : { w with flags := bits &&& WindowFlags.mask WindowFlags.settable } = w := by
      rw [hzero, UInt32.zero_and, ← hw]
    rw [if_pos hzero, hsame]
    exact .nil
  · rw [if_neg hzero]
    refine .one trivial ?_
    change { w with flags := w.flags ||| bits &&& WindowFlags.mask WindowFlags.settable } = _
    rw [hw, UInt32.zero_or]

theorem tells_background {corners : Corners} (hw : w.corners = ⟨0, 0, 0, 0⟩) : Tells asBackground w
    (if corners = ⟨0, 0, 0, 0⟩ then [] else [.background corners])
    { w with
      corners := corners
      hasBackground := w.hasBackground || decide (corners ≠ ⟨0, 0, 0, 0⟩) } := by
  by_cases hzero : corners = ⟨0, 0, 0, 0⟩
  · have hsame : { w with
        corners := corners
        hasBackground := w.hasBackground || decide (corners ≠ ⟨0, 0, 0, 0⟩) } = w := by
      simp [hzero, ← hw]
    rw [if_pos hzero, hsame]
    exact .nil
  · rw [if_neg hzero]
    refine .one hw ?_
    rw [decide_eq_true hzero, Bool.or_true]
    rfl

theorem tells_cam {cam : Option Cam} (hw : w.cam = none) :
    Tells asBackground w (cam.map Command.cam).toList { w with cam := cam.map Cam.reread } :=
  .slot (fun cam => { w with cam := cam.map Cam.reread }) (by rw [Option.map_none, ← hw])
    (fun _ => hw) fun _ => rfl

theorem tells_talk {talk : Option Talk} (hw : w.talk = none) :
    Tells asBackground w (talk.map Command.talk).toList { w with talk := talk.map Talk.reread } :=
  .slot (fun talk => { w with talk := talk.map Talk.reread }) (by rw [Option.map_none, ← hw])
    (fun _ => hw) fun _ => rfl

def consoleText (text : Bytes) : Bytes := Script.withoutNewline text ++ [10]

variable {text : Option Bytes}

theorem tells_startConsole (hw : w.startConsole = none) :
    Tells asBackground w (WindowDraft.simple CommandCode.startConsole text)
      { w with startConsole := text.map consoleText } :=
  .slot (fun text => { w with startConsole := text.map consoleText })
    (by rw [Option.map_none, ← hw]) (fun _ => hw) fun _ => rfl

theorem tells_finishConsole (hw : w.finishConsole = none) :
    Tells asBackground w (WindowDraft.simple CommandCode.finishConsole text)
      { w with finishConsole := text.map consoleText } :=
  .slot (fun text => { w with finishConsole := text.map consoleText })
    (by rw [Option.map_none, ← hw]) (fun _ => hw) fun _ => rfl

theorem tells_style (hw : w.style = none) :
    Tells asBackground w (WindowDraft.simple CommandCode.style text) { w with style := text } :=
  .slot (fun text => { w with style := text }) (by rw [← hw]) (fun _ => hw) fun _ => rfl

theorem tells_font (hw : w.font = none) :
    Tells asBackground w (WindowDraft.simple CommandCode.font text) { w with font := text } :=
  .slot (fun text => { w with font := text }) (by rw [← hw]) (fun _ => hw) fun _ => rfl

theorem tells_nextWindow (hw : w.nextWindow = none) :
    Tells asBackground w (WindowDraft.simple CommandCode.nextWindow text)
      { w with nextWindow := text } :=
  .slot (fun text => { w with nextWindow := text }) (by rw [← hw]) (fun _ => hw) fun _ => rfl

theorem tells_dimensions {area : Area} (hw : w.area = ⟨none, none, none, none⟩) :
    Tells asBackground w [.dimensions area] { w with area := area.mapExpr Expr.restored } :=
  .one hw rfl

end Compiler

/-! ### A draft that is read again -/

namespace WindowDraft

/-- What is read back of the commands of a draft but for those that name switches. -/
def retold (asBackground : Bool) (w : WindowDraft) : WindowDraft where
  titles := w.titles.map (Command.restated asBackground)
  bodies := w.bodies.map (Command.restated asBackground)
  prints := w.prints.map (Command.restated asBackground)
  cam := w.cam.map Cam.reread
  talk := w.talk.map Talk.reread
  startConsole := w.startConsole.map Compiler.consoleText
  finishConsole := w.finishConsole.map Compiler.consoleText
  style := w.style
  font := w.font
  flags := w.storedFlags &&& WindowFlags.mask WindowFlags.settable
  corners := w.corners
  hasBackground := decide (w.corners ≠ ⟨0, 0, 0, 0⟩) || w.images.any (Command.paints asBackground)
  area := w.area.mapExpr Expr.restored
  subWindows := w.subWindows.map (Command.restated asBackground)
  images := w.images.map (Command.restated asBackground)
  choices := w.choices.map (Command.restated asBackground)
  nextWindow := w.nextWindow

open Compiler in
theorem tells_own (hw : w.Sound o) (asBackground : Bool) :
    Tells asBackground {} (w.leading ++ w.trailing) (w.retold asBackground) := by
  simp only [leading, trailing, List.flatten_cons, List.flatten_nil, List.append_nil,
    List.append_assoc]
  refine ((collects_titles asBackground o).tells hw.titles).append ?_
  refine ((collects_bodies asBackground o).tells hw.bodies).append ?_
  refine ((collects_prints asBackground o).tells hw.prints).append ?_
  refine (tells_cam rfl).append ((tells_talk rfl).append ?_)
  refine (tells_startConsole rfl).append ((tells_finishConsole rfl).append ?_)
  refine (tells_style rfl).append ((tells_font rfl).append ?_)
  refine (tells_flags rfl).append ((tells_background rfl).append ?_)
  refine (tells_dimensions rfl).append ?_
  refine ((collects_subWindows asBackground o).tells hw.subWindows).append ?_
  refine ((collects_images asBackground o).tells hw.images).append ?_
  exact ((collects_choices asBackground o).tells hw.choices).append (tells_nextWindow rfl)

end WindowDraft

/-! ### The commands of a draft -/

theorem Command.Made.ref?_eq_none {code : UInt8} (h : c.Made o code)
    (hcode : CommandCode.isSwitchRef code = false) : c.ref? = none := by
  cases c with
  | switchRef code' label =>
    have hcoded : CommandCode.isSwitchRef code' = true := h.compiled.coded
    have heq : code' = code := h.code_eq
    rw [heq, hcode] at hcoded
    cases hcoded
  | _ => rfl

theorem Window.ownCommands_eq (w : Window) :
    w.ownCommands = w.commands.filter fun c => c.ref?.isNone := by
  refine List.filter_congr fun c _ => ?_
  cases c <;> rfl

namespace WindowDraft

def refPairs (w : WindowDraft) : List (UInt8 × Label) :=
  (w.startSwitch.map (CommandCode.startSwitch, ·)).toList ++
    ((w.thinkSwitch.map (CommandCode.thinkSwitch, ·)).toList ++
      (w.finishSwitch.map (CommandCode.finishSwitch, ·)).toList)

theorem ref?_leading (hw : w.Sound o) : ∀ c ∈ w.leading, c.ref? = none := by
  have hmade {l : List Command} {code : UInt8} (hl : ∀ c ∈ l, c.Made o code)
      (hcode : CommandCode.isSwitchRef code = false) : ∀ c ∈ l, c.ref? = none :=
    fun c hc => (hl c hc).ref?_eq_none hcode
  refine List.forall_mem_flatten.2 ?_
  simp only [List.forall_mem_cons, List.not_mem_nil, false_imp_iff, implies_true, and_true]
  refine ⟨hmade hw.titles rfl, hmade hw.bodies rfl, hmade hw.prints rfl, ?_, ?_, ?_, ?_⟩
  all_goals
    intro c hc
    obtain ⟨_, -, rfl⟩ := Option.map_eq_some_iff.1 (Option.mem_toList.1 hc)
    rfl

theorem ref?_trailing (hw : w.Sound o) : ∀ c ∈ w.trailing, c.ref? = none := by
  have hmade {l : List Command} {code : UInt8} (hl : ∀ c ∈ l, c.Made o code)
      (hcode : CommandCode.isSwitchRef code = false) : ∀ c ∈ l, c.ref? = none :=
    fun c hc => (hl c hc).ref?_eq_none hcode
  have hslot {code : UInt8} {text : Option Bytes} : ∀ c ∈ simple code text, c.ref? = none := by
    intro c hc
    obtain ⟨_, -, rfl⟩ := Option.map_eq_some_iff.1 (Option.mem_toList.1 hc)
    rfl
  have hunless {p : Prop} [Decidable p] {d : Command} (hd : d.ref? = none) :
      ∀ c ∈ (if p then [] else [d]), c.ref? = none := by
    split
    · simp
    · simpa using hd
  refine List.forall_mem_flatten.2 ?_
  simp only [List.forall_mem_cons, List.not_mem_nil, false_imp_iff, implies_true, and_true]
  exact ⟨hslot, hslot, hunless rfl, hunless rfl, rfl, hmade hw.subWindows rfl,
    hmade hw.images rfl, hmade hw.choices rfl, hslot⟩

theorem filterMap_naming : w.naming.filterMap Command.ref? = w.refPairs := by
  have href (code : UInt8) (label : Option Label) :
      (ref code label).filterMap Command.ref? = (label.map (code, ·)).toList := by
    cases label <;> rfl
  simp [naming, refPairs, href]

theorem ownCommands_commands (hw : w.Sound o) (label : Label) :
    (Window.mk label w.commands).ownCommands = w.leading ++ w.trailing := by
  have hnaming : w.naming.filter (fun c => c.ref?.isNone) = [] := by
    have href (code : UInt8) (label : Option Label) :
        (ref code label).filter (fun c => c.ref?.isNone) = [] := by
      cases label <;> rfl
    simp [naming, href]
  rw [Window.ownCommands_eq, commands_eq, List.filter_append, List.filter_append, hnaming,
    List.nil_append, List.filter_eq_self.2, List.filter_eq_self.2]
  · exact fun c hc => by simp [ref?_trailing hw c hc]
  · exact fun c hc => by simp [ref?_leading hw c hc]

theorem switchRefs_commands (hw : w.Sound o) (label : Label) :
    Script.switchRefs ⟨label, w.commands⟩ = w.refPairs.mergeSort fun a b => a.2 ≤ b.2 := by
  rw [Script.switchRefs_eq, commands_eq, List.filterMap_append, List.filterMap_append,
    List.filterMap_eq_nil_iff.2 (ref?_leading hw), List.filterMap_eq_nil_iff.2 (ref?_trailing hw),
    filterMap_naming, List.nil_append, List.append_nil]

end WindowDraft

/-! ### Backgrounds -/

/-- Flags of a window that are all the same say whether it has no background. -/
theorem Script.hasNoBackground_iff {label : Label} {bits : UInt32}
    (h : ∀ other, .flags other ∈ cs → other = bits) : hasNoBackground ⟨label, cs⟩ = true ↔
      .flags bits ∈ cs ∧ bits &&& WindowFlags.noBackground ≠ 0 := by
  rw [hasNoBackground]
  induction cs using List.reverseRecOn with
  | nil => simp
  | append_singleton cs c ih =>
    have hbefore : ∀ other, .flags other ∈ cs → other = bits :=
      fun other hother => h other (List.mem_append_left _ hother)
    rw [List.foldl_append]
    cases c with
    | flags other =>
      cases h other (by simp)
      simp
    | _ => simpa using ih hbefore

namespace WindowDraft

open Compiler (Tally)

variable {es : List Compiler.Entry} {label : Label}

theorem hasNoBackground_commands (label : Label) (h : Tally es w) :
    Script.hasNoBackground ⟨label, w.commands⟩ = !w.hasBackground := by
  have hsame : ∀ bits, .flags bits ∈ w.commands → bits = w.storedFlags :=
    fun bits hbits => ((flags_mem_commands h.gains).1 hbits).1
  rw [Bool.eq_iff_iff, Script.hasNoBackground_iff hsame, Bool.not_eq_true', ←
    noBackground_iff h.gains h.flags]
  constructor
  · exact fun hbits => ⟨_, hbits⟩
  · rintro ⟨bits, hmem, hbits⟩
    cases hsame bits hmem
    exact ⟨hmem, hbits⟩

theorem any_background (h : Tally es w) : w.commands.any (fun
    | .background _ => true
    | _ => false) = decide (w.corners ≠ ⟨0, 0, 0, 0⟩) := by
  obtain ⟨lists, hcommands, hsorted, -, -, -, hbackground, -⟩ := sorted_commands h.gains
  have hfilter := hsorted.filter_flatten (by decide +kernel) hbackground rfl
  rw [← hcommands] at hfilter
  have hany : w.commands.any (fun
      | .background _ => true
      | _ => false) = (w.commands.filter (·.code = CommandCode.background)).any (fun
      | .background _ => true
      | _ => false) := by
    rw [List.any_filter]
    congr 1
    funext c
    cases c <;> simp [Command.code]
  rw [hany, hfilter]
  split_ifs with hzero
  · simp [hzero]
  · simp [hzero]

theorem any_isBackdrop (h : Tally es w) :
    w.commands.any Command.isBackdrop = w.images.any Command.isBackdrop := by
  obtain ⟨lists, hcommands, hsorted, -, -, -, -, himages⟩ := sorted_commands h.gains
  have hfilter := hsorted.filter_flatten (by decide +kernel) himages rfl
  rw [← hcommands] at hfilter
  rw [← hfilter, List.any_filter]
  congr 1
  funext c
  cases c <;> simp [Command.code, Command.isBackdrop]

theorem asBackground_commands (h : Tally es w) : (Window.mk label w.commands).asBackground =
    (w.images.any Command.isBackdrop && !decide (w.corners ≠ ⟨0, 0, 0, 0⟩) && w.hasBackground) := by
  rw [← any_isBackdrop h, ← any_background h, ← Bool.not_not w.hasBackground,
    ← hasNoBackground_commands label h]
  rfl

theorem isPlain_commands (h : Tally es w) : (Window.mk label w.commands).isPlain =
    (w.hasBackground && !(Window.mk label w.commands).asBackground &&
      !decide (w.corners ≠ ⟨0, 0, 0, 0⟩)) := by
  rw [← any_background h, ← Bool.not_not w.hasBackground, ← hasNoBackground_commands label h]
  rfl

/-- A window is read back with a background if it had one. -/
theorem hasBackground_retold (label : Label) (hw : w.Drafted o) :
    ((w.retold (Window.mk label w.commands).asBackground).hasBackground ||
      (Window.mk label w.commands).isPlain) = w.hasBackground := by
  obtain ⟨es, htally⟩ := hw.tally
  have hpaints (b : Bool) :
      w.images.any (Command.paints b) = (b && w.images.any Command.isBackdrop) := by
    have heach : ∀ c ∈ w.images, c.paints b = (b && c.isBackdrop) := by
      intro c hc
      obtain ⟨i, rfl⟩ := (hw.sound.images c hc).compiled.coded.eq_image (hw.sound.images c hc).code_eq
      rfl
    rw [Bool.eq_iff_iff, List.any_eq_true, Bool.and_eq_true, List.any_eq_true]
    constructor
    · rintro ⟨c, hc, hpaints⟩
      rw [heach c hc, Bool.and_eq_true] at hpaints
      exact ⟨hpaints.1, c, hc, hpaints.2⟩
    · rintro ⟨hb, c, hc, hbackdrop⟩
      exact ⟨c, hc, by rw [heach c hc, hb, hbackdrop]; rfl⟩
  have hcorners := hw.spoken.corners
  simp only [retold, hpaints, isPlain_commands htally, asBackground_commands htally]
  cases hbackground : w.hasBackground with
  | false => simp [hcorners hbackground]
  | true =>
    cases decide (w.corners ≠ ⟨0, 0, 0, 0⟩) <;> cases w.images.any Command.isBackdrop <;> rfl

/-! ### Commands that are read back -/

def reread (asBackground : Bool) (w : WindowDraft) : WindowDraft :=
  { w.retold asBackground with
    hasBackground := w.hasBackground
    startSwitch := w.startSwitch
    thinkSwitch := w.thinkSwitch
    finishSwitch := w.finishSwitch }

theorem storedFlags_reread (h : Tally es w) (hnamed : WindowFlags.unnamed w.storedFlags = 0) :
    (w.reread asBackground).storedFlags = w.storedFlags := by
  have hall := WindowFlags.or_noBackground hnamed
  cases hbackground : w.hasBackground with
  | false =>
    have hstored : w.storedFlags = w.flags ||| WindowFlags.noBackground := by
      rw [storedFlags, hbackground]
      rfl
    have hbit : w.storedFlags &&& WindowFlags.noBackground ≠ 0 := by
      rw [hstored, UInt32.and_comm, WindowFlags.and_or_distrib, UInt32.and_comm, h.flags]
      decide
    rw [if_neg hbit] at hall
    simpa [storedFlags, reread, retold, hbackground] using hall
  | true =>
    have hbit : w.storedFlags &&& WindowFlags.noBackground = 0 := by
      rw [storedFlags, hbackground]
      exact h.flags
    rw [if_pos hbit] at hall
    simpa [storedFlags, reread, retold, hbackground] using hall

/-- The commands of a window are read back one by one. -/
theorem commands_reread (h : Tally es w) (hnamed : WindowFlags.unnamed w.storedFlags = 0) :
    (w.reread asBackground).commands = w.commands.map (Command.restated asBackground) := by
  have hunless {p : Prop} [Decidable p] (d : Command) :
      (if p then [] else [d]).map (Command.restated asBackground) =
        if p then [] else [d.restated asBackground] := by
    split <;> rfl
  rw [commands, storedFlags_reread h hnamed, commands]
  simp only [List.map_flatten, List.map_cons, List.map_nil, hunless, simple, ref,
    Command.toList_map, List.map_map, reread, retold]
  rfl

end WindowDraft

end ApeScript
