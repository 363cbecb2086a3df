import ApeScript.Proofs.RestoredSwitch
import ApeScript.Proofs.RestoredWindow
import ApeScript.Proofs.WrittenFile

/-!
# Files that can be written

Every command of a compiled window has a line, but for names that cannot be quoted and for images
whose flags have no place after their size (`Command.Writable`). With the statements of the switches
this says which compiled files are written (`exists_writeFile_iff`).
-/

namespace ApeScript

/-! ### Commands that directives give -/

theorem Command.Spoken.stays {d : Command} (hd : d.Spoken) : d.stays = true := by
  cases d with
  | flags => exact decide_eq_true hd.1
  | background => exact decide_eq_true hd
  | _ => rfl

theorem WindowDraft.Spoken.unnamed_storedFlags {w : WindowDraft} (hw : w.Spoken) :
    WindowFlags.unnamed w.storedFlags = 0 := by
  rw [storedFlags]
  split
  · exact hw.flags
  · exact WindowFlags.unnamed_or hw.flags (by decide)

/-- Every command of a draft is one that directives can give. -/
theorem WindowDraft.Drafted.spoken_commands {o : Options} {w : WindowDraft} (hw : w.Drafted o) :
    ∀ d ∈ w.commands, d.Spoken := by
  obtain ⟨hsound, hspoken, -⟩ := hw
  have hslot {α : Type} {make : α → Command} {slot : Option α}
      (h : ∀ a ∈ slot, (make a).Spoken) : ∀ d ∈ (slot.map make).toList, d.Spoken := by
    intro d hd
    obtain ⟨a, ha, rfl⟩ := Option.map_eq_some_iff.1 (Option.mem_toList.1 hd)
    exact h a ha
  have hsimple {code : UInt8} {slot : Option Bytes}
      (hcode : code ∈ [CommandCode.startConsole, CommandCode.finishConsole, CommandCode.font,
        CommandCode.style, CommandCode.nextWindow])
      (h : ∀ text ∈ slot, Command.isConsole code = true → text.getLast? = some 10) :
      ∀ d ∈ (slot.map (Command.simpleText code)).toList, d.Spoken :=
    hslot fun text htext => ⟨h text htext, hcode⟩
  have hstored : WindowFlags.unnamed w.storedFlags = 0 := hspoken.unnamed_storedFlags
  have hunless {p : Prop} [Decidable p] {d : Command} (hd : ¬ p → d.Spoken) :
      ∀ d' ∈ (if p then [] else [d]), d'.Spoken := by
    split
    · simp
    · simpa using hd ‹_›
  have hformatted {code : UInt8} {l : List Command}
      (hcode : code = CommandCode.title ∨ code = CommandCode.body) (hl : ∀ d ∈ l, d.Made o code) :
      ∀ d ∈ l, d.Spoken := by
    intro d hd
    obtain ⟨condition, text, format, rfl⟩ :=
      (hl d hd).compiled.coded.eq_formattedText hcode (hl d hd).code_eq
    trivial
  have hsubWindows : ∀ d ∈ w.subWindows, d.Spoken := by
    intro d hd
    obtain ⟨label, rfl⟩ :=
      (hsound.subWindows d hd).compiled.coded.eq_subWindow (hsound.subWindows d hd).code_eq
    trivial
  have hchoices : ∀ d ∈ w.choices, d.Spoken := by
    intro d hd
    obtain ⟨condition, text, format, label, rfl⟩ :=
      (hsound.choices d hd).compiled.coded.eq_choice (hsound.choices d hd).code_eq
    trivial
  refine List.forall_mem_flatten.2 ?_
  simp only [List.forall_mem_cons, List.not_mem_nil, false_imp_iff, implies_true, and_true]
  exact ⟨hformatted (.inl rfl) hsound.titles, hformatted (.inr rfl) hsound.bodies, hspoken.prints,
    hslot hspoken.cam, hslot hspoken.talk, hsimple (by decide) fun text htext _ =>
      hspoken.startConsole text htext, hsimple (by decide) fun text htext _ =>
      hspoken.finishConsole text htext, hslot fun _ _ => trivial, hslot fun _ _ => trivial,
    hslot fun _ _ => trivial, hsimple (by decide) fun _ _ h => absurd h (by decide),
    hsimple (by decide) fun _ _ h => absurd h (by decide),
    hunless fun hne => ⟨hne, hstored⟩, hunless id, trivial, hsubWindows, hspoken.images, hchoices,
    hsimple (by decide) fun _ _ h => absurd h (by decide)⟩

/-! ### Commands that are written -/

/-- A name that is written can be quoted, and the flags of an image stand after its height. -/
def Command.Writable (asBackground : Bool) : Command → Prop
  | image i => Script.Plain i.file ∧
      ((asBackground && i.isBackdrop) = true ∨ i.flags = 0 ∨ i.area.height.isSome = true)
  | simpleText code text =>
      code = CommandCode.font ∨ code = CommandCode.style → Script.Plain text
  | _ => True

/-- Commands whose words can be read back, those that are written without quotes as single words and
those in formatting strings without a quote. -/
def Command.Spelled : Command → Prop
  | formattedText _ _ _ format | choice _ _ format _ => ∀ v ∈ format, 34 ∉ v.literal
  | talk t => Script.Word t.anim1 ∧
      ∀ anim2 ∈ t.anim2, Script.Word anim2 ∧ Script.Word t.name1 ∧ Script.Word t.name2
  | simpleText code text => code = CommandCode.nextWindow → Script.RawWord {} text
  | print p => (∀ v ∈ p.format, 34 ∉ v.literal) ∧
      ∀ s ∈ p.font, Script.RawWord (Scan.bareFlags true) s
  | cam c => c.Legible
  | _ => True

/-- The labels of windows that a command names are below those of the inline switches. -/
def Command.Outward (d : Command) : Prop :=
  ∀ label, d.reference? = some (.window, label) → label.isInline = false

/-- A command of a compiled window is read back if its words are and its quotes close. -/
theorem Command.Spelled.worded {o : Options} {d : Command} {asBackground : Bool} (hd : d.Spelled)
    (hspoken : d.Spoken) (hcompiled : d.Compiled o) (hwritable : d.Writable asBackground)
    (houtward : d.Outward) (href : d.ref? = none) (hcloses : d.closes asBackground = true) :
    d.Worded asBackground := by
  have hstored {vs : List FormatValue} (hvs : ∀ v ∈ vs, v ∈ d.formats)
      (hquotes : ∀ v ∈ vs, 34 ∉ v.literal) : ∀ v ∈ vs, v.Stored :=
    fun v hv => ⟨hcompiled.formats v (hvs v hv), hquotes v hv⟩
  cases d with
  | formattedText => exact ⟨hcompiled.coded, hstored (fun _ h => h) hd⟩
  | talk => exact hd
  | image i =>
    rw [Worded]
    rw [closes] at hcloses
    cases hplaced : asBackground && i.isBackdrop with
    | true =>
      rw [hplaced] at hcloses
      rw [if_pos rfl]
      exact ⟨(Image.closed_iff hwritable.1).2 hcloses,
        (hspoken.backdrop (Bool.and_eq_true_iff.1 hplaced).2).1⟩
    | false =>
      rw [if_neg Bool.false_ne_true]
      rcases hwritable.2 with hbackdrop | hflags | hheight
      · exact absurd (hplaced.symm.trans hbackdrop) Bool.false_ne_true
      · exact .inl hflags
      · refine .inr (Option.isSome_iff_ne_none.2 fun hwidth => ?_)
        rw [hspoken.sized hwidth] at hheight
        cases hheight
  | subWindow label => exact houtward label rfl
  | choice => exact ⟨hstored (fun _ h => h) hd, houtward _ rfl⟩
  | simpleText => exact hd
  | print => exact ⟨hstored (fun _ h => h) hd.1, fun _ => hd.2⟩
  | cam => exact hd
  | switchRef => cases href
  | _ => trivial

namespace Compiler

variable {asBackground : Bool}

theorem exists_writeNamed_iff {word s : Bytes} :
    (∃ line, Script.writeNamed word s = .ok line) ↔ Script.Plain s := by
  refine ⟨?_, fun h => ⟨_, writeNamed_eq h⟩⟩
  rintro ⟨_, h⟩
  exact plain_of_writeNamed h

theorem exists_writeTalk {t : Talk} (ht : t.anim2 = none → t.Usual) :
    ∃ line, Script.writeTalk t = .ok line := by
  rw [Script.writeTalk]
  cases hanim2 : t.anim2 with
  | some => exact ⟨_, rfl⟩
  | none =>
    rcases ht hanim2 with ⟨hname1, hname2⟩ | ⟨hname1, hname2⟩
    · rw [hname1, hname2]
      exact ⟨_, rfl⟩
    · rw [hname1, hname2]
      exact ⟨_, rfl⟩

theorem exists_writePrint {p : Print}
    (hp : p.x.isSome = true ∧ p.y.isSome = true ∧ p.alpha.isSome = true) :
    ∃ line, Script.writePrint p = .ok line := by
  obtain ⟨hx, hy, halpha⟩ := hp
  obtain ⟨x, hx⟩ := Option.isSome_iff_exists.1 hx
  obtain ⟨y, hy⟩ := Option.isSome_iff_exists.1 hy
  obtain ⟨alpha, halpha⟩ := Option.isSome_iff_exists.1 halpha
  rw [Script.writePrint, hx, hy, halpha]
  exact ⟨_, rfl⟩

theorem exists_writeImage_iff {i : Image} (hi : i.Spoken) :
    (∃ line, Script.writeImage asBackground i = .ok line) ↔
      (Command.image i).Writable asBackground := by
  by_cases hfile : Script.Plain i.file
  · rw [Script.writeImage, Script.quoteName?_of_plain hfile, Command.Writable]
    simp only [pure_bind, hfile, true_and]
    cases hplaced : asBackground && i.isBackdrop with
    | true => exact iff_of_true ⟨_, rfl⟩ (.inl rfl)
    | false =>
      obtain ⟨x, hx⟩ := Option.isSome_iff_exists.1 hi.placed.1
      obtain ⟨y, hy⟩ := Option.isSome_iff_exists.1 hi.placed.2
      obtain ⟨hempty, hunknown, -⟩ := names_spec hi.known
      simp only [hx, hy, hempty, hunknown, Bool.false_eq_true, if_false, false_or]
      cases hheight : i.area.height with
      | some => exact iff_of_true (by simp [pure, Except.pure]) (.inr rfl)
      | none =>
        by_cases hzero : i.flags = 0
        · exact iff_of_true (by simp [hzero, pure, Except.pure]) (.inl hzero)
        · refine iff_of_false ?_ (by simp [hzero])
          rw [beq_eq_false_iff_ne.2 hzero]
          rintro ⟨_, ⟨⟩⟩
  · refine iff_of_false ?_ fun h => hfile h.1
    rintro ⟨_, h⟩
    exact hfile (plain_of_writeImage h)

/-- The commands of a compiled window are written, but for names and the flags of images. -/
theorem exists_writeCommand_iff {d : Command} (hd : d.Spoken) (href : d.ref? = none) :
    (∃ line, Script.writeCommand asBackground d = .ok line) ↔ d.Writable asBackground := by
  cases d with
  | talk => exact iff_of_true (exists_writeTalk hd.2) trivial
  | image => exact exists_writeImage_iff hd
  | flags => exact iff_of_true (WindowFlags.writeFlags_eq_ok_iff.2 hd.2) trivial
  | simpleText code text =>
    obtain ⟨-, hcode⟩ := hd
    simp only [List.mem_cons, List.not_mem_nil, or_false] at hcode
    have hfree (h : ¬ (code = CommandCode.font ∨ code = CommandCode.style)) :
        (Command.simpleText code text).Writable asBackground := fun h' => absurd h' h
    have hnamed (h : code = CommandCode.font ∨ code = CommandCode.style) :
        (Command.simpleText code text).Writable asBackground ↔ Script.Plain text :=
      forall_prop_of_true h
    rcases hcode with rfl | rfl | rfl | rfl | rfl
    · exact iff_of_true ⟨_, rfl⟩ (hfree (by decide))
    · exact iff_of_true ⟨_, rfl⟩ (hfree (by decide))
    · rw [hnamed (.inl rfl)]
      exact exists_writeNamed_iff
    · rw [hnamed (.inr rfl)]
      exact exists_writeNamed_iff
    · refine iff_of_true ?_ (hfree (by decide))
      have hline : Script.writeCommand asBackground (.simpleText CommandCode.nextWindow text) =
          if text = utf8 "0:0" then .ok (utf8 "return\n")
          else if Script.isLabelText text then .ok (utf8 "goto " ++ text ++ utf8 "\n")
          else .ok (utf8 "nextwindow " ++ text ++ utf8 "\n") := rfl
      rw [hline]
      split_ifs <;> exact ⟨_, rfl⟩
  | print => exact iff_of_true (exists_writePrint hd.2) trivial
  | switchRef => cases href
  | blank => exact hd.elim
  | _ => exact iff_of_true ⟨_, rfl⟩ trivial

end Compiler

/-! ### The inline switches of a compiled file -/

namespace File.Numbered

variable {hash : Nat} {legacy : Bool} {named inline : List Switch} {f : File}

/-- A label in the list of inline switches leads to its switch. -/
theorem find?_eq (h : f.Numbered hash legacy named inline) {s : Switch} (hs : s ∈ inline) :
    f.switches.reverse.find? (·.label = s.label) = some s := by
  have hcount := h.refs_count s hs
  have hmem : s.label ∈ f.windows.flatMap Window.inlineRefs :=
    List.count_pos_iff.1 (by rw [hcount]; exact Nat.one_pos)
  obtain ⟨t, -, honly⟩ := h.refs_resolve s.label hmem
  have hsame : s ∈ f.switches.filter (·.label = s.label) :=
    List.mem_filter.2 ⟨by rw [h.switches]; exact List.mem_append_right _ hs, by simp⟩
  rw [honly, List.mem_singleton] at hsame
  rw [← List.head?_filter, List.filter_reverse, honly, hsame]
  rfl

/-- The switches that are written after the windows are those with labels of their own. -/
theorem filter_eq (h : f.Numbered hash legacy named inline)
    (hheld : Script.inlined f = inline.map (·.label)) :
    f.switches.filter ((Script.inlined f).contains ·.label) = inline ∧
      f.switches.filter (fun s => !(Script.inlined f).contains s.label) = named := by
  have hinline : ∀ s ∈ inline, (Script.inlined f).contains s.label = true := by
    intro s hs
    rw [hheld, List.contains_iff_mem]
    exact List.mem_map_of_mem hs
  have hnamed : ∀ s ∈ named, (Script.inlined f).contains s.label = false := by
    intro s hs
    rw [hheld, ← Bool.not_eq_true, List.contains_iff_mem, List.mem_map]
    rintro ⟨t, ht, heq⟩
    have hmem : t.label.toNat ∈ inline.map (·.label.toNat) := List.mem_map_of_mem ht
    rw [h.labels] at hmem
    obtain ⟨i, -, hi⟩ := List.mem_map.1 hmem
    have hlt := h.named s hs
    rw [← heq] at hlt
    omega
  rw [h.switches, List.filter_append, List.filter_append]
  constructor
  · rw [List.filter_eq_nil_iff.2 (by simpa using hnamed), List.filter_eq_self.2 hinline,
      List.nil_append]
  · rw [List.filter_eq_self.2 (by simpa using hnamed),
      List.filter_eq_nil_iff.2 (by simpa using hinline), List.append_nil]

/-- No command names a window by the label of an inline switch. -/
theorem outward (h : f.Numbered hash legacy named inline) {w : Window} (hw : w ∈ f.windows)
    {d : Command} (hd : d ∈ w.commands) : d.Outward := by
  intro label href
  have hmem : ⟨.window w.id, CommandCode.name d.code, .window, label⟩ ∈ f.references :=
    List.mem_append_left _ (List.mem_flatMap.2 ⟨w, hw, List.mem_filterMap.2 ⟨d, hd, by simp [href]⟩⟩)
  exact decide_eq_false (Nat.not_le.2 (h.references _ hmem rfl))

end File.Numbered

/-! ### Files that are written -/

structure File.Writable (f : File) : Prop where
  windows : ∀ w ∈ f.windows, ∀ d ∈ w.commands, d.Writable w.asBackground
  switches : ∀ s ∈ f.switches, ∀ p ∈ s.commands, p.statement.Closed

theorem exists_forall₂_iff {α β : Type} {R : α → β → Prop} {l : List α} :
    (∃ bs, List.Forall₂ R l bs) ↔ ∀ a ∈ l, ∃ b, R a b := by
  induction l with
  | nil => simp
  | cons a l ih =>
    rw [List.forall_mem_cons, ← ih]
    constructor
    · rintro ⟨_, h⟩
      cases h with
      | cons hb hbs => exact ⟨⟨_, hb⟩, ⟨_, hbs⟩⟩
    · rintro ⟨⟨b, hb⟩, ⟨bs, hbs⟩⟩
      exact ⟨b :: bs, .cons hb hbs⟩

theorem exists_mapM_iff {ε α β : Type} {step : α → Except ε β} {l : List α} :
    (∃ bs, l.mapM step = .ok bs) ↔ ∀ a ∈ l, ∃ b, step a = .ok b := by
  rw [← exists_forall₂_iff]
  exact exists_congr fun bs => mapM_eq_ok_iff fun _ _ => Iff.rfl

variable {f : File} {o : Options}

theorem exists_writeWindow_iff {w : Window} (hw : w.Drafted o) :
    (∃ text, Script.writeWindow f w = .ok text) ↔
      (∀ d ∈ w.commands, d.Writable w.asBackground) ∧
        ∀ r ∈ Script.switchRefs w, ∃ line, Script.writeSwitchRef f r.1 r.2 = .ok line := by
  obtain ⟨-, -, draft, hdraft, hcommands⟩ := hw
  have hspoken : ∀ d ∈ w.commands, d.Spoken := hcommands ▸ hdraft.spoken_commands
  have hown : (∀ d ∈ w.ownCommands, ∃ line, Script.writeCommand w.asBackground d = .ok line) ↔
      ∀ d ∈ w.commands, d.Writable w.asBackground := by
    rw [Window.ownCommands_eq]
    constructor
    · intro h d hd
      by_cases href : d.ref? = none
      · exact (Compiler.exists_writeCommand_iff (hspoken d hd) href).1
          (h d (List.mem_filter.2 ⟨hd, by simp [href]⟩))
      · cases d with
        | switchRef => trivial
        | _ => exact absurd rfl href
    · intro h d hd
      obtain ⟨hd, href⟩ := List.mem_filter.1 hd
      exact (Compiler.exists_writeCommand_iff (hspoken d hd) (by simpa using href)).2 (h d hd)
  rw [← hown, ← exists_mapM_iff, ← exists_mapM_iff]
  constructor
  · rintro ⟨text, h⟩
    obtain ⟨body, refs, hbody, hrefs, -⟩ := writeWindow_ok_iff.1 h
    exact ⟨⟨body, hbody⟩, ⟨refs, hrefs⟩⟩
  · rintro ⟨⟨body, hbody⟩, ⟨refs, hrefs⟩⟩
    exact ⟨_, writeWindow_ok_iff.2 ⟨body, refs, hbody, hrefs, rfl⟩⟩

/-- The line of an inline switch is written if its statements are. -/
theorem exists_writeSwitchRef_iff {code : UInt8} {s : Switch}
    (hfound : f.switches.reverse.find? (·.label = s.label) = some s)
    (hinline : s.label.isInline = true) :
    (∃ line, Script.writeSwitchRef f code s.label = .ok line) ↔
      ∃ text, Script.writeStatements 1 s.commands = .ok text := by
  rw [Script.writeSwitchRef, hfound]
  simp only [hinline, Bool.not_true, Bool.false_eq_true, if_false]
  cases Script.writeStatements 1 s.commands with
  | error => simp
  | ok => simp

/-- A compiled file is written if its names can be quoted, its images have a place for their flags,
and its literals have their closing quotes. -/
theorem exists_writeFile_iff {src : Bytes}
    (ho : o = { Options.defaults with file := o.file, hash := o.hash })
    (hcompiled : (compile src o).result = .ok f) :
    (∃ script, Script.writeFile f = .ok script) ↔ f.Writable := by
  obtain ⟨hash, named, inline, -, hnumbered, hlabels, hheld⟩ := compile_held hcompiled
  have hplain : CompileContext.Plain ⟨o, hash⟩ := ho
  have heffective : o.effective = o := hplain.effective
  have hdrafted := compile_drafted hcompiled
  have hswitches := compile_switches hcompiled
  rw [heffective] at hdrafted hswitches
  obtain ⟨-, hothers⟩ := hnumbered.filter_eq hheld
  have hstatements {s : Switch} (hs : s ∈ f.switches) (level : ℕ) :
      (∃ text, Script.writeStatements level s.commands = .ok text) ↔
        ∀ p ∈ s.commands, p.statement.Closed := by
    obtain ⟨hcompiled, d, hd⟩ := hswitches s hs
    exact hcompiled.exists_writeStatements_iff hplain hd
  rw [hnumbered.switches] at hstatements
  have hfile : (∃ script, Script.writeFile f = .ok script) ↔
      (∀ w ∈ f.windows, ∃ text, Script.writeWindow f w = .ok text) ∧
        ∀ s ∈ named, ∃ text, Script.writeSwitch s = .ok text := by
    rw [← exists_forall₂_iff, ← exists_forall₂_iff]
    simp only [writeFile_ok_iff, hothers]
    constructor
    · rintro ⟨-, windows, switches, hw, hs, -⟩
      exact ⟨⟨windows, hw⟩, ⟨switches, hs⟩⟩
    · rintro ⟨⟨windows, hw⟩, ⟨switches, hs⟩⟩
      exact ⟨_, windows, switches, hw, hs, rfl⟩
  have hnamed : (∀ s ∈ named, ∃ text, Script.writeSwitch s = .ok text) ↔
      ∀ s ∈ named, ∀ p ∈ s.commands, p.statement.Closed := by
    refine forall₂_congr fun s hs => ?_
    rw [← hstatements (List.mem_append_left _ hs) 0]
    exact (Compiler.exists_bind_iff fun _ => iff_of_true ⟨_, rfl⟩ trivial).trans
      (and_iff_left trivial)
  have hrefs : (∀ w ∈ f.windows, ∀ r ∈ Script.switchRefs w,
        ∃ line, Script.writeSwitchRef f r.1 r.2 = .ok line) ↔
      ∀ s ∈ inline, ∀ p ∈ s.commands, p.statement.Closed := by
    have hline {code : UInt8} {s : Switch} (hs : s ∈ inline) (hinline : s.label.isInline = true) :
        (∃ line, Script.writeSwitchRef f code s.label = .ok line) ↔
          ∀ p ∈ s.commands, p.statement.Closed :=
      (exists_writeSwitchRef_iff (hnumbered.find?_eq hs) hinline).trans
        (hstatements (List.mem_append_right _ hs) 1)
    constructor
    · intro h s hs
      have hmem : s.label ∈ f.windows.flatMap Window.heldRefs := by
        rw [hheld]
        exact List.mem_map_of_mem hs
      obtain ⟨w, hw, hmem⟩ := List.mem_flatMap.1 hmem
      obtain ⟨hmem, hinline⟩ := List.mem_filter.1 hmem
      obtain ⟨r, hr, hlabel⟩ := List.mem_map.1 hmem
      have hwritten := h w hw r hr
      rw [hlabel] at hwritten
      exact (hline hs hinline).1 hwritten
    · intro h w hw r hr
      cases hinline : r.2.isInline with
      | false =>
        rw [Script.writeSwitchRef, hinline]
        exact ⟨_, rfl⟩
      | true =>
        have hmem : r.2 ∈ f.windows.flatMap Window.heldRefs :=
          List.mem_flatMap.2 ⟨w, hw, List.mem_filter.2 ⟨List.mem_map_of_mem hr, hinline⟩⟩
        rw [hheld] at hmem
        obtain ⟨s, hs, hlabel⟩ := List.mem_map.1 hmem
        rw [← hlabel] at hinline ⊢
        exact (hline hs hinline).2 (h s hs)
  have hwindows : (∀ w ∈ f.windows, ∃ text, Script.writeWindow f w = .ok text) ↔
      (∀ w ∈ f.windows, ∀ d ∈ w.commands, d.Writable w.asBackground) ∧
        ∀ s ∈ inline, ∀ p ∈ s.commands, p.statement.Closed := by
    rw [← hrefs, ← forall₂_and]
    exact forall₂_congr fun w hw => exists_writeWindow_iff (hdrafted w hw)
  rw [hfile, hwindows, hnamed]
  constructor
  · rintro ⟨⟨hw, hi⟩, hn⟩
    refine ⟨hw, ?_⟩
    rw [hnumbered.switches, List.forall_mem_append]
    exact ⟨hn, hi⟩
  · rintro ⟨hw, hs⟩
    rw [hnumbered.switches, List.forall_mem_append] at hs
    exact ⟨⟨hw, hs.2⟩, hs.1⟩

end ApeScript
