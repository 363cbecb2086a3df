import ApeScript.Proofs.InlineSwitch
import ApeScript.Proofs.WritableFile

/-!
# Files that are written and read again

A compiled file is written, and the script is compiled again. Every command of a window comes back
as `Command.restated` says and every switch as `Switch.restated` does, the inline switches under
their own labels (`compile_writeFile`). So what a file that is written and accepted can lose are the
formatting strings that are escaped once more, and nothing else (`alike_restated_iff`).
-/

namespace ApeScript

namespace WindowDraft

variable {w : WindowDraft} {asBackground : Bool}

theorem refPairs_codes : (w.refPairs.map (·.1)).Sublist
    [CommandCode.startSwitch, CommandCode.thinkSwitch, CommandCode.finishSwitch] := by
  have hslot (code : UInt8) (label : Option Label) :
      ((label.map (code, ·)).toList.map (·.1)).Sublist [code] := by
    cases label <;> simp
  rw [refPairs, List.map_append, List.map_append]
  exact (hslot _ _).append ((hslot _ _).append (hslot _ _))

theorem all_closes_naming : w.naming.all (·.closes asBackground) = true := by
  refine List.all_eq_true.2 fun d hd => ?_
  have hslot {code : UInt8} {label : Option Label} (h : d ∈ ref code label) :
      d.closes asBackground = true := by
    obtain ⟨l, -, rfl⟩ := Option.map_eq_some_iff.1 (Option.mem_toList.1 h)
    rfl
  simp only [naming, List.flatten_cons, List.flatten_nil, List.append_nil, List.mem_append] at hd
  rcases hd with h | h | h <;> exact hslot h

theorem isSwitchRef_refPairs : ∀ r ∈ w.refPairs, CommandCode.isSwitchRef r.1 = true := by
  intro r hr
  have hmem := refPairs_codes.subset (List.mem_map_of_mem hr)
  revert hmem
  generalize r.1 = code
  revert code
  simp [CommandCode.isSwitchRef]

theorem foldl_name_refPairs (b : Bool) :
    w.refPairs.foldl name { w.retold asBackground with hasBackground := b } =
      { w.reread asBackground with hasBackground := b } := by
  cases hstart : w.startSwitch <;> cases hthink : w.thinkSwitch <;> cases hfinish : w.finishSwitch
  all_goals
    simp only [refPairs, reread, hstart, hthink, hfinish]
    rfl

/-- The switches of a window can be named in any order. -/
theorem foldl_name_perm {refs refs' : List (UInt8 × Label)} (h : refs.Perm refs')
    (hcodes : ∀ r ∈ refs, CommandCode.isSwitchRef r.1 = true) (hdistinct : (refs.map (·.1)).Nodup)
    (v : WindowDraft) : refs.foldl name v = refs'.foldl name v := by
  refine h.foldl_eq' (fun r hr r' hr' v => ?_) v
  by_cases hsame : r = r'
  · rw [hsame]
  have hne : r.1 ≠ r'.1 := fun heq => hsame (List.inj_on_of_nodup_map hdistinct hr hr' heq)
  obtain ⟨code, label⟩ := r
  obtain ⟨code', label'⟩ := r'
  rcases CommandCode.isSwitchRef_iff.1 (hcodes _ hr) with rfl | rfl | rfl <;>
    rcases CommandCode.isSwitchRef_iff.1 (hcodes _ hr') with rfl | rfl | rfl <;>
    first | exact absurd rfl hne | rfl

end WindowDraft

/-- The names of the backgrounds of a window end at their closing quotes. -/
def Window.closes (w : Window) : Bool := w.commands.all (·.closes w.asBackground)

namespace Compiler

variable {c : CompileContext} {f : File} {w : WindowDraft} {m : Inlined} {label : Label}
  {script : Bytes} {switches : List Switch}

/-- The lines of the commands of a window and of its background. -/
theorem crossesIf_own (hc : c.Plain) (hw : w.Drafted c.options) {asBackground : Bool}
    (hb : (Window.mk label w.commands).asBackground = asBackground) {body : List Bytes}
    (hbody : (w.leading ++ w.trailing).mapM (Script.writeCommand asBackground) = .ok body)
    (hworded : ∀ d ∈ w.commands, d.ref? = none → d.closes asBackground = true →
      d.Worded asBackground) (m : Inlined) :
    CrossesIf parseWindowRound c
      (body.flatten ++ if (Window.mk label w.commands).isPlain then plainLine else [])
      (w.commands.all (·.closes asBackground)) (WindowDraft.Over {}) m
      { w.retold asBackground with hasBackground := w.hasBackground }.Over m := by
  obtain ⟨es, htally⟩ := hw.tally
  have htells := WindowDraft.tells_own hw.sound asBackground
  have hmem {d : Command} (hd : d ∈ w.leading ++ w.trailing) : d ∈ w.commands := by
    rw [WindowDraft.commands_eq]
    rcases List.mem_append.1 hd with hd | hd
    · exact List.mem_append_left _ hd
    · exact List.mem_append_right _ (List.mem_append_right _ hd)
  have hown : ∀ d ∈ w.leading ++ w.trailing, d.ref? = none :=
    List.forall_mem_append.2 ⟨WindowDraft.ref?_leading hw.sound, WindowDraft.ref?_trailing hw.sound⟩
  have hexprs : ∀ d ∈ w.leading ++ w.trailing, ∀ e ∈ d.exprs, e.Stored :=
    fun d hd e he => hc.stored ((hw.sound.commands d (hmem hd)).exprs e he)
  have hcommands := crossesIf_commands hc rfl hbody
    (fun d hd => hworded d (hmem hd) (hown d hd)) hexprs htells.fits m
  have hcloses : (w.leading ++ w.trailing).all (·.closes asBackground) =
      w.commands.all (·.closes asBackground) := by
    rw [WindowDraft.commands_eq, List.all_append, List.all_append, List.all_append,
      WindowDraft.all_closes_naming, Bool.true_and]
  rw [htells.told, hcloses] at hcommands
  have hlines : Crosses parseWindowRound c
      (if (Window.mk label w.commands).isPlain then plainLine else [])
      (w.retold asBackground).Over m
      { w.retold asBackground with hasBackground := w.hasBackground }.Over m := by
    have hbackground := WindowDraft.hasBackground_retold label hw
    rw [hb] at hbackground
    by_cases hplain : (Window.mk label w.commands).isPlain = true
    · have hcorners : w.corners = ⟨0, 0, 0, 0⟩ := by
        rw [WindowDraft.isPlain_commands htally] at hplain
        simpa using (Bool.and_eq_true_iff.1 hplain).2
      rw [if_pos hplain, ← hbackground, hplain, Bool.or_true]
      exact crosses_plainLine (w := w.retold asBackground) rfl (congrArg Corners.first hcorners) m
    · rw [if_neg hplain, ← hbackground, Bool.not_eq_true] at *
      rw [hplain, Bool.or_false]
      exact .nil
  have hall := hcommands.append hlines.crossesIf
  rwa [Bool.and_true] at hall

/-- A written window is read up to the draft that was written, if the inline switches that it holds
are read. -/
theorem crossesIf_window (hc : c.Plain) (hw : w.Drafted c.options)
    (hwritten : Script.writeWindow f ⟨label, w.commands⟩ = .ok script)
    (hworded : ∀ d ∈ w.commands, d.ref? = none →
      d.closes (Window.mk label w.commands).asBackground = true →
        d.Worded (Window.mk label w.commands).asBackground)
    (hheld : (Window.mk label w.commands).heldRefs = switches.map (·.label))
    (hswitches : Upcoming c f m switches) :
    ∃ lines, script = windowScript label lines ∧ CrossesIf parseWindowRound c lines
      ((Window.mk label w.commands).closes && switches.all (·.parted true)) (WindowDraft.Over {}) m
      (w.reread (Window.mk label w.commands).asBackground).Over
      (m.adding (switches.map Switch.restated)) := by
  obtain ⟨body, refs, hbody, hlines, rfl⟩ := writeWindow_ok_iff.1 hwritten
  rw [WindowDraft.ownCommands_commands hw.sound] at hbody
  rw [Window.heldRefs, WindowDraft.switchRefs_commands hw.sound] at hheld
  rw [WindowDraft.switchRefs_commands hw.sound] at hlines
  generalize hsorted : w.refPairs.mergeSort (fun a b => a.2 ≤ b.2) = sorted at hheld hlines
  have hperm : sorted.Perm w.refPairs := hsorted ▸ List.mergeSort_perm ..
  have hcodes : ∀ r ∈ sorted, CommandCode.isSwitchRef r.1 = true :=
    fun r hr => WindowDraft.isSwitchRef_refPairs r (hperm.mem_iff.1 hr)
  have hdistinct : (sorted.map (·.1)).Nodup :=
    (hperm.map _).nodup_iff.2 (WindowDraft.refPairs_codes.nodup (by decide))
  have hown := crossesIf_own hc hw rfl hbody hworded m
  have hnamed := crossesIf_refs (w := { w.retold (Window.mk label w.commands).asBackground with
    hasBackground := w.hasBackground }) hlines rfl hcodes hdistinct (fun r _ => by
      rw [Command.Fits]
      split_ifs <;> rfl) hheld hswitches
  rw [WindowDraft.foldl_name_perm hperm hcodes hdistinct, WindowDraft.foldl_name_refPairs] at hnamed
  have hall := hown.append (hnamed.append (crosses_line_end _).crossesIf)
  rw [Bool.and_true] at hall
  refine ⟨_, rfl, ?_⟩
  rw [← List.append_assoc]
  exact hall

end Compiler

/-! ### Windows of a file -/

def Window.restated (w : Window) : Window :=
  ⟨w.id, w.commands.map (Command.restated w.asBackground)⟩

def File.restated (f : File) : File :=
  ⟨f.windows.map Window.restated, f.switches.map Switch.restated⟩

/-- A file whose words can be read back: what is written without quotes, in its commands and in its
statements, is read as single words, and no formatting string has a quote. -/
structure File.Spelled (f : File) : Prop where
  windows : ∀ w ∈ f.windows, ∀ d ∈ w.commands, d.Spelled
  switches : ∀ s ∈ f.switches, ∀ p ∈ s.commands, p.statement.Worded

/-- Switches that are written one after the other are read back. -/
def Switch.allParted : List Switch → Bool
  | [] => true
  | s :: rest => s.parted rest.isEmpty && allParted rest

/-- The switches of a written file are read back, those in windows and those after them. -/
def File.parted (f : File) : Bool :=
  (f.switches.filter ((Script.inlined f).contains ·.label)).all (·.parted true) &&
    Switch.allParted (f.switches.filter fun s => !(Script.inlined f).contains s.label)

/-- The script of a file is accepted: quotes are closed, and switches are parted. -/
def File.accepted (f : File) : Bool := f.windows.all Window.closes && f.parted

namespace Compiler

variable {c : CompileContext} {f : File} {windows windows' : List Window}
  {inline named switches : List Switch} {texts : List Bytes} {more : Bytes} {m m' : Inlined}
  {ok : Bool}

/-- Written windows are the first directives of their script. -/
theorem directives_windows (hc : c.Plain) (hdrafted : ∀ w ∈ windows, w.Drafted c.options)
    (hworded : ∀ w ∈ windows, ∀ d ∈ w.commands, d.ref? = none →
      d.closes w.asBackground = true → d.Worded w.asBackground)
    (hheld : windows.flatMap Window.heldRefs = inline.map (·.label))
    (hinline : Upcoming c f m inline)
    (hwritten : List.Forall₂ (fun w text => Script.writeWindow f w = .ok text) windows texts)
    (hmore : Directives c more ok (m.adding (inline.map Switch.restated)) [] switches m') :
    Directives c (texts.flatten ++ more)
      (windows.all Window.closes && (inline.all (·.parted true) && ok)) m
      (windows.map Window.restated) switches m' := by
  induction hwritten generalizing m inline with
  | nil =>
    cases inline with
    | nil =>
      have hnone : m.adding [] = m := by simp [Inlined.adding]
      rw [List.map_nil, hnone] at hmore
      exact hmore
    | cons => cases hheld
  | @cons w text windows texts hwindow _ ih =>
    obtain ⟨hid, hzero, draft, hdraft, hcommands⟩ := hdrafted w List.mem_cons_self
    obtain ⟨label, commands⟩ := w
    cases hcommands
    obtain ⟨here, later, rfl, hhere, hlater⟩ := List.map_eq_append_iff.1 hheld.symm
    obtain ⟨hfirst, hothers⟩ := hinline.append
    obtain ⟨lines, rfl, hcrosses⟩ := crossesIf_window hc hdraft hwindow
      (hworded _ List.mem_cons_self) hhere.symm hfirst
    obtain ⟨es, htally⟩ := hdraft.tally
    have hread (asBackground : Bool) : (draft.reread asBackground).commands =
        draft.commands.map (Command.restated asBackground) :=
      WindowDraft.commands_reread htally hdraft.spoken.unnamed_storedFlags
    rw [List.map_append, ← Inlined.adding_adding] at hmore
    have hrest := ih (fun w hw => hdrafted w (List.mem_cons_of_mem _ hw))
      (fun w hw => hworded w (List.mem_cons_of_mem _ hw)) hlater.symm hothers hmore
    have hwhole := Directives.window hid hzero rfl hcrosses hrest
    have hok (a b c d e : Bool) : ((a && b) && (c && (d && e))) = ((a && c) && ((b && d) && e)) := by
      cases a <;> cases b <;> cases c <;> rfl
    rw [hread, hok, ← List.all_append, ← List.append_assoc] at hwhole
    exact hwhole

/-- Written switches are the last directives of their script. -/
theorem directives_switches (hlabels : ∀ s ∈ named, s.label.isInline = false ∧ s.label ≠ 0)
    (hrestates : ∀ s ∈ named, ∃ b, Restates c s b)
    (hwritten : List.Forall₂ (fun s text => Script.writeSwitch s = .ok text) named texts)
    (m : Inlined) : Directives c texts.flatten (Switch.allParted named) m []
      (named.map Switch.restated) m := by
  induction hwritten with
  | nil => exact .nil
  | @cons s text named texts hswitch hwritten ih =>
    obtain ⟨statements, hstatements, h⟩ := bind_eq_ok.1 hswitch
    cases h
    obtain ⟨hlabel, hzero⟩ := hlabels s List.mem_cons_self
    obtain ⟨b, hb⟩ := hrestates s List.mem_cons_self
    have hrest := ih (fun s hs => hlabels s (List.mem_cons_of_mem _ hs))
      fun s hs => hrestates s (List.mem_cons_of_mem _ hs)
    have hempty : texts.flatten.isEmpty = named.isEmpty := by
      cases hwritten with
      | nil => rfl
      | cons hnext =>
        obtain ⟨_, _, h⟩ := bind_eq_ok.1 hnext
        cases h
        rfl
    have hwhole := Directives.switch hlabel hzero hb hstatements hrest
    rw [hempty] at hwhole
    exact hwhole

end Compiler

/-! ### What a file can lose -/

structure Window.Alike (w w' : Window) : Prop where
  id : w.id = w'.id
  commands : List.Forall₂ (Command.Alike Expr.Same) w.commands w'.commands

/-- A window comes back if none of its formatting strings is escaped, and only then. -/
theorem Window.alike_restated_iff {w : Window} {o : Options} (hw : w.Drafted o)
    (hexprs : ∀ e ∈ w.exprs, e.Stored) :
    w.Alike w.restated ↔ ∀ d ∈ w.commands, Command.Unescaped d.formats := by
  obtain ⟨-, -, draft, hdraft, hcommands⟩ := hw
  have heach (d : Command) (hd : d ∈ w.commands) :
      d.Alike Expr.Same (d.restated w.asBackground) ↔ Command.Unescaped d.formats := by
    have hspoken : d.Spoken := hdraft.spoken_commands d (hcommands ▸ hd)
    rw [Command.alike_restated_iff hspoken.stays fun e he =>
      hexprs e (List.mem_flatMap.2 ⟨d, hd, he⟩), Command.faithful_iff hspoken]
  have hall : w.Alike w.restated ↔
      ∀ d ∈ w.commands, d.Alike Expr.Same (d.restated w.asBackground) := by
    have hlists : List.Forall₂ (Command.Alike Expr.Same) w.commands w.restated.commands ↔ _ :=
      List.forall₂_map_right_iff.trans List.forall₂_same
    exact ⟨fun h => hlists.1 h.commands, fun h => ⟨rfl, hlists.2 h⟩⟩
  rw [hall]
  exact forall₂_congr heach

/-! ### The inline switches of a compiled file -/

theorem File.Numbered.upcoming {c : CompileContext} {legacy : Bool} {named inline : List Switch}
    {f : File} (h : f.Numbered c.hash legacy named inline)
    (hlabels : inline.map (·.label) = (List.range inline.length).map (Label.inline c.hash))
    (hrestates : ∀ s ∈ inline, ∃ b, Compiler.Restates c s b) :
    Compiler.Upcoming c f ⟨0, []⟩ inline where
  found _ hs := h.find?_eq hs
  restates := hrestates
  labels := by rw [hlabels, List.range_eq_range']
  count := by simpa using h.count

/-! ### Files that come back -/

/-- What is written for a compiled file is compiled to the file that `File.restated` says, or refused
if its quotes are not closed or its switches not parted. -/
theorem compile_writeFile {src script : Bytes} {o : Options} {f : File}
    (ho : o = { Options.defaults with file := o.file, hash := o.hash })
    (hcompiled : (compile src o).result = .ok f) (hspelled : f.Spelled)
    (hwritten : Script.writeFile f = .ok script) (hreturn : 13 ∉ script) :
    if f.accepted then (compile script o).result = .ok f.restated
    else ∃ e, (compile script o).result = .error e := by
  obtain ⟨hash, named, inline, hhash, hnumbered, hlabels, hheld⟩ := compile_held hcompiled
  have hplain : CompileContext.Plain ⟨o, hash⟩ := ho
  have heffective : o.effective = o := hplain.effective
  have hwritable := (exists_writeFile_iff ho hcompiled).1 ⟨script, hwritten⟩
  have hdrafted := compile_drafted hcompiled
  have hswitches := compile_switches hcompiled
  rw [heffective] at hdrafted hswitches hhash
  obtain ⟨hinlined, hothers⟩ := hnumbered.filter_eq hheld
  have hrestates : ∀ s ∈ f.switches, ∃ b, Compiler.Restates ⟨o, hash⟩ s b := by
    intro s hs
    obtain ⟨hs', d, hd⟩ := hswitches s hs
    exact hs'.exists_restates hplain hd (hspelled.switches s hs)
  obtain ⟨windows, switches, hwindows, hswitchTexts, rfl⟩ := writeFile_ok_iff.1 hwritten
  have haccepted : f.accepted = (f.windows.all Window.closes &&
      (inline.all (·.parted true) && Switch.allParted named)) := by
    rw [File.accepted, File.parted, hinlined, hothers]
  rw [hothers] at hswitchTexts
  rw [hnumbered.switches, List.forall_mem_append] at hrestates
  have hnamed : ∀ s ∈ named, s.label.isInline = false ∧ s.label ≠ 0 := by
    intro s hs
    have hmem : s ∈ f.switches := by
      rw [hnumbered.switches]
      exact List.mem_append_left _ hs
    have hlt := hnumbered.named s hs
    exact ⟨decide_eq_false (by omega), (hswitches s hmem).1.label_ne_zero⟩
  have hupcoming := hnumbered.upcoming (c := ⟨o, hash⟩) hlabels hrestates.2
  have hafter := Compiler.directives_switches hnamed hrestates.1 hswitchTexts
    ((⟨0, []⟩ : Compiler.Inlined).adding (inline.map Switch.restated))
  have hworded (w : Window) (hw : w ∈ f.windows) (d : Command) (hd : d ∈ w.commands)
      (href : d.ref? = none) (hcloses : d.closes w.asBackground = true) :
      d.Worded w.asBackground := by
    obtain ⟨-, -, draft, hdraft, hcommands⟩ := hdrafted w hw
    rw [← hcommands] at hd
    have hd' : d ∈ w.commands := hcommands ▸ hd
    exact (hspelled.windows w hw d hd').worded (hdraft.spoken_commands d hd)
      (hdraft.sound.commands d hd) (hwritable.windows w hw d hd') (hnumbered.outward hw hd') href
      hcloses
  have hdirectives := Compiler.directives_windows hplain hdrafted hworded hheld hupcoming hwindows
    hafter
  have hfile : (⟨f.windows.map Window.restated, named.map Switch.restated ++
      ((⟨0, []⟩ : Compiler.Inlined).adding (inline.map Switch.restated)).switches⟩ : File) =
        f.restated := by
    rw [File.restated, hnumbered.switches, List.map_append]
    rfl
  have hcompile := compile_directives hplain hhash hdirectives hreturn
  rwa [← haccepted, hfile] at hcompile

structure File.Alike (f g : File) : Prop where
  windows : List.Forall₂ Window.Alike f.windows g.windows
  switches : List.Forall₂ Switch.Alike f.switches g.switches

/-- No formatting string has a byte that is escaped. -/
structure File.Unescaped (f : File) : Prop where
  windows : ∀ w ∈ f.windows, ∀ d ∈ w.commands, Command.Unescaped d.formats
  switches : ∀ s ∈ f.switches, ∀ p ∈ s.commands, Command.Unescaped p.statement.format

theorem alike_restated_iff {src : Bytes} {o : Options} {f : File}
    (ho : o = { Options.defaults with file := o.file, hash := o.hash })
    (hcompiled : (compile src o).result = .ok f) : f.Alike f.restated ↔ f.Unescaped := by
  have hplain : CompileContext.Plain ⟨o, 0⟩ := ho
  have heffective : o.effective = o := hplain.effective
  have hdrafted := compile_drafted hcompiled
  have hswitches := compile_switches hcompiled
  rw [heffective] at hdrafted hswitches
  have hwindows : List.Forall₂ Window.Alike f.windows f.restated.windows ↔
      ∀ w ∈ f.windows, ∀ d ∈ w.commands, Command.Unescaped d.formats := by
    rw [File.restated, List.forall₂_map_right_iff, List.forall₂_same]
    refine forall₂_congr fun w hw => Window.alike_restated_iff (hdrafted w hw) fun e he => ?_
    obtain ⟨d, hd, he⟩ := List.mem_flatMap.1 he
    obtain ⟨-, -, draft, hdraft, hcommands⟩ := hdrafted w hw
    rw [← hcommands] at hd
    exact hplain.stored ((hdraft.sound.commands d hd).exprs e he)
  have hothers : List.Forall₂ Switch.Alike f.switches f.restated.switches ↔
      ∀ s ∈ f.switches, ∀ p ∈ s.commands, Command.Unescaped p.statement.format := by
    rw [File.restated, List.forall₂_map_right_iff, List.forall₂_same]
    exact forall₂_congr fun s hs =>
      Switch.alike_restated_iff ((hswitches s hs).1.exprs_stored hplain)
  exact ⟨fun h => ⟨hwindows.1 h.windows, hothers.1 h.switches⟩,
    fun h => ⟨hwindows.2 h.windows, hothers.2 h.switches⟩⟩

end ApeScript
