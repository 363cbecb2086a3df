import ApeScript.Proofs.WrittenFile

/-!
# What comes back of a command

A command is written as the only one of its window, and the script is compiled again. What comes
back is what `Command.restated` says, and that is the command itself, but for the spelling of its
numbers, if it is `Command.Faithful`, and only then. Nothing is refused and nothing is reported where
it is not: stay flags and camera settings become zero or one, colours without a font are left out, a
height without a width becomes the width, formatting strings are escaped once more, and commands
that say nothing are gone.
-/

namespace ApeScript

open Compiler (Crosses Inlined parseWindowRound)

variable {c : Command} {script : Bytes} {label : Label}

/-! ### The window of a command -/

def Command.alone (c : Command) (label : Label) : Window := ⟨label, [c]⟩

theorem asBackground_alone : (c.alone label).asBackground = c.isBackdrop := by
  cases c with
  | image i =>
    simp [Window.asBackground, Command.alone, Command.isBackdrop, Script.hasNoBackground]
  | _ => rfl

def Command.drafted (c : Command) (label : Label) : WindowDraft :=
  { WindowDraft.say {} (c.restated c.isBackdrop) with
    hasBackground := !Script.hasNoBackground (c.alone label) }

theorem fits_empty (c : Command) : c.Fits {} := by
  cases c <;> simp [Command.Fits]

theorem say_hasBackground (w : WindowDraft) (b : Bool) (c : Command) :
    { w with hasBackground := b }.say c = { w.say c with hasBackground := b } := by
  cases c <;> simp only [WindowDraft.say] <;> split_ifs <;> rfl

/-- What the lines of a command and of a background say together. -/
theorem toldTo_alone : (if (c.alone label).isPlain then
      { c.toldTo {} c.isBackdrop with hasBackground := true }
    else c.toldTo {} c.isBackdrop) = c.drafted label := by
  rw [Window.isPlain, asBackground_alone]
  cases c with
  | flags bits =>
    rw [Command.drafted]
    cases Script.hasNoBackground ((Command.flags bits).alone label) with
    | true => rfl
    | false => rfl
  | image i =>
    cases hbackdrop : i.isBackdrop with
    | true => simp [Command.toldTo, Command.paints, Command.drafted, Command.isBackdrop,
        Script.hasNoBackground, Command.alone, hbackdrop]
    | false => simp [Command.toldTo, Command.paints, Command.drafted, Command.isBackdrop,
        Script.hasNoBackground, Command.alone, hbackdrop]
  | _ => rfl

theorem toldTo_of_not_paints {w : WindowDraft} {asBackground : Bool}
    (h : c.paints asBackground = false) :
    c.toldTo w asBackground = w.say (c.restated asBackground) := by
  rw [Command.toldTo, h]
  rfl

/-- The line of a background that says nothing stands where no other corners are. -/
theorem corners_toldTo (h : (c.alone label).isPlain = true) :
    (c.toldTo {} c.isBackdrop).corners.first = 0 := by
  cases c with
  | background => simp [Window.isPlain, Command.alone] at h
  | formattedText | simpleText | switchRef =>
    rw [toldTo_of_not_paints rfl]
    simp only [Command.restated, Command.reread, Command.mapExpr, WindowDraft.say]
    split_ifs <;> rfl
  | image i =>
    rw [Command.toldTo]
    split <;> rfl
  | _ => rfl

theorem ownCommands_alone (href : ∀ code target, c ≠ .switchRef code target) :
    (c.alone label).ownCommands = [c] := by
  cases c with
  | switchRef code target => exact absurd rfl (href code target)
  | _ => rfl

theorem crosses_alone {context : CompileContext} (hc : context.Plain)
    (hwritten : Script.writeWindow ⟨[c.alone label], []⟩ (c.alone label) = .ok script)
    (hworded : c.Worded c.isBackdrop) (hexprs : ∀ e ∈ c.exprs, e.Stored) (m : Inlined) :
    ∃ lines, script = windowScript label lines ∧
      Crosses parseWindowRound context lines (WindowDraft.Over {}) m (c.drafted label).Over m := by
  obtain ⟨body, refs, hbody, hrefs, rfl⟩ := writeWindow_ok_iff.1 hwritten
  refine ⟨_, rfl, ?_⟩
  rw [asBackground_alone] at hbody
  by_cases href : ∃ code target, c = .switchRef code target
  · obtain ⟨code, target, rfl⟩ := href
    have hfits : (Command.switchRef code target).Fits { hasBackground := true } := by
      simp [Command.Fits]
    obtain ⟨line, hline, hcrosses⟩ := Compiler.crosses_switchRef (c := context)
      ⟨[(Command.switchRef code target).alone label], []⟩ hworded.1 hworded.2
    cases hbody
    have hlines : refs = [line] := by
      have hone : Script.switchRefs ((Command.switchRef code target).alone label) =
          [(code, target)] := by simp [Script.switchRefs, Command.alone]
      rw [hone, List.mapM_cons, hline] at hrefs
      exact (Except.ok.inj hrefs).symm
    rw [hlines, List.flatten_singleton]
    refine .append .nil (.append (Compiler.crosses_plainLine rfl rfl m) ?_)
    refine (hcrosses _ rfl hfits m).append ?_
    rw [say_hasBackground {} true]
    exact Compiler.crosses_line_end m
  · simp only [not_exists] at href
    have hnone : Script.switchRefs (c.alone label) = [] := by
      cases c with
      | switchRef code target => exact absurd rfl (href code target)
      | _ => simp [Script.switchRefs, Command.alone]
    rw [ownCommands_alone href] at hbody
    rw [hnone] at hrefs
    cases hrefs
    have hlines := Compiler.crosses_commands hc (w := {}) rfl hbody (by simpa using hworded)
      (by simpa using hexprs) ⟨fits_empty c, trivial⟩ m
    refine hlines.append (.append ?_ (Compiler.crosses_line_end m))
    rw [← toldTo_alone]
    by_cases hplain : (c.alone label).isPlain = true
    · rw [if_pos hplain, if_pos hplain]
      exact Compiler.crosses_plainLine ((Compiler.blocks_toldTo {} _ c).trans rfl)
        (corners_toldTo hplain) m
    · rw [if_neg hplain, if_neg hplain]
      exact .nil

theorem exists_of_writeWindow
    (hwritten : Script.writeWindow ⟨[c.alone label], []⟩ (c.alone label) = .ok script)
    (href : ∀ code target, c ≠ .switchRef code target) :
    ∃ lines, Script.writeCommand c.isBackdrop c = .ok lines := by
  obtain ⟨body, refs, hbody, -⟩ := writeWindow_ok_iff.1 hwritten
  rw [asBackground_alone, ownCommands_alone href, List.mapM_cons] at hbody
  obtain ⟨lines, hlines, -⟩ := bind_eq_ok.1 hbody
  exact ⟨lines, hlines⟩

/-! ### Commands that come back -/

theorem storedFlags_drafted {bits : UInt32} (hbits : WindowFlags.unnamed bits = 0) :
    ((Command.flags bits).drafted label).storedFlags = bits := by
  have hall := WindowFlags.or_noBackground hbits
  have hnone : Script.hasNoBackground ((Command.flags bits).alone label) =
      decide (bits &&& WindowFlags.noBackground ≠ 0) := rfl
  rw [Command.drafted, hnone]
  by_cases hzero : bits &&& WindowFlags.noBackground = 0
  · simpa [WindowDraft.storedFlags, Command.restated, Command.reread, Command.mapExpr,
      WindowDraft.say, hzero] using hall
  · simpa [WindowDraft.storedFlags, Command.restated, Command.reread, Command.mapExpr,
      WindowDraft.say, hzero] using hall

/-- Every command that comes back with the code of the command that was written. -/
theorem filter_commands_drafted (label : Label) {asBackground : Bool}
    (hwritten : (∀ code target, c ≠ .switchRef code target) →
      ∃ lines, Script.writeCommand asBackground c = .ok lines) (hworded : c.Worded asBackground) :
    (c.drafted label).commands.filter (·.code = c.code) =
      if c.stays then [c.restated c.isBackdrop] else [] := by
  cases c with
  | formattedText code _ _ _ =>
    have hcode : code = CommandCode.body ∨ code = CommandCode.title := by
      simpa [CommandCode.isFormattedText] using hworded.1
    rcases hcode with rfl | rfl
    · rfl
    · rfl
  | flags bits =>
    have hbits := WindowFlags.writeFlags_eq_ok_iff.1 (hwritten (by simp))
    rw [WindowDraft.commands, storedFlags_drafted hbits]
    by_cases hzero : bits = 0
    · rw [hzero]
      rfl
    · rw [if_neg hzero, Command.stays, decide_eq_true hzero]
      rfl
  | simpleText code text =>
    obtain ⟨lines, hlines⟩ := hwritten (by simp)
    rw [Script.writeCommand, Script.writeSimpleText] at hlines
    split_ifs at hlines with hstart hfinish hfont hstyle hnext
    all_goals
      cases ‹code = _›
      rfl
  | switchRef code _ =>
    rcases CommandCode.isSwitchRef_iff.1 hworded.1 with rfl | rfl | rfl
    · rfl
    · rfl
    · rfl
  | background corners =>
    have hcommands : ((Command.background corners).drafted label).commands =
        (if corners = ⟨0, 0, 0, 0⟩ then [] else [Command.background corners]) ++
          [.dimensions ⟨none, none, none, none⟩] := rfl
    rw [hcommands]
    by_cases hzero : corners = ⟨0, 0, 0, 0⟩
    · rw [if_pos hzero, hzero]
      rfl
    · rw [if_neg hzero, Command.stays, decide_eq_true hzero]
      rfl
  | blank =>
    obtain ⟨lines, hlines⟩ := hwritten (by simp)
    cases hlines
  | talk | dimensions | image | subWindow | choice | print | cam => rfl

/-- A command that is written and read again comes back if it is faithful, and only then. -/
theorem exists_alike_iff {commands : List Command}
    (hreread : commands.filter (·.code = c.code) =
      if c.stays then [c.restated c.isBackdrop] else [])
    (hexprs : ∀ e ∈ c.exprs, e.Stored) :
    (∃ d ∈ commands, c.Alike Expr.Same d) ↔ c.Faithful c.isBackdrop := by
  have hmem (d : Command) : d ∈ commands ∧ c.Alike Expr.Same d ↔
      d ∈ (if c.stays then [c.restated c.isBackdrop] else []) ∧ c.Alike Expr.Same d := by
    rw [← hreread, List.mem_filter, decide_eq_true_eq, and_assoc]
    exact and_congr_right fun _ => ⟨fun h => ⟨h.code_eq.symm, h⟩, fun h => h.2⟩
  simp only [hmem]
  cases hstays : c.stays with
  | true =>
    rw [← Command.alike_restated_iff hstays hexprs]
    simp
  | false =>
    have hlost : ¬ c.Faithful c.isBackdrop := by
      cases c with
      | flags | background => simpa [Command.stays, Command.Faithful] using hstays
      | _ => cases hstays
    simp [hlost]

/-- What comes back of a command that is written as the only one of its window and compiled again:
the window is read, and holds of the command's kind what `Command.restated` says, if that is anything
at all. So the command comes back if it is faithful, and only then. -/
theorem compile_written_command (hlabel : label.isInline = false) (hzero : label ≠ 0)
    (hworded : c.Worded c.isBackdrop) (hexprs : ∀ e ∈ c.exprs, e.Stored)
    (hwritten : Script.writeFile ⟨[c.alone label], []⟩ = .ok script) (hreturn : 13 ∉ script) :
    ∃ w, (compile script Options.defaults).result = .ok ⟨[w], []⟩ ∧ w.id = label ∧
      w.commands.filter (·.code = c.code) =
        (if c.stays then [c.restated c.isBackdrop] else []) ∧
      ((∃ d ∈ w.commands, c.Alike Expr.Same d) ↔ c.Faithful c.isBackdrop) := by
  have hwindow := writeFile_window.1 hwritten
  have hplain : CompileContext.Plain ⟨Options.defaults, 0⟩ := rfl
  obtain ⟨lines, rfl, hlines⟩ := crosses_alone hplain hwindow hworded hexprs ⟨0, []⟩
  have hreread := filter_commands_drafted label (exists_of_writeWindow hwindow) hworded
  refine ⟨⟨label, (c.drafted label).commands⟩, ?_, rfl, hreread, exists_alike_iff hreread hexprs⟩
  have hblocks : (c.drafted label).blocks = [] := Compiler.blocks_say {} _
  have hdirectives : Compiler.Directives ⟨Options.defaults, 0⟩ (windowScript label lines) true
      ⟨0, []⟩ [⟨label, (c.drafted label).commands⟩] [] ⟨0, []⟩ := by
    have h := Compiler.Directives.window hlabel hzero hblocks hlines.crossesIf .nil
    rwa [List.append_nil, Bool.and_true] at h
  exact compile_directives hplain rfl hdirectives hreturn

theorem stored_variable {name : Bytes} (h : Script.Variable name) : (Expr.variable name).Stored :=
  ⟨.floatVar name, ⟨h.identifier, if_neg h.number⟩, fun _ => rfl, rfl⟩

def unfontedPrint : Print :=
  ⟨some (.variable (utf8 "x")), some (.variable (utf8 "y")), some (.variable (utf8 "a")),
    some (.variable (utf8 "r")), some (.variable (utf8 "g")), some (.variable (utf8 "b")), none,
    utf8 "m", none, []⟩

/-- The window of `unfontedPrint` as it is written. -/
def unfontedScript : Bytes :=
  utf8 "#window 1:1\nxyprint x, y, a, \"m\"\nbackground color1=00000000\n\n"

theorem compile_written_command_unfonted :
    Script.writeFile ⟨[(Command.print unfontedPrint).alone 10001], []⟩ = .ok unfontedScript ∧
      ∃ w, (compile unfontedScript Options.defaults).result = .ok ⟨[w], []⟩ ∧
        w.commands.filter (·.code = CommandCode.xyPrint) =
          [.print { unfontedPrint with red := none, green := none, blue := none }] ∧
        ¬ ∃ d ∈ w.commands, (Command.print unfontedPrint).Alike Expr.Same d := by
  have hwritten : Script.writeFile ⟨[(Command.print unfontedPrint).alone 10001], []⟩ =
      .ok unfontedScript := by
    refine writeFile_window.2 (writeWindow_ok_iff.2
      ⟨[utf8 "xyprint x, y, a, \"m\"\n"], [], ?_, ?_, ?_⟩)
    · rfl
    · simp [Script.switchRefs, Command.alone]
      rfl
    · rfl
  have hvariable {s : Bytes} (hs : (s.all isIdentifierByte && s.head?.any (!Bytes.isDigit ·)) = true)
      (hnumber : s.getLast? ≠ some 36) : (Expr.variable s).Stored :=
    stored_variable ⟨.of_all hs, hnumber⟩
  have hexprs : ∀ e ∈ (Command.print unfontedPrint).exprs, e.Stored := by
    have hexprs : (Command.print unfontedPrint).exprs = [.variable (utf8 "x"), .variable (utf8 "y"),
        .variable (utf8 "a"), .variable (utf8 "r"), .variable (utf8 "g"), .variable (utf8 "b")] := rfl
    simp only [hexprs, List.forall_mem_cons]
    refine ⟨?_, ?_, ?_, ?_, ?_, ?_, by simp⟩ <;> exact hvariable rfl (by decide)
  have hworded : (Command.print unfontedPrint).Worded (Command.print unfontedPrint).isBackdrop :=
    ⟨by simp [unfontedPrint], by simp [unfontedPrint, Print.isFull]⟩
  obtain ⟨w, hcompiled, -, hreread, hfaithful⟩ :=
    compile_written_command rfl (by decide) hworded hexprs hwritten (by decide)
  refine ⟨hwritten, w, hcompiled, hreread, ?_⟩
  rw [hfaithful]
  rintro ⟨hfull | ⟨hred, -⟩, -⟩
  · cases hfull
  · cases hred

end ApeScript
