import ApeScript.Proofs.LocalizedFile
import ApeScript.Proofs.PairedWindow
import ApeScript.Proofs.RebuiltScript
import ApeScript.Proofs.RestoredFile
import ApeScript.Proofs.ReturnlessScript
import ApeScript.Proofs.SpelledWindow

/-!
# Files of a text without definitions

What a script is compiled to has no carriage return, so its own script is read without changes. If
the script has no definition, every word of the file is one that is read as it is, so what becomes
of the file when it is written and compiled again is known (`compile_written`): it comes back if it
is writable, its script is accepted, and no formatting string has a byte that is escaped.
-/

namespace ApeScript

open Script (Mild)

/-! ### Line ends -/

theorem return_not_mem_normalizeNewlines (s : Bytes) : 13 ∉ Preprocess.normalizeNewlines s := by
  induction s with
  | nil => exact List.not_mem_nil
  | cons b s ih =>
    rw [normalizeNewlines_cons]
    split_ifs with hb
    · exact ih
    · simpa using ih
    · simpa [Ne.symm hb] using ih

/-- A word without line ends begins a text whose line ends are normalized only if it begins the text
itself. -/
theorem isPrefix_of_normalizeNewlines {word s : Bytes} (hline : 10 ∉ word)
    (h : word <+: Preprocess.normalizeNewlines s) : word <+: s := by
  induction s generalizing word with
  | nil => exact h
  | cons b s ih =>
    cases word with
    | nil => exact List.nil_prefix
    | cons a word =>
      obtain ⟨ha, hword⟩ := not_or.1 (List.mem_cons.not.1 hline)
      rw [normalizeNewlines_cons] at h
      split_ifs at h with hb hs
      · obtain ⟨rest, rfl⟩ := List.head?_eq_some_iff.1 hs
        rw [normalizeNewlines_cons, if_neg (by decide)] at h
        exact absurd (List.cons_prefix_cons.1 h).1.symm ha
      · exact absurd (List.cons_prefix_cons.1 h).1.symm ha
      · obtain ⟨rfl, hrest⟩ := List.cons_prefix_cons.1 h
        exact List.cons_prefix_cons.2 ⟨rfl, ih hword hrest⟩

theorem isInfix_of_normalizeNewlines {word s : Bytes} (hline : 10 ∉ word)
    (h : word <:+: Preprocess.normalizeNewlines s) : word <:+: s := by
  induction s with
  | nil => exact h
  | cons b s ih =>
    have hrest (h : word <:+: Preprocess.normalizeNewlines s) : word <:+: b :: s :=
      (ih h).trans (List.suffix_cons b s).isInfix
    by_cases hstart : word <+: Preprocess.normalizeNewlines (b :: s)
    · exact (isPrefix_of_normalizeNewlines hline hstart).isInfix
    · rw [normalizeNewlines_cons] at h hstart
      split_ifs at h hstart
      · exact hrest h
      · exact hrest ((List.infix_cons_iff.1 h).resolve_left hstart)
      · exact hrest ((List.infix_cons_iff.1 h).resolve_left hstart)

namespace Compiler

variable {free r : Bool} {c : CompileContext}

/-! ### Programs -/

/-- What a script has defined so far. -/
structure ProgramDraft.Mild (free : Bool) (p : ProgramDraft) : Prop where
  windows : ∀ w ∈ p.windows, ∀ d ∈ w.commands, d.Mild free
  switches : ∀ s ∈ p.switches, s.Mild free

theorem tidies_defineMacro : Tidies c false r (liftM Lexer.defineMacro) false fun _ => True :=
  Tidies.mono (.lift Lexer.tidies_defineMacro Lexer.defineMacro_ensures) fun _ _ => trivial

theorem tidies_findHash : Tidies c free r findHash true fun _ => True :=
  .bind tidies_skipLineEnds fun _ _ => .bind tidies_read fun _ _ =>
    .ite (fun _ => .pure trivial) fun _ => .guard fun _ => .pure trivial

theorem tidies_parseTopDirective {p : ProgramDraft} (hc : c.Plain) (hp : p.Mild free) :
    Tidies c free r (parseTopDirective p) false (ProgramDraft.Mild free) := by
  refine .bind tidies_read fun kind hkind => .guard fun _ => .ite (fun _ => ?_) fun _ => ?_
  · refine .bind (tidies_compileWindow hc) ?_
    rintro ⟨window, afterHash⟩ hwindow
    refine .pure ?_
    exact { hp with windows := Contract.forall_mem_concat hp.windows hwindow }
  refine .ite (fun _ => .bind tidies_parseDefinitionLabel fun label _ => ?_) fun _ => ?_
  · refine .bind (tidies_compileSwitch hc) ?_
    rintro ⟨switch, afterHash⟩ hswitch
    refine .pure ?_
    exact { hp with switches := Contract.forall_mem_concat hp.switches hswitch }
  refine .ite (fun hdefine => ?_) fun _ => .fail
  cases free with
  | true => exact absurd hdefine (hkind.1.ne_define rfl)
  | false => exact .bind tidies_defineMacro.any fun _ _ => .pure { hp with }

theorem tidies_compileProgram (hc : c.Plain) : Tidies c free r compileProgram false fun f =>
    (∀ w ∈ f.windows, ∀ d ∈ w.commands, d.Mild free) ∧ ∀ s ∈ f.switches, s.Mild free := by
  refine .bind tidies_options ?_
  rintro _ rfl
  simp only [hc.legacyTopLevel, Bool.false_eq_true, if_false]
  refine .bind (?_ : Tidies c free r _ false (ProgramDraft.Mild free)) fun p hp => ?_
  · refine tidies_repeatFrom (I := ProgramDraft.Mild free) ⟨by simp, by simp⟩ fun p hp => ?_
    have hgoOn {r : Bool} : Tidies c free r
        (parseTopDirective p >>= fun p => pure (.inl p : ProgramDraft ⊕ ProgramDraft)) false
        (Sum.elim (ProgramDraft.Mild free) (ProgramDraft.Mild free)) :=
      (tidies_parseTopDirective hc hp).bind fun p hp => .pure hp
    refine .ite (fun _ => .bind tidies_findHash fun found _ => ?_) fun _ => hgoOn
    exact .ite (fun _ => .weaken (.pure hp)) fun _ => hgoOn
  · refine .bind tidies_state fun s hs => .pure ⟨hp.windows, ?_⟩
    exact List.forall_mem_append.2 ⟨hp.switches, hs.inline⟩

end Compiler

/-- A plain compilation runs over the text with its line ends normalized. -/
theorem prepareSource_plain {o : Options} {src : Bytes}
    (ho : o = { Options.defaults with file := o.file, hash := o.hash }) :
    prepareSource o src = .ok (Preprocess.normalizeNewlines src) := by
  rw [ho]
  rfl

/-- What a text is compiled to has no carriage return, and its words, if `free`, are read as they
are. -/
theorem compile_mild (free : Bool) {src : Bytes} {o : Options} {f : File}
    (ho : o = { Options.defaults with file := o.file, hash := o.hash })
    (hcompiled : (compile src o).result = .ok f)
    (hfree : free = true → ¬ utf8 "define" <:+: src) :
    (∀ w ∈ f.windows, ∀ d ∈ w.commands, d.Mild free) ∧ ∀ s ∈ f.switches, s.Mild free := by
  obtain ⟨hash, text, s, -, htext, hrun⟩ := compile_ok hcompiled
  have hplain : CompileContext.Plain ⟨o, hash⟩ := ho
  have heffective : o.effective = o := hplain.effective
  rw [heffective] at htext hrun
  rw [prepareSource_plain ho] at htext
  cases htext
  have hsource : Mild free (Preprocess.normalizeNewlines src) :=
    ⟨return_not_mem_normalizeNewlines src, fun h hdefine =>
      hfree h (isInfix_of_normalizeNewlines (by decide) hdefine)⟩
  have hlexer : Lexer.Tidy free true
      (.ofSource (Preprocess.normalizeNewlines src) o.file o.allowExpFloats) := by
    constructor <;> simp [Lexer.ofSource, hsource]
  exact (Compiler.tidies_compileProgram hplain _
    ⟨hlexer, Lexer.lettered_ofSource _ _ _, by simp⟩ f s hrun).2

/-- Without definitions every word of a file is read as it is. -/
theorem compile_spelled {src : Bytes} {o : Options} {f : File}
    (ho : o = { Options.defaults with file := o.file, hash := o.hash })
    (hcompiled : (compile src o).result = .ok f) (hfree : ¬ utf8 "define" <:+: src) :
    f.Spelled := by
  obtain ⟨hwindows, hswitches⟩ := compile_mild true ho hcompiled fun _ => hfree
  exact ⟨fun w hw d hd => (hwindows w hw d hd).spelled rfl,
    fun s hs p hp => (hswitches s hs p hp).worded rfl⟩

/-- The script of a compiled file has no carriage return. -/
theorem return_not_mem_rewritten {src script : Bytes} {o : Options} {f : File}
    (ho : o = { Options.defaults with file := o.file, hash := o.hash })
    (hcompiled : (compile src o).result = .ok f) (hwritten : Script.writeFile f = .ok script) :
    13 ∉ script := by
  obtain ⟨hwindows, hswitches⟩ := compile_mild false ho hcompiled (by simp)
  refine return_not_mem_writeFile hwritten (returnless_append.2 ⟨?_, ?_⟩)
  · refine returnless_flatMap.2 fun w hw => returnless_flatMap.2 fun d hd => ?_
    exact (hwindows w hw d hd).strings
  · refine returnless_flatMap.2 fun s hs => returnless_flatMap.2 fun p hp => ?_
    exact (hswitches s hs p hp).strings

/-! ### Files that come back -/

theorem Command.spelled_outline {d : Command} : d.outline.Spelled ↔ d.Spelled := by
  cases d <;> exact Iff.rfl

theorem Placed.Alike.worded {p q : Placed} (h : p.Alike q) (hq : q.statement.Worded) :
    p.statement.Worded := by
  rw [Statement.Worded] at hq ⊢
  rwa [h.type, h.str, h.format]

/-- A file has the words of one that is alike. -/
theorem File.Alike.spelled {f g : File} (h : f.Alike g) (hg : g.Spelled) : f.Spelled := by
  constructor
  · intro w hw d hd
    obtain ⟨w', hw', hsame⟩ := exists_of_mem_left h.windows hw
    obtain ⟨d', hd', hsame⟩ := exists_of_mem_left hsame.commands hd
    rw [← Command.spelled_outline, hsame.outline, Command.spelled_outline]
    exact hg.windows w' hw' d' hd'
  · intro s hs p hp
    obtain ⟨s', hs', hsame⟩ := exists_of_mem_left h.switches hs
    obtain ⟨p', hp', hsame⟩ := exists_of_mem_left hsame.commands hp
    exact hsame.worded (hg.switches s' hs' p' hp')

/-- A window with a switch of its own, and another switch. -/
def branchedScript : Bytes :=
  utf8 "#window 1:1\nstartswitch \x7b\nif (a)\necho \"y\"\nelse\necho \"z\"\n\x7d\n" ++
  utf8 "#switch 1:2\necho \"x\", \"%s\"\n"

def branchedFile : File where
  windows := [⟨10001, [.switchRef CommandCode.startSwitch (Label.inline 0 0),
    .flags WindowFlags.noBackground, .dimensions ⟨none, none, none, none⟩]⟩]
  switches := [
    ⟨10002, [⟨1, StatementType.echo.code, some (utf8 "x"),
      [⟨FormatType.string.code, .quoted (utf8 "%s")⟩], none⟩]⟩,
    ⟨Label.inline 0 0, [
      ⟨1, StatementType.ifThen.code, none, [],
        some ⟨9, ⟨4, 5, .float ⟨0⟩⟩, ⟨5, 6, .name (utf8 "a")⟩⟩⟩,
      ⟨5, StatementType.echo.code, some (utf8 "y"), [], none⟩,
      ⟨6, StatementType.echo.code, some (utf8 "z"), [], none⟩]⟩]

theorem compile_branchedScript :
    (compile branchedScript Options.defaults).result = .ok branchedFile := by cbv

theorem branchedFile_writable : branchedFile.Writable where
  windows := by
    intro w hw d hd
    cases List.mem_singleton.1 hw
    simp only [List.mem_cons, List.not_mem_nil, or_false] at hd
    rcases hd with rfl | rfl | rfl <;> trivial
  switches := by
    intro s hs p hp
    simp only [branchedFile, List.mem_cons, List.not_mem_nil, or_false] at hs
    rcases hs with rfl | rfl <;> simp only [List.mem_cons, List.not_mem_nil, or_false] at hp
    · obtain rfl := hp
      exact Compiler.closed_of_ne (by decide)
    · rcases hp with rfl | rfl | rfl <;> exact Compiler.closed_of_ne (by decide)

end ApeScript
