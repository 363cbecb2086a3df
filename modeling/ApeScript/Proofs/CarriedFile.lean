import ApeScript.Compile.Program
import ApeScript.Proofs.CarriedWindow
import ApeScript.Proofs.CompiledFile
import ApeScript.Proofs.Diagnostics
import ApeScript.Proofs.PairedWindow
import ApeScript.Proofs.StrippedComments

/-!
# Files of a variant

A script that compiles compiles in every variant of its compilation, to the same file but for the
inline labels, which follow the other hash, and with the same diagnostics but for the name of the
script. So the permissions are conservative: to allow more changes nothing about a script that did
without.
-/

namespace ApeScript

open Label (inlineBase)

namespace Label

def inline (hash i : Nat) : Label := UInt32.ofNat (inlineBase + hash * Compiler.maxInline + i)

variable {hash hash' i : Nat}

/-- The labels of inline switches do not wrap around. -/
theorem toNat_inline (hhash : hash ≤ Options.maxHash) (hi : i < Compiler.maxInline) :
    (inline hash i).toNat = inlineBase + hash * Compiler.maxInline + i := by
  refine UInt32.toNat_ofNat_of_lt' ?_
  simp only [Options.maxHash, Compiler.maxInline, inlineBase, UInt32.size] at hhash hi ⊢
  omega

theorem isInline_inline (hhash : hash ≤ Options.maxHash) (hi : i < Compiler.maxInline) :
    (inline hash i).isInline = true := by
  simp only [isInline, toNat_inline hhash hi, decide_eq_true_eq]
  omega

theorem rehash_inline (hhash : hash ≤ Options.maxHash) (hi : i < Compiler.maxInline) :
    (inline hash i).rehash hash hash' = inline hash' i := by
  rw [rehash, if_pos (isInline_inline hhash hi)]
  unfold inline
  simp only [UInt32.ofNat_add]
  rw [add_right_comm, add_sub_cancel_right, add_right_comm]

end Label

def File.rehash (hash hash' : Nat) (f : File) : File where
  windows := f.windows.map (Window.rehash hash hash')
  switches := f.switches.map (Switch.rehash hash hash')

theorem File.rehash_self {hash : Nat} {f : File} : f.rehash hash hash = f := by
  have hcommand (c : Command) : c.rehash hash hash = c := by
    cases c <;> simp [Command.rehash, Label.rehash_self]
  have hswitch (s : Switch) : s.rehash hash hash = s := by
    simp [Switch.rehash, Label.rehash_self]
  have hwindow (w : Window) : w.rehash hash hash = w := by
    rw [Window.rehash, List.map_id'' hcommand]
  rw [File.rehash, List.map_id'' hwindow, List.map_id'' hswitch]

namespace Variant

open Compiler

variable {V : Variant}

/-! ### Inline switches -/

/-- The inline switches made so far are at most as many as a script may have. -/
def Counts (V : Variant) : Prop :=
  V.context.hash ≤ Options.maxHash ∧ V.Holds = fun s => s.inlineCount ≤ maxInline

theorem carries_nextInlineLabel (hV : V.Counts) :
    V.Carries nextInlineLabel nextInlineLabel fun l l' => l' = V.label l := by
  obtain ⟨hhash, hholds⟩ := hV
  refine .state fun s hs => .ite (fun _ => .bind .location fun _ _ => .fail_bind) fun hnot => ?_
  rw [hholds] at hs
  have hcount : s.inlineCount < maxInline := Nat.lt_of_le_of_ne hs hnot
  refine .join (.modify (fun _ => rfl) fun t _ => ?_) fun _ _ _ => ?_
  · rw [hholds]
    exact hcount
  · rintro t _ _ ht ⟨⟩
    exact ⟨_, rfl, ht, (Label.rehash_inline hhash hcount).symm⟩

theorem inlines_of_counts (hV : V.Counts) : V.Inlines := by
  intro w loc slot
  refine .once Option.isSome_map (.bind shares_peekNormal fun token _ => ?_)
  refine .ite (fun _ => ?_) fun _ => ?_
  · refine agrees_parseLabel.mono ?_
    rintro l _ ⟨rfl, hl⟩
    exact (Label.rehash_of_lt hl).symm
  refine .bind same_skipLineEnds fun _ _ => .bind shares_expect fun _ _ => ?_
  refine .join (carries_nextInlineLabel hV) ?_
  rintro label _ rfl
  refine .join carries_compileSwitch ?_
  rintro ⟨switch, afterHash⟩ _ ⟨hlabel, rfl, -⟩
  refine .ite (fun _ => .bind .location fun _ _ => .fail_bind) fun _ =>
    .bind shares_expect fun _ _ => ?_
  refine .join (.modify (fun s => ?_) fun s hs => ?_) fun _ _ _ => .pure rfl
  · have hcarried :
        switch.rehash V.context.hash V.hash = { switch with label := V.label label } := by
      rw [Switch.rehash, ← hlabel]
      rfl
    simp only [state, List.map_append, List.map_cons, List.map_nil, hcarried]
  · rw [hV.2] at hs ⊢
    exact hs

/-! ### Programs -/

/-- What a script has defined so far in both compilations. The labels of its switches are ones that
scripts can write. -/
structure Programs (V : Variant) (p p' : ProgramDraft) : Prop where
  windows : p'.windows = p.windows.map (Window.rehash V.context.hash V.hash)
  switches : p'.switches = p.switches
  afterHash : p'.afterHash = p.afterHash
  labels : ∀ s ∈ p.switches, s.label.toNat < inlineBase

theorem same_skipToHash : V.Same skipToHash := by
  refine .repeatSame (I := fun _ => True) trivial fun _ _ => ?_
  refine .bind shares_peek fun token _ => .ite (fun _ => .pure ⟨rfl, trivial⟩) fun _ => ?_
  exact .bind same_consume fun _ _ => .pure ⟨rfl, trivial⟩

theorem same_findHash : V.Same findHash := by
  refine .bind same_skipLineEnds fun _ _ => .bind shares_next fun token _ => ?_
  exact .ite (fun _ => .pure ⟨rfl, trivial⟩) fun _ => .guard fun _ => .pure ⟨rfl, trivial⟩

theorem carries_parseTopDirective {p p' : ProgramDraft} (hV : V.Inlines) (hp : V.Programs p p') :
    V.Carries (parseTopDirective p) (parseTopDirective p') V.Programs := by
  refine .bind shares_next fun kind _ => .guard fun _ => .ite (fun _ => ?_) fun _ => ?_
  · refine .join (carries_compileWindow hV) ?_
    rintro ⟨window, afterHash⟩ _ rfl
    exact .pure { hp with windows := by simp [hp.windows], afterHash := rfl }
  refine .ite (fun _ => .bind agrees_parseDefinitionLabel fun label hlabel => ?_) fun _ => ?_
  · refine .join carries_compileSwitch ?_
    rintro ⟨switch, afterHash⟩ _ ⟨rfl, rfl, -⟩
    refine .pure { hp with switches := by simp [hp.switches], afterHash := rfl, labels := ?_ }
    exact Contract.forall_mem_concat hp.labels hlabel
  · refine .ite (fun _ => ?_) fun _ => .fail
    exact .bind (.lift Lexer.defineMacro_widens) fun _ _ => .pure { hp with afterHash := rfl }

theorem carries_compileProgram (hV : V.Inlines) :
    V.Carries compileProgram compileProgram fun f f' => f' = f.rehash V.context.hash V.hash := by
  refine .options ?_
  extract_lets program
  have hprogram (u : Unit) : V.Carries (program u) (program u) fun f f' =>
      f' = f.rehash V.context.hash V.hash := by
    refine .join (R := V.Programs) ?_ fun p p' hp => .state fun s hs => .pure ?_
    · refine .repeatFrom (I := V.Programs) ⟨rfl, rfl, rfl, by simp⟩ fun p p' hp => ?_
      have hgoOn : V.Carries
          (parseTopDirective p >>= fun p => pure (.inl p : ProgramDraft ⊕ ProgramDraft))
          (parseTopDirective p' >>= fun p => pure (.inl p : ProgramDraft ⊕ ProgramDraft))
          (Sum.LiftRel V.Programs V.Programs) :=
        (carries_parseTopDirective hV hp).join fun q q' hq => .pure (.inl hq)
      rw [hp.afterHash]
      refine .ite (fun _ => .bind same_findHash fun found _ => ?_) fun _ => hgoOn
      exact .ite (fun _ => .pure (.inr hp)) fun _ => hgoOn
    · have hnamed : p.switches.map (Switch.rehash V.context.hash V.hash) = p.switches := by
        refine (List.map_congr_left fun s hs => ?_).trans (List.map_id' p.switches)
        rw [Switch.rehash, Label.rehash_of_lt (hp.labels s hs)]
      rw [hp.windows, hp.switches]
      simp only [File.rehash, List.map_append, hnamed]
      rfl
  exact .ite (fun _ => .bind same_skipToHash fun u _ => hprogram u) fun _ => hprogram ()

end Variant

/-! ### Text stages -/

namespace Preprocess

variable {loc loc' : Location} {before : UInt8} {skip : Nat} {file file' s : Bytes}

theorem skipBlanks_agree : Except.Agree Eq (skipBlanks loc s) (skipBlanks loc' s) := by
  unfold skipBlanks
  split
  · rintro _ ⟨⟩
  · rintro _ ⟨⟩
  · exact .pure rfl

theorem parseDefine_agree : Except.Agree Eq (parseDefine loc s) (parseDefine loc' s) := by
  refine .bind skipBlanks_agree ?_
  rintro rest _ rfl
  refine .bind skipBlanks_agree ?_
  rintro value _ rfl
  split
  · split
    · exact .pure rfl
    · rintro _ ⟨⟩
    · rintro _ ⟨⟩
  · rintro _ ⟨⟩

theorem defineHere?_agree :
    Except.Agree Eq (defineHere? before loc s) (defineHere? before loc' s) := by
  unfold defineHere?
  split
  · exact .pure rfl
  · rename_i rest _
    split
    · exact .pure rfl
    · intro found h
      cases hdefine : parseDefine loc rest with
      | error e =>
        rw [hdefine] at h
        cases h
      | ok r =>
        have hagree : Except.Agree Eq (parseDefine loc rest) (parseDefine loc' rest) :=
          parseDefine_agree
        obtain ⟨_, hother, rfl⟩ := hagree r hdefine
        rw [hdefine] at h
        exact ⟨found, by rw [hother]; exact h, rfl⟩

theorem collectDefines_agree :
    Except.Agree Eq (collectDefines before skip loc s) (collectDefines before skip loc' s) := by
  induction s generalizing before skip loc loc' with
  | nil => exact .pure rfl
  | cons b rest ih =>
    cases skip with
    | succ skip =>
      refine .bind ih ?_
      rintro ⟨out, macros⟩ _ rfl
      exact .pure rfl
    | zero =>
      refine .bind defineHere?_agree ?_
      rintro found _ rfl
      split
      all_goals
        refine .bind ih ?_
        rintro ⟨out, macros⟩ _ rfl
        exact .pure rfl

/-- Where a text stage succeeds, the name of the script does not matter. -/
theorem applyMacros_agree : Except.Agree Eq (applyMacros file s) (applyMacros file' s) := by
  refine .bind collectDefines_agree ?_
  rintro ⟨blanked, macros⟩ _ rfl
  exact .pure rfl

theorem stripComments_agree : Except.Agree Eq (stripComments file s) (stripComments file' s) :=
  fun out h => ⟨out, stripComments_eq_ok_iff.2 (stripComments_eq_ok_iff.1 h), rfl⟩

end Preprocess

theorem prepareSource_agree (o : Options) (file src : Bytes) :
    Except.Agree Eq (prepareSource o src) (prepareSource { o with file := file } src) := by
  unfold prepareSource
  extract_lets normalized macros macros'
  have hmacros (s : Bytes) : Except.Agree Eq (macros s) (macros' s) := by
    unfold macros macros'
    split
    · exact Preprocess.applyMacros_agree
    · exact .pure rfl
  split
  · refine .bind Preprocess.stripComments_agree ?_
    rintro s _ rfl
    exact hmacros s
  · exact hmacros normalized

/-! ### Compiling -/

def Diagnostic.inFile (file : Bytes) (d : Diagnostic) : Diagnostic :=
  { d with loc := d.loc.inFile file }

/-- All diagnostics name the script already. -/
theorem map_inFile_diagnostics (src : Bytes) (o : Options) :
    (compile src o).diagnostics.map (Diagnostic.inFile o.file) = (compile src o).diagnostics := by
  refine (List.map_congr_left fun d hd => ?_).trans (List.map_id' _)
  obtain ⟨p, -, hloc⟩ := compile_sited src o d hd
  have hname : d.loc.file = o.file := by rw [hloc, Location.file_ofOffset]
  have hsame : d.loc.inFile o.file = d.loc := by
    rw [← hname]
    rfl
  rw [Diagnostic.inFile, hsame]

def CompileOutcome.ofRun (strict : Bool) (warnings : List (Location × Warning)) (f : File) :
    CompileOutcome where
  diagnostics := warnings.map fun w => ⟨.warning, w.1, w.2.message⟩
  result := match warnings with
    | (loc, w) :: _ => if strict then .error (.script ⟨loc, .promoted w⟩) else .ok f
    | [] => .ok f

theorem CompileOutcome.ofRun_of_ok {strict : Bool} {warnings : List (Location × Warning)}
    {f g : File} (h : (ofRun strict warnings f).result = .ok g) (file : Bytes) (f' : File) :
    ofRun strict (warnings.map (Prod.map (Location.inFile file) id)) f' =
      ⟨(ofRun strict warnings f).diagnostics.map (Diagnostic.inFile file), .ok f'⟩ := by
  unfold ofRun at h ⊢
  cases warnings with
  | nil => rfl
  | cons first rest =>
    cases strict with
    | true => cases h
    | false => simp [Diagnostic.inFile]

variable {src : Bytes} {o : Options} {f : File}

theorem compile_of_run {hash : Nat} {text : Bytes} {s : CompileState}
    (hhash : effectiveHash o.effective = .ok hash)
    (htext : prepareSource o.effective src = .ok text)
    (hrun : Compiler.compileProgram ⟨o.effective, hash⟩
      ⟨.ofSource text o.effective.file o.effective.allowExpFloats, [], 0, []⟩ = .ok f s) :
    compile src o = .ofRun o.warningsAsErrors s.warnings f := by
  unfold compile
  simp only [hhash, htext, hrun]
  unfold CompileOutcome.ofRun
  cases s.warnings with
  | nil => rfl
  | cons first rest =>
    have hstrict : o.effective.warningsAsErrors = o.warningsAsErrors := rfl
    simp only [hstrict]
    split <;> rfl

def Options.vary (o : Options) (file : Bytes) (given : Option UInt32)
    (malformed exponents emptyBlocks : Bool) : Options :=
  { o with
    file := file
    hash := given
    allowMalformedExprs := o.allowMalformedExprs || malformed
    allowExpFloats := o.allowExpFloats || exponents
    allowEmptyBlocks := o.allowEmptyBlocks || emptyBlocks }

/-- A script that compiles compiles under every variant of its options. -/
theorem compile_vary (h : (compile src o).result = .ok f) {hash hash' : Nat}
    (hhash : effectiveHash o.effective = .ok hash) (file : Bytes) (given : Option UInt32)
    (malformed exponents emptyBlocks : Bool)
    (hhash' : effectiveHash (o.vary file given malformed exponents emptyBlocks).effective =
      .ok hash') :
    compile src (o.vary file given malformed exponents emptyBlocks) =
      ⟨(compile src o).diagnostics.map (Diagnostic.inFile file), .ok (f.rehash hash hash')⟩ := by
  obtain ⟨_, text, s, hsame, htext, hrun⟩ := compile_ok h
  rw [hhash] at hsame
  cases hsame
  have hmax : hash ≤ Options.maxHash := by
    have hyields := effectiveHash_yields o.effective
    rw [hhash] at hyields
    exact hyields
  let V : Variant :=
    { context := ⟨o.effective, hash⟩, file := file, given := given, hash := hash'
      malformed := malformed, exponents := exponents, emptyBlocks := emptyBlocks
      Holds := fun s => s.inlineCount ≤ Compiler.maxInline
      reading := fun h _ _ => h }
  have hV : V.Counts := ⟨hmax, rfl⟩
  obtain ⟨f', hrun', -, hf'⟩ := V.carries_compileProgram (V.inlines_of_counts hV) _ _ _
    (Nat.zero_le _) hrun
  obtain ⟨_, htext', rfl⟩ := prepareSource_agree o.effective file src text htext
  rw [compile_of_run hhash htext hrun] at h ⊢
  rw [compile_of_run hhash' htext' hrun', hf']
  exact CompileOutcome.ofRun_of_ok h file (f.rehash hash hash')

/-- A script that compiles compiles to the same file, with the same diagnostics, when type
mismatches, exponents or empty blocks are allowed as well. -/
theorem compile_permitted (h : (compile src o).result = .ok f)
    (malformed exponents emptyBlocks : Bool) :
    compile src { o with
      allowMalformedExprs := o.allowMalformedExprs || malformed
      allowExpFloats := o.allowExpFloats || exponents
      allowEmptyBlocks := o.allowEmptyBlocks || emptyBlocks } = compile src o := by
  obtain ⟨hash, _, _, hhash, _, _⟩ := compile_ok h
  -- neither the name nor the hash changes, so the inline labels stay
  have hvary := compile_vary h hhash o.file o.hash malformed exponents emptyBlocks hhash
  rw [File.rehash_self, map_inFile_diagnostics, ← h] at hvary
  exact hvary

/-- A window with a title under a condition and a console command, which is warned about. -/
def plainWindow : Bytes :=
  utf8 "#window 1:1\nstartconsole \"c\"\nif (x < 0) \x7b\ntitle \"t\"\n\x7d\n"

def plainWindowFile : File where
  windows := [⟨10001,
    [.formattedText CommandCode.title (some ⟨Operator.lt.code,
       ⟨OperandType.floatVar.code, 5, .name [120]⟩,
       ⟨OperandType.floatConst.code, 6, .float .zero⟩⟩) [116] [],
     .simpleText CommandCode.startConsole [99, 10], .flags WindowFlags.noBackground,
     .dimensions ⟨none, none, none, none⟩]⟩]
  switches := []

theorem compile_permitted_plainWindow :
    (compile plainWindow {}).result = .ok plainWindowFile ∧
      (compile plainWindow {}).warningCount = 1 ∧
      compile plainWindow { allowMalformedExprs := true, allowExpFloats := true
                            allowEmptyBlocks := true } = compile plainWindow {} := by
  have h : (compile plainWindow {}).result = .ok plainWindowFile := by cbv
  exact ⟨h, by cbv, compile_permitted h true true true⟩

end ApeScript
