import ApeScript.Proofs.SitedScript
import ApeScript.Proofs.StrippedComments

/-!
# Diagnostics of a compilation

A script's text goes through stages: newlines are normalized, comments are blanked, macros are
replaced, and what comes out is read as tokens. A stage that fails is the last one. Every diagnostic
has the place of an offset in the text of the stage that reports it, and an error is reported once,
last, and instead of a file.
-/

namespace ApeScript

/-- The text with macros replaced, if they are; a text with a wrong definition stays as it is. -/
def macroStage (o : Options) (s : Bytes) : Bytes :=
  if o.legacyMacros then (Preprocess.applyMacros o.file s).toOption.getD s else s

/-- The text of the last stage that a compilation gets to: the normalized one if comments cannot be
blanked, the one without comments if a macro definition is wrong, and else the one that is read as
tokens. -/
def stageText (o : Options) (src : Bytes) : Bytes :=
  let normalized := Preprocess.normalizeNewlines src
  if o.legacyComments then
    match Preprocess.stripComments o.file normalized with
    | .error _ => normalized
    | .ok stripped => macroStage o stripped
  else macroStage o normalized

/-! ### Stages -/

namespace Preprocess

theorem stripComments_sited (file s : Bytes) :
    Yields (CompileError.Sited file s) (fun _ => True) (stripComments file s) := by
  cases h : stripComments file s with
  | ok out => trivial
  | error e =>
    obtain ⟨ps, body, -, -, -, rfl⟩ := stripComments_eq_error_iff.1 h
    exact ⟨Location.within_ofOffset .., trivial⟩

structure PlacedAt (loc : Location) (e : CompileError) : Prop where
  loc_eq : e.loc = loc
  cause : e.cause.Raised

theorem skipBlanks_placed (loc : Location) (s : Bytes) :
    Yields (PlacedAt loc) (fun _ => True) (skipBlanks loc s) := by
  unfold skipBlanks
  split
  · exact ⟨rfl, trivial⟩
  · exact ⟨rfl, trivial⟩
  · trivial

theorem parseDefine_placed (loc : Location) (s : Bytes) :
    Yields (PlacedAt loc) (fun _ => True) (parseDefine loc s) := by
  refine (skipBlanks_placed loc s).bind fun named _ => ?_
  refine (skipBlanks_placed ..).bind fun valued _ => ?_
  split
  · split
    · trivial
    · exact ⟨rfl, trivial⟩
    · exact ⟨rfl, trivial⟩
  · exact ⟨rfl, trivial⟩

theorem defineHere?_placed (before : UInt8) (loc : Location) (s : Bytes) :
    Yields (PlacedAt loc) (fun _ => True) (defineHere? before loc s) := by
  unfold defineHere?
  split
  · trivial
  · split
    · trivial
    · exact (parseDefine_placed ..).map fun _ _ => trivial

/-- Definitions are looked for in `s` after the part `done` of a text. -/
theorem collectDefines_sited (file done : Bytes) (before : UInt8) (skip : Nat) (s : Bytes) :
    Yields (CompileError.Sited file (done ++ s)) (fun _ => True)
      (collectDefines before skip ((Location.start file).advance done) s) := by
  induction s generalizing done before skip with
  | nil => cases skip <;> trivial
  | cons b rest ih =>
    have hrest (before : UInt8) (skip : Nat) :
        Yields (CompileError.Sited file (done ++ b :: rest)) (fun _ => True)
          (collectDefines before skip (((Location.start file).advance done).after b) rest) := by
      rw [Location.advance_after, List.append_cons]
      exact ih (done ++ [b]) before skip
    cases skip with
    | succ skip => exact (hrest 32 skip).bind fun _ _ => trivial
    | zero =>
      have hhere : Yields (CompileError.Sited file (done ++ b :: rest)) (fun _ => True)
          (defineHere? before ((Location.start file).advance done) (b :: rest)) := by
        have hplaced := defineHere?_placed before ((Location.start file).advance done) (b :: rest)
        cases h : defineHere? before ((Location.start file).advance done) (b :: rest) with
        | ok found => trivial
        | error e =>
          rw [h] at hplaced
          refine ⟨?_, hplaced.cause⟩
          rw [hplaced.loc_eq, ← Location.ofOffset_append file done (b :: rest)]
          exact Location.within_ofOffset ..
      refine hhere.bind fun found _ => ?_
      cases found with
      | some found => exact (hrest 32 (found.2 - 1)).bind fun _ _ => trivial
      | none => exact (hrest b 0).bind fun _ _ => trivial

theorem applyMacros_sited (file s : Bytes) :
    Yields (CompileError.Sited file s) (fun _ => True) (applyMacros file s) :=
  (collectDefines_sited file [] 0 0 s).bind fun _ _ => trivial

end Preprocess

/-- Preparing a text gives that of the last stage, or fails at a place of it. -/
theorem prepareSource_sited (o : Options) (src : Bytes) :
    Yields (CompileError.Sited o.file (stageText o src)) (· = stageText o src)
      (prepareSource o src) := by
  unfold prepareSource stageText
  extract_lets normalized macros
  have hmacros (s : Bytes) :
      Yields (CompileError.Sited o.file (macroStage o s)) (· = macroStage o s) (macros s) := by
    have happly := Preprocess.applyMacros_sited o.file s
    simp only [macros, macroStage]
    split
    · cases h : Preprocess.applyMacros o.file s with
      | ok text => exact rfl
      | error e =>
        rw [h] at happly
        exact happly
    · exact rfl
  split
  · have hstrip := Preprocess.stripComments_sited o.file normalized
    cases h : Preprocess.stripComments o.file normalized with
    | ok s => exact hmacros s
    | error e =>
      rw [h] at hstrip
      exact hstrip
  · exact hmacros normalized

/-! ### Outcomes -/

/-- The failure is a warning that counts as an error. -/
def CompileFailure.Promoted (e : CompileFailure) : Prop :=
  ∃ loc w, e = .script ⟨loc, .promoted w⟩

theorem CompileError.Sited.not_promoted {file text : Bytes} {e : CompileError}
    (he : e.Sited file text) :
    ¬ (CompileFailure.script e).Promoted := by
  rintro ⟨loc, w, ⟨⟩⟩
  exact he.cause

def Diagnostic.ofWarning (w : Location × Warning) : Diagnostic := ⟨.warning, w.1, w.2.message⟩

/-- The hash of a script concerns no place. -/
theorem effectiveHash_unplaced (o : Options) :
    Yields (fun e => e.loc o.file = .start o.file ∧ ∀ e', e ≠ .script e') (fun _ => True)
      (effectiveHash o) := by
  unfold effectiveHash
  split
  · split
    · exact ⟨rfl, by simp⟩
    · trivial
  · unfold inlineHash
    extract_lets stem mix
    split
    · exact ⟨rfl, by simp⟩
    · trivial

/-- What a compilation of a text can end with: a failure of its own after some warnings, the first
warning made a failure, or a file. -/
inductive CompileOutcome.Ends (o : Options) (text : Bytes) (warnings : List (Location × Warning)) :
    CompileOutcome → Prop
  | failed (e : CompileFailure) (loc : (e.loc o.file).Within o.file text) (own : ¬ e.Promoted) :
      Ends o text warnings (.ofFailure o.file (warnings.map .ofWarning) e)
  | promoted (loc : Location) (w : Warning) (first : (loc, w) ∈ warnings.head?)
      (strict : o.warningsAsErrors = true) :
      Ends o text warnings ⟨warnings.map .ofWarning, .error (.script ⟨loc, .promoted w⟩)⟩
  | compiled (f : File) (unwarned : o.warningsAsErrors = true → warnings = []) :
      Ends o text warnings ⟨warnings.map .ofWarning, .ok f⟩

theorem compile_ends (src : Bytes) (o : Options) : ∃ warnings : List (Location × Warning),
    (∀ w ∈ warnings, w.1.Within o.file (stageText o.effective src)) ∧
    (compile src o).Ends o (stageText o.effective src) warnings := by
  have hprepare := prepareSource_sited o.effective src
  generalize stageText o.effective src = text at hprepare ⊢
  unfold compile
  extract_lets options
  have hhash := effectiveHash_unplaced options
  split
  · rename_i e he
    rw [he] at hhash
    have hown : ¬ e.Promoted := by
      rintro ⟨loc, w, rfl⟩
      exact hhash.2 _ rfl
    exact ⟨[], by simp, .failed e (hhash.1 ▸ Location.within_start o.file text) hown⟩
  rename_i hash _
  split
  · rename_i e he
    rw [he] at hprepare
    exact ⟨[], by simp, .failed _ hprepare.loc hprepare.not_promoted⟩
  rename_i prepared he
  rw [he] at hprepare
  obtain rfl : prepared = text := hprepare
  extract_lets start
  have hstart : start.Tracks o.file prepared := ⟨Lexer.tracks_ofSource .., by simp [start]⟩
  have hrun := Compiler.sites_compileProgram ⟨options, hash⟩ start hstart
  split
  · rename_i e s he
    rw [he] at hrun
    exact ⟨s.warnings, hrun.1, .failed _ hrun.2.loc hrun.2.not_promoted⟩
  · rename_i file s he
    rw [he] at hrun
    refine ⟨s.warnings, hrun.1.warnings, ?_⟩
    -- the first warning may be made a failure, though a file was compiled
    split
    · rename_i loc w _ hfirst
      split
      · exact .promoted loc w (by simp [hfirst]) ‹_›
      · exact .compiled file fun h => absurd h ‹_›
    · rename_i hnone
      rw [hnone]
      exact .compiled file fun _ => rfl

theorem Diagnostic.severity_ofWarning (warnings : List (Location × Warning)) :
    ∀ d ∈ warnings.map ofWarning, d.severity = .warning :=
  List.forall_mem_map.2 fun _ _ => rfl

/-- The place of a diagnostic is that of an offset in the text of the last stage. -/
theorem compile_sited (src : Bytes) (o : Options) :
    ∀ d ∈ (compile src o).diagnostics, d.loc.Within o.file (stageText o.effective src) := by
  obtain ⟨warnings, hwarnings, hends⟩ := compile_ends src o
  have hplaces : ∀ d ∈ warnings.map Diagnostic.ofWarning,
      d.loc.Within o.file (stageText o.effective src) := List.forall_mem_map.2 hwarnings
  generalize compile src o = outcome at hends ⊢
  cases hends with
  | failed e hloc => exact List.forall_mem_append.2 ⟨hplaces, by simpa using hloc⟩
  | promoted => exact hplaces
  | compiled => exact hplaces

/-- Every diagnostic names the script's file and has the place of an offset in the text of the stage
that reports it; its text shows both. A failure that is not a promoted warning is
reported once, after all warnings; nothing else is reported as an error, and there is no file when
something was. -/
theorem compile_reports (src : Bytes) (o : Options) :
    (∀ d ∈ (compile src o).diagnostics, ∃ p ≤ (stageText o.effective src).length,
      d.loc = .ofOffset o.file (stageText o.effective src) p ∧ d.loc.file = o.file ∧
      d.text = utf8 "[" ++ d.severity.name ++ utf8 "] " ++ (o.file ++ utf8 "(" ++
        Bytes.ofNat (d.loc.line + 1) ++ utf8 "," ++ Bytes.ofNat (d.loc.col + 1) ++ utf8 ")") ++
        utf8 ": " ++ d.message) ∧
    (∀ e, (compile src o).result = .error e → ¬ e.Promoted →
      ∃ warnings : List Diagnostic, (∀ d ∈ warnings, d.severity = .warning) ∧
        (compile src o).diagnostics = warnings ++ [⟨.error, e.loc o.file, e.report⟩]) ∧
    (∀ e, (compile src o).result = .error e → e.Promoted →
      o.warningsAsErrors = true ∧ (compile src o).diagnostics ≠ [] ∧
      ∀ d ∈ (compile src o).diagnostics, d.severity = .warning) ∧
    ∀ f, (compile src o).result = .ok f →
      (∀ d ∈ (compile src o).diagnostics, d.severity = .warning) ∧
      (o.warningsAsErrors = true → (compile src o).diagnostics = []) := by
  have hshown : ∀ d ∈ (compile src o).diagnostics, ∃ p ≤ (stageText o.effective src).length,
      d.loc = .ofOffset o.file (stageText o.effective src) p ∧ d.loc.file = o.file ∧
      d.text = utf8 "[" ++ d.severity.name ++ utf8 "] " ++ (o.file ++ utf8 "(" ++
        Bytes.ofNat (d.loc.line + 1) ++ utf8 "," ++ Bytes.ofNat (d.loc.col + 1) ++ utf8 ")") ++
        utf8 ": " ++ d.message := by
    intro d hd
    obtain ⟨p, hp, hloc⟩ := compile_sited src o d hd
    have hfile : d.loc.file = o.file := by rw [hloc, Location.file_ofOffset]
    refine ⟨p, hp, hloc, hfile, ?_⟩
    rw [← hfile]
    rfl
  refine ⟨hshown, ?_⟩
  obtain ⟨warnings, -, hends⟩ := compile_ends src o
  have hseverity := Diagnostic.severity_ofWarning warnings
  generalize compile src o = outcome at hends ⊢
  cases hends with
  | failed e _ hown =>
    refine ⟨?_, ?_, ?_⟩
    · rintro _ ⟨⟩ -
      exact ⟨_, hseverity, rfl⟩
    · rintro _ ⟨⟩ hpromoted
      exact absurd hpromoted hown
    · rintro _ ⟨⟩
  | promoted loc w hfirst hstrict =>
    refine ⟨?_, ?_, ?_⟩
    · rintro _ ⟨⟩ hown
      exact absurd ⟨loc, w, rfl⟩ hown
    · rintro _ ⟨⟩ -
      refine ⟨hstrict, ?_, hseverity⟩
      rintro h
      simp [List.map_eq_nil_iff.1 h] at hfirst
    · rintro _ ⟨⟩
  | compiled f hunwarned =>
    refine ⟨?_, ?_, fun _ _ => ⟨hseverity, fun h => ?_⟩⟩
    · rintro _ ⟨⟩
    · rintro _ ⟨⟩
    · exact List.map_eq_nil_iff.2 (hunwarned h)

def deprecated : Bytes := utf8 "#window 0:1\nstartconsole \"a\"\n"

/-- The warning is reported before an error, and fails a strict compilation on its own. -/
theorem compile_reports_deprecated :
    (∃ e, (compile (deprecated ++ utf8 "  x") {}).result = .error e ∧ e.loc [] = ⟨[], 2, 2⟩ ∧
      ¬ e.Promoted ∧ ∃ warnings : List Diagnostic, (∀ d ∈ warnings, d.severity = .warning) ∧
        (compile (deprecated ++ utf8 "  x") {}).diagnostics =
          warnings ++ [⟨.error, ⟨[], 2, 2⟩, utf8 "Unknown directive"⟩]) ∧
    (∃ e, (compile deprecated { warningsAsErrors := true }).result = .error e ∧ e.Promoted ∧
      (compile deprecated { warningsAsErrors := true }).diagnostics ≠ []) ∧
    ∃ f, (compile deprecated {}).result = .ok f ∧
      ∀ d ∈ (compile deprecated {}).diagnostics, d.severity = .warning := by
  have hfailed : (compile (deprecated ++ utf8 "  x") {}).result =
      .error (.script ⟨⟨[], 2, 2⟩, .unknownDirective⟩) := by cbv
  have hown : ¬ (CompileFailure.script ⟨⟨[], 2, 2⟩, .unknownDirective⟩).Promoted := by
    simp [CompileFailure.Promoted]
  have hstrict : (compile deprecated { warningsAsErrors := true }).result =
      .error (.script ⟨⟨[], 1, 0⟩, .promoted .consoleDeprecated⟩) := by cbv
  have hpromoted : (CompileFailure.script ⟨⟨[], 1, 0⟩, .promoted .consoleDeprecated⟩).Promoted :=
    ⟨_, _, rfl⟩
  have hcompiled : ∃ f, (compile deprecated {}).result = .ok f := ⟨_, by cbv⟩
  obtain ⟨f, hf⟩ := hcompiled
  exact ⟨⟨_, hfailed, rfl, hown, (compile_reports _ _).2.1 _ hfailed hown⟩,
    ⟨_, hstrict, hpromoted, ((compile_reports _ _).2.2.1 _ hstrict hpromoted).2.1⟩,
    ⟨f, hf, ((compile_reports _ _).2.2.2 _ hf).1⟩⟩

end ApeScript
