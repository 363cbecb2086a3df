import ApeScript.Compile.Program
import ApeScript.Proofs.CompiledWindow

/-!
# Compiled files

Whatever the script and the options are, a file that comes out of the compiler is well formed. So
writing it never meets a missing operand, is refused for nothing but a string that is too long, and
what is written reads back as the same file. No script is refused for an expression that cannot be
stored.
-/

namespace ApeScript

open Encoded

/-! ### Text stages -/

/-- The reasons why a text cannot be prepared: a comment without end, or a wrong definition. -/
def Cause.OfText : Cause → Prop
  | unterminatedComment | defineNameMissing _ | defineUnquoted | defineValueEnd _ => True
  | _ => False

theorem Cause.OfText.reachable {cause : Cause} (h : cause.OfText) : cause.Reachable := by
  cases cause with
  | unemittable => exact h
  | _ => trivial

namespace Preprocess

theorem stripComments_yields (file s : Bytes) :
    Yields (·.cause.OfText) (fun _ => True) (stripComments file s) := by
  unfold stripComments
  split
  · trivial
  · trivial

theorem skipBlanks_yields (loc : Location) (s : Bytes) :
    Yields (·.cause.OfText) (fun _ => True) (skipBlanks loc s) := by
  unfold skipBlanks
  split
  · trivial
  · trivial
  · trivial

theorem parseDefine_yields (loc : Location) (s : Bytes) :
    Yields (·.cause.OfText) (fun _ => True) (parseDefine loc s) := by
  refine (skipBlanks_yields loc s).bind fun named _ => ?_
  refine (skipBlanks_yields ..).bind fun valued _ => ?_
  split
  · split
    · trivial
    · trivial
    · trivial
  · trivial

theorem defineHere?_yields (before : UInt8) (loc : Location) (s : Bytes) :
    Yields (·.cause.OfText) (fun _ => True) (defineHere? before loc s) := by
  unfold defineHere?
  split
  · trivial
  · split
    · trivial
    · exact (parseDefine_yields ..).map fun _ _ => trivial

theorem collectDefines_yields (before : UInt8) (skip : Nat) (loc : Location) (s : Bytes) :
    Yields (·.cause.OfText) (fun _ => True) (collectDefines before skip loc s) := by
  fun_induction collectDefines before skip loc s
  case case1 => trivial
  case case2 ih => exact ih.bind fun _ _ => trivial
  case case3 ih ih' =>
    refine (defineHere?_yields ..).bind fun found _ => ?_
    match found with
    | some (found, size) => exact (ih size).bind fun _ _ => trivial
    | none => exact ih'.bind fun _ _ => trivial

theorem applyMacros_yields (file s : Bytes) :
    Yields (·.cause.OfText) (fun _ => True) (applyMacros file s) :=
  (collectDefines_yields ..).bind fun _ _ => trivial

end Preprocess

theorem prepareSource_yields (o : Options) (src : Bytes) :
    Yields (·.cause.OfText) (fun _ => True) (prepareSource o src) := by
  have hmacros (s : Bytes) : Yields (·.cause.OfText) (fun _ => True)
      (if o.legacyMacros then Preprocess.applyMacros o.file s else pure s) := by
    split
    · apply Preprocess.applyMacros_yields
    · trivial
  unfold prepareSource
  extract_lets normalized applied
  split
  · exact (Preprocess.stripComments_yields ..).bind fun s _ => hmacros s
  · exact hmacros _

/-- Every failure but that of an expression that cannot be stored. -/
def CompileFailure.Reachable : CompileFailure → Prop
  | script e => e.cause.Reachable
  | _ => True

/-- The hash that numbers the inline switches is in range, given or computed. -/
theorem effectiveHash_yields (o : Options) :
    Yields CompileFailure.Reachable (· ≤ Options.maxHash) (effectiveHash o) := by
  unfold effectiveHash
  split
  · split
    · trivial
    · exact Nat.le_of_not_lt ‹_›
  · unfold inlineHash
    extract_lets stem mix
    split
    · trivial
    · exact Nat.le_of_lt_succ (Nat.mod_lt _ (Nat.succ_pos _))

/-! ### Programs -/

structure File.Compiled (o : Options) (f : File) : Prop where
  windows : ∀ w ∈ f.windows, w.Compiled o
  switches : ∀ s ∈ f.switches, s.Compiled o

theorem File.Compiled.wellFormed {o : Options} {f : File} (hf : f.Compiled o) : f.WellFormed :=
  ⟨fun w hw => (hf.windows w hw).wellFormed, fun s hs => (hf.switches s hs).wellFormed⟩

structure Compiler.ProgramDraft.Sound (o : Options) (p : Compiler.ProgramDraft) : Prop where
  windows : ∀ w ∈ p.windows, w.Compiled o
  switches : ∀ s ∈ p.switches, s.Compiled o

namespace Contract

open Compiler

variable {K : Contract}

theorem keeps_skipToHash : K.Keeps skipToHash := by
  refine ensures_repeatFrom (I := fun _ => True) trivial fun _ _ => ?_
  refine .bind (.lift Lexer.peek_ensures) fun token _ => .ite (fun _ => .pure trivial) fun _ => ?_
  exact .bind (.lift Lexer.consume_ensures) fun _ _ => .pure trivial

theorem keeps_findHash : K.Keeps findHash := by
  refine .bind (.lift Lexer.skipLineEnds_ensures) fun _ _ => ?_
  refine .bind (.lift Lexer.read_ensures) fun token _ => .ite (fun _ => .pure trivial) fun _ => ?_
  exact .guard trivial fun _ => .pure trivial

theorem ensures_parseTopDirective {p : ProgramDraft} (hK : K.Inlines) (hp : p.Sound K.options) :
    K.Ensures (parseTopDirective p) (ProgramDraft.Sound K.options) := by
  refine .bind (.lift Lexer.read_ensures) fun kind _ => .guard trivial fun _ => ?_
  refine .ite (fun _ => ?_) fun _ => ?_
  · refine (ensures_compileWindow hK).bind fun (window, afterHash) hwindow => .pure ?_
    exact { hp with windows := forall_mem_concat hp.windows hwindow }
  refine .ite (fun _ => .bind ensures_parseDefinitionLabel fun label hlabel => ?_) fun _ => ?_
  · refine .bind (ensures_compileSwitch hlabel) fun (switch, afterHash) hswitch => .pure ?_
    exact { hp with switches := forall_mem_concat hp.switches hswitch }
  refine .ite (fun _ => ?_) fun _ => .fail trivial
  exact .bind (.lift Lexer.defineMacro_ensures) fun _ _ => .pure { hp with }

theorem ensures_compileProgram {o : Options} :
    (compiling o).Ensures compileProgram (File.Compiled o) := by
  refine .bind ensures_options fun _ _ => ?_
  extract_lets program
  have hprogram (u : Unit) : (compiling o).Ensures (program u) (File.Compiled o) := by
    refine .bind (P := ProgramDraft.Sound o) ?_ fun p hp =>
      .bind ensures_state fun s hs => .pure ?_
    · have hempty : ProgramDraft.Sound o {} := ⟨by simp, by simp⟩
      refine ensures_repeatFrom (I := ProgramDraft.Sound o) hempty fun p hp => ?_
      have hgoOn : (compiling o).Ensures
          (parseTopDirective p >>= fun p => pure (.inl p : ProgramDraft ⊕ ProgramDraft))
          (Sum.elim (ProgramDraft.Sound o) (ProgramDraft.Sound o)) :=
        (ensures_parseTopDirective inlines_compiling hp).bind fun p hp => .pure hp
      refine .ite (fun _ => .bind keeps_findHash fun found _ => ?_) fun _ => hgoOn
      exact .ite (fun _ => .pure hp) fun _ => hgoOn
    · obtain ⟨c, -, -, -, -, hinline⟩ := hs
      exact ⟨hp.windows, List.forall_mem_append.2 ⟨hp.switches, hinline⟩⟩
  exact .ite (fun _ => .bind keeps_skipToHash fun u _ => hprogram u) fun _ => hprogram ()

end Contract

/-- What the compiler makes of a script is a file of compiled windows and switches, and no failure
is for an expression that cannot be stored. -/
theorem compile_yields_compiled (src : Bytes) (o : Options) :
    Yields CompileFailure.Reachable (File.Compiled o.effective) (compile src o).result := by
  unfold compile
  extract_lets options
  have hhash := effectiveHash_yields options
  split
  · rename_i e he
    rwa [he] at hhash
  · rename_i hash he
    rw [he] at hhash
    split
    · rename_i e he
      have hprepare := prepareSource_yields options src
      rw [he] at hprepare
      exact Cause.OfText.reachable hprepare
    · extract_lets start
      have hstart : (Contract.compiling options).Holds ⟨options, hash⟩ start :=
        ⟨rfl, Lexer.lettered_ofSource .., hhash, Nat.zero_le _, by simp [start]⟩
      have hrun := Contract.ensures_compileProgram _ _ hstart
      split
      · rename_i e s he
        rw [he] at hrun
        exact hrun
      · rename_i file s he
        rw [he] at hrun
        -- the first warning may be made a failure, though a file was compiled
        split
        · split
          · trivial
          · exact hrun.2
        · exact hrun.2

theorem compile_yields (src : Bytes) (o : Options) :
    Yields CompileFailure.Reachable File.WellFormed (compile src o).result :=
  (compile_yields_compiled src o).mono fun _ hf => hf.wellFormed

/-- What the compiler makes of a script is well formed: it is written unless a string is too long,
and read back as it was. No script is refused for an expression that cannot be stored. -/
theorem compile_wellFormed (src : Bytes) (o : Options) :
    (∀ loc, (compile src o).result ≠ .error (.script ⟨loc, .unemittable⟩)) ∧
    ∀ f, (compile src o).result = .ok f → f.WellFormed ∧
      ((∃ d, f.encode = .bytes d ∧ (∀ s ∈ f.strings, s.length ≤ maxStringLength) ∧
          File.decode d = .ok f) ∨
        ∃ s ∈ f.strings, maxStringLength < s.length ∧
          f.encode = .refused (.stringTooLong s.length)) := by
  have hcompile := compile_yields src o
  constructor
  · intro loc h
    rw [h] at hcompile
    exact hcompile
  · intro f h
    rw [h] at hcompile
    have hf : f.WellFormed := hcompile
    refine ⟨hf, ?_⟩
    have hlimited := hf.encode_limitedBy
    cases hd : f.encode with
    | bytes d =>
      rw [hd] at hlimited
      exact Or.inl ⟨d, rfl, hlimited, hf.decode_encode hd⟩
    | refused e =>
      rw [hd] at hlimited
      obtain ⟨s, hs, hlong, rfl⟩ := hlimited
      exact Or.inr ⟨s, hs, hlong, rfl⟩
    | halted =>
      rw [hd] at hlimited
      exact hlimited.elim

def mismatch : Bytes := utf8 "#window 1:2\nxpos \"s\"+a\n"

/-- What `mismatch` stands for when type mismatches are only warned about. -/
def mismatchFile : File where
  windows := [⟨10002,
    [.flags WindowFlags.noBackground,
     .dimensions ⟨some ⟨Operator.add.code, ⟨OperandType.stringConst.code, 5, .quoted [115]⟩,
       ⟨OperandType.floatVar.code, 6, .name [97]⟩⟩, none, none, none⟩]⟩]
  switches := []

theorem compile_wellFormed_mismatch :
    (compile mismatch { Options.defaults with allowMalformedExprs := true }).result =
        .ok mismatchFile ∧ mismatchFile.WellFormed ∧
      ∃ d, mismatchFile.encode = .bytes d ∧ File.decode d = .ok mismatchFile := by
  have h : (compile mismatch { Options.defaults with allowMalformedExprs := true }).result =
      .ok mismatchFile := by cbv
  have hshort : ∀ s ∈ mismatchFile.strings, s.length ≤ maxStringLength := by decide
  obtain ⟨hf, ⟨d, hd, -, hread⟩ | ⟨s, hs, hlong, -⟩⟩ := (compile_wellFormed _ _).2 _ h
  · exact ⟨h, hf, d, hd, hread⟩
  · exact absurd hlong (Nat.not_lt.2 (hshort s hs))

end ApeScript
