import ApeScript.Proofs.CanonicalOrder
import ApeScript.Proofs.CompiledFile
import ApeScript.Proofs.ReferenceGraph

/-!
# The return target as a reference

`return` is stored as label zero, under which no window can be defined. In a switch it is a goto,
and a goto to label zero counts as no reference. In a window it is a next-window command, and there
label zero counts as any other: every window that returns refers to window zero, which is reported
as external and stays unresolved in the graph. Where label zero is written nowhere else, these are
the only references to it.
-/

namespace ApeScript

def Command.returns : Command := .simpleText CommandCode.nextWindow (utf8 "0:0")

def Window.returnReference (w : Window) : Reference :=
  ⟨.window w.id, CommandCode.name CommandCode.nextWindow, .window, 0⟩

structure WindowDraft.Turns (word : Bytes) (w w' : WindowDraft) : Prop where
  returns : word = utf8 "return" → w'.nextWindow = some (utf8 "0:0")
  keeps : Unique.ofWord? word ≠ some .nextWindow → w'.nextWindow = w.nextWindow

theorem WindowDraft.Sets.nextWindow_eq {w w' : WindowDraft} {u : Unique} (h : w.Sets u w')
    (hu : u ≠ .nextWindow) : w'.nextWindow = w.nextWindow := by
  cases h with
  | nextWindow => exact absurd rfl hu
  | _ => rfl

namespace Compiler

variable {c : CompileContext} {s t : CompileState} {w w' : WindowDraft} {token : Token}
  {loc : Location} {es : List Entry}

/-! ### What directives say about the next window -/

theorem gives_parseNextWindow_return :
    Gives (parseNextWindow w loc true) c s fun w' _ => w'.nextWindow = some (utf8 "0:0") :=
  .after fun _ _ => .after fun _ _ => .pure rfl

theorem gives_parseCommand_turns :
    Gives (parseCommand w token) c s fun w' _ => WindowDraft.Turns token.text w w' := by
  have hkeep {word : Bytes} {w' : WindowDraft} (hword : decide (token.text = word) = true)
      (hne : word ≠ utf8 "return") (hnext : w'.nextWindow = w.nextWindow) :
      WindowDraft.Turns token.text w w' := by
    rw [of_decide_eq_true hword]
    exact ⟨fun heq => absurd heq hne, fun _ => hnext⟩
  have hset {word : Bytes} {w' : WindowDraft} {u : Unique}
      (hword : decide (token.text = word) = true) (hne : word ≠ utf8 "return")
      (hu : u ≠ .nextWindow) (hsets : w.Sets u w') : WindowDraft.Turns token.text w w' :=
    hkeep hword hne (hsets.nextWindow_eq hu)
  refine .ite (fun h => .after fun _ _ => .pure (hkeep h (by decide) rfl)) fun _ => ?_
  refine .ite (fun h => .after fun _ _ => .pure (hkeep h (by decide) rfl)) fun _ => ?_
  refine .ite (fun h => .after fun _ _ => .pure (hkeep h (by decide) rfl)) fun _ => ?_
  refine .ite (fun h => .after fun _ _ => .pure (hkeep h (by decide) rfl)) fun _ => ?_
  refine .ite (fun h => .after fun _ _ => .pure (hkeep h (by decide) rfl)) fun _ => ?_
  refine .ite (fun h => .after fun _ _ => .pure (hkeep h (by decide) rfl)) fun _ => ?_
  refine .ite (fun h => gives_parseTalk_once.mono fun _ _ => hset h (by decide) (by decide))
    fun _ => ?_
  refine .ite (fun h => gives_parseTalkEx_once.mono fun _ _ => hset h (by decide) (by decide))
    fun _ => ?_
  refine .ite (fun h => gives_parseImage_own.mono ?_) fun _ => ?_
  · rintro w' t (⟨rfl, -⟩ | ⟨i, rfl⟩) <;> exact hkeep h (by decide) rfl
  refine .ite (fun h => gives_parseFlags_and.mono ?_) fun _ => ?_
  · rintro w' t ⟨flags, rfl, -⟩
    exact hkeep h (by decide) rfl
  refine .ite (fun h => gives_parseSubWindow.mono ?_) fun _ => ?_
  · rintro w' t ⟨-, l, rfl⟩
    exact hkeep h (by decide) rfl
  refine .ite (fun h => gives_parseChoice_own.mono ?_) fun _ => ?_
  · rintro w' t (⟨rfl, -⟩ | ⟨condition, text, format, l, rfl⟩) <;> exact hkeep h (by decide) rfl
  refine .ite (fun h => .after fun _ _ => .pure (hkeep h (by decide) rfl)) fun _ => ?_
  refine .ite (fun h => .after fun _ _ => .pure (hkeep h (by decide) rfl)) fun _ => ?_
  refine .ite (fun h => .after fun _ _ => .pure (hkeep h (by decide) rfl)) fun _ => ?_
  refine .ite (fun h => .after fun _ _ => .pure (hkeep h (by decide) rfl)) fun _ => ?_
  refine .ite (fun h => ?_) fun _ => .ite (fun h => ?_) fun _ => ?_
  · -- a directive that names the next window
    rcases Bool.or_eq_true_iff.1 h with h | h <;> rw [of_decide_eq_true h] <;>
      exact fun _ _ _ => ⟨fun heq => absurd heq (by decide), fun hne => absurd rfl hne⟩
  · rw [of_decide_eq_true h]
    exact gives_parseNextWindow_return.mono fun _ _ hnext => ⟨fun _ => hnext,
      fun hne => absurd rfl hne⟩
  refine .ite (fun h => gives_parsePrint_own.mono ?_) fun _ => ?_
  · rintro w' t (⟨rfl, -⟩ | ⟨p, rfl⟩) <;> exact hkeep h (by decide) rfl
  refine .ite (fun h => gives_parsePrint_own.mono ?_) fun _ => ?_
  · rintro w' t (⟨rfl, -⟩ | ⟨p, rfl⟩) <;> exact hkeep h (by decide) rfl
  refine .ite (fun h => .after fun _ _ => .pure (hkeep h (by decide) rfl)) fun _ => ?_
  refine .ite (fun h => .after fun _ _ => .pure (hkeep h (by decide) rfl)) fun _ => ?_
  refine .ite (fun h => .after fun _ _ => .pure (hkeep h (by decide) rfl)) fun _ => ?_
  refine .ite (fun h => gives_parseBackground_own.mono ?_) fun _ => ?_
  · rintro w' t ⟨corners, rfl | ⟨i, rfl⟩⟩ <;> exact hkeep h (by decide) rfl
  exact .ite (fun h => gives_parseCam_once.mono fun _ _ => hset h (by decide) (by decide))
    fun _ => .fail

theorem gives_parseDirective_turns : Gives (parseDirective w token) c s fun w' _ =>
    ∀ word, token.keyword? = some word → WindowDraft.Turns word w w' := by
  have hnone {w' : WindowDraft} (h : token.keyword? = none) :
      ∀ word, token.keyword? = some word → WindowDraft.Turns word w w' := by
    simp [h]
  refine .ite (fun hline => .pure (hnone ?_)) fun _ => ?_
  · exact Token.keyword?_of_type (by simp [hline])
  refine .ite (fun hbrace => fun _ _ _ => hnone ?_) fun _ => ?_
  · exact Token.keyword?_of_type (by simp [hbrace])
  refine .ite (fun helse => fun _ _ _ => hnone ?_) fun _ => ?_
  · have htext : token.text = utf8 "else" := by simp_all [Token.is]
    exact if_neg fun hword => hword.2.2 htext
  refine .guard fun _ => ?_
  extract_lets cleared
  refine .ite (fun hif => fun _ _ _ => hnone (if_neg fun hword => hword.2.1 hif)) fun _ => ?_
  refine .bind gives_parseCommand_turns fun w' t hturns => .after fun next t => .guard fun _ => ?_
  refine .pure fun word hword => ?_
  have htext : token.text = word := by
    rw [Token.keyword?] at hword
    split at hword
    · exact Option.some.inj hword
    · cases hword
  rw [← htext]
  exact ⟨hturns.returns, hturns.keeps⟩

theorem gives_parseWindowRound_turns : Gives (parseWindowRound w) c s fun r _ =>
    ∃ token t, (Lexer.peekNormal : Compiler Token) c s = .ok token t ∧
      ∀ w', r = .inl w' → ∀ word, token.keyword? = some word → WindowDraft.Turns word w w' := by
  refine .bind gives_run fun token t hpeek => ?_
  split
  · rename_i hhash
    have hword : token.keyword? = none := Token.keyword?_of_type (by simp [hhash])
    exact fun _ _ _ => ⟨token, t, hpeek, by simp [hword]⟩
  · exact .pure ⟨token, t, hpeek, by simp⟩
  · refine .after fun _ _ => .bind gives_parseDirective_turns fun w' _ hturns => ?_
    refine .pure ⟨token, t, hpeek, ?_⟩
    rintro _ ⟨⟩
    exact hturns

/-- After `return` the next window is label zero, since no directive can say it again. -/
theorem Body.nextWindow (h : Body c s es w t) (hreturn : ∃ e ∈ es, e.word = utf8 "return") :
    w.nextWindow = some (utf8 "0:0") := by
  induction h with
  | start =>
    obtain ⟨e, he, -⟩ := hreturn
    cases he
  | other before first keyword round ih =>
    obtain ⟨token, t, hpeek, hacts⟩ := gives_parseWindowRound_acts _ _ round
    obtain ⟨rfl, -⟩ : token = _ ∧ t = _ := by simpa [first] using hpeek.symm
    have hnext := congrArg WindowDraft.nextWindow (hacts.other keyword)
    exact hnext.trans (ih hreturn)
  | @directive es w w' _ _ _ _ word own before first keyword round adds ih =>
    obtain ⟨token, t, hpeek, hturns⟩ := gives_parseWindowRound_turns _ _ round
    obtain ⟨rfl, -⟩ : token = _ ∧ t = _ := by simpa [first] using hpeek.symm
    have hword := hturns w' rfl word keyword
    obtain ⟨e, he, hreturn⟩ := hreturn
    rcases List.mem_append.1 he with he | he
    · -- the next window has been said, so this directive says something else
      have hcount := (before.directive first keyword round adds).tally.said .nextWindow
      have hpos : 0 < es.countP (Unique.ofWord? ·.word = some .nextWindow) :=
        List.countP_pos_iff.2 ⟨e, he, by rw [hreturn]; rfl⟩
      have hother : Unique.ofWord? word ≠ some .nextWindow := by
        intro hu
        have hone : [Entry.mk word own].countP (Unique.ofWord? ·.word = some .nextWindow) = 1 := by
          simp [hu]
        have hle : (w'.said .nextWindow).toNat ≤ 1 := Bool.toNat_le _
        rw [List.countP_append, hone] at hcount
        omega
      rw [hword.keeps hother]
      exact ih ⟨e, he, hreturn⟩
    · rw [List.mem_singleton.1 he] at hreturn
      exact hword.returns hreturn

/-- Only a directive that names the next window, or `return`, says which window is next. -/
theorem Body.exists_nextWindow (h : Body c s es w t) (hnext : w.nextWindow.isSome = true) :
    ∃ e ∈ es, Unique.ofWord? e.word = some .nextWindow := by
  have hcount := h.tally.said .nextWindow
  rw [show w.said .nextWindow = true from hnext] at hcount
  have hpos : 0 < es.countP (Unique.ofWord? ·.word = some .nextWindow) := by
    rw [hcount]
    exact Nat.one_pos
  obtain ⟨e, he, hu⟩ := List.countP_pos_iff.1 hpos
  exact ⟨e, he, of_decide_eq_true hu⟩

/-! ### Windows -/

/-- A window holds what a draft stores that its directives have made. -/
theorem gives_compileWindow_body : Gives compileWindow c s fun r t => ∃ label start es draft u,
    parseWindowLine c s = .ok label start ∧ Body c start es draft u ∧
      parseWindowRound draft c u = .ok (.inr (draft, r.2)) t ∧ r.1 = ⟨label, draft.commands⟩ := by
  refine .bind gives_run fun label t hlabel => .bind gives_run fun token u htoken => ?_
  refine .guard fun hends => .bind gives_rounds_body ?_
  rintro ⟨draft, afterHash⟩ v ⟨es, u', hbody, hround⟩
  have hline : parseWindowLine c s = .ok label u := by
    rw [parseWindowLine, bind_run hlabel, bind_run htoken, if_neg hends]
    rfl
  dsimp only
  split
  · exact .fail_bind
  · exact .pure ⟨label, u, es, draft, u', hline, hbody, hround, rfl⟩

/-- Every window of a script is what the reader of windows made at some point. -/
theorem gives_compileProgram_windows : Gives compileProgram c s fun f _ =>
    ∀ w ∈ f.windows, ∃ s afterHash t, compileWindow c s = .ok (w, afterHash) t := by
  have hround (p : ProgramDraft) (s : CompileState)
      (hp : ∀ w ∈ p.windows, ∃ s afterHash t, compileWindow c s = .ok (w, afterHash) t) :
      Gives (parseTopDirective p) c s fun q _ =>
        ∀ w ∈ q.windows, ∃ s afterHash t, compileWindow c s = .ok (w, afterHash) t := by
    refine .after fun kind s => .guard fun _ => .ite (fun _ => ?_) fun _ => .ite (fun _ => ?_)
      fun _ => .ite (fun _ => ?_) fun _ => .fail
    · refine .bind gives_run ?_
      rintro ⟨window, afterHash⟩ t hrun
      exact .pure (Contract.forall_mem_concat hp ⟨s, afterHash, t, hrun⟩)
    · exact .after fun _ _ => .after fun _ _ => .pure hp
    · exact .after fun _ _ => .pure hp
  unfold compileProgram
  refine .after fun o s => ?_
  extract_lets program
  have hprogram (u : Unit) (s : CompileState) : Gives (program u) c s fun f _ =>
      ∀ w ∈ f.windows, ∃ s afterHash t, compileWindow c s = .ok (w, afterHash) t := by
    refine .bind (P := fun p _ =>
      ∀ w ∈ p.windows, ∃ s afterHash t, compileWindow c s = .ok (w, afterHash) t) ?_ ?_
    · refine .repeatFrom (I := fun p _ =>
        ∀ w ∈ p.windows, ∃ s afterHash t, compileWindow c s = .ok (w, afterHash) t) (by simp) ?_
      intro p s hp
      refine .ite (fun _ => .after fun found s => ?_) fun _ => ?_
      · exact .ite (fun _ => .pure hp) fun _ => .bind (hround p s hp) fun q t hq => .pure hq
      · exact .bind (hround p s hp) fun q t hq => .pure hq
    · exact fun p t hp => .after fun _ _ => .pure hp
  exact .ite (fun _ => .after fun u s => hprogram u s) fun _ => hprogram () s

end Compiler

/-! ### References to label zero -/

/-- The next window is stored as one command, unless nothing says it. -/
theorem WindowDraft.filter_nextWindow {w : WindowDraft} {cs : List Command} (h : Gains {} cs w) :
    w.commands.filter (·.code = CommandCode.nextWindow) =
      simple CommandCode.nextWindow w.nextWindow := by
  obtain ⟨lists, hcommands, hsorted, -, -, hnext, -⟩ := sorted_commands h
  rw [hcommands]
  exact hsorted.filter_flatten (by decide +kernel) hnext rfl

theorem WindowDraft.returns_mem_iff {w : WindowDraft} {cs : List Command} (h : Gains {} cs w) :
    Command.returns ∈ w.commands ↔ w.nextWindow = some (utf8 "0:0") := by
  have hmem : Command.returns ∈ w.commands ↔
      Command.returns ∈ w.commands.filter (·.code = CommandCode.nextWindow) := by
    simp [Command.returns, Command.code]
  rw [hmem, filter_nextWindow h]
  cases w.nextWindow <;> simp [simple, Command.returns, eq_comm]

theorem Command.reference?_returns : Command.returns.reference? = some (.window, 0) := by
  decide +kernel

namespace File

variable {f : File} {w : Window} {r : Reference}

theorem returnReference_mem (hw : w ∈ f.windows) (h : Command.returns ∈ w.commands) :
    w.returnReference ∈ f.references := by
  refine List.mem_append_left _ (List.mem_flatMap.2 ⟨w, hw, List.mem_filterMap.2 ⟨_, h, ?_⟩⟩)
  rw [Command.reference?_returns]
  rfl

/-- No switch makes a reference to label zero. -/
theorem label_ne_zero_of_switch {s : Switch} (hr : r ∈ switchReferences s) : r.label ≠ 0 := by
  obtain ⟨p, -, hr⟩ := List.mem_filterMap.1 hr
  obtain ⟨label, hlabel, rfl⟩ := Option.map_eq_some_iff.1 hr
  rintro (rfl : label = 0)
  unfold Statement.reference? at hlabel
  split at hlabel
  · simp [Option.bind_eq_some_iff] at hlabel
  · cases hlabel

theorem exists_window_of_label_zero (hr : r ∈ f.references) (hzero : r.label = 0) :
    ∃ w ∈ f.windows, r ∈ windowReferences w := by
  rcases List.mem_append.1 hr with hr | hr
  · exact List.mem_flatMap.1 hr
  · obtain ⟨s, -, hr⟩ := List.mem_flatMap.1 hr
    exact absurd hzero (label_ne_zero_of_switch hr)

/-- If label zero is named by returning only, a window refers to it as often as it returns. -/
theorem filter_windowReferences
    (hzero : ∀ x ∈ w.commands, x.reference?.map Prod.snd = some 0 → x = .returns) :
    (windowReferences w).filter (·.label = 0) =
      (w.commands.filter (· = .returns)).map fun _ => w.returnReference := by
  unfold windowReferences
  generalize w.commands = commands at hzero
  induction commands with
  | nil => rfl
  | cons x commands ih =>
    have ih := ih fun y hy => hzero y (List.mem_cons_of_mem _ hy)
    by_cases hx : x = .returns
    · subst hx
      simp only [List.filterMap_cons, Command.reference?_returns, Option.map_some, List.filter_cons,
        decide_true, if_true, List.map_cons, ih]
      rfl
    · cases href : x.reference? with
      | none => simp [href, hx, ih]
      | some named =>
        have hne : named.2 ≠ 0 := by
          intro h
          exact hx (hzero x List.mem_cons_self (by rw [href, Option.map_some, h]))
        simp [href, hx, ih, hne]

/-- Where windows return at most once and nothing else names label zero, the references to it are
those of the windows that return. -/
theorem filter_references (hzero : ∀ w ∈ f.windows, ∀ x ∈ w.commands,
      x.reference?.map Prod.snd = some 0 → x = .returns)
    (honce : ∀ w ∈ f.windows, (w.commands.filter (· = .returns)).length ≤ 1) :
    f.references.filter (·.label = 0) =
      (f.windows.filter (Command.returns ∈ ·.commands)).map Window.returnReference := by
  have hswitches : (f.switches.flatMap switchReferences).filter (·.label = 0) = [] := by
    refine List.filter_eq_nil_iff.2 fun r hr => ?_
    obtain ⟨s, -, hr⟩ := List.mem_flatMap.1 hr
    simpa using label_ne_zero_of_switch hr
  rw [references, List.filter_append, hswitches, List.append_nil]
  generalize f.windows = windows at hzero honce
  induction windows with
  | nil => rfl
  | cons w windows ih =>
    have ih := ih (fun v hv => hzero v (List.mem_cons_of_mem _ hv))
      fun v hv => honce v (List.mem_cons_of_mem _ hv)
    have hone := honce w List.mem_cons_self
    rw [List.flatMap_cons, List.filter_append, ih,
      filter_windowReferences (hzero w List.mem_cons_self), List.filter_cons]
    by_cases hw : Command.returns ∈ w.commands
    · have hlength : 0 < (w.commands.filter (· = .returns)).length :=
        List.length_pos_of_mem (List.mem_filter.2 ⟨hw, by simp⟩)
      obtain ⟨x, hx⟩ := List.length_eq_one_iff.1 (Nat.le_antisymm hone hlength)
      rw [hx, if_pos (by simpa using hw)]
      rfl
    · have hnil : w.commands.filter (· = .returns) = [] := by
        refine List.filter_eq_nil_iff.2 fun x hx h => hw ?_
        rwa [← of_decide_eq_true h]
      rw [hnil, if_neg (by simpa using hw)]
      rfl

end File

/-! ### Compiled files -/

def Window.ReadFrom (c : CompileContext) (es : List Compiler.Entry) (w : Window) : Prop :=
  ∃ s afterHash t label start draft u, Compiler.compileWindow c s = .ok (w, afterHash) t ∧
    Compiler.parseWindowLine c s = .ok label start ∧ Compiler.Body c start es draft u ∧
    Compiler.parseWindowRound draft c u = .ok (.inr (draft, afterHash)) t ∧
    w = ⟨label, draft.commands⟩

namespace Window.ReadFrom

variable {c : CompileContext} {es : List Compiler.Entry} {w : Window}

/-- A window with a `return` stores that it returns. -/
theorem returns_mem (h : w.ReadFrom c es) (hreturn : ∃ e ∈ es, e.word = utf8 "return") :
    Command.returns ∈ w.commands := by
  obtain ⟨_, _, _, _, _, _, _, _, _, hbody, _, rfl⟩ := h
  exact (WindowDraft.returns_mem_iff hbody.tally.gains).2 (hbody.nextWindow hreturn)

/-- A window that returns has a directive that says which window is next. -/
theorem exists_of_returns_mem (h : w.ReadFrom c es) (hreturns : Command.returns ∈ w.commands) :
    ∃ e ∈ es, Unique.ofWord? e.word = some .nextWindow := by
  obtain ⟨_, _, _, _, _, _, _, _, _, hbody, _, rfl⟩ := h
  apply hbody.exists_nextWindow
  rw [(WindowDraft.returns_mem_iff hbody.tally.gains).1 hreturns]
  rfl

theorem length_filter_returns (h : w.ReadFrom c es) :
    (w.commands.filter (· = .returns)).length ≤ 1 := by
  obtain ⟨_, _, _, _, _, draft, _, _, _, hbody, _, rfl⟩ := h
  have hnext := WindowDraft.filter_nextWindow hbody.tally.gains
  have hle : (draft.commands.filter (· = .returns)).length ≤
      (draft.commands.filter (·.code = CommandCode.nextWindow)).length := by
    rw [← List.countP_eq_length_filter, ← List.countP_eq_length_filter]
    apply List.countP_mono_left
    intro x _ hx
    rw [of_decide_eq_true hx]
    rfl
  rw [hnext] at hle
  have hone : (WindowDraft.simple CommandCode.nextWindow draft.nextWindow).length ≤ 1 := by
    cases draft.nextWindow with
    | none => exact Nat.zero_le 1
    | some text => exact Nat.le_refl 1
  exact Nat.le_trans hle hone

end Window.ReadFrom

variable {src : Bytes} {o : Options} {f : File}

theorem exists_readFrom (h : (compile src o).result = .ok f) :
    ∃ hash, ∀ w ∈ f.windows, ∃ es, w.ReadFrom ⟨o.effective, hash⟩ es := by
  obtain ⟨hash, text, s, -, -, hrun⟩ := compile_ok h
  refine ⟨hash, fun w hw => ?_⟩
  obtain ⟨t, afterHash, u, hwindow⟩ := Compiler.gives_compileProgram_windows f s hrun w hw
  obtain ⟨label, start, es, draft, v, hline, hbody, hround, hw⟩ :=
    Compiler.gives_compileWindow_body _ _ hwindow
  exact ⟨es, t, afterHash, u, label, start, draft, v, hwindow, hline, hbody, hround, hw⟩

theorem compile_id_ne_zero (h : (compile src o).result = .ok f) : ∀ w ∈ f.windows, w.id ≠ 0 := by
  have hcompiled := compile_yields_compiled src o
  rw [h] at hcompiled
  exact fun w hw => (hcompiled.windows w hw).id_ne_zero

theorem zero_not_mem_definitions (h : (compile src o).result = .ok f) :
    ⟨.window, 0⟩ ∉ Graph.definitions f := by
  intro hmem
  rcases List.mem_append.1 hmem with hmem | hmem
  · obtain ⟨w, hw, heq⟩ := List.mem_map.1 hmem
    exact compile_id_ne_zero h w hw (congrArg Graph.Node.label heq)
  · obtain ⟨s, -, heq⟩ := List.mem_map.1 hmem
    cases congrArg Graph.Node.kind heq

/-- Among compiled files, label zero is unresolved as soon as one of them refers to it. -/
theorem Graph.zero_mem_unresolved {loads : List Load} {l : Load} (hlatest : IsLatest loads l)
    (hloads : ∀ m ∈ loads, ∃ src o, (compile src o).result = .ok m.contents)
    (hzero : ⟨.window, 0⟩ ∈ targets l.contents) : ⟨.window, 0⟩ ∈ (loadAll loads).unresolved := by
  rw [Store.mem_unresolved (sound_loadAll loads), exists_edge_iff, definer_eq_none_iff]
  refine ⟨⟨l, hlatest, hzero⟩, ?_⟩
  rintro ⟨m, hdefines, before, after, rfl, -⟩
  obtain ⟨src, o, hm⟩ := hloads m (by simp)
  exact zero_not_mem_definitions hm hdefines

/-- A window with a `return` refers to window zero, which is reported as external and is unresolved
in any graph of compiled files with this one. No switch refers to it, and where no other command of
a window names label zero, the windows that return are all that do. -/
theorem return_is_reported (h : (compile src o).result = .ok f) :
    (∃ hash, ∀ w ∈ f.windows, ∃ es, w.ReadFrom ⟨o.effective, hash⟩ es ∧
      ((∃ e ∈ es, e.word = utf8 "return") → Command.returns ∈ w.commands) ∧
      (Command.returns ∈ w.commands → ∃ e ∈ es, Unique.ofWord? e.word = some .nextWindow)) ∧
    (∀ w ∈ f.windows, Command.returns ∈ w.commands →
      w.returnReference ∈ f.checkReferences.externalWindows ∧
      ∀ name loads, Graph.IsLatest loads ⟨name, f⟩ →
        (∀ l ∈ loads, ∃ src o, (compile src o).result = .ok l.contents) →
        ⟨.window, 0⟩ ∈ (Graph.loadAll loads).unresolved) ∧
    (∀ r ∈ f.references, r.label = 0 → ∃ w ∈ f.windows, r ∈ File.windowReferences w) ∧
    ((∀ w ∈ f.windows, ∀ x ∈ w.commands, x.reference?.map Prod.snd = some 0 → x = .returns) →
      f.references.filter (·.label = 0) =
        (f.windows.filter (Command.returns ∈ ·.commands)).map Window.returnReference) := by
  obtain ⟨hash, hread⟩ := exists_readFrom h
  refine ⟨⟨hash, fun w hw => ?_⟩, fun w hw hreturns => ?_, ?_, fun hzero => ?_⟩
  · obtain ⟨es, hes⟩ := hread w hw
    exact ⟨es, hes, hes.returns_mem, hes.exists_of_returns_mem⟩
  · have hmem := File.returnReference_mem hw hreturns
    constructor
    · have hid := compile_id_ne_zero h
      refine List.mem_filter.2 ⟨hmem, ?_⟩
      simpa [Window.returnReference] using hid
    · intro name loads hlatest hloads
      exact Graph.zero_mem_unresolved hlatest hloads (List.mem_map.2 ⟨_, hmem, rfl⟩)
  · intro r hr hlabel
    exact File.exists_window_of_label_zero hr hlabel
  · refine File.filter_references hzero fun w hw => ?_
    obtain ⟨es, hes⟩ := hread w hw
    exact hes.length_filter_returns

def returningScript : Bytes := utf8 "#window 1:1\nreturn\n#switch 1:2\nreturn\n"

def returningFile : File where
  windows := [⟨10001, [.flags WindowFlags.noBackground, .dimensions ⟨none, none, none, none⟩,
    .returns]⟩]
  switches := [⟨10002, [⟨1, StatementType.goto.code, some (utf8 "0:0"), [], none⟩]⟩]

theorem compile_returningScript : (compile returningScript {}).result = .ok returningFile := by cbv

theorem return_is_reported_once : (compile returningScript {}).result = .ok returningFile ∧
    returningFile.references.filter (·.label = 0) =
      (returningFile.windows.filter (Command.returns ∈ ·.commands)).map Window.returnReference :=
  ⟨compile_returningScript, (return_is_reported compile_returningScript).2.2.2 (by decide +kernel)⟩

/-- In a script that writes label zero nowhere, returning makes a reference to it. -/
theorem return_refers_to_zero : ¬ ∀ src o f, (compile src o).result = .ok f →
    (∀ w ∈ f.windows, ∀ x ∈ w.commands, x.reference?.map Prod.snd = some 0 → x = .returns) →
    ∀ r ∈ f.references, r.label ≠ 0 := by
  intro h
  have hzero : ∃ r ∈ returningFile.references, r.label = 0 := by decide +kernel
  obtain ⟨r, hr, hlabel⟩ := hzero
  exact h _ _ _ compile_returningScript (by decide +kernel) r hr hlabel

end ApeScript
