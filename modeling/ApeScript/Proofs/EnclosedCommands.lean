import ApeScript.Proofs.CollectedCommands

/-!
# The conditions of a window's commands

The blocks of a draft go through the signs that its body is read as. So the signs of a window that
compiles are those of a passage, and each directive that can have a condition adds one command,
under the conjunction of the conditions that the passage puts around it. The other directives stand
outside all blocks.
-/

namespace ApeScript

namespace Compiler

variable {c : CompileContext} {s t : CompileState} {w : WindowDraft} {token : Token}
  {loc : Location} {α β : Type}

/-! ### Blocks -/

/-- What a round makes of its signs: the blocks go through them, and the directives among them do
what they say. -/
def Advances (o : Options) (w : WindowDraft) (signs : List (Sign Value Directive))
    (w' : WindowDraft) : Prop :=
  ∃ found emitted, w.nest.run? Value.invert signs = some (w'.nest, found) ∧
    List.Forall₂ (Emits o) found emitted ∧ w.Gains emitted.reduceOption w'

namespace Advances

variable {o : Options} {w' w'' : WindowDraft} {signs signs' : List (Sign Value Directive)}

theorem refl : Advances o w [] w := ⟨[], [], rfl, .nil, WindowDraft.gains_nil rfl⟩

theorem trans (h : Advances o w signs w') (h' : Advances o w' signs' w'') :
    Advances o w (signs ++ signs') w'' := by
  obtain ⟨found, emitted, hrun, hemits, hgains⟩ := h
  obtain ⟨found', emitted', hrun', hemits', hgains'⟩ := h'
  refine ⟨found ++ found', emitted ++ emitted', ?_, List.rel_append hemits hemits', ?_⟩
  · exact Nest.run?_append_eq_some.2 ⟨_, _, _, hrun, hrun', rfl⟩
  · rw [List.reduceOption_append]
    exact hgains.trans hgains'

/-- A sign that is no directive changes the blocks and nothing else. -/
theorem of_step {sign : Sign Value Directive} (hrecord : w.nest.record sign = [])
    (hstep : w.nest.step? Value.invert sign = some w'.nest) (h : w'.collected = w.collected) :
    Advances o w [sign] w' := by
  refine ⟨[], [], ?_, .nil, WindowDraft.gains_nil h⟩
  simp [Nest.run?, hstep, hrecord]

end Advances

theorem gives_openBlock {b : ConditionBlock} (hb : b.braced = false) :
    Gives (openBlock w b) c s fun w' t => ∃ braced, readBrace c s = .ok braced t ∧
      w' = { w with blocks := { b with braced := braced } :: w.blocks } := by
  refine .bind gives_run fun _ t hskip => .bind gives_run fun next t' hpeek => ?_
  have hread : readBrace c s = (if next.type = .openBrace then do
      Lexer.consume
      return true
    else return false : Compiler Bool) c t' := by
    rw [readBrace, bind_run hskip, bind_run hpeek]
  refine .ite (fun hbrace => .bind gives_run fun _ t'' hconsume => .pure ⟨true, ?_, rfl⟩) ?_
  · rw [hread, if_pos hbrace, bind_run hconsume]
    rfl
  · intro hbrace
    refine .pure ⟨false, ?_, ?_⟩
    · rw [hread, if_neg hbrace]
      rfl
    · rw [← hb]

theorem gives_openIf (hw : w.closed = []) :
    Gives (openIf w loc) c s fun w' t => ∃ condition braced,
      readIf c s = .ok (.opening condition braced) t ∧
        Advances c.options w [.opening condition braced] w' := by
  refine .bind gives_run fun _ t hopen => .bind gives_run fun condition t' hexpr => ?_
  refine .bind gives_run fun _ t'' hclose => .guard fun _ => ?_
  refine (gives_openBlock rfl).mono ?_
  rintro _ _ ⟨braced, hbrace, rfl⟩
  refine ⟨condition, braced, ?_, .of_step rfl ?_ rfl⟩
  · rw [readIf, bind_run hopen, bind_run hexpr, bind_run hclose, bind_run hbrace]
    rfl
  · simp [Nest.step?, WindowDraft.nest, ConditionBlock.guard, hw]

theorem gives_openElse :
    Gives (openElse w loc) c s fun w' t => ∃ braced, readBrace c s = .ok braced t ∧
      Advances c.options w [.otherwise braced] w' := by
  unfold openElse
  split
  · exact .fail
  · rename_i inner outer hclosed
    refine .guard fun helse => .guard fun _ => (gives_openBlock rfl).mono ?_
    rintro _ t ⟨braced, hbrace, rfl⟩
    refine ⟨braced, hbrace, .of_step rfl ?_ rfl⟩
    simp [Nest.step?, WindowDraft.nest, ConditionBlock.guard, hclosed, helse]

theorem gives_closeBrace (hw : w.closed = []) :
    Gives (closeBrace w loc) c s fun w' t => t = s ∧ Advances c.options w [.closing] w' := by
  unfold closeBrace
  split
  · exact .fail
  · rename_i top rest hblocks
    refine .guard fun hbraced => .bind .options ?_
    rintro _ _ ⟨rfl, rfl⟩
    refine .guard fun _ => .pure ⟨rfl, .of_step rfl ?_ rfl⟩
    rw [WindowDraft.nest_closeUnbraced]
    simp_all [Nest.step?, WindowDraft.nest, ConditionBlock.guard]

theorem Advances.of_cleared {o : Options} {w' : WindowDraft} {sign : Sign Value Directive}
    (hsign : sign.isOtherwise = false) (h : Advances o { w with closed := [] } [sign] w') :
    Advances o w [sign] w' := by
  cases sign with
  | otherwise b => cases hsign
  | plain d => exact h
  | opening condition b => exact h
  | closing => exact h

/-- After its command, a directive uses the blocks around it and ends those without braces. -/
theorem Obeys.advances {o : Options} {w' : WindowDraft} {d : Directive} (h : Obeys o w d w')
    (hw : w.closed = []) : Advances o w [.plain d] w'.markUsed.closeUnbraced := by
  obtain ⟨hnest, command?, hemits, hgains⟩ := h
  have hstep : w.nest.step? Value.invert (.plain d) = some w'.markUsed.closeUnbraced.nest := by
    rw [WindowDraft.nest_closeUnbraced, WindowDraft.nest_markUsed, hnest]
    simp [Nest.step?, WindowDraft.nest, hw]
  refine ⟨[(d, w.nest.conditions)], [command?], ?_, .cons hemits .nil, ?_⟩
  · simp [Nest.run?, hstep, Nest.record]
  · intro code hcode
    have hlist : [command?].reduceOption = command?.toList := by cases command? <;> rfl
    rw [hlist]
    exact hgains code hcode

theorem gives_parseDirective_read (ho : c.options.optimize = false) :
    Gives (parseDirective w token) c s fun w' t => ∃ signs, readSigns w token c s = .ok signs t ∧
      Advances c.options w signs w' := by
  by_cases hline : token.type = .endOfLine
  · rw [parseDirective, if_pos hline]
    refine .pure ⟨[], ?_, .refl⟩
    rw [readSigns, if_pos hline]
    rfl
  by_cases hclosing : token.type = .closeBrace
  · rw [parseDirective, if_neg hline, if_pos hclosing]
    refine (gives_closeBrace rfl).mono ?_
    rintro w' _ ⟨rfl, hadvances⟩
    refine ⟨[.closing], ?_, hadvances.of_cleared rfl⟩
    rw [readSigns, if_neg hline, if_pos hclosing]
    rfl
  by_cases helse : token.is (utf8 "else") = true
  · rw [parseDirective, if_neg hline, if_neg hclosing, if_pos helse]
    refine gives_openElse.mono ?_
    rintro w' t ⟨braced, hbrace, hadvances⟩
    refine ⟨[.otherwise braced], ?_, hadvances⟩
    rw [readSigns, if_neg hline, if_neg hclosing, if_pos helse, bind_run hbrace]
    rfl
  rw [parseDirective, if_neg hline, if_neg hclosing, if_neg helse]
  refine .guard fun _ => ?_
  by_cases hif : token.text = utf8 "if"
  · rw [if_pos hif]
    refine (gives_openIf rfl).mono ?_
    rintro w' t ⟨condition, braced, hread, hadvances⟩
    refine ⟨[.opening condition braced], ?_, hadvances.of_cleared rfl⟩
    rw [readSigns, if_neg hline, if_neg hclosing, if_neg helse, if_pos hif, bind_run hread]
    rfl
  · rw [if_neg hif]
    refine .bind (gives_parseCommand_read ho) ?_
    rintro w' t ⟨d, hread, hobeys⟩
    refine .bind gives_run fun next t' hpeek => .guard fun _ => .pure ⟨[.plain d], ?_, ?_⟩
    · rw [readSigns, if_neg hline, if_neg hclosing, if_neg helse, if_neg hif, bind_run hread,
        bind_run hpeek]
      rfl
    · exact (hobeys.advances rfl).of_cleared rfl

theorem readFrom_eq (hhash : token.type ≠ .hash) (hend : token.type ≠ .endOfFile) :
    readFrom w token = (do
      Lexer.consume
      readSigns w token : Compiler (List (Sign Value Directive))) := by
  unfold readFrom
  split
  · contradiction
  · contradiction
  · rfl

/-- A round goes on with what its signs make of the draft, or it ends the body, where there are
none. -/
theorem gives_parseWindowRound (ho : c.options.optimize = false) :
    Gives (parseWindowRound w) c s fun r t => ∃ signs, readRound w c s = .ok signs t ∧
      Sum.elim (Advances c.options w signs) (fun last => last.1 = w ∧ signs = []) r := by
  refine .bind gives_run fun token t hpeek => ?_
  have hround : readRound w c s = readFrom w token c t := bind_run hpeek
  rw [hround]
  split
  · rename_i hhash
    refine .bind gives_run fun _ u hconsume => .bind gives_run fun defined v hdefine => ?_
    have hread : readFrom w token c t = .ok [] v := by
      simp only [readFrom, hhash]
      rw [bind_run hconsume, bind_run hdefine]
      rfl
    exact .ite (fun _ => .pure ⟨[], hread, .refl⟩) fun _ => .pure ⟨[], hread, rfl, rfl⟩
  · rename_i hend
    have hread : readFrom w token c t = .ok [] t := by
      simp only [readFrom, hend]
      rfl
    exact .pure ⟨[], hread, rfl, rfl⟩
  · rename_i hhash hend
    refine .bind gives_run fun _ u hconsume => .bind (gives_parseDirective_read ho) ?_
    rintro w' v ⟨signs, hread, hadvances⟩
    refine .pure ⟨signs, ?_, hadvances⟩
    rw [readFrom_eq hhash hend, bind_run hconsume]
    exact hread

/-! ### Windows -/

/-- The rounds that take a draft to another, with the signs that they read. -/
inductive Follows (c : CompileContext) (w : WindowDraft) (s : CompileState) :
    List (Sign Value Directive) → WindowDraft → CompileState → Prop where
  | start : Follows c w s [] w s
  | round {signs more : List (Sign Value Directive)} {w' w'' : WindowDraft} {t u : CompileState}
      (before : Follows c w s signs w' t) (goesOn : parseWindowRound w' c t = .ok (.inl w'') u)
      (reads : readRound w' c t = .ok more u) : Follows c w s (signs ++ more) w'' u

def parseWindowLine : Compiler Label := do
  let label ← parseDefinitionLabel
  let token ← Lexer.next
  if !token.type.endsLine then
    fail token.loc (.unexpectedToken TokenType.endOfLine.name token.type)
  return label

def Says (c : CompileContext) (s : CompileState) (signs : List (Sign Value Directive)) : Prop :=
  ∃ label w afterHash t u v, parseWindowLine c s = .ok label t ∧ Follows c {} t signs w u ∧
    parseWindowRound w c u = .ok (.inr (w, afterHash)) v

/-- The loop over a body reads signs that its last draft makes something of. -/
theorem gives_rounds (ho : c.options.optimize = false) :
    Gives (repeatFrom {} parseWindowRound) c s fun last t => ∃ signs u,
      Follows c {} s signs last.1 u ∧ parseWindowRound last.1 c u = .ok (.inr last) t ∧
        Advances c.options {} signs last.1 := by
  refine Gives.repeatFrom (I := fun w t => ∃ signs, Follows c {} s signs w t ∧
    Advances c.options {} signs w) ⟨[], .start, .refl⟩ ?_
  rintro w t ⟨signs, hfollows, hadvances⟩ r u hround
  obtain ⟨more, hread, hmore⟩ := gives_parseWindowRound ho r u hround
  cases r with
  | inl w' => exact ⟨signs ++ more, .round hfollows hround hread, hadvances.trans hmore⟩
  | inr last =>
    obtain ⟨rfl, -⟩ := hmore
    exact ⟨signs, t, hfollows, hround, hadvances⟩

theorem gives_compileWindow_says (ho : c.options.optimize = false) :
    Gives compileWindow c s fun r _ => ∃ signs draft, Says c s signs ∧
      Advances c.options {} signs draft ∧ draft.blocks = [] ∧ r.1.commands = draft.commands := by
  refine .bind gives_run fun label t hlabel => .bind gives_run fun token u htoken => ?_
  refine .guard fun hends => .bind (gives_rounds ho) ?_
  rintro ⟨draft, afterHash⟩ v ⟨signs, u', hfollows, hround, hadvances⟩
  have hline : parseWindowLine c s = .ok label u := by
    rw [parseWindowLine, bind_run hlabel, bind_run htoken, if_neg hends]
    rfl
  dsimp only
  split
  · exact .fail_bind
  · rename_i hopen
    have hblocks : draft.blocks = [] := by
      cases hb : draft.blocks with
      | nil => rfl
      | cons top rest => exact (hopen top rest hb).elim
    exact .pure ⟨signs, draft, ⟨label, draft, afterHash, u, u', v, hline, hfollows, hround⟩,
      hadvances, hblocks, rfl⟩

/-- Whatever passage the body of a window is, its directives add one command each, in their order
and under the conditions around them, as far as they can have one. -/
theorem commands_compileWindow {window : Window} {afterHash : Bool}
    (ho : c.options.optimize = false) (h : compileWindow c s = .ok (window, afterHash) t) :
    ∃ signs, Says c s signs ∧ (∃ p : Passage Value Directive, p.Grammatical ∧ p.signs = signs) ∧
      ∀ p : Passage Value Directive, p.Grammatical → p.signs = signs →
        ∃ emitted, List.Forall₂ (Emits c.options) (p.enclosed Value.invert []) emitted ∧
          ∀ code ∈ CommandCode.collected, window.commands.filter (·.code = code) =
            emitted.reduceOption.filter (·.code = code) := by
  obtain ⟨signs, draft, hsays, ⟨found, emitted, hrun, hemits, hgains⟩, hblocks, hcommands⟩ :=
    gives_compileWindow_says ho _ _ h
  have hopened : draft.nest.opened = [] := by simp [WindowDraft.nest, hblocks]
  refine ⟨signs, hsays, Nest.exists_passage ⟨draft.nest, found, hrun, hopened⟩, ?_⟩
  rintro p hp rfl
  have htraced : Nest.Traced Value.invert p := Nest.run?_signs hp
  have hstart : WindowDraft.nest {} = ⟨[], []⟩ := rfl
  rw [hstart, htraced ⟨[], []⟩ (Or.inr rfl)] at hrun
  split at hrun
  · obtain ⟨-, rfl⟩ := Prod.mk.inj (Option.some.inj hrun)
    refine ⟨emitted, hemits, fun code hcode => ?_⟩
    rw [hcommands, WindowDraft.filter_commands hgains hcode]
  · cases hrun

/-- A body with one text for when `a` holds, and one for when it does not. -/
def branchedStart : CompileState :=
  ⟨.ofSource (utf8 " 1:1\nif (a)\nbody \"x\"\nelse\nbody \"y\"\n") [] true, [], 0, []⟩

def branchedEnd : CompileState :=
  ⟨⟨⟨[], 0, ⟨[], 5, 0⟩⟩, true, [⟨.endOfFile, [], ⟨[], 5, 0⟩⟩], []⟩, [], 0, []⟩

def branchedWindow : Window where
  id := 10001
  commands := [.formattedText 66 (some ⟨9, ⟨4, 5, .float .zero⟩, ⟨5, 6, .name [97]⟩⟩) [120] [],
    .formattedText 66 (some ⟨13, ⟨5, 5, .name [97]⟩, ⟨4, 6, .float .zero⟩⟩) [121] [],
    .flags 2, .dimensions ⟨none, none, none, none⟩]

theorem commands_compileWindow_branched :
    compileWindow ⟨Options.defaults, 0⟩ branchedStart = .ok (branchedWindow, false) branchedEnd ∧
      ∃ p : Passage Value Directive, p.Grammatical ∧
        Says ⟨Options.defaults, 0⟩ branchedStart p.signs ∧
        ∃ emitted, List.Forall₂ (Emits Options.defaults) (p.enclosed Value.invert []) emitted ∧
          emitted.reduceOption.filter (·.code = CommandCode.body) =
            branchedWindow.commands.filter (·.code = CommandCode.body) := by
  have hrun : compileWindow ⟨Options.defaults, 0⟩ branchedStart =
      .ok (branchedWindow, false) branchedEnd := by cbv
  obtain ⟨signs, hsays, ⟨p, hp, rfl⟩, hcommands⟩ := commands_compileWindow rfl hrun
  obtain ⟨emitted, hemits, hfilter⟩ := hcommands p hp rfl
  exact ⟨hrun, p, hp, hsays, emitted, hemits, (hfilter CommandCode.body (by decide)).symm⟩

end Compiler

end ApeScript
