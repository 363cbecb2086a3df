import ApeScript.Proofs.WrittenSwitch
import ApeScript.Proofs.WrittenWindow

/-!
# Scripts of written windows and switches

A script is the text of its directives, one after the other. `Compiler.Directives` lists them with
what they define and whether they are accepted, and `compile_directives` says what the script is
compiled to, or that it is refused.
-/

namespace ApeScript

def Compiler.ProgramDraft.adding (p : ProgramDraft) (windows : List Window)
    (switches : List Switch) (afterHash : Bool) : ProgramDraft :=
  ⟨p.windows ++ windows, p.switches ++ switches, afterHash⟩

namespace Compiler

open Lexer

variable {c : CompileContext} {m m₁ m' : Inlined} {word args more rest text lines : Bytes}
  {afterHash ok : Bool} {q : Spot} {label : Label} {windows : List Window}
  {switches : List Switch}

/-! ### One directive -/

def parseTopBody (p : ProgramDraft) (kind : Token) : Compiler ProgramDraft := do
  if kind.type ≠ .identifier then fail kind.loc .directiveName
  if kind.text = utf8 "window" then
    let (window, afterHash) ← compileWindow
    return { p with windows := p.windows ++ [window], afterHash := afterHash }
  if kind.text = utf8 "switch" then
    let label ← parseDefinitionLabel
    let (switch, afterHash) ← compileSwitch label false
    return { p with switches := p.switches ++ [switch], afterHash := afterHash }
  if kind.text = utf8 "define" then
    Lexer.defineMacro
    return { p with afterHash := false }
  fail kind.loc .unknownTopDirective

theorem reads_findHash_lead {lead : Bytes} (hlead : Grammar.Lead .plain lead) :
    Reads findHash c ⟨[], lead ++ 35 :: rest⟩ ⟨[], rest⟩ (· = true) := by
  have hskip : Succeeds skipLineEnds (At ⟨[], lead ++ 35 :: rest⟩) (At ⟨[(.hash, [35])], rest⟩)
      fun _ => True := by
    intro l hl
    rw [at_eq_stands] at hl
    obtain ⟨n, hskip, hn⟩ := hlead (k := (.hash, [35])) rfl (literal_plain _ _) (by simp) l hl
    rw [at_eq_stands]
    exact ⟨(), n, hskip, trivial, hn⟩
  refine .bind (.lift hskip) fun _ _ => ?_
  refine .bind (.lift succeeds_read_queued) fun token ht => ?_
  have htype : token.type = .hash := congrArg Prod.fst ht
  rw [htype]
  exact .pure rfl

theorem EndsBefore.rest_le (h : EndsBefore text afterHash q) : q.rest.length ≤ text.length := by
  induction h with
  | ended => exact Nat.zero_le _
  | next => simp; omega
  | line h ih => exact Nat.le_succ_of_le ih

/-- From a directive to the one after it, whether its number sign has been read or not. -/
theorem leapsIf_topDirective (word : Bytes) (hword : Script.Identifier word)
    (hmore : EndsBefore more afterHash q)
    (hbody : ∀ p loc, ComesTo (parseTopBody p ⟨.identifier, word, loc⟩) c m
      ⟨[], 32 :: (args ++ more)⟩ (if ok then some (m', q) else none)
      (· = p.adding windows switches afterHash)) (p : ProgramDraft) :
    LeapsIf parseProgramRound c ok (· = { p with afterHash := true }) m
        ⟨[(.identifier, word)], 32 :: (args ++ more)⟩
        (· = p.adding windows switches afterHash) m' q ∧
      ∀ lead, Grammar.Lead .plain lead →
        LeapsIf parseProgramRound c ok (· = { p with afterHash := false }) m
          ⟨[], lead ++ 35 :: (word ++ 32 :: (args ++ more))⟩
          (· = p.adding windows switches afterHash) m' q := by
  have hrest := hmore.rest_le
  have htop {r : Spot} (p : ProgramDraft) (hread : Reads (liftM Lexer.next : Compiler Token) c r
      ⟨[], 32 :: (args ++ more)⟩ (·.lexeme = (.identifier, word))) :
      ComesTo (parseTopDirective p >>= fun p => pure (.inl p)) c m r
        (if ok then some (m', q) else none)
        fun result : ProgramDraft ⊕ ProgramDraft =>
          ∃ p', p' = p.adding windows switches afterHash ∧ result = .inl p' := by
    have hdirective : ComesTo (parseTopDirective p) c m r (if ok then some (m', q) else none)
        (· = p.adding windows switches afterHash) := by
      refine .after (hread.standing m) fun token ht => ?_
      obtain ⟨type, text, loc⟩ := token
      cases ht
      exact hbody p loc
    exact hdirective.thenIf fun p' hp' => .pure ⟨p', hp', rfl⟩
  constructor
  · refine .round (less_of_length ?_) ?_
    · simp only [List.length_cons, List.length_append]
      omega
    · rintro _ rfl
      exact htop _ (.lift succeeds_read_queued)
  · intro lead hlead
    refine .round (less_of_length ?_) ?_
    · simp only [List.length_cons, List.length_append]
      omega
    · rintro _ rfl
      refine .after ((reads_findHash_lead hlead).standing m) ?_
      rintro _ rfl
      exact htop _ (.lift (succeeds_read (first?_identifier hword (by rintro _ ⟨⟩; rfl))))

/-! ### The end of a switch -/

/-- The last rounds of a switch, at the end of the script or at the next directive. -/
theorem runs_switch_end (h : EndsBefore more afterHash q) :
    ∃ k J, Reaches .plain more k J ∧ k ≠ (.identifier, utf8 "else") ∧ k.closes = !afterHash ∧
      ∀ loc bound d, Runs (rounds false loc bound d) c J (some (Stands .plain q))
        (· = (d, afterHash)) := by
  have hlast {p q : Spot} {afterHash : Bool} {loc : Location} {bound : Remaining} {d : Draft}
      (h : Reads (switchRound false loc d) c p q (· = .inr (d, afterHash))) :
      Runs (rounds false loc bound d) c (Stands .plain p) (some (Stands .plain q))
        (· = (d, afterHash)) := .of_reads (.stop (stands_of_reads h))
  induction h with
  | ended =>
    refine ⟨(.endOfFile, []), _, Grammar.lead_nil.reaches rfl (literal_plain _ _) (by simp)
      (Nat.le_refl _), by simp, rfl, fun loc bound d => hlast ?_⟩
    refine .bind (.lift succeeds_peek_queued) fun token ht => ?_
    have htype : token.type = .endOfFile := congrArg Prod.fst ht
    rw [htype]
    exact .pure rfl
  | @next word rest hword hdefine hrest =>
    refine ⟨(.hash, [35]), _, Grammar.lead_nil.reaches rfl (literal_plain _ _) (by simp)
      (by simp), by simp, rfl, fun loc bound d => hlast ?_⟩
    refine .bind (.lift succeeds_peek_queued) fun token ht => ?_
    have htype : token.type = .hash := congrArg Prod.fst ht
    rw [htype]
    refine .bind (.lift succeeds_consume) fun _ _ => ?_
    refine .bind (reads_parseDefine_other hword hdefine hrest) ?_
    rintro _ rfl
    exact .pure rfl
  | line h ih =>
    obtain ⟨k, J, hreaches, hk, hcloses, hstop⟩ := ih
    exact ⟨k, J, hreaches.line, hk, hcloses, hstop⟩

/-! ### All directives -/

def switchScript (label : Label) (text : Bytes) : Bytes :=
  utf8 "\n#switch " ++ label.text ++ utf8 "\n" ++ text

/-- The directives of a text with the windows and the switches they define, and whether all of them
are accepted. -/
inductive Directives (c : CompileContext) :
    Bytes → Bool → Inlined → List Window → List Switch → Inlined → Prop
  | nil {m : Inlined} : Directives c [] true m [] [] m
  | window {label : Label} {lines more : Bytes} {ok ok' : Bool} {w : WindowDraft}
      {m m₁ m' : Inlined} {windows : List Window} {switches : List Switch}
      (hlabel : label.isInline = false) (hzero : label ≠ 0) (hw : w.blocks = [])
      (hlines : CrossesIf parseWindowRound c lines ok (WindowDraft.Over {}) m w.Over m₁)
      (h : Directives c more ok' m₁ windows switches m') :
      Directives c (windowScript label lines ++ more) (ok && ok') m
        (⟨label, w.commands⟩ :: windows) switches m'
  | switch {w : Switch} {b : Block} {text more : Bytes} {ok : Bool} {m m' : Inlined}
      {windows : List Window} {switches : List Switch} (hlabel : w.label.isInline = false)
      (hzero : w.label ≠ 0) (hw : Restates c w b)
      (hwritten : Script.writeStatements 0 w.commands = .ok text)
      (h : Directives c more ok m windows switches m') :
      Directives c (switchScript w.label text ++ more) (w.parted more.isEmpty && ok) m windows
        (w.restated :: switches) m'

def Ended (q : Spot) : Prop := q = ⟨[], []⟩ ∨ q = ⟨[(.endOfFile, [])], []⟩

theorem comesTo_parseTopBody_window {w : WindowDraft} (hlabel : label.isInline = false)
    (hzero : label ≠ 0) (hw : w.blocks = [])
    (hlines : CrossesIf parseWindowRound c lines ok (WindowDraft.Over {}) m w.Over m')
    (hmore : EndsBefore more afterHash q) (p : ProgramDraft) (loc : Location) :
    ComesTo (parseTopBody p ⟨.identifier, utf8 "window", loc⟩) c m
      ⟨[], 32 :: (label.text ++ 10 :: lines ++ more)⟩ (if ok then some (m', q) else none)
      (· = p.adding [⟨label, w.commands⟩] [] afterHash) := by
  have hwindow := comesTo_compileWindow hlabel hzero hlines hw hmore
  have htext : 32 :: (label.text ++ 10 :: lines ++ more) =
      32 :: (label.text ++ 10 :: (lines ++ more)) := by simp
  rw [htext]
  refine hwindow.thenIf ?_
  rintro _ rfl
  exact .pure (by simp [ProgramDraft.adding])

theorem comesTo_parseTopBody_switch {w : Switch} {b : Block} (hlabel : w.label.isInline = false)
    (hzero : w.label ≠ 0) (hw : Restates c w b)
    (hwritten : Script.writeStatements 0 w.commands = .ok text)
    (hmore : EndsBefore more afterHash q) (p : ProgramDraft) (loc : Location) :
    ComesTo (parseTopBody p ⟨.identifier, utf8 "switch", loc⟩) c m
      ⟨[], 32 :: (w.label.text ++ 10 :: text ++ more)⟩
      (if w.parted (!afterHash) then some (m, q) else none)
      (· = p.adding [] [w.restated] afterHash) := by
  have htext : 32 :: (w.label.text ++ 10 :: text ++ more) =
      32 :: (w.label.text ++ 10 :: (text ++ more)) := by simp
  rw [htext]
  refine .after ((reads_parseDefinitionLabel hlabel hzero).standing m) ?_
  rintro _ rfl
  obtain ⟨k, J, hreaches, hk, hcloses, hstop⟩ := runs_switch_end (c := c) hmore
  have hruns : Runs (compileSwitch w.label false) c (Stands .plain ⟨[], 10 :: (text ++ more)⟩)
      (if w.parted k.closes then some (Stands .plain q) else none)
      (· = (w.restated, afterHash)) := runs_compileSwitch hw hwritten hreaches hk hstop
  rw [hcloses] at hruns
  refine (ComesTo.of_runs hruns m).thenIf ?_
  rintro _ rfl
  exact .pure (by simp [ProgramDraft.adding])

theorem ProgramDraft.adding_adding (p : ProgramDraft) (windows windows' : List Window)
    (switches switches' : List Switch) (b b' : Bool) :
    (p.adding windows switches b).adding windows' switches' b' =
      p.adding (windows ++ windows') (switches ++ switches') b' := by
  simp [adding]

def LeapsToEnd (c : CompileContext) (ok : Bool) (m : Inlined) (q : Spot) (p p' : ProgramDraft)
    (m' : Inlined) : Prop :=
  ∃ e, Ended e ∧ LeapsIf parseProgramRound c ok (· = p) m q (· = p') m' e

/-- The next directive begins where the one before it ends, or where the script begins. -/
theorem Directives.leaps (h : Directives c text ok m windows switches m') :
    ∃ q, EndsBefore text (!text.isEmpty) q ∧ ∀ p : ProgramDraft,
      LeapsToEnd c ok m q { p with afterHash := !text.isEmpty } (p.adding windows switches false)
        m' ∧
      LeapsToEnd c ok m ⟨[], text⟩ { p with afterHash := false } (p.adding windows switches false)
        m' := by
  -- a directive, and those after it
  have hstep {word args lead more : Bytes} {ok ok' : Bool} {m m₁ m' : Inlined} {q : Spot}
      {windows windows' : List Window} {switches switches' : List Switch}
      (hword : Script.Identifier word) (hdefine : word ≠ utf8 "define")
      (hlead : lead = [] ∨ lead = [10])
      (hbody : ∀ p loc, ComesTo (parseTopBody p ⟨.identifier, word, loc⟩) c m
        ⟨[], 32 :: (args ++ more)⟩ (if ok then some (m₁, q) else none)
        (· = p.adding windows switches (!more.isEmpty)))
      (hmore : EndsBefore more (!more.isEmpty) q)
      (hrest : ∀ p : ProgramDraft, LeapsToEnd c ok' m₁ q { p with afterHash := !more.isEmpty }
        (p.adding windows' switches' false) m') :
      ∃ q', EndsBefore (lead ++ 35 :: (word ++ 32 :: (args ++ more))) true q' ∧
        ∀ p : ProgramDraft,
          LeapsToEnd c (ok && ok') m q' { p with afterHash := true }
            (p.adding (windows ++ windows') (switches ++ switches') false) m' ∧
          LeapsToEnd c (ok && ok') m ⟨[], lead ++ 35 :: (word ++ 32 :: (args ++ more))⟩
            { p with afterHash := false }
            (p.adding (windows ++ windows') (switches ++ switches') false) m' := by
    have hnext : EndsBefore (35 :: (word ++ 32 :: (args ++ more))) true
        ⟨[(.identifier, word)], 32 :: (args ++ more)⟩ :=
      .next hword hdefine (by rintro _ ⟨⟩; rfl)
    refine ⟨⟨[(.identifier, word)], 32 :: (args ++ more)⟩, ?_, fun p => ?_⟩
    · rcases hlead with rfl | rfl
      · exact hnext
      · exact .line hnext
    have hspace : Grammar.Lead .plain lead := by
      rcases hlead with rfl | rfl
      · exact Grammar.lead_nil
      · exact Grammar.Lead.line Grammar.lead_nil
    obtain ⟨hhanded, hfresh⟩ := leapsIf_topDirective word hword hmore hbody p
    obtain ⟨e, hended, hafter⟩ := hrest (p.adding windows switches (!more.isEmpty))
    rw [ProgramDraft.adding_adding] at hafter
    exact ⟨⟨e, hended, hhanded.trans hafter⟩, ⟨e, hended, (hfresh lead hspace).trans hafter⟩⟩
  induction h with
  | nil =>
    have hsame (p : ProgramDraft) : p.adding [] [] false = { p with afterHash := false } := by
      simp [ProgramDraft.adding]
    refine ⟨_, .ended, fun p => ?_⟩
    rw [hsame]
    exact ⟨⟨_, .inr rfl, .refl⟩, ⟨_, .inl rfl, .refl⟩⟩
  | @window label lines more ok ok' w m m₁ m' windows switches hlabel hzero hw hlines h ih =>
    obtain ⟨q, hmore, hleaps⟩ := ih
    have htext : windowScript label lines ++ more =
        [] ++ 35 :: (utf8 "window" ++ 32 :: (label.text ++ 10 :: lines ++ more)) := by
      have hstart : utf8 "#window " = 35 :: (utf8 "window" ++ [32]) := rfl
      simp [windowScript, hstart]
    rw [htext]
    exact hstep (.of_all rfl) (by decide) (.inl rfl)
      (comesTo_parseTopBody_window hlabel hzero hw hlines hmore) hmore fun p => (hleaps p).1
  | @switch w b text more ok m m' windows switches hlabel hzero hw hwritten h ih =>
    obtain ⟨q, hmore, hleaps⟩ := ih
    have htext : switchScript w.label text ++ more =
        [10] ++ 35 :: (utf8 "switch" ++ 32 :: (w.label.text ++ 10 :: text ++ more)) := by
      have hstart : utf8 "\n#switch " = 10 :: 35 :: (utf8 "switch" ++ [32]) := rfl
      simp [switchScript, hstart, show utf8 "\n" = [10] from rfl]
    have hbody := comesTo_parseTopBody_switch (c := c) (m := m) hlabel hzero hw hwritten hmore
    rw [Bool.not_not] at hbody
    rw [htext]
    exact hstep (.of_all rfl) (by decide) (.inr rfl) hbody hmore fun p => (hleaps p).1

theorem reads_findHash_ended (h : Ended q) : Reads findHash c q ⟨[], []⟩ (· = false) := by
  rcases h with rfl | rfl
  · refine .bind (.lift (succeeds_skipLineEnds (succeeds_peek rfl) (by simp))) fun _ _ => ?_
    refine .bind (.lift succeeds_read_queued) fun token ht => ?_
    have htype : token.type = .endOfFile := congrArg Prod.fst ht
    rw [htype]
    exact .pure rfl
  · exact reads_findHash_end

/-- The program of a text of directives. -/
theorem Directives.comesTo (h : Directives c text ok m windows switches m')
    (htop : c.options.legacyTopLevel = false) :
    ComesTo compileProgram c m ⟨[], text⟩ (if ok then some (m', ⟨[], []⟩) else none)
      (· = ⟨windows, switches ++ m'.switches⟩) := by
  obtain ⟨_, _, hleaps⟩ := h.leaps
  obtain ⟨-, e, hended, hrounds⟩ := hleaps {}
  refine .after (Reads.options.standing m) ?_
  rintro _ rfl
  simp only [htop, Bool.false_eq_true, if_false]
  have hlast : ComesTo (repeatFrom ({} : ProgramDraft) parseProgramRound) c m ⟨[], text⟩
      (if ok then some (m', ⟨[], []⟩) else none) (· = ⟨windows, switches, false⟩) := by
    refine hrounds.comesTo rfl ?_
    rintro _ rfl
    refine succeeds_bind ((reads_findHash_ended hended).standing m') ?_
    rintro _ rfl
    exact .pure ⟨_, rfl, rfl⟩
  refine hlast.thenIf ?_
  rintro _ rfl s hs
  exact ⟨_, s, rfl, by rw [hs.switches], hs⟩

end Compiler

/-! ### The parts of a file -/

theorem within_ok_iff {place : Script.Unwritable → Script.Unwritable} {w : Script.Written}
    {text : Bytes} : Script.within place w = .ok text ↔ w = .ok text := by
  cases w <;> simp [Script.within, Except.mapError]

/-- A file that is written, part by part. -/
theorem writeFile_ok_iff {f : File} {text : Bytes} : Script.writeFile f = .ok text ↔
    ∃ windows switches,
      List.Forall₂ (fun w t => Script.writeWindow f w = .ok t) f.windows windows ∧
      List.Forall₂ (fun s t => Script.writeSwitch s = .ok t)
        (f.switches.filter fun s => !(Script.inlined f).contains s.label) switches ∧
      text = windows.flatten ++ switches.flatten := by
  simp only [Script.writeFile, bind_eq_ok, pure, Except.pure, Except.ok.injEq,
    mapM_eq_ok_iff fun _ _ => within_ok_iff, exists_and_left, eq_comm (a := text)]

theorem writeFile_window {w : Window} {text : Bytes} :
    Script.writeFile ⟨[w], []⟩ = .ok text ↔ Script.writeWindow ⟨[w], []⟩ w = .ok text := by
  simp [writeFile_ok_iff, List.forall₂_cons_left_iff]

/-- What a script of directives is compiled to, if it is. -/
theorem compile_directives {o : Options} {hash : Nat} {text : Bytes} {ok : Bool}
    {windows : List Window} {switches : List Switch} {m : Compiler.Inlined}
    (ho : CompileContext.Plain ⟨o, hash⟩) (hhash : effectiveHash o = .ok hash)
    (h : Compiler.Directives ⟨o, hash⟩ text ok ⟨0, []⟩ windows switches m) (hreturn : 13 ∉ text) :
    if ok then (compile text o).result = .ok ⟨windows, switches ++ m.switches⟩
    else ∃ e, (compile text o).result = .error e := by
  have hstart : Compiler.StandsWith ⟨0, []⟩ ⟨[], text⟩ ⟨.ofSource text o.file true, [], 0, []⟩ :=
    ⟨⟨rfl, rfl, rfl, rfl, rfl⟩, rfl, rfl⟩
  have hcomes := h.comesTo ho.legacyTopLevel
  have hcomments : o.legacyComments = false := ho.legacyComments
  have hmacros : o.legacyMacros = false := ho.legacyMacros
  have hprepared : prepareSource o text = .ok text := by
    simp only [prepareSource, hcomments, hmacros, normalizeNewlines_eq_self hreturn]
    rfl
  have heffective : o.effective = o := ho.effective
  have hfloats : o.allowExpFloats = true := ho.allowExpFloats
  have hwarnings : o.warningsAsErrors = false := ho.warningsAsErrors
  cases ok with
  | true =>
    obtain ⟨_, t, hrun, rfl, -⟩ := hcomes.succeeds _ _ rfl _ hstart
    simp only [if_true, compile, heffective, hhash, hprepared, hfloats, hrun]
    -- warnings are reported and change nothing
    cases t.warnings with
    | nil => rfl
    | cons w ws => simp [hwarnings]
  | false =>
    obtain ⟨e, t, hrun⟩ := hcomes.fails rfl _ hstart
    simp only [Bool.false_eq_true, if_false, compile, heffective, hhash, hprepared, hfloats, hrun]
    exact ⟨_, rfl⟩

end ApeScript
