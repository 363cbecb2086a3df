import ApeScript.Proofs.InlineLabels
import ApeScript.Proofs.WrittenSwitch
import ApeScript.Proofs.WrittenWindow

/-!
# Inline switches that are written

A window names a switch by its label, or holds its statements in braces. The line of such a
reference is read with the next inline label for a switch in braces, or fails where the statements
are not parted. So do the lines of all references of a window, one after the other.
-/

namespace ApeScript

namespace Compiler

open Lexer

variable {c : CompileContext} {p : Spot} {m : Inlined}

/-! ### A switch in braces -/

def Inlined.adding (m : Inlined) (switches : List Switch) : Inlined :=
  ⟨m.count + switches.length, m.switches ++ switches⟩

variable {w : WindowDraft} {slot : Option Label} {b : Block} {switch : Switch}
  {body rest : Bytes} {label : Label}

theorem reaches_closeBrace (rest : Bytes) :
    Reaches .plain (125 :: rest) (.closeBrace, [125]) (Stands .plain ⟨[(.closeBrace, [125])], rest⟩) :=
  Grammar.lead_nil.reaches rfl (by simp [Setting.Literal]) (by simp) (by simp)

theorem runs_compileSwitch_inline (h : Restates c switch b)
    (hwritten : Script.writeStatements 1 switch.commands = .ok body) :
    Runs (compileSwitch switch.label true) c (Stands .plain ⟨[], 10 :: (body ++ 125 :: rest)⟩)
      (if switch.parted true then some (Stands .plain ⟨[(.closeBrace, [125])], rest⟩) else none)
      (· = (switch.restated, false)) := by
  refine runs_compileSwitch h hwritten (reaches_closeBrace rest) (by simp)
    fun loc bound d => .of_reads (.stop ?_)
  refine .bind (.lift Stands.succeeds_peek_queued) fun token ht => ?_
  have htype : token.type = .closeBrace := congrArg Prod.fst ht
  rw [htype]
  exact .pure rfl

theorem succeeds_nextInlineLabel (hcount : m.count ≠ maxInline) :
    Succeeds (nextInlineLabel c) (StandsWith m p) (StandsWith ⟨m.count + 1, m.switches⟩ p)
      (· = Label.inline c.hash m.count) := by
  intro s hs
  have hcount' : s.inlineCount ≠ maxInline := hs.count ▸ hcount
  refine ⟨Label.inline c.hash s.inlineCount, { s with inlineCount := s.inlineCount + 1 }, ?_,
    by rw [hs.count], hs.lexer, congrArg (· + 1) hs.count, hs.switches⟩
  change (if s.inlineCount = maxInline then _ else _ : Compiler Label) c s = _
  rw [if_neg hcount']
  rfl

theorem comesTo_parseSwitchRef (h : Restates c switch b)
    (hwritten : Script.writeStatements 1 switch.commands = .ok body) (hw : w.Flat)
    (hslot : slot = none) (hlabel : switch.label = Label.inline c.hash m.count)
    (hcount : m.count ≠ maxInline) (loc : Location) :
    ComesTo (parseSwitchRef w loc slot) c m ⟨[], utf8 " \x7b\n" ++ (body ++ 125 :: rest)⟩
      (if switch.parted true then some (m.adding [switch.restated], ⟨[], rest⟩) else none)
      (· = switch.label) := by
  refine .after ((reads_checkUnconditional hw loc).standing m) fun _ _ => ?_
  refine .after ((reads_checkUnset hslot loc _).standing m) fun _ _ => ?_
  have hopen : first? .normal {} (utf8 " \x7b\n" ++ (body ++ 125 :: rest)) =
      some ((.openBrace, [123]), 10 :: (body ++ 125 :: rest)) := rfl
  refine .after ((Reads.lift (succeeds_peek hopen)).standing m) fun token ht => ?_
  have htype : token.type = .openBrace := congrArg Prod.fst ht
  rw [htype, if_neg (by simp)]
  refine .after ((Reads.lift (succeeds_skipLineEnds succeeds_peek_queued (by simp))).standing m)
    fun _ _ => ?_
  refine .after ((Reads.lift (succeeds_expect succeeds_read_queued)).standing m) fun _ _ => ?_
  refine .after (succeeds_nextInlineLabel hcount) ?_
  rintro _ rfl
  rw [← hlabel]
  refine (ComesTo.of_runs (runs_compileSwitch_inline h hwritten) _).thenIf ?_
  rintro _ rfl
  refine succeeds_bind ((Reads.lift (succeeds_expect succeeds_read_queued)).standing _)
    fun _ _ s hs => ?_
  refine ⟨_, { s with inline := s.inline ++ [switch.restated] }, rfl, rfl, hs.lexer, hs.count, ?_⟩
  exact congrArg (· ++ _) hs.switches

/-! ### References to switches -/

theorem crossesIf_inlineRef {code : UInt8} (hcode : CommandCode.isSwitchRef code = true)
    (h : Restates c switch b)
    (hwritten : Script.writeStatements 1 switch.commands = .ok body) (hw : w.blocks = [])
    (hlabel : switch.label = Label.inline c.hash m.count) (hcount : m.count ≠ maxInline)
    (hfits : (Command.switchRef code switch.label).Fits w) :
    CrossesIf parseWindowRound c
      (Script.switchDirective code ++ utf8 " \x7b\n" ++ body ++ utf8 "\x7d\n")
      (switch.parted true) w.Over m (w.say (.switchRef code switch.label)).Over
      (m.adding [switch.restated]) := by
  have hread (slot : Option Label) (hslot : slot = none) (loc : Location) (rest : Bytes) :
      ComesTo (parseSwitchRef { w with blocks := [], closed := [] } loc slot) c m
        ⟨[], utf8 " \x7b\n" ++ (body ++ 125 :: rest)⟩
        (if switch.parted true then some (m.adding [switch.restated], ⟨[], rest⟩) else none)
        (· = switch.label) :=
    comesTo_parseSwitchRef h hwritten ⟨rfl, rfl⟩ hslot hlabel hcount loc
  have htext : Script.switchDirective code ++ utf8 " \x7b\n" ++ body ++ utf8 "\x7d\n" =
      Script.conditionLine none ++
        (Script.switchDirective code ++ (utf8 " \x7b\n" ++ (body ++ [125])) ++ [10]) := by
    simp [Script.conditionLine, show utf8 "\x7d\n" = [125, 10] from rfl]
  rw [htext]
  have hargs : Spaced (utf8 " \x7b\n" ++ (body ++ [125])) := .blank _
  rcases CommandCode.isSwitchRef_iff.1 hcode with rfl | rfl | rfl
  all_goals
    refine crossesIf_line none hw hw (by simp) rfl hargs _ (fun _ _ => rfl)
      fun blocks hblocks loc rest => ⟨_, .unread, ?_⟩
    cases hblocks
    have hargsText : utf8 " \x7b\n" ++ (body ++ [125]) ++ 10 :: rest =
        utf8 " \x7b\n" ++ (body ++ 125 :: (10 :: rest)) := by simp
    rw [hargsText]
    refine (hread _ hfits loc _).thenIf ?_
    rintro _ rfl
    exact .pure rfl

/-! ### All references of a window -/

/-- The switches are the next ones that are made from the inline blocks of a file. -/
structure Upcoming (c : CompileContext) (f : File) (m : Inlined) (switches : List Switch) :
    Prop where
  found : ∀ s ∈ switches, f.switches.reverse.find? (·.label = s.label) = some s
  restates : ∀ s ∈ switches, ∃ b, Restates c s b
  labels : switches.map (·.label) =
    (List.range' m.count switches.length).map (Label.inline c.hash)
  count : m.count + switches.length ≤ maxInline

namespace Upcoming

variable {f : File} {switches switches' : List Switch}

theorem append (h : Upcoming c f m (switches ++ switches')) : Upcoming c f m switches ∧
    Upcoming c f (m.adding (switches.map Switch.restated)) switches' := by
  have hlabels := h.labels
  have hcount := h.count
  rw [List.length_append] at hcount hlabels
  rw [List.map_append, ← List.range'_append_1, List.map_append] at hlabels
  obtain ⟨hfirst, hsecond⟩ := List.append_inj hlabels (by simp)
  refine ⟨⟨fun s hs => h.found s (List.mem_append_left _ hs),
    fun s hs => h.restates s (List.mem_append_left _ hs), hfirst, by omega⟩,
    ⟨fun s hs => h.found s (List.mem_append_right _ hs),
    fun s hs => h.restates s (List.mem_append_right _ hs), ?_, ?_⟩⟩
  · simpa [Inlined.adding] using hsecond
  · simp [Inlined.adding]
    omega

theorem head (h : Upcoming c f m (switch :: switches)) :
    switch.label = Label.inline c.hash m.count ∧ m.count ≠ maxInline := by
  have hlabels := h.labels
  have hcount := h.count
  rw [List.length_cons] at hcount hlabels
  rw [List.range'_succ] at hlabels
  exact ⟨(List.cons.inj hlabels).1, by omega⟩

end Upcoming

theorem Inlined.adding_adding (m : Inlined) (switches switches' : List Switch) :
    (m.adding switches).adding switches' = m.adding (switches ++ switches') := by
  simp [adding, Nat.add_assoc]

end Compiler

def WindowDraft.name (w : WindowDraft) (r : UInt8 × Label) : WindowDraft :=
  w.say (.switchRef r.1 r.2)

namespace Compiler

variable {c : CompileContext} {f : File} {w : WindowDraft} {m : Inlined} {r r' : UInt8 × Label}
  {refs : List (UInt8 × Label)} {lines : List Bytes} {switches : List Switch}

theorem fits_name (hr : CommandCode.isSwitchRef r.1 = true)
    (hr' : CommandCode.isSwitchRef r'.1 = true)
    (hne : r.1 ≠ r'.1) (hfits : (Command.switchRef r'.1 r'.2).Fits w) :
    (Command.switchRef r'.1 r'.2).Fits (w.name r) := by
  obtain ⟨code, label⟩ := r
  obtain ⟨code', label'⟩ := r'
  rcases CommandCode.isSwitchRef_iff.1 hr with rfl | rfl | rfl <;>
    rcases CommandCode.isSwitchRef_iff.1 hr' with rfl | rfl | rfl <;>
    first | exact absurd rfl hne | exact hfits

/-- The lines of the references of a window make a draft name the switches. -/
theorem crossesIf_refs (hwritten : refs.mapM (fun r => Script.writeSwitchRef f r.1 r.2) = .ok lines)
    (hw : w.blocks = []) (hcodes : ∀ r ∈ refs, CommandCode.isSwitchRef r.1 = true)
    (hdistinct : (refs.map (·.1)).Nodup)
    (hfits : ∀ r ∈ refs, (Command.switchRef r.1 r.2).Fits w)
    (hinline : (refs.map (·.2)).filter Label.isInline = switches.map (·.label))
    (hswitches : Upcoming c f m switches) :
    CrossesIf parseWindowRound c lines.flatten (switches.all (·.parted true)) w.Over m
      (refs.foldl WindowDraft.name w).Over (m.adding (switches.map Switch.restated)) := by
  induction refs generalizing w lines m switches with
  | nil =>
    cases hwritten
    cases switches with
    | nil =>
      have hnone : m.adding [] = m := by simp [Inlined.adding]
      rw [List.map_nil, hnone]
      exact Crosses.nil.crossesIf
    | cons => cases hinline
  | cons r refs ih =>
    rw [List.mapM_cons] at hwritten
    obtain ⟨line, hline, hwritten⟩ := bind_eq_ok.1 hwritten
    obtain ⟨rest, hrest, hwritten⟩ := bind_eq_ok.1 hwritten
    cases hwritten
    rw [List.map_cons, List.nodup_cons] at hdistinct
    have hcode := hcodes r List.mem_cons_self
    have hfit := hfits r List.mem_cons_self
    -- the other references still fit once the first one is read
    have hothers {m : Inlined} {switches : List Switch}
        (hinline : (refs.map (·.2)).filter Label.isInline = switches.map (·.label))
        (hswitches : Upcoming c f m switches) :
        CrossesIf parseWindowRound c rest.flatten (switches.all (·.parted true)) (w.name r).Over m
          (refs.foldl WindowDraft.name (w.name r)).Over (m.adding (switches.map Switch.restated)) :=
      ih hrest ((blocks_say w _).trans hw) (fun r' hr' => hcodes r' (List.mem_cons_of_mem _ hr'))
        hdistinct.2 (fun r' hr' => fits_name hcode (hcodes r' (List.mem_cons_of_mem _ hr'))
          (fun heq => hdistinct.1 (List.mem_map.2 ⟨r', hr', heq.symm⟩))
          (hfits r' (List.mem_cons_of_mem _ hr'))) hinline hswitches
    rw [List.flatten_cons]
    obtain ⟨code, label⟩ := r
    cases hlabel : label.isInline with
    | false =>
      obtain ⟨line', hline', hcrosses⟩ := crosses_switchRef f hcode hlabel
      cases hline.symm.trans hline'
      rw [List.map_cons, List.filter_cons_of_neg (by simp [hlabel])] at hinline
      exact (hcrosses w hw hfit m).crossesIf.append (hothers hinline hswitches)
    | true =>
      rw [List.map_cons, List.filter_cons_of_pos hlabel] at hinline
      cases switches with
      | nil => cases hinline
      | cons switch switches =>
        obtain ⟨hhead, htail⟩ := List.cons.inj hinline
        have hsame : label = switch.label := hhead
        subst hsame
        obtain ⟨hnumber, hcount⟩ := hswitches.head
        obtain ⟨b, hrestates⟩ := hswitches.restates switch List.mem_cons_self
        obtain ⟨-, hrestSwitches⟩ := (show Upcoming c f m ([switch] ++ switches) from hswitches).append
        rw [Script.writeSwitchRef, hswitches.found switch List.mem_cons_self] at hline
        simp only [hlabel, Bool.not_true, Bool.false_eq_true, if_false] at hline
        split at hline
        · cases hline
        · rename_i body hbody
          cases hline
          have hfirst := crossesIf_inlineRef hcode hrestates hbody hw hnumber hcount hfit
          have hall := hfirst.append (hothers htail hrestSwitches)
          rw [Inlined.adding_adding] at hall
          exact hall

end Compiler

end ApeScript
