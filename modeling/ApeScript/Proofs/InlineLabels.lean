import ApeScript.File.References
import ApeScript.Proofs.CarriedFile
import ApeScript.Proofs.CompilerRun
import ApeScript.Script.Writer

/-!
# The labels of inline switches

Inline switches are numbered while windows are read. The ledger kept here says after every directive
that the switches made so far have the next numbers in order, and that the windows name each of them
once. So the inline switches of a compiled file come last, under consecutive labels that no script
can write, and each is named by one command. Another hash shifts these labels and changes nothing
else.
-/

namespace ApeScript

open Label (inlineBase)
open Compiler (maxInline)

/-! ### Naming inline switches -/

def Command.inlineRef? : Command → Option Label
  | switchRef _ label => if label.isInline then some label else none
  | _ => none

theorem Command.Listed.inlineRef? {c : Command} (h : c.Listed) : c.inlineRef? = none := by
  cases c <;> first | rfl | exact h.elim

def Window.inlineRefs (w : Window) : List Label := w.commands.filterMap Command.inlineRef?

def Command.ref? : Command → Option (UInt8 × Label)
  | switchRef code label => some (code, label)
  | _ => none

theorem Command.inlineRef?_eq (c : Command) :
    c.inlineRef? = (c.ref?.map (·.2)).filter Label.isInline := by
  cases c with
  | switchRef code label => simp [inlineRef?, ref?, Option.filter]
  | _ => rfl

theorem Script.switchRefs_eq (w : Window) :
    switchRefs w = (w.commands.filterMap Command.ref?).mergeSort fun a b => a.2 ≤ b.2 := by
  rw [switchRefs]
  congr 2

/-- The inline switches that a window holds when it is written, in the order of their text. -/
def Window.heldRefs (w : Window) : List Label :=
  ((Script.switchRefs w).map (·.2)).filter Label.isInline

theorem Window.heldRefs_perm (w : Window) : w.heldRefs.Perm w.inlineRefs := by
  have heq : w.inlineRefs =
      ((w.commands.filterMap Command.ref?).map (·.2)).filter Label.isInline := by
    rw [inlineRefs, List.map_filterMap, List.filter_filterMap]
    exact congrArg (List.filterMap · _) (funext Command.inlineRef?_eq)
  rw [heldRefs, heq, Script.switchRefs_eq]
  exact ((List.mergeSort_perm _ _).map _).filter _

theorem Window.heldRefs_sorted (w : Window) : w.heldRefs.Pairwise (· ≤ ·) := by
  let le (a b : UInt8 × Label) : Bool := decide (a.2 ≤ b.2)
  have htrans (a b c : UInt8 × Label) (hab : le a b = true) (hbc : le b c = true) :
      le a c = true :=
    decide_eq_true (UInt32.le_trans (of_decide_eq_true hab) (of_decide_eq_true hbc))
  have htotal (a b : UInt8 × Label) : (le a b || le b a) = true := by
    simpa [le] using UInt32.le_total a.2 b.2
  have hsorted := List.pairwise_mergeSort htrans htotal (w.commands.filterMap Command.ref?)
  rw [heldRefs, Script.switchRefs_eq]
  exact (List.pairwise_map.2 (hsorted.imp of_decide_eq_true)).filter _

namespace WindowDraft

variable {w : WindowDraft}

def inlineRefs (w : WindowDraft) : List Label := w.refs.filter Label.isInline

theorem filterMap_commands (hw : w.Listed) :
    w.commands.filterMap Command.inlineRef? = w.inlineRefs := by
  have hnone {cs : List Command} (h : ∀ c ∈ cs, c.Listed) :
      cs.filterMap Command.inlineRef? = [] :=
    List.filterMap_eq_nil_iff.2 fun c hc => (h c hc).inlineRef?
  have href (code : UInt8) (o : Option Label) :
      (ref code o).filterMap Command.inlineRef? = o.toList.filter Label.isInline := by
    cases o with
    | none => rfl
    | some label =>
      by_cases hinline : label.isInline = true
      · simp [ref, Command.inlineRef?, hinline]
      · simp [ref, Command.inlineRef?, hinline]
  rw [commands_eq, List.filterMap_append, List.filterMap_append, hnone hw.leading,
    hnone hw.trailing]
  simp [naming, inlineRefs, refs, href]

end WindowDraft

/-! ### Labels that scripts can write -/

theorem Label.parse_lt {s : Bytes} {l : Label} (h : parse s = .ok l) : l.toNat < inlineBase := by
  unfold parse at h
  split at h
  · cases h
  · split at h
    · exact ofHalves_lt h
    · cases h

/-- What a command of a window refers to, its switches aside, has a label that scripts can write. -/
theorem Command.Listed.reference?_lt {c : Command} {target : Target} {l : Label} (h : c.Listed)
    (href : c.reference? = some (target, l)) : l.toNat < inlineBase := by
  cases c with
  | switchRef => exact h.elim
  | choice =>
    cases href
    exact h
  | subWindow =>
    cases href
    exact h
  | simpleText code text =>
    simp only [Command.reference?] at href
    split at href
    · cases hparse : Label.parse text with
      | error e =>
        rw [hparse] at href
        cases href
      | ok label =>
        rw [hparse] at href
        cases href
        exact Label.parse_lt hparse
    · cases href
  | _ => cases href

theorem Statement.reference?_lt {s : Statement} {l : Label} (h : s.reference? = some l) :
    l.toNat < inlineBase := by
  unfold reference? at h
  split at h
  · cases hstr : s.str with
    | none =>
      rw [hstr] at h
      cases h
    | some text =>
      cases hparse : Label.parse text with
      | error e =>
        simp [hstr, hparse, Except.toOption] at h
      | ok label =>
        simp [hstr, hparse, Except.toOption] at h
        obtain ⟨-, rfl⟩ := h
        exact Label.parse_lt hparse
  · cases h

/-! ### Readers that make no inline switch -/

/-- Two states with the same inline switches. -/
structure CompileState.Level (s t : CompileState) : Prop where
  inline : t.inline = s.inline
  inlineCount : t.inlineCount = s.inlineCount

/-- A compilation as its own variant, as long as no inline switch is made. -/
def Variant.still (c : CompileContext) (s : CompileState) : Variant where
  context := c
  file := c.options.file
  given := c.options.hash
  hash := c.hash
  malformed := false
  exponents := false
  emptyBlocks := false
  Holds := s.Level
  reading h _ _ := ⟨h.inline, h.inlineCount⟩

namespace Compiler

variable {α β : Type} {c : CompileContext} {s : CompileState} {x y : Compiler α}

/-- What every variant carries makes no inline switch. -/
theorem gives_of_carries {z : Compiler β} {R : α → β → Prop}
    (h : (Variant.still c s).Carries x z R) :
    Gives x c s fun a t => s.Level t ∧ ∃ b, R a b := by
  intro a t hrun
  obtain ⟨b, -, ht, hab⟩ := h s a t ⟨rfl, rfl⟩ hrun
  exact ⟨ht, b, hab⟩

theorem gives_of_agrees {z : Compiler β} {m : α → β} {P : α → Prop}
    (h : (Variant.still c s).Carries x z fun a b => b = m a ∧ P a) :
    Gives x c s fun a t => s.Level t ∧ P a := by
  intro a t hrun
  obtain ⟨ht, b, -, ha⟩ := gives_of_carries h a t hrun
  exact ⟨ht, ha⟩

end Compiler

/-! ### The ledger -/

/-- The inline switches made so far have the next numbers in order, and each of them was named once
by the labels in `refs`. -/
structure Ledger (c : CompileContext) (refs : List Label) (s : CompileState) : Prop where
  count : s.inlineCount ≤ maxInline
  labels : s.inline.map (·.label) = (List.range s.inlineCount).map (Label.inline c.hash)
  refs : refs.Perm (s.inline.map (·.label))
  labeled : ∀ switch ∈ s.inline, ∀ p ∈ switch.commands,
    p.statement.Labeled c.options.legacyLabeledCommands

namespace Ledger

variable {c : CompileContext} {refs refs' : List Label} {s t : CompileState}

theorem level (h : Ledger c refs s) (ht : s.Level t) : Ledger c refs t where
  count := by rw [ht.inlineCount]; exact h.count
  labels := by rw [ht.inline, ht.inlineCount]; exact h.labels
  refs := by rw [ht.inline]; exact h.refs
  labeled := by rw [ht.inline]; exact h.labeled

theorem perm (h : Ledger c refs s) (hrefs : refs'.Perm refs) : Ledger c refs' s :=
  { h with refs := hrefs.trans h.refs }

/-- One more switch, under the next label, which is named where it stands. -/
theorem add {switch : Switch} (h : Ledger c refs s) (hcount : s.inlineCount < maxInline)
    (hlabel : switch.label = Label.inline c.hash s.inlineCount)
    (hlabeled : ∀ p ∈ switch.commands, p.statement.Labeled c.options.legacyLabeledCommands)
    (htcount : t.inlineCount = s.inlineCount + 1) (htinline : t.inline = s.inline ++ [switch]) :
    Ledger c (refs ++ [switch.label]) t where
  count := by omega
  labels := by
    rw [htinline, htcount, List.range_succ, List.map_append, List.map_append, h.labels]
    simp [hlabel]
  refs := by
    rw [htinline, List.map_append]
    exact h.refs.append_right _
  labeled := by
    rw [htinline]
    exact Contract.forall_mem_concat h.labeled hlabeled

theorem length_refs (h : Ledger c refs s) : refs.length = s.inlineCount := by
  rw [h.refs.length_eq, h.labels]
  simp

/-- A window names the next inline switches, and holds them in the order of their numbers. -/
theorem append_heldRefs {w : Window} (hhash : c.hash ≤ Options.maxHash) (h : Ledger c refs s)
    (ht : Ledger c (refs ++ w.inlineRefs) t) :
    (List.range s.inlineCount).map (Label.inline c.hash) ++ w.heldRefs =
      (List.range t.inlineCount).map (Label.inline c.hash) := by
  have hle : s.inlineCount ≤ t.inlineCount := by
    rw [← h.length_refs, ← ht.length_refs, List.length_append]
    exact Nat.le_add_right _ _
  have hsplit : List.range t.inlineCount = List.range s.inlineCount ++
      List.range' s.inlineCount (t.inlineCount - s.inlineCount) := by
    have happend : List.range' 0 s.inlineCount ++
        List.range' (0 + s.inlineCount) (t.inlineCount - s.inlineCount) =
          List.range' 0 (s.inlineCount + (t.inlineCount - s.inlineCount)) := List.range'_append_1
    rw [Nat.zero_add, Nat.add_sub_cancel' hle] at happend
    rw [List.range_eq_range', List.range_eq_range', happend]
  rw [hsplit, List.map_append, List.append_cancel_left_eq]
  have hperm : w.inlineRefs.Perm
      ((List.range' s.inlineCount (t.inlineCount - s.inlineCount)).map (Label.inline c.hash)) := by
    have hprior : refs.Perm ((List.range s.inlineCount).map (Label.inline c.hash)) :=
      h.labels ▸ h.refs
    have hall : (refs ++ w.inlineRefs).Perm
        ((List.range t.inlineCount).map (Label.inline c.hash)) := ht.labels ▸ ht.refs
    rw [hsplit, List.map_append] at hall
    exact (List.perm_append_left_iff _).1 ((hprior.symm.append_right _).trans hall)
  have hincreasing : ((List.range' s.inlineCount (t.inlineCount - s.inlineCount)).map
      (Label.inline c.hash)).Pairwise (· ≤ ·) := by
    refine List.pairwise_map.2 (List.Pairwise.imp_of_mem ?_ List.pairwise_lt_range')
    intro i j hi hj hlt
    have hcount := ht.count
    rw [List.mem_range'_1] at hi hj
    rw [UInt32.le_iff_toNat_le, Label.toNat_inline hhash (by omega),
      Label.toNat_inline hhash (by omega)]
    omega
  exact (w.heldRefs_perm.trans hperm).eq_of_pairwise (fun _ _ _ _ => UInt32.le_antisymm)
    w.heldRefs_sorted hincreasing

end Ledger

namespace Compiler

variable {c : CompileContext} {s : CompileState} {refs prior : List Label} {w : WindowDraft}
  {loc : Location} {token : Token}

open Variant

theorem gives_checkUnset {α : Type} {slot : Option α} {cause : Cause} :
    Gives (checkUnset slot loc cause) c s fun _ t => slot = none ∧ t = s := by
  unfold checkUnset
  cases slot with
  | none => exact .pure ⟨rfl, rfl⟩
  | some a => exact .fail

theorem gives_nextInlineLabel : Gives nextInlineLabel c s fun l t =>
    s.inlineCount ≠ maxInline ∧ l = Label.inline c.hash s.inlineCount ∧
      t = { s with inlineCount := s.inlineCount + 1 } := by
  intro l t h
  change (if s.inlineCount = maxInline then _ else _ : Compiler Label) c s = .ok l t at h
  split at h
  · cases h
  · cases h
    exact ⟨‹_›, rfl, rfl⟩

/-- A directive that names a switch enters it into the ledger if it is an inline one. -/
theorem gives_parseSwitchRef {slot : Option Label} (hhash : c.hash ≤ Options.maxHash)
    (hs : Ledger c refs s) :
    Gives (parseSwitchRef w loc slot) c s fun l t =>
      slot = none ∧ Ledger c (refs ++ [l].filter Label.isInline) t := by
  refine .bind (gives_of_agrees same_checkUnconditional) fun _ s ⟨hlevel, _⟩ => ?_
  replace hs := hs.level hlevel
  refine .bind gives_checkUnset ?_
  rintro _ _ ⟨hslot, rfl⟩
  refine .bind (gives_of_agrees shares_peekNormal) fun token s ⟨hlevel, _⟩ => ?_
  replace hs := hs.level hlevel
  refine .ite (fun _ => ?_) fun _ => ?_
  · refine (gives_of_agrees agrees_parseLabel).mono fun l t ⟨hlevel, hl⟩ => ⟨hslot, ?_⟩
    have hwritten : [l].filter Label.isInline = [] := by
      simpa [Label.isInline] using hl
    rw [hwritten, List.append_nil]
    exact hs.level hlevel
  refine .bind (gives_of_agrees same_skipLineEnds) fun _ s ⟨hlevel, _⟩ => ?_
  replace hs := hs.level hlevel
  refine .bind (gives_of_agrees shares_expect) fun _ s ⟨hlevel, _⟩ => ?_
  replace hs := hs.level hlevel
  refine .bind gives_nextInlineLabel ?_
  rintro label _ ⟨hnot, rfl, rfl⟩
  have hcount : s.inlineCount < maxInline := Nat.lt_of_le_of_ne hs.count hnot
  refine .bind (gives_of_carries (z := compileSwitch 0 true) carries_compileSwitch) ?_
  rintro ⟨switch, afterHash⟩ t ⟨hlevel, _, hlabel, -, hlabeled⟩
  refine .ite (fun _ => ?_) fun _ => ?_
  · exact .bind (P := fun _ _ => True) (fun _ _ _ => trivial) fun _ _ _ => .fail_bind
  refine .bind (gives_of_agrees shares_expect) fun _ u hu => ?_
  refine .bind (P := fun _ v => v = { u with inline := u.inline ++ [switch] }) ?_ ?_
  · rintro _ _ ⟨⟩
    rfl
  rintro _ _ rfl
  refine .pure ⟨hslot, ?_⟩
  have hinline : [Label.inline c.hash s.inlineCount].filter Label.isInline =
      [Label.inline c.hash s.inlineCount] := by
    simp [Label.isInline_inline hhash hcount]
  rw [hinline, ← hlabel]
  refine hs.add hcount hlabel hlabeled ?_ ?_
  · exact hu.1.inlineCount.trans hlevel.inlineCount
  · exact congrArg (· ++ [switch]) (hu.1.inline.trans hlevel.inline)

/-- The draft with a switch that it names, and the slot that was empty before. -/
theorem gives_nameSwitch {slot : Option Label} {put : Label → WindowDraft}
    (hhash : c.hash ≤ Options.maxHash) (hs : Ledger c (prior ++ w.inlineRefs) s)
    (hlisted : ∀ l, (put l).Listed)
    (hput : ∀ l, slot = none → (put l).refs.Perm (w.refs ++ [l])) :
    Gives (parseSwitchRef w loc slot >>= fun l => pure (put l)) c s fun v t =>
      v.Listed ∧ Ledger c (prior ++ v.inlineRefs) t := by
  refine .bind (gives_parseSwitchRef hhash hs) fun l t ⟨hslot, ht⟩ => .pure ⟨hlisted l, ht.perm ?_⟩
  have hrefs : (put l).inlineRefs.Perm (w.inlineRefs ++ [l].filter Label.isInline) := by
    have h := (hput l hslot).filter Label.isInline
    rwa [List.filter_append] at h
  rw [List.append_assoc]
  exact hrefs.append_left prior

theorem gives_parseCommand (hhash : c.hash ≤ Options.maxHash) (hw : w.Listed)
    (hs : Ledger c (prior ++ w.inlineRefs) s) : Gives (parseCommand w token) c s fun v t =>
      v.Listed ∧ Ledger c (prior ++ v.inlineRefs) t := by
  by_cases hword : token.text ∈ switchWords
  · obtain h | h | h : token.text = utf8 "startswitch" ∨ token.text = utf8 "thinkswitch" ∨
        token.text = utf8 "finishswitch" := by simpa [switchWords] using hword
    · have hrun : parseCommand w token = parseSwitchRef w token.loc w.startSwitch >>= fun l =>
          pure { w with startSwitch := some l } := by
        simp +decide [parseCommand, h]
      rw [hrun]
      refine gives_nameSwitch hhash hs (fun _ => { hw with }) fun l hslot => ?_
      have hlast := List.perm_append_singleton l (w.thinkSwitch.toList ++ w.finishSwitch.toList)
      simpa [WindowDraft.refs, hslot] using hlast.symm
    · have hrun : parseCommand w token = parseSwitchRef w token.loc w.thinkSwitch >>= fun l =>
          pure { w with thinkSwitch := some l } := by
        simp +decide [parseCommand, h]
      rw [hrun]
      refine gives_nameSwitch hhash hs (fun _ => { hw with }) fun l hslot => ?_
      have hlast := List.perm_append_singleton l w.finishSwitch.toList
      simpa [WindowDraft.refs, hslot] using hlast.symm.append_left w.startSwitch.toList
    · have hrun : parseCommand w token = parseSwitchRef w token.loc w.finishSwitch >>= fun l =>
          pure { w with finishSwitch := some l } := by
        simp +decide [parseCommand, h]
      rw [hrun]
      refine gives_nameSwitch hhash hs (fun _ => { hw with }) fun l hslot => ?_
      simp [WindowDraft.refs, hslot]
  · refine (gives_of_carries (carries_parseCommand (fun h => absurd h hword) hw)).mono ?_
    rintro v t ⟨hlevel, v', hv⟩
    refine ⟨hv.listed, ?_⟩
    unfold WindowDraft.inlineRefs at hs ⊢
    rw [hv.refs hword]
    exact hs.level hlevel

theorem gives_parseDirective (hhash : c.hash ≤ Options.maxHash) (hw : w.Listed)
    (hs : Ledger c (prior ++ w.inlineRefs) s) : Gives (parseDirective w token) c s fun v t =>
      v.Listed ∧ Ledger c (prior ++ v.inlineRefs) t := by
  have hcleared : WindowDraft.Listed { w with closed := [] } := { hw with }
  -- what opens or closes a block names no switch
  have hkept {v : WindowDraft} {x y : Compiler WindowDraft}
      (h : (Variant.still c s).Carries x y ((Variant.still c s).Kept v)) (hv : v.refs = w.refs) :
      Gives x c s fun v t => v.Listed ∧ Ledger c (prior ++ v.inlineRefs) t := by
    refine (gives_of_carries h).mono ?_
    rintro u t ⟨hlevel, _, hu⟩
    refine ⟨hu.listed, ?_⟩
    unfold WindowDraft.inlineRefs at hs ⊢
    rw [hu.refs, hv]
    exact hs.level hlevel
  refine .ite (fun _ => .pure ⟨hw, hs⟩) fun _ => ?_
  refine .ite (fun _ => hkept (carries_closeBrace hcleared) rfl) fun _ => ?_
  refine .ite (fun _ => hkept (carries_openElse hw) rfl) fun _ => .guard fun _ => ?_
  refine .ite (fun _ => hkept (carries_openIf hcleared) rfl) fun _ => ?_
  refine .bind (gives_parseCommand hhash hcleared hs) ?_
  rintro v t ⟨hv, ht⟩
  refine .bind (gives_of_agrees shares_peekNormal) ?_
  rintro next u ⟨hlevel, -⟩
  exact .guard fun _ => .pure ⟨{ hv with }, ht.level hlevel⟩

/-- A window as it is compiled: its number is one that scripts can write, and so is every label in
it that names no switch. -/
structure WindowWritten (w : Window) : Prop where
  id : w.id.toNat < inlineBase
  references : ∀ r ∈ File.windowReferences w, r.target = .window → r.label.toNat < inlineBase

theorem windowWritten_commands {label : Label} (hlabel : label.toNat < inlineBase)
    (hw : w.Listed) : WindowWritten ⟨label, w.commands⟩ := by
  refine ⟨hlabel, fun r hr htarget => ?_⟩
  obtain ⟨command, hcommand, hr⟩ := List.mem_filterMap.1 hr
  obtain ⟨⟨target, l⟩, href, rfl⟩ := Option.map_eq_some_iff.1 hr
  have hnaming : command ∉ w.naming := by
    intro hmem
    have href' (code : UInt8) (o : Option Label) (h : command ∈ WindowDraft.ref code o) :
        target = .switch := by
      obtain ⟨l, -, rfl⟩ : ∃ l, o = some l ∧ Command.switchRef code l = command := by
        simpa [WindowDraft.ref] using h
      cases href
      rfl
    have hswitch : target = .switch := by
      simp only [WindowDraft.naming, List.flatten_cons, List.flatten_nil, List.mem_append] at hmem
      rcases hmem with h | h | h | h
      · exact href' _ _ h
      · exact href' _ _ h
      · exact href' _ _ h
      · cases h
    rw [hswitch] at htarget
    cases htarget
  have hlisted : command.Listed := by
    rw [WindowDraft.commands_eq, List.mem_append, List.mem_append] at hcommand
    rcases hcommand with h | h | h
    · exact hw.leading command h
    · exact absurd h hnaming
    · exact hw.trailing command h
  exact hlisted.reference?_lt href

theorem gives_compileWindow (hhash : c.hash ≤ Options.maxHash) (hs : Ledger c prior s) :
    Gives compileWindow c s fun r t =>
      WindowWritten r.1 ∧ Ledger c (prior ++ r.1.inlineRefs) t := by
  refine .bind (gives_of_agrees agrees_parseDefinitionLabel) ?_
  rintro label s ⟨hlevel, hlabel⟩
  replace hs := hs.level hlevel
  refine .bind (gives_of_agrees shares_next) ?_
  rintro token s ⟨hlevel, -⟩
  replace hs := hs.level hlevel
  refine .guard fun _ => ?_
  refine .bind (P := fun r t => r.1.Listed ∧ Ledger c (prior ++ r.1.inlineRefs) t) ?_ ?_
  · refine .repeatFrom (I := fun w t => w.Listed ∧ Ledger c (prior ++ w.inlineRefs) t) ?_ ?_
    · refine ⟨WindowDraft.listed_empty, hs.perm ?_⟩
      simp [WindowDraft.inlineRefs, WindowDraft.refs]
    rintro w s ⟨hw, hs⟩
    refine .bind (gives_of_agrees shares_peekNormal) ?_
    rintro token s ⟨hlevel, -⟩
    replace hs := hs.level hlevel
    split
    · refine .bind (gives_of_agrees same_consume) ?_
      rintro _ t ⟨ht, -⟩
      refine .bind (gives_of_agrees same_parseDefine) ?_
      rintro defined u ⟨hu, -⟩
      have hledger := (hs.level ht).level hu
      exact .ite (fun _ => .pure ⟨hw, hledger⟩) fun _ => .pure ⟨hw, hledger⟩
    · exact .pure ⟨hw, hs⟩
    · refine .bind (gives_of_agrees same_consume) ?_
      rintro _ t ⟨ht, -⟩
      exact .bind (gives_parseDirective hhash hw (hs.level ht)) fun v u hv => .pure hv
  · rintro ⟨draft, afterHash⟩ t ⟨hdraft, ht⟩
    dsimp only
    split
    · exact .fail_bind
    · refine .pure ⟨windowWritten_commands hlabel hdraft, ?_⟩
      rw [Window.inlineRefs, WindowDraft.filterMap_commands hdraft]
      exact ht

/-- What a script has defined so far, with the ledger of its windows. -/
structure ProgramLedger (c : CompileContext) (p : ProgramDraft) (s : CompileState) : Prop where
  ledger : Ledger c (p.windows.flatMap Window.inlineRefs) s
  held : p.windows.flatMap Window.heldRefs =
    (List.range s.inlineCount).map (Label.inline c.hash)
  windows : ∀ w ∈ p.windows, WindowWritten w
  switches : ∀ switch ∈ p.switches, switch.label.toNat < inlineBase
  labeled : ∀ switch ∈ p.switches, ∀ p ∈ switch.commands,
    p.statement.Labeled c.options.legacyLabeledCommands

theorem ProgramLedger.level {p : ProgramDraft} {t : CompileState} (h : ProgramLedger c p s)
    (ht : s.Level t) : ProgramLedger c p t :=
  { h with
    ledger := h.ledger.level ht
    held := by rw [ht.inlineCount]; exact h.held }

theorem gives_parseTopDirective {p : ProgramDraft} (hhash : c.hash ≤ Options.maxHash)
    (hp : ProgramLedger c p s) : Gives (parseTopDirective p) c s (ProgramLedger c) := by
  refine .bind (gives_of_agrees shares_next) ?_
  rintro kind s ⟨hlevel, -⟩
  replace hp := hp.level hlevel
  refine .guard fun _ => .ite (fun _ => ?_) fun _ => .ite (fun _ => ?_) fun _ => ?_
  · refine .bind (gives_compileWindow hhash hp.ledger) ?_
    rintro ⟨window, afterHash⟩ t ⟨hwindow, ht⟩
    refine .pure { hp with ledger := ?_, held := ?_, windows := ?_ }
    · simpa using ht
    · simpa [hp.held] using hp.ledger.append_heldRefs hhash ht
    · exact Contract.forall_mem_concat hp.windows hwindow
  · refine .bind (gives_of_agrees agrees_parseDefinitionLabel) ?_
    rintro label t ⟨ht, hlabel⟩
    refine .bind (gives_of_carries (z := compileSwitch 0 false) carries_compileSwitch) ?_
    rintro ⟨switch, afterHash⟩ u ⟨hu, _, rfl, -, hlabeled⟩
    refine .pure { (hp.level ht).level hu with switches := ?_, labeled := ?_ }
    · exact Contract.forall_mem_concat hp.switches hlabel
    · exact Contract.forall_mem_concat hp.labeled hlabeled
  · refine .ite (fun _ => ?_) fun _ => .fail
    refine .bind (gives_of_agrees (.lift Lexer.defineMacro_widens)) ?_
    rintro _ t ⟨ht, -⟩
    exact .pure { hp.level ht with }

/-- The file of a script, with the ledger of its windows. -/
theorem gives_compileProgram (hhash : c.hash ≤ Options.maxHash) (hs : Ledger c [] s) :
    Gives compileProgram c s fun f t => ∃ p : ProgramDraft, ProgramLedger c p t ∧
      f = ⟨p.windows, p.switches ++ t.inline⟩ := by
  refine .bind .options ?_
  rintro _ _ ⟨rfl, rfl⟩
  extract_lets program
  have hprogram (u : Unit) {s : CompileState} (hs : Ledger c [] s) :
      Gives (program u) c s fun f t => ∃ p : ProgramDraft, ProgramLedger c p t ∧
        f = ⟨p.windows, p.switches ++ t.inline⟩ := by
    refine .bind (P := ProgramLedger c) ?_ ?_
    · have hnone : s.inlineCount = 0 := hs.length_refs.symm
      refine .repeatFrom (I := ProgramLedger c) ⟨hs, by simp [hnone], by simp, by simp, by simp⟩ ?_
      intro p s hp
      have hgoOn {s : CompileState} (hp : ProgramLedger c p s) : Gives
          (parseTopDirective p >>= fun p => pure (.inl p : ProgramDraft ⊕ ProgramDraft)) c s
          fun r t => Sum.elim (ProgramLedger c · t) (ProgramLedger c · t) r :=
        .bind (gives_parseTopDirective hhash hp) fun q t hq => .pure hq
      refine .ite (fun _ => .bind (gives_of_agrees same_findHash) ?_) fun _ => hgoOn hp
      rintro found t ⟨ht, -⟩
      exact .ite (fun _ => .pure (hp.level ht)) fun _ => hgoOn (hp.level ht)
    · intro p t hp
      refine .bind (P := fun r u => r = t ∧ u = t) ?_ ?_
      · rintro _ _ ⟨⟩
        exact ⟨rfl, rfl⟩
      rintro _ _ ⟨rfl, rfl⟩
      exact .pure ⟨p, hp, rfl⟩
  refine .ite (fun _ => .bind (gives_of_agrees same_skipToHash) ?_) fun _ => hprogram () hs
  rintro u t ⟨ht, -⟩
  exact hprogram u (hs.level ht)

end Compiler

/-! ### Labels of a file -/

/-- In a list of switches with distinct labels, one has the label of each. -/
theorem filter_label_eq {switches : List Switch} {s : Switch}
    (hdistinct : (switches.map (·.label)).Nodup) (hs : s ∈ switches) :
    switches.filter (·.label = s.label) = [s] := by
  induction switches with
  | nil => cases hs
  | cons first rest ih =>
    obtain ⟨hfirst, hrest⟩ := List.nodup_cons.1 hdistinct
    rcases List.mem_cons.1 hs with rfl | hs
    · have hnone : rest.filter (·.label = s.label) = [] := by
        refine List.filter_eq_nil_iff.2 fun t ht heq => hfirst ?_
        exact List.mem_map.2 ⟨t, ht, by simpa using heq⟩
      simp [hnone]
    · have hne : first.label ≠ s.label := by
        intro heq
        exact hfirst (List.mem_map.2 ⟨s, hs, heq.symm⟩)
      simp [hne, ih hrest hs]

/-- How the labels of a compiled file are given: `named` are its switches with labels of their own,
`inline` those from inline blocks. -/
structure File.Numbered (hash : Nat) (legacy : Bool) (named inline : List Switch) (f : File) :
    Prop where
  switches : f.switches = named ++ inline
  named : ∀ s ∈ named, s.label.toNat < inlineBase
  count : inline.length ≤ maxInline
  /-- Consecutive labels in increasing order, none of which has wrapped around. -/
  labels : inline.map (·.label.toNat) =
    (List.range inline.length).map (inlineBase + hash * maxInline + ·)
  /-- One command names each inline switch. -/
  refs_count : ∀ s ∈ inline, (f.windows.flatMap Window.inlineRefs).count s.label = 1
  /-- One switch has each inline label that a command names. -/
  refs_resolve : ∀ l ∈ f.windows.flatMap Window.inlineRefs,
    ∃ s ∈ inline, f.switches.filter (·.label = l) = [s]
  windows : ∀ w ∈ f.windows, w.id.toNat < inlineBase
  references : ∀ r ∈ f.references, r.target = .window → r.label.toNat < inlineBase
  statements : ∀ s ∈ f.switches, ∀ p ∈ s.commands, p.statement.Labeled legacy

theorem Compiler.ProgramLedger.numbered {c : CompileContext} {p : ProgramDraft} {s : CompileState}
    (hhash : c.hash ≤ Options.maxHash) (h : ProgramLedger c p s) :
    File.Numbered c.hash c.options.legacyLabeledCommands p.switches s.inline
      ⟨p.windows, p.switches ++ s.inline⟩ := by
  have hlength : s.inline.length = s.inlineCount := by
    simpa using congrArg List.length h.ledger.labels
  have hlabels : s.inline.map (·.label.toNat) =
      (List.range s.inline.length).map (inlineBase + c.hash * maxInline + ·) := by
    have hmap := congrArg (List.map UInt32.toNat) h.ledger.labels
    rw [List.map_map, List.map_map] at hmap
    rw [hlength]
    refine hmap.trans (List.map_congr_left fun i hi => ?_)
    have hcount := h.ledger.count
    exact Label.toNat_inline hhash (Nat.lt_of_lt_of_le (List.mem_range.1 hi) hcount)
  have hdistinct : (s.inline.map (·.label)).Nodup := by
    have hnat : (s.inline.map (·.label.toNat)).Nodup := by
      rw [hlabels]
      exact List.nodup_range.map fun i j hij => Nat.add_left_cancel hij
    refine List.Nodup.of_map UInt32.toNat ?_
    rwa [List.map_map]
  have hinline : ∀ switch ∈ s.inline, inlineBase ≤ switch.label.toNat := by
    intro switch hswitch
    have hmem : switch.label.toNat ∈ s.inline.map (·.label.toNat) := List.mem_map_of_mem hswitch
    rw [hlabels] at hmem
    obtain ⟨i, -, hi⟩ := List.mem_map.1 hmem
    omega
  refine ⟨rfl, h.switches, hlength ▸ h.ledger.count, hlabels, ?_, ?_,
    fun w hw => (h.windows w hw).id,
    ?_, List.forall_mem_append.2 ⟨h.labeled, h.ledger.labeled⟩⟩
  · intro switch hswitch
    rw [h.ledger.refs.count_eq]
    exact List.count_eq_one_of_mem hdistinct (List.mem_map_of_mem hswitch)
  · intro l hl
    obtain ⟨switch, hswitch, rfl⟩ := List.mem_map.1 (h.ledger.refs.mem_iff.1 hl)
    refine ⟨switch, hswitch, ?_⟩
    have hnamed : p.switches.filter (·.label = switch.label) = [] := by
      refine List.filter_eq_nil_iff.2 fun t ht heq => ?_
      have hlt := h.switches t ht
      have hle := hinline switch hswitch
      rw [of_decide_eq_true heq] at hlt
      omega
    rw [List.filter_append, hnamed, List.nil_append, filter_label_eq hdistinct hswitch]
  · intro r hr htarget
    rw [File.references, List.mem_append, List.mem_flatMap, List.mem_flatMap] at hr
    rcases hr with ⟨w, hw, hr⟩ | ⟨switch, -, hr⟩
    · exact (h.windows w hw).references r hr htarget
    · obtain ⟨placed, -, hr⟩ := List.mem_filterMap.1 hr
      obtain ⟨l, hl, rfl⟩ := Option.map_eq_some_iff.1 hr
      exact Statement.reference?_lt hl

/-- A compiled file with the ledger of its windows. -/
theorem compile_ledger {src : Bytes} {o : Options} {f : File}
    (h : (compile src o).result = .ok f) :
    ∃ (hash : Nat) (p : Compiler.ProgramDraft) (s : CompileState),
      effectiveHash o.effective = .ok hash ∧ hash ≤ Options.maxHash ∧
      Compiler.ProgramLedger ⟨o.effective, hash⟩ p s ∧ f = ⟨p.windows, p.switches ++ s.inline⟩ := by
  obtain ⟨hash, text, s, hhash, htext, hrun⟩ := compile_ok h
  have hmax : hash ≤ Options.maxHash := by
    have hyields := effectiveHash_yields o.effective
    rw [hhash] at hyields
    exact hyields
  have hstart : Ledger ⟨o.effective, hash⟩ []
      ⟨.ofSource text o.effective.file o.effective.allowExpFloats, [], 0, []⟩ :=
    ⟨Nat.zero_le _, rfl, .refl _, by simp⟩
  obtain ⟨p, hp, rfl⟩ := Compiler.gives_compileProgram hmax hstart f s hrun
  exact ⟨hash, p, s, hhash, hmax, hp, rfl⟩

/-- The inline switches of a compiled file come after all others, under consecutive labels that are
exact and that no script can write, and one command names each of them. Under another hash the
script compiles to the same file with these labels shifted, and under another name with the same
diagnostics but for that name. -/
theorem compile_numbered {src : Bytes} {o : Options} {f : File}
    (h : (compile src o).result = .ok f) :
    ∃ (hash : Nat) (named inline : List Switch), effectiveHash o.effective = .ok hash ∧
      f.Numbered hash o.legacyLabeledCommands named inline ∧
      ∀ (file : Bytes) (given : Option UInt32) (hash' : Nat),
        effectiveHash { o with file := file, hash := given }.effective = .ok hash' →
        compile src { o with file := file, hash := given } =
          ⟨(compile src o).diagnostics.map (Diagnostic.inFile file),
            .ok (f.rehash hash hash')⟩ := by
  obtain ⟨hash, p, s, hhash, hmax, hp, rfl⟩ := compile_ledger h
  refine ⟨hash, p.switches, s.inline, hhash, hp.numbered hmax, fun file given hash' hhash' => ?_⟩
  have hvary := compile_vary h hhash file given false false false hhash'
  simpa only [Options.vary, Bool.or_false] using hvary

/-- The windows of a compiled file hold its inline switches, in their order. -/
theorem compile_held {src : Bytes} {o : Options} {f : File} (h : (compile src o).result = .ok f) :
    ∃ (hash : Nat) (named inline : List Switch), effectiveHash o.effective = .ok hash ∧
      f.Numbered hash o.legacyLabeledCommands named inline ∧
      inline.map (·.label) = (List.range inline.length).map (Label.inline hash) ∧
      f.windows.flatMap Window.heldRefs = inline.map (·.label) := by
  obtain ⟨hash, p, s, hhash, hmax, hp, rfl⟩ := compile_ledger h
  have hlength : s.inline.length = s.inlineCount := by
    simpa using congrArg List.length hp.ledger.labels
  refine ⟨hash, p.switches, s.inline, hhash, hp.numbered hmax, ?_, ?_⟩
  · rw [hlength]
    exact hp.ledger.labels
  · exact hp.held.trans hp.ledger.labels.symm

def inlineScript : Bytes :=
  utf8 "#window 1:1\nstartswitch \x7b\necho \"a\"\n\x7d\n" ++
  utf8 "finishswitch \x7b\nclosewindow 1:1\n\x7d\n#switch 1:2\ngosub 1:1\n"

def inlineFile (hash : Nat) : File where
  windows := [⟨10001,
    [.switchRef CommandCode.startSwitch (Label.inline hash 0),
     .switchRef CommandCode.finishSwitch (Label.inline hash 1), .flags WindowFlags.noBackground,
     .dimensions ⟨none, none, none, none⟩]⟩]
  switches := [⟨10002, [⟨1, StatementType.goSub.code, some (utf8 "1:1"), [], none⟩]⟩,
    ⟨Label.inline hash 0, [⟨1, StatementType.echo.code, some (utf8 "a"), [], none⟩]⟩,
    ⟨Label.inline hash 1, [⟨1, StatementType.closeWindow.code, some (utf8 "1:1"), [], none⟩]⟩]

theorem compile_numbered_twoInline :
    (compile inlineScript { hash := some 7 }).result = .ok (inlineFile 7) ∧
      (inlineFile 7).windows.flatMap Window.inlineRefs = [Label.inline 7 0, Label.inline 7 1] ∧
      (∃ named inline, (inlineFile 7).Numbered 7 false named inline) ∧
      (compile inlineScript { hash := some 99999 }).result = .ok (inlineFile 99999) := by
  have h : (compile inlineScript { hash := some 7 }).result = .ok (inlineFile 7) := by cbv
  obtain ⟨hash, named, inline, hhash, hnumbered, hother⟩ := compile_numbered h
  have hseven : effectiveHash { hash := some 7 : Options }.effective = .ok 7 := rfl
  rw [hseven] at hhash
  cases hhash
  have hshifted : (inlineFile 7).rehash 7 99999 = inlineFile 99999 := by decide
  refine ⟨h, by decide, ⟨named, inline, hnumbered⟩, ?_⟩
  have hfile := congrArg CompileOutcome.result (hother [] (some 99999) 99999 rfl)
  rw [hshifted] at hfile
  exact hfile

end ApeScript
