import ApeScript.Proofs.CompilerRun
import ApeScript.Proofs.FilledTable
import ApeScript.Proofs.Representable

/-!
# Files with localized texts

A stored file that is put together with a glossary is the same file but for the texts of its
titles, bodies, choices and prints. `File.Retold R` says so of two files, where `R` relates the
texts; `Localizes` is that relation for a character set and a glossary. The file cannot be put
together exactly if one of its texts is `Obstructed`.
-/

namespace ApeScript

variable {R S : Bytes → Bytes → Prop}

/-! ### Files that differ in their texts -/

/-- A command and the same command with its text, where it shows one, changed as `R` says. -/
inductive Command.Retold (R : Bytes → Bytes → Prop) : Command → Command → Prop
  | formattedText {code condition text text' format} (h : R text text') :
      Retold R (.formattedText code condition text format)
        (.formattedText code condition text' format)
  | choice {condition text text' format label} (h : R text text') :
      Retold R (.choice condition text format label) (.choice condition text' format label)
  | print {p : Print} {text'} (h : R p.message text') :
      Retold R (.print p) (.print { p with message := text' })
  | silent {c : Command} (h : c.dialogue? = none) : Retold R c c

structure Window.Retold (R : Bytes → Bytes → Prop) (w w' : Window) : Prop where
  id : w'.id = w.id
  commands : List.Forall₂ (Command.Retold R) w.commands w'.commands

/-- Two files with the same switches, and with the same windows but for the texts shown. -/
structure File.Retold (R : Bytes → Bytes → Prop) (f f' : File) : Prop where
  windows : List.Forall₂ (Window.Retold R) f.windows f'.windows
  switches : f'.switches = f.switches

def File.dialogues (f : File) : List Bytes :=
  f.windows.flatMap fun w => w.commands.filterMap Command.dialogue?

theorem File.mem_dialogues {f : File} {s : Bytes} : s ∈ f.dialogues ↔
    ∃ w ∈ f.windows, ∃ c ∈ w.commands, c.dialogue? = some s := by
  simp only [dialogues, List.mem_flatMap, List.mem_filterMap]

namespace Command.Retold

variable {c c' : Command}

theorem exprs_eq (h : c.Retold R c') : c'.exprs = c.exprs := by cases h <;> rfl

theorem formats_eq (h : c.Retold R c') : c'.formats = c.formats := by cases h <;> rfl

theorem coded_iff (h : c.Retold R c') : c'.Coded ↔ c.Coded := by cases h <;> rfl

/-- The strings of a command that are not too long stay so with a text that is not too long. -/
theorem strings_iff (h : c.Retold R c') {P : Bytes → Prop} (hc : ∀ s ∈ c.strings, P s) :
    (∀ s ∈ c'.strings, P s) ↔ ∀ s, c'.dialogue? = some s → P s := by
  cases h with
  | silent hsilent => simpa [hsilent] using hc
  | formattedText | choice | print =>
    simp only [strings, List.forall_mem_append, List.forall_mem_singleton] at hc
    simp only [strings, dialogue?, List.forall_mem_append, List.forall_mem_singleton,
      Option.some.injEq, forall_eq']
    tauto

theorem mono (hRS : ∀ s s', R s s' → S s s') (h : c.Retold R c') : c.Retold S c' := by
  cases h with
  | formattedText h => exact .formattedText (hRS _ _ h)
  | choice h => exact .choice (hRS _ _ h)
  | print h => exact .print (hRS _ _ h)
  | silent h => exact .silent h

theorem dialogue_left (h : c.Retold R c') {s : Bytes} (hs : c.dialogue? = some s) :
    ∃ s', c'.dialogue? = some s' ∧ R s s' := by
  cases h with
  | silent hsilent => simp [hsilent] at hs
  | formattedText h | choice h | print h =>
    obtain rfl := Option.some.inj hs
    exact ⟨_, rfl, h⟩

theorem dialogue_right (h : c.Retold R c') {s' : Bytes} (hs : c'.dialogue? = some s') :
    ∃ s, c.dialogue? = some s ∧ R s s' := by
  cases h with
  | silent hsilent => simp [hsilent] at hs
  | formattedText h | choice h | print h =>
    obtain rfl := Option.some.inj hs
    exact ⟨_, rfl, h⟩

theorem exists_iff : (∃ c', c.Retold R c') ↔ ∀ s, c.dialogue? = some s → ∃ s', R s s' := by
  constructor
  · rintro ⟨c', h⟩ s hs
    obtain ⟨s', -, hs⟩ := h.dialogue_left hs
    exact ⟨s', hs⟩
  · intro h
    cases hc : c.dialogue? with
    | none => exact ⟨c, .silent hc⟩
    | some s =>
      obtain ⟨s', hs⟩ := h s hc
      cases c with
      | formattedText =>
        obtain rfl := Option.some.inj hc
        exact ⟨_, .formattedText hs⟩
      | choice =>
        obtain rfl := Option.some.inj hc
        exact ⟨_, .choice hs⟩
      | print =>
        obtain rfl := Option.some.inj hc
        exact ⟨_, .print hs⟩
      | _ => cases hc

end Command.Retold

/-! ### Lists side by side -/

section Lists

variable {α β ε : Type} {T : α → β → Prop} {l : List α} {l' : List β}

theorem exists_of_mem_left (h : List.Forall₂ T l l') {a : α} (ha : a ∈ l) : ∃ b ∈ l', T a b := by
  obtain ⟨i, hi, rfl⟩ := List.mem_iff_getElem.1 ha
  have hi' : i < l'.length := h.length_eq ▸ hi
  exact ⟨_, List.getElem_mem hi', h.get hi hi'⟩

theorem exists_of_mem_right (h : List.Forall₂ T l l') {b : β} (hb : b ∈ l') : ∃ a ∈ l, T a b :=
  have hflip : List.Forall₂ (flip T) l' l := List.Forall₂.flip h
  exists_of_mem_left hflip hb

theorem forall₂_exists_iff : (∃ l', List.Forall₂ T l l') ↔ ∀ a ∈ l, ∃ b, T a b := by
  constructor
  · rintro ⟨l', h⟩ a ha
    obtain ⟨b, -, hb⟩ := exists_of_mem_left h ha
    exact ⟨b, hb⟩
  · intro h
    induction l with
    | nil => exact ⟨[], .nil⟩
    | cons a l ih =>
      obtain ⟨b, hb⟩ := h a List.mem_cons_self
      obtain ⟨l', hl⟩ := ih fun x hx => h x (List.mem_cons_of_mem _ hx)
      exact ⟨b :: l', .cons hb hl⟩

theorem exists_of_mapM_eq_error {step : α → Except ε β} {e : ε} (h : l.mapM step = .error e) :
    ∃ a ∈ l, step a = .error e := by
  induction l with
  | nil => simp [pure, Except.pure] at h
  | cons a l ih =>
    rw [List.mapM_cons] at h
    obtain h | ⟨b, -, h⟩ := bind_eq_error.1 h
    · exact ⟨a, List.mem_cons_self, h⟩
    · obtain ⟨a', ha', h⟩ := ih ((bind_eq_error.1 h).resolve_right (by simp [pure, Except.pure]))
      exact ⟨a', List.mem_cons_of_mem _ ha', h⟩

theorem exists_of_mapM_bind_pure_eq_error {γ : Type} {step : α → Except ε β} {k : List β → γ}
    {e : ε} (h : (l.mapM step >>= fun l' => pure (k l')) = .error e) :
    ∃ a ∈ l, step a = .error e :=
  exists_of_mapM_eq_error ((bind_eq_error.1 h).resolve_right (by simp [pure, Except.pure]))

/-- A step on the items and their numbers that does not care for the numbers. -/
theorem mapM_zipIdx_eq_ok_iff {step : α × Nat → Except ε β} (n : Nat)
    (h : ∀ p b, step p = .ok b ↔ T p.1 b) :
    (l.zipIdx n).mapM step = .ok l' ↔ List.Forall₂ T l l' := by
  rw [mapM_eq_ok_iff h, ← List.forall₂_map_left_iff, List.zipIdx_map_fst]

end Lists

theorem File.exists_retold_iff {f : File} :
    (∃ f', f.Retold R f') ↔ ∀ s ∈ f.dialogues, ∃ s', R s s' := by
  have hwindow (w : Window) : (∃ w', w.Retold R w') ↔
      ∀ c ∈ w.commands, ∀ s, c.dialogue? = some s → ∃ s', R s s' := by
    simp only [← Command.Retold.exists_iff, ← forall₂_exists_iff]
    exact ⟨fun ⟨w', h⟩ => ⟨w'.commands, h.commands⟩, fun ⟨cs, h⟩ => ⟨⟨w.id, cs⟩, rfl, h⟩⟩
  have hwindows : (∃ f', f.Retold R f') ↔
      ∃ ws, List.Forall₂ (Window.Retold R) f.windows ws :=
    ⟨fun ⟨f', h⟩ => ⟨f'.windows, h.windows⟩, fun ⟨ws, h⟩ => ⟨⟨ws, f.switches⟩, h, rfl⟩⟩
  simp only [hwindows, forall₂_exists_iff, hwindow, mem_dialogues]
  grind

namespace File.Retold

variable {f f' : File}

/-- Every command of the one file is a command of the other with its text changed. -/
theorem exists_command (h : f.Retold R f') {w' : Window} (hw : w' ∈ f'.windows) {c' : Command}
    (hc : c' ∈ w'.commands) : ∃ w ∈ f.windows, ∃ c ∈ w.commands, c.Retold R c' := by
  obtain ⟨w, hmem, hretold⟩ := exists_of_mem_right h.windows hw
  obtain ⟨c, hcmem, hc⟩ := exists_of_mem_right hretold.commands hc
  exact ⟨w, hmem, c, hcmem, hc⟩

theorem mono (hRS : ∀ s s', R s s' → S s s') (h : f.Retold R f') : f.Retold S f' :=
  ⟨h.windows.imp fun _ _ hw => ⟨hw.id, hw.commands.imp fun _ _ hc => hc.mono hRS⟩, h.switches⟩

theorem dialogue_left (h : f.Retold R f') {s : Bytes} (hs : s ∈ f.dialogues) :
    ∃ s' ∈ f'.dialogues, R s s' := by
  obtain ⟨w, hw, c, hc, hs⟩ := File.mem_dialogues.1 hs
  obtain ⟨w', hw', hwindow⟩ := exists_of_mem_left h.windows hw
  obtain ⟨c', hc', hcommand⟩ := exists_of_mem_left hwindow.commands hc
  obtain ⟨s', hs', hR⟩ := hcommand.dialogue_left hs
  exact ⟨s', File.mem_dialogues.2 ⟨w', hw', c', hc', hs'⟩, hR⟩

theorem dialogue_right (h : f.Retold R f') {s' : Bytes} (hs : s' ∈ f'.dialogues) :
    ∃ s ∈ f.dialogues, R s s' := by
  obtain ⟨w', hw', c', hc', hs⟩ := File.mem_dialogues.1 hs
  obtain ⟨w, hw, c, hc, hcommand⟩ := h.exists_command hw' hc'
  obtain ⟨s, hs, hR⟩ := hcommand.dialogue_right hs
  exact ⟨s, File.mem_dialogues.2 ⟨w, hw, c, hc, hs⟩, hR⟩

/-- The expressions of a file are not in its texts. -/
theorem exprs_subset (h : f.Retold R f') : f'.exprs ⊆ f.exprs := by
  intro e he
  simp only [File.exprs, List.mem_append, List.mem_flatMap, Window.exprs, h.switches] at he ⊢
  refine he.imp_left ?_
  rintro ⟨w', hw, c', hc, he⟩
  obtain ⟨w, hw, c, hc, hretold⟩ := h.exists_command hw hc
  exact ⟨w, hw, c, hc, hretold.exprs_eq ▸ he⟩

theorem formats_subset (h : f.Retold R f') : f'.formats ⊆ f.formats := by
  intro v hv
  simp only [File.formats, List.mem_append, List.mem_flatMap, Window.formats, h.switches] at hv ⊢
  refine hv.imp_left ?_
  rintro ⟨w', hw, c', hc, hv⟩
  obtain ⟨w, hw, c, hc, hretold⟩ := h.exists_command hw hc
  exact ⟨w, hw, c, hc, hretold.formats_eq ▸ hv⟩

theorem strings_iff (h : f.Retold R f') {P : Bytes → Prop} (hf : ∀ s ∈ f.strings, P s) :
    (∀ s ∈ f'.strings, P s) ↔ ∀ s ∈ f'.dialogues, P s := by
  obtain ⟨hwindows, hswitches⟩ := List.forall_mem_append.1 hf
  have hcommand (w' : Window) (hw : w' ∈ f'.windows) (c' : Command) (hc : c' ∈ w'.commands) :
      (∀ s ∈ c'.strings, P s) ↔ ∀ s, c'.dialogue? = some s → P s := by
    obtain ⟨w, hw, c, hc, hretold⟩ := h.exists_command hw hc
    refine hretold.strings_iff fun s hs => hwindows s (List.mem_flatMap.2 ⟨w, hw, ?_⟩)
    exact List.mem_flatMap.2 ⟨c, hc, hs⟩
  rw [File.strings, List.forall_mem_append, h.switches, and_iff_left hswitches]
  simp only [List.forall_mem_flatMap, Window.strings, File.mem_dialogues]
  constructor
  · rintro hall s ⟨w', hw, c', hc, hs⟩
    exact (hcommand w' hw c' hc).1 (hall w' hw c' hc) s hs
  · intro hall w' hw c' hc
    exact (hcommand w' hw c' hc).2 fun s hs => hall s ⟨w', hw, c', hc, hs⟩

/-- A file that can be stored can be stored with other texts unless one of these is too long. -/
theorem representable_iff (h : f.Retold R f') (hf : f.Representable) :
    f'.Representable ↔ ∀ s ∈ f'.dialogues, s.length ≤ maxStringLength := by
  rw [← h.strings_iff hf.strings]
  refine ⟨File.Representable.strings, fun hstrings => ⟨fun w' hw => ?_, ?_, fun w' hw c' hc => ?_,
    ?_, fun e he => hf.exprs e (h.exprs_subset he), fun v hv => hf.formats v (h.formats_subset hv),
    hstrings⟩⟩
  · obtain ⟨w, hw, hretold⟩ := exists_of_mem_right h.windows hw
    exact hretold.id ▸ hf.ids w hw
  · exact h.switches ▸ hf.labels
  · obtain ⟨w, hw, c, hc, hretold⟩ := h.exists_command hw hc
    exact hretold.coded_iff.2 (hf.commands w hw c hc)
  · exact h.switches ▸ hf.statements

end File.Retold

/-! ### Holes -/

theorem Operand.WellTyped.not_hasHole {type : UInt8} {v : Operand} (hfits : v.Fits type)
    (h : v.WellTyped) : ¬ v.HasHole := by
  induction v generalizing type with
  | nested op lt lp l rt rp r ihl ihr =>
    obtain ⟨-, ⟨hfl, hl⟩, hfr, hr⟩ := h
    exact not_or.2 ⟨ihl hfl hl, ihr hfr hr⟩
  | missing | invalid => simp [Fits, fits] at hfits
  | hollow => exact h.elim
  | float | name | quoted => exact id

theorem FormatValue.WellTyped.not_hasHole {v : FormatValue} (h : v.WellTyped) :
    ¬ v.value.HasHole := by
  obtain ⟨t, -, hfits⟩ := h
  cases hv : v.value with
  | float | name | quoted => exact id
  | _ => cases t <;> simp [hv, Operand.fits, FormatType.operandType] at hfits

/-- What the format can hold has all its operands. -/
theorem File.Representable.not_hasHole {f : File} (h : f.Representable) : ¬ f.HasHole := by
  rintro (⟨e, he, hhole⟩ | ⟨v, hv, hhole⟩)
  · exact (h.exprs e he).not_hasHole ⟨.expression, rfl, rfl⟩ hhole
  · exact (h.formats v hv).not_hasHole hhole

/-! ### Localization -/

namespace Localization

variable {charset : Charset} {g : Glossary} {c c' : Command} {f f' : File} {path data : Bytes}

/-- What a stored text becomes: its localized text as the character set stores it, with the same
directives, where the glossary knows the text; otherwise it stays as it is. -/
inductive Localizes (charset : Charset) (g : Glossary) : Bytes → Bytes → Prop
  | kept {stored} (h : g.get? (charset.decode stored) = none) : Localizes charset g stored stored
  | replaced {stored translated new} (h : g.get? (charset.decode stored) = some translated)
      (hdirectives : directives translated = directives (charset.decode stored))
      (hencode : charset.encode translated = .ok new) : Localizes charset g stored new

theorem localizes_of_none {stored new : Bytes} (h : g.get? (charset.decode stored) = none) :
    Localizes charset g stored new ↔ new = stored := by
  constructor
  · rintro (_ | ⟨hsome, -, -⟩)
    · rfl
    · simp [h] at hsome
  · rintro rfl
    exact .kept h

theorem localizes_of_some {stored new translated : Bytes}
    (h : g.get? (charset.decode stored) = some translated) : Localizes charset g stored new ↔
      directives translated = directives (charset.decode stored) ∧
        charset.encode translated = .ok new := by
  constructor
  · rintro (hnone | ⟨hsome, hdirectives, hencode⟩)
    · simp [h] at hnone
    · obtain rfl := Option.some.inj (h.symm.trans hsome)
      exact ⟨hdirectives, hencode⟩
  · exact fun ⟨hdirectives, hencode⟩ => .replaced h hdirectives hencode

/-- A text that the glossary knows, and whose localized text has other directives, is not in the
character set, or is too long to be stored. -/
def Obstructed (charset : Charset) (g : Glossary) (stored : Bytes) : Prop :=
  ∃ translated, g.get? (charset.decode stored) = some translated ∧
    (directives translated ≠ directives (charset.decode stored) ∨
      (∃ x, charset.encode translated = .error x) ∨
      ∃ new, charset.encode translated = .ok new ∧ maxStringLength < new.length)

theorem not_obstructed_iff {stored : Bytes} (hstored : stored.length ≤ maxStringLength) :
    ¬ Obstructed charset g stored ↔
      ∃ new, Localizes charset g stored new ∧ new.length ≤ maxStringLength := by
  cases hget : g.get? (charset.decode stored) with
  | none => simp [Obstructed, localizes_of_none hget, hget, hstored]
  | some translated =>
    cases hencode : charset.encode translated <;>
      simp [Obstructed, localizes_of_some hget, hget, hencode]

theorem storedText_eq_ok_iff {place source translated new : Bytes} :
    storedText charset place source translated = .ok new ↔
      directives translated = directives source ∧ charset.encode translated = .ok new := by
  unfold storedText verify
  by_cases hsame : directives source = directives translated
  · cases charset.encode translated <;> simp [hsame, Except.mapError]
  · simp [hsame, Ne.symm hsame]

theorem dialogue?_eq (c : Command) : c.dialogue? = (commandSlot? c).map (·.2) := by
  cases c <;> rfl

theorem retold_iff_of_silent {R : Bytes → Bytes → Prop} (h : c.dialogue? = none) :
    c.Retold R c' ↔ c' = c := by
  constructor
  · intro hretold
    cases hretold with
    | silent => rfl
    | _ => cases h
  · rintro rfl
    exact .silent h

theorem retold_iff_of_dialogue {R : Bytes → Bytes → Prop} {s : Bytes} (h : c.dialogue? = some s) :
    c.Retold R c' ↔ ∃ s', R s s' ∧ c' = setText s' c := by
  constructor
  · intro hretold
    cases hretold with
    | silent hsilent => simp [hsilent] at h
    | formattedText hR | choice hR | print hR =>
      obtain rfl := Option.some.inj h
      exact ⟨_, hR, rfl⟩
  · rintro ⟨s', hR, rfl⟩
    cases c with
    | formattedText =>
      obtain rfl := Option.some.inj h
      exact .formattedText hR
    | choice =>
      obtain rfl := Option.some.inj h
      exact .choice hR
    | print =>
      obtain rfl := Option.some.inj h
      exact .print hR
    | _ => cases h

theorem translateCommand_eq_ok_iff {window : Label} {index : Nat} :
    translateCommand charset g window c index = .ok c' ↔ c.Retold (Localizes charset g) c' := by
  have hdialogue := dialogue?_eq c
  unfold translateCommand
  cases hslot : commandSlot? c with
  | none =>
    rw [hslot] at hdialogue
    rw [retold_iff_of_silent hdialogue, Except.ok.injEq, eq_comm]
  | some found =>
    obtain ⟨slot, stored⟩ := found
    rw [hslot] at hdialogue
    rw [retold_iff_of_dialogue hdialogue]
    cases hget : g.get? (charset.decode stored) with
    | none =>
      simp only [hget, localizes_of_none hget, exists_eq_left, setText_self hslot, Except.ok.injEq]
      exact eq_comm
    | some translated =>
      simp only [hget, bind_eq_ok, storedText_eq_ok_iff, localizes_of_some hget, pure, Except.pure,
        Except.ok.injEq, eq_comm (a := c')]

/-- A file is translated exactly into the file that is the same but for the localized texts. -/
theorem translateFile_eq_ok_iff :
    translateFile charset g f = .ok f' ↔ f.Retold (Localizes charset g) f' := by
  have hwindow (w w' : Window) : (do
        let commands ← w.commands.zipIdx.mapM fun p => translateCommand charset g w.id p.1 p.2
        return { w with commands } : Except RebuildError Window) = .ok w' ↔
      w.Retold (Localizes charset g) w' := by
    have hcommands (cs : List Command) :
        w.commands.zipIdx.mapM (fun p => translateCommand charset g w.id p.1 p.2) = .ok cs ↔
          List.Forall₂ (Command.Retold (Localizes charset g)) w.commands cs :=
      mapM_zipIdx_eq_ok_iff 0 fun _ _ => translateCommand_eq_ok_iff
    simp only [bind_eq_ok, hcommands, pure, Except.pure, Except.ok.injEq]
    constructor
    · rintro ⟨cs, hcs, rfl⟩
      exact ⟨rfl, hcs⟩
    · rintro ⟨hid, hcs⟩
      exact ⟨w'.commands, hcs, by rw [← hid]⟩
  rw [translateFile, bind_eq_ok]
  constructor
  · rintro ⟨ws, hws, hf⟩
    obtain rfl := Except.ok.inj hf
    exact ⟨(mapM_eq_ok_iff hwindow).1 hws, rfl⟩
  · rintro ⟨hws, hswitches⟩
    exact ⟨f'.windows, (mapM_eq_ok_iff hwindow).2 hws, by rw [← hswitches]; rfl⟩

theorem rebuildCompiled_eq_ok_iff {out : Bytes} (hdecode : File.decode data = .ok f) :
    rebuildCompiled charset path data g = .ok out ↔
      ∃ f', f.Retold (Localizes charset g) f' ∧ f'.encode = .bytes out := by
  simp only [rebuildCompiled, hdecode, bind_eq_ok, translateFile_eq_ok_iff]
  refine exists_congr fun f' => and_congr_right fun _ => ?_
  cases f'.encode <;> simp [pure, Except.pure, throw, throwThe, MonadExceptOf.throw]

theorem translateCommand_ne_halted {window : Label} {index : Nat} :
    translateCommand charset g window c index ≠ .error .halted := by
  unfold translateCommand
  cases hslot : commandSlot? c with
  | none => simp
  | some found =>
    obtain ⟨slot, stored⟩ := found
    cases hget : g.get? (charset.decode stored) with
    | none => simp [hget]
    | some translated =>
      simp only [hget, storedText]
      cases verify (charset.decode stored) translated with
      | error m => simp [bind, Except.bind]
      | ok =>
        cases charset.encode translated <;>
          simp [bind, Except.bind, pure, Except.pure, Except.mapError]

theorem translateFile_ne_halted : translateFile charset g f ≠ .error .halted := by
  intro h
  rw [translateFile] at h
  obtain ⟨w, -, h⟩ := exists_of_mapM_bind_pure_eq_error h
  obtain ⟨p, -, h⟩ := exists_of_mapM_bind_pure_eq_error h
  exact translateCommand_ne_halted h

/-- A stored file has no holes, whatever its texts, so that putting it together never halts. -/
theorem rebuildCompiled_ne_halted (hdecode : File.decode data = .ok f) (hf : f.Representable) :
    rebuildCompiled charset path data g ≠ .error .halted := by
  intro h
  simp only [rebuildCompiled, hdecode] at h
  obtain h | ⟨f', hf', h⟩ := bind_eq_error.1 h
  · exact translateFile_ne_halted h
  · have hretold := translateFile_eq_ok_iff.1 hf'
    have hhole : f'.encode = .halted := by
      cases hencode : f'.encode with
      | halted => rfl
      | _ => simp [hencode, pure, Except.pure, throw, throwThe, MonadExceptOf.throw] at h
    apply hf.not_hasHole
    obtain ⟨e, he, hmissing⟩ | ⟨v, hv, hmissing⟩ := f'.needs_encode.hasHole hhole
    · exact Or.inl ⟨e, hretold.exprs_subset he, hmissing⟩
    · exact Or.inr ⟨v, hretold.formats_subset hv, hmissing⟩

/-- A file can be put together exactly if none of its texts is in the way. -/
theorem exists_rebuildCompiled_iff (hdecode : File.decode data = .ok f) (hf : f.Representable) :
    (∃ out, rebuildCompiled charset path data g = .ok out) ↔
      ∀ s ∈ f.dialogues, ¬ Obstructed charset g s := by
  have hshort {s : Bytes} (hs : s ∈ f.dialogues) : s.length ≤ maxStringLength := by
    obtain ⟨w, hw, c, hc, hs⟩ := File.mem_dialogues.1 hs
    have hmem : s ∈ c.strings := by cases c <;> simp_all [Command.dialogue?, Command.strings]
    refine hf.strings s (List.mem_append_left _ (List.mem_flatMap.2 ⟨w, hw, ?_⟩))
    exact List.mem_flatMap.2 ⟨c, hc, hmem⟩
  simp only [rebuildCompiled_eq_ok_iff hdecode]
  constructor
  · rintro ⟨out, f', hretold, hencode⟩ s hs
    obtain ⟨s', hs', hlocalizes⟩ := hretold.dialogue_left hs
    have hf' : f'.Representable := (File.encode_iff_representable f').1.1 ⟨out, hencode⟩
    exact (not_obstructed_iff (hshort hs)).2
      ⟨s', hlocalizes, (hretold.representable_iff hf).1 hf' s' hs'⟩
  · intro h
    obtain ⟨f', hretold⟩ := File.exists_retold_iff.2 fun s hs =>
      (not_obstructed_iff (hshort hs)).1 (h s hs)
    have hf' : f'.Representable := (hretold.representable_iff hf).2 fun s' hs' => by
      obtain ⟨s, -, -, hlength⟩ := hretold.dialogue_right hs'
      exact hlength
    obtain ⟨out, hencode⟩ := (File.encode_iff_representable f').1.2 hf'
    exact ⟨out, f', hretold.mono fun _ _ h => h.1, hencode⟩

/-- What is put together can be read again, as the file with its texts localized. -/
theorem exists_decode_of_rebuildCompiled {out : Bytes} (hdecode : File.decode data = .ok f)
    (hout : rebuildCompiled charset path data g = .ok out) :
    ∃ f', File.decode out = .ok f' ∧ f.Retold (Localizes charset g) f' := by
  obtain ⟨f', hretold, hencode⟩ := (rebuildCompiled_eq_ok_iff hdecode).1 hout
  have hnested : f'.NestedWithin Expr.maxNesting := fun e he =>
    (File.decode_ok.1 hdecode).1 e (hretold.exprs_subset he)
  exact ⟨f', (File.decode_encode_iff hencode).1.2 hnested, hretold⟩

/-- A stored file is put together with a glossary into a file that is the same but for the texts
shown: a text that the glossary knows is stored anew from its localized text, which has the same
directives, and any other text is unchanged. It fails exactly if some text of the file has a
localized text with other directives, outside the character set, or too long to be stored; it never
halts. -/
theorem rebuildCompiled_retold (charset : Charset) (g : Glossary) (path : Bytes) {data : Bytes}
    {f : File} (hdecode : File.decode data = .ok f) :
    (∀ out, rebuildCompiled charset path data g = .ok out →
      ∃ f', File.decode out = .ok f' ∧ f.Retold (Localizes charset g) f') ∧
    ((∃ x, rebuildCompiled charset path data g = .error x) ↔
      ∃ s ∈ f.dialogues, Obstructed charset g s) ∧
    rebuildCompiled charset path data g ≠ .error .halted := by
  obtain ⟨b, hencode, -⟩ := exists_encode_of_decode hdecode
  have hf : f.Representable := (File.encode_iff_representable f).1.1 ⟨b, hencode⟩
  refine ⟨fun out => exists_decode_of_rebuildCompiled hdecode, ?_,
    rebuildCompiled_ne_halted hdecode hf⟩
  · have hsuccess : (∃ out, rebuildCompiled charset path data g = .ok out) ↔
        ∀ s ∈ f.dialogues, ¬ Obstructed charset g s := exists_rebuildCompiled_iff hdecode hf
    cases hresult : rebuildCompiled charset path data g with
    | ok out => simpa [hresult] using hsuccess
    | error x => simpa [hresult] using hsuccess

/-- A title with a conversion, a picture flag, and a choice with a letter outside ASCII. -/
def tradeFile : File where
  windows := [⟨1, [.formattedText CommandCode.title none (utf8 "Gold: %d")
      [⟨FormatType.variableName.code, .name (utf8 "gold")⟩],
    .flags WindowFlags.noBackground, .choice none [67, 97, 102, 233] [] 2]⟩]
  switches := [⟨2, []⟩]

theorem rebuildCompiled_retold_trade :
    let charset := Charset.page .windows1252
    let g := Glossary.ofList [(utf8 "Gold: %d", utf8 "Dinero: %d €"), (utf8 "12", utf8 "21")]
    let refused := Glossary.ofList [(utf8 "Café", utf8 "%s")]
    ∃ data out f', File.decode data = .ok tradeFile ∧
      rebuildCompiled charset (utf8 "a.ape") data g = .ok out ∧ File.decode out = .ok f' ∧
      tradeFile.Retold (Localizes charset g) f' ∧
      ∃ x, rebuildCompiled charset (utf8 "a.ape") data refused = .error x := by
  intro charset g refused
  obtain ⟨data, hencode⟩ : ∃ data, tradeFile.encode = .bytes data := ⟨_, rfl⟩
  have hdecode : File.decode data = .ok tradeFile :=
    File.decode_ok.2 ⟨by decide, Or.inr hencode⟩
  have hdialogues : tradeFile.dialogues = [utf8 "Gold: %d", [67, 97, 102, 233]] := rfl
  have hfail := (rebuildCompiled_retold charset refused (utf8 "a.ape") hdecode).2.1.2
    ⟨[67, 97, 102, 233], by simp [hdialogues], utf8 "%s", by decide +kernel,
      Or.inl (by decide +kernel)⟩
  have hknown : g.get? (charset.decode (utf8 "Gold: %d")) = some (utf8 "Dinero: %d €") := by
    decide +kernel
  have htitle : ¬ Obstructed charset g (utf8 "Gold: %d") :=
    (not_obstructed_iff (by decide)).2 ⟨utf8 "Dinero: %d " ++ [128],
      .replaced hknown (by decide +kernel) (by decide +kernel), by decide⟩
  have hchoice : ¬ Obstructed charset g [67, 97, 102, 233] :=
    (not_obstructed_iff (by decide)).2 ⟨_, .kept (by decide +kernel), by decide⟩
  have hf : tradeFile.Representable := (File.encode_iff_representable _).1.1 ⟨data, hencode⟩
  obtain ⟨out, hout⟩ := (exists_rebuildCompiled_iff hdecode hf).2
    (by simpa [hdialogues] using ⟨htitle, hchoice⟩)
  obtain ⟨f', hdecode', hretold⟩ :=
    (rebuildCompiled_retold charset g (utf8 "a.ape") hdecode).1 out hout
  exact ⟨data, out, f', hdecode, hout, hdecode', hretold, hfail⟩

end Localization

end ApeScript
