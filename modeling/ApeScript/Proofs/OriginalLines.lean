import ApeScript.Proofs.Diagnostics
import ApeScript.Proofs.SubstitutedMacros
import Mathlib

/-!
# Lines of the original script

Blanking comments, blanking definitions and replacing names change a script line by line. So the
text that is read has as many lines as the script, each made from the line with the same number, and
the line number of a diagnostic is that of a line of the script.
-/

namespace ApeScript

variable {file s out text : Bytes}

/-! ### Lines and columns -/

namespace Location

theorem advance_of_not_mem (l : Location) (h : 10 ∉ s) :
    l.advance s = ⟨l.file, l.line, l.col + s.length⟩ := by
  induction s generalizing l with
  | nil => rfl
  | cons b s ih =>
    obtain ⟨hb, hs⟩ := not_or.1 (List.mem_cons.not.1 h)
    have hafter : l.after b = ⟨l.file, l.line, l.col + 1⟩ := if_neg (Ne.symm hb)
    change (l.after b).advance s = _
    rw [ih _ hs, hafter, List.length_cons]
    simp only [mk.injEq, true_and]
    omega

/-- Places in a text that starts a line further down. -/
theorem advance_line (file : Bytes) (n : Nat) (s : Bytes) : advance ⟨file, n, 0⟩ s =
    ⟨file, n + ((start file).advance s).line, ((start file).advance s).col⟩ := by
  induction s using List.reverseRecOn with
  | nil => rfl
  | append_singleton s b ih =>
    rw [← advance_after, ← advance_after, ih]
    unfold after
    split_ifs <;> simp [Nat.add_assoc]

/-- The place of an offset is in a line of the text, at one of its columns or at its end. -/
theorem Within.exists_line {l : Location} (h : l.Within file text) :
    ∃ line, (Bytes.split 10 text)[l.line]? = some line ∧ l.col ≤ line.length := by
  obtain ⟨p, -, rfl⟩ := h
  have hfirst (line : Bytes) (p : Nat) (hline : 10 ∉ line) :
      (start file).advance (line.take p) = ⟨file, 0, min p line.length⟩ := by
    rw [advance_of_not_mem _ fun h => hline (List.mem_of_mem_take h)]
    simp [start]
  unfold ofOffset
  induction text using Preprocess.line_induction generalizing p with
  | last line hline =>
    rw [hfirst line p hline, Bytes.split_of_not_mem hline]
    exact ⟨line, rfl, Nat.min_le_right ..⟩
  | cons line s hline ih =>
    rw [Bytes.split_append_cons hline]
    by_cases hp : p ≤ line.length
    · rw [List.take_append_of_le_length hp, hfirst line p hline]
      exact ⟨line, rfl, Nat.min_le_right ..⟩
    · obtain ⟨q, rfl⟩ := Nat.exists_eq_add_of_lt (Nat.not_le.1 hp)
      have hnext : (start file).advance (line ++ [10]) = ⟨file, 1, 0⟩ := by
        rw [← advance_after, advance_of_not_mem _ hline]
        rfl
      have htake : (line ++ 10 :: s).take (line.length + q + 1) = line ++ [10] ++ s.take q := by
        rw [Nat.add_assoc, List.take_length_add_append]
        simp
      have hloc : (start file).advance (line ++ [10] ++ s.take q) =
          ⟨file, 1 + ((start file).advance (s.take q)).line,
            ((start file).advance (s.take q)).col⟩ := by
        rw [advance, List.foldl_append, ← advance, ← advance, hnext, advance_line]
      obtain ⟨found, hfound, hcol⟩ := ih q
      rw [htake, hloc, Nat.add_comm 1]
      exact ⟨found, hfound, hcol⟩

end Location

/-! ### Lines of the stages -/

namespace Preprocess

/-- A text is cleared line by line. -/
theorem cleared_lines (h : List.Forall₂ Cleared s out) :
    List.Forall₂ (List.Forall₂ Cleared) (Bytes.split 10 s) (Bytes.split 10 out) := by
  induction h with
  | nil => exact .cons .nil .nil
  | @cons b a s out hb _ ih =>
    rw [Bytes.split_cons, Bytes.split_cons]
    by_cases hline : b = 10
    · obtain rfl | ⟨hne, -⟩ := hb
      · rw [if_pos hline, if_pos hline]
        exact .cons .nil ih
      · exact absurd hline hne
    · have ha : a ≠ 10 := by
        obtain rfl | ⟨-, rfl⟩ := hb
        · exact hline
        · decide
      rw [if_neg hline, if_neg ha]
      generalize Bytes.split 10 s = lines at ih ⊢
      generalize Bytes.split 10 out = shown at ih ⊢
      cases ih with
      | nil => exact .nil
      | cons hfirst hrest => exact .cons (.cons hb hfirst) hrest

/-- The text of the last stage is the script with comments blanked, or what replacing macros makes
of that. -/
theorem exists_cleared (o : Options) (src : Bytes) :
    ∃ cleared, List.Forall₂ Cleared (normalizeNewlines src) cleared ∧
      (stageText o src = cleared ∨ applyMacros o.file cleared = .ok (stageText o src)) := by
  have hmacros (s : Bytes) : macroStage o s = s ∨ applyMacros o.file s = .ok (macroStage o s) := by
    unfold macroStage
    split
    · cases h : applyMacros o.file s with
      | ok out => exact Or.inr rfl
      | error e => exact Or.inl rfl
    · exact Or.inl rfl
  have hsame : List.Forall₂ Cleared (normalizeNewlines src) (normalizeNewlines src) :=
    List.forall₂_same.2 fun _ _ => Or.inl rfl
  unfold stageText
  extract_lets normalized
  split
  · cases h : stripComments o.file normalized with
    | error e => exact ⟨normalized, hsame, Or.inl rfl⟩
    | ok stripped => exact ⟨stripped, cleared_stripComments h, hmacros stripped⟩
  · exact ⟨normalized, hsame, hmacros normalized⟩

/-- What stands at a place of the second list is related to what stands there in the first. -/
theorem exists_getElem?_of_forall₂ {α β : Type} {R : α → β → Prop} {l : List α} {l' : List β}
    {k : Nat} {b : β} (h : List.Forall₂ R l l') (hb : l'[k]? = some b) :
    ∃ a, l[k]? = some a ∧ R a b := by
  induction h generalizing k with
  | nil => cases hb
  | cons hfirst _ ih =>
    cases k with
    | zero =>
      cases hb
      exact ⟨_, rfl, hfirst⟩
    | succ k => exact ih hb

/-- Every line of the last stage's text is made from the line of the script with its number. -/
theorem exists_original_line {o : Options} {src cleared shown : Bytes} {k : Nat}
    (hcleared : List.Forall₂ Cleared (normalizeNewlines src) cleared)
    (hstage : stageText o src = cleared ∨ applyMacros o.file cleared = .ok (stageText o src))
    (hshown : (Bytes.split 10 (stageText o src))[k]? = some shown) :
    ∃ line kept, (Bytes.split 10 (normalizeNewlines src))[k]? = some line ∧
      (Bytes.split 10 cleared)[k]? = some kept ∧ List.Forall₂ Cleared line kept := by
  have hkept : ∃ kept, (Bytes.split 10 cleared)[k]? = some kept := by
    obtain h | h := hstage
    · exact ⟨shown, h ▸ hshown⟩
    · obtain ⟨lines, hlines, hreplaced, -⟩ := exists_cut_of_applyMacros h
      obtain ⟨fs, hfs, -⟩ := exists_getElem?_of_forall₂ hreplaced hshown
      exact ⟨Fragment.joined fs, by rw [hlines.split_eq, List.getElem?_map, hfs]; rfl⟩
  obtain ⟨kept, hkept⟩ := hkept
  obtain ⟨line, hline, hbytes⟩ := exists_getElem?_of_forall₂ (cleared_lines hcleared) hkept
  exact ⟨line, kept, hline, hkept, hbytes⟩

/-- Applying macros keeps the number of newlines. The lines are cut into plain bytes and
definitions in one way; a line is shown with its definitions blanked and then, from the left on, the
first-defined macro whose name starts at a byte that is no blank replaced by its value. A text
without definitions is returned as it is. So the line of every diagnostic is that of a line of the
script: what stands there has its comments blanked and its macros applied on its own. -/
theorem applyMacros_lineLocal :
    (∀ file s out, applyMacros file s = .ok out → out.count 10 = s.count 10 ∧
      ∃ lines, CutInto s lines ∧ (∀ cut, CutInto s cut → cut = lines) ∧
        List.Forall₂ (fun fs shown => Replaced (lines.flatMap Fragment.allMacros)
          (Fragment.allBlanked fs) shown) lines (Bytes.split 10 out) ∧
        (lines.flatMap Fragment.allMacros = [] → out = s)) ∧
    (∀ file s, Undefining 0 s → applyMacros file s = .ok s) ∧
    ∀ src o, ∃ cleared, List.Forall₂ Cleared (normalizeNewlines src) cleared ∧
      (stageText o.effective src = cleared ∨
        applyMacros o.file cleared = .ok (stageText o.effective src)) ∧
      ∀ d ∈ (compile src o).diagnostics, ∃ line kept shown,
        (Bytes.split 10 (normalizeNewlines src))[d.loc.line]? = some line ∧
        (Bytes.split 10 cleared)[d.loc.line]? = some kept ∧ List.Forall₂ Cleared line kept ∧
        (Bytes.split 10 (stageText o.effective src))[d.loc.line]? = some shown ∧
        d.loc.col ≤ shown.length := by
  refine ⟨fun file s out h => ?_, fun file s => applyMacros_undefining, fun src o => ?_⟩
  · obtain ⟨lines, hlines, hreplaced, hnone⟩ := exists_cut_of_applyMacros h
    have hcount : (Bytes.split 10 s).length = (Bytes.split 10 out).length := by
      rw [hlines.split_eq, List.length_map, hreplaced.length_eq]
    rw [Bytes.length_split, Bytes.length_split] at hcount
    exact ⟨(Nat.succ.inj hcount).symm, lines, hlines, fun cut hcut => hcut.unique hlines,
      hreplaced, hnone⟩
  · obtain ⟨cleared, hcleared, hstage⟩ := exists_cleared o.effective src
    refine ⟨cleared, hcleared, hstage, fun d hd => ?_⟩
    obtain ⟨shown, hshown, hcol⟩ := (compile_sited src o d hd).exists_line
    obtain ⟨line, kept, hline, hkept, hbytes⟩ := exists_original_line hcleared hstage hshown
    exact ⟨line, kept, shown, hline, hkept, hbytes, hshown, hcol⟩

/-- A macro is used before it is defined, and a later name starts with its name. -/
def twoMacros : Bytes := utf8 "AB A\ndefine A \"1\"\n#define AB \"2\" xA"

/-- A directive that a macro writes, a comment, and a directive that is warned about. -/
def macroWindow : Bytes :=
  utf8 "#define W \"#window 0:1\"\nW // old\n  startconsole \"a\"\n"

/-- Both definitions are blanked, and the first one is used for both names, also before it; a
warning shows the line and column where its directive stands in the script. -/
theorem applyMacros_lineLocal_twoMacros :
    (∃ out, applyMacros [] twoMacros = .ok out ∧
      out = utf8 "1B 1\n            \n               x1" ∧
      out.count 10 = 2 ∧ ∃ lines, CutInto twoMacros lines) ∧
    applyMacros [] (utf8 "AB defin") = .ok (utf8 "AB defin") ∧
    ∃ d ∈ (compile macroWindow .legacy).diagnostics, d.loc = ⟨[], 2, 2⟩ ∧
      ∃ line shown : Bytes, (Bytes.split 10 (normalizeNewlines macroWindow))[2]? = some line ∧
        (Bytes.split 10 (stageText Options.legacy.effective macroWindow))[2]? = some shown ∧
        2 ≤ shown.length := by
  obtain ⟨hmacros, hplain, hlines⟩ := applyMacros_lineLocal
  have hout : applyMacros [] twoMacros =
      .ok (utf8 "1B 1\n            \n               x1") := by cbv
  obtain ⟨hcount, lines, hcut, -⟩ := hmacros _ _ _ hout
  have hundefining : ¬ defineKeyword <:+: utf8 "AB defin" := by decide
  have hwarned : ⟨.warning, ⟨[], 2, 2⟩, Warning.consoleDeprecated.message⟩ ∈
      (compile macroWindow .legacy).diagnostics := by
    have : (compile macroWindow .legacy).diagnostics =
      [⟨.warning, ⟨[], 2, 2⟩, Warning.consoleDeprecated.message⟩] := by cbv
    rw [this]
    exact List.mem_singleton_self _
  obtain ⟨cleared, -, -, hdiagnostics⟩ := hlines macroWindow .legacy
  obtain ⟨line, kept, shown, hline, -, -, hshown, hcol⟩ := hdiagnostics _ hwarned
  exact ⟨⟨_, hout, rfl, hcount.trans (by decide), lines, hcut⟩,
    hplain _ _ (undefining_of_keywordless hundefining), _, hwarned, rfl, line, shown, hline, hshown,
    hcol⟩

end Preprocess

end ApeScript
