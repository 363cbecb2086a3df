import ApeScript.Proofs.CutLines
import Mathlib

/-!
# Substituted macros

Once definitions are blanked the names of macros are replaced by their values, from the left on.
Neither holds a newline, so this happens in each line on its own, and a text with macros applied has
as many lines as before.
-/

namespace ApeScript.Preprocess

/-- What replacing macros makes of a text: from the left on, a byte is kept if it is blank or no
name starts at it, and else the name of the first-defined macro that does is replaced by its value,
which is not searched again. -/
inductive Replaced (macros : List TextMacro) : Bytes → Bytes → Prop
  | done : Replaced macros [] []
  | keep {b : UInt8} {s out : Bytes}
      (unnamed : isBlankByte b = true ∨ ∀ m ∈ macros, ¬ m.name <+: b :: s)
      (rest : Replaced macros s out) : Replaced macros (b :: s) (b :: out)
  | use {earlier later : List TextMacro} {m : TextMacro} {s out : Bytes}
      (first : macros = earlier ++ m :: later) (unnamed : ∀ n ∈ earlier, ¬ n.name <+: m.name ++ s)
      (rest : Replaced macros s out) : Replaced macros (m.name ++ s) (m.value ++ out)

variable {s line tail out : Bytes} {b before : UInt8} {loc : Location} {macros : List TextMacro}
  {fs : List Fragment}

/-! ### Replacing names -/

structure TextMacro.OneLine (m : TextMacro) : Prop where
  name_ne_nil : m.name ≠ []
  name : ∀ b ∈ m.name, isBlankByte b = false
  value : 10 ∉ m.value

theorem TextMacro.OneLine.not_mem_name {m : TextMacro} (hm : m.OneLine) : 10 ∉ m.name :=
  fun h => absurd (hm.name 10 h) (by decide)

theorem Definition.WellFormed.oneLine {d : Definition} (hd : d.WellFormed) : d.textMacro.OneLine :=
  ⟨hd.name_ne_nil, hd.name, fun h => (hd.value 10 h).2 rfl⟩

theorem Fragment.Line.oneLine (h : Fragment.Line before fs) :
    ∀ m ∈ Fragment.allMacros fs, m.OneLine := by
  induction fs generalizing before with
  | nil => simp [Fragment.allMacros]
  | cons f fs ih =>
    refine List.forall_mem_append.2 ⟨?_, ih h.2⟩
    cases f with
    | plain b => simp [Fragment.macros]
    | definition d => exact List.forall_mem_singleton.2 h.1.1.oneLine

/-- The bytes of a name are passed over. -/
theorem substitute_skip (t : Bytes) :
    substitute macros t.length (t ++ s) = substitute macros 0 s := by
  induction t with
  | nil => rfl
  | cons b t ih => exact ih

theorem substitute_nil : substitute [] 0 s = s := by
  induction s with
  | nil => rfl
  | cons b s ih => simp [substitute, ih]

theorem substitute_keep (h : isBlankByte b = true ∨ ∀ m ∈ macros, ¬ m.name <+: b :: s) :
    substitute macros 0 (b :: s) = b :: substitute macros 0 s := by
  rw [substitute]
  split_ifs with hblank
  · rfl
  · have hfind : macros.find? (fun m => m.name.isPrefixOf (b :: s)) = none := by
      simpa using h.resolve_left hblank
    rw [hfind]

theorem substitute_use {earlier later : List TextMacro} {m : TextMacro} (hm : m.OneLine)
    (first : macros = earlier ++ m :: later) (unnamed : ∀ n ∈ earlier, ¬ n.name <+: m.name ++ s) :
    substitute macros 0 (m.name ++ s) = m.value ++ substitute macros 0 s := by
  obtain ⟨b, t, ht⟩ := List.exists_cons_of_ne_nil hm.name_ne_nil
  have hblank : isBlankByte b = false := hm.name b (by simp [ht])
  have hfind : macros.find? (fun m => m.name.isPrefixOf (b :: (t ++ s))) = some m := by
    rw [← List.cons_append, ← ht]
    refine List.find?_eq_some_iff_append.2 ⟨by simp, earlier, later, first, ?_⟩
    simpa [← List.isPrefixOf_iff_prefix] using unnamed
  rw [ht, List.cons_append, substitute]
  simp [hblank, hfind, ht, substitute_skip]

/-- A name that starts in a line ends in it. -/
theorem TextMacro.OneLine.name_isPrefix_append {m : TextMacro} (hm : m.OneLine)
    (htail : ∀ b ∈ tail.head?, b = 10) : m.name <+: line ++ tail ↔ m.name <+: line := by
  refine ⟨fun ⟨after, h⟩ => ?_, fun h => h.trans (List.prefix_append ..)⟩
  obtain ⟨more, rfl, -⟩ := exists_eq_append_of_line hm.not_mem_name htail h.symm
  exact List.prefix_append ..

theorem exists_replaced (hmacros : ∀ m ∈ macros, m.OneLine) (s : Bytes) :
    ∃ out, Replaced macros s out := by
  induction hn : s.length using Nat.strong_induction_on generalizing s with
  | _ n ih =>
  subst hn
  cases s with
  | nil => exact ⟨[], .done⟩
  | cons b s =>
    by_cases hblank : isBlankByte b = true
    · obtain ⟨out, hout⟩ := ih s.length (Nat.lt_succ_self _) s rfl
      exact ⟨b :: out, .keep (Or.inl hblank) hout⟩
    cases hfind : macros.find? fun m => m.name.isPrefixOf (b :: s) with
    | none =>
      obtain ⟨out, hout⟩ := ih s.length (Nat.lt_succ_self _) s rfl
      exact ⟨b :: out, .keep (Or.inr (by simpa using hfind)) hout⟩
    | some m =>
      obtain ⟨hname, earlier, later, hfirst, hearlier⟩ := List.find?_eq_some_iff_append.1 hfind
      obtain ⟨rest, hrest⟩ := List.isPrefixOf_iff_prefix.1 hname
      have hshorter : rest.length < (b :: s).length := by
        have := List.length_pos_iff.2 (hmacros m (hfirst ▸ by simp)).name_ne_nil
        rw [← hrest, List.length_append]
        omega
      obtain ⟨out, hout⟩ := ih rest.length hshorter rest rfl
      rw [← hrest] at hearlier ⊢
      have hunnamed : ∀ n ∈ earlier, ¬ n.name <+: m.name ++ rest := by
        simpa [← List.isPrefixOf_iff_prefix] using hearlier
      exact ⟨m.value ++ out, .use hfirst hunnamed hout⟩

theorem Replaced.not_mem (hmacros : ∀ m ∈ macros, m.OneLine) (h : Replaced macros line out)
    (hline : 10 ∉ line) : 10 ∉ out := by
  induction h with
  | done => exact hline
  | keep _ _ ih =>
    obtain ⟨hb, hs⟩ := not_or.1 (List.mem_cons.not.1 hline)
    exact List.mem_cons.not.2 (not_or.2 ⟨hb, ih hs⟩)
  | @use _ _ m _ _ first _ _ ih =>
    have hvalue := (hmacros m (first ▸ by simp)).value
    have hs := ih fun h => hline (List.mem_append_right _ h)
    exact List.mem_append.not.2 (not_or.2 ⟨hvalue, hs⟩)

/-- A line is replaced alike, whatever follows it. -/
theorem Replaced.substitute_append (hmacros : ∀ m ∈ macros, m.OneLine)
    (htail : ∀ b ∈ tail.head?, b = 10) (h : Replaced macros line out) :
    substitute macros 0 (line ++ tail) = out ++ substitute macros 0 tail := by
  induction h with
  | done => rfl
  | @keep b s out unnamed _ ih =>
    have hname (m : TextMacro) (hm : m ∈ macros) :
        m.name <+: b :: (s ++ tail) ↔ m.name <+: b :: s := by
      rw [← List.cons_append, (hmacros m hm).name_isPrefix_append htail]
    have hkept : isBlankByte b = true ∨ ∀ m ∈ macros, ¬ m.name <+: b :: (s ++ tail) :=
      unnamed.imp_right fun h m hm => (hname m hm).not.2 (h m hm)
    rw [List.cons_append, substitute_keep hkept, ih]
    rfl
  | @use earlier later m s out first unnamed _ ih =>
    have hfirst (n : TextMacro) (hn : n ∈ earlier) : ¬ n.name <+: m.name ++ (s ++ tail) := by
      rw [← List.append_assoc, (hmacros n (first ▸ by simp [hn])).name_isPrefix_append htail]
      exact unnamed n hn
    rw [List.append_assoc, substitute_use (hmacros m (first ▸ by simp)) first hfirst, ih,
      List.append_assoc]

/-- Names are replaced line by line. -/
theorem replaced_lines (hmacros : ∀ m ∈ macros, m.OneLine) (s : Bytes) :
    List.Forall₂ (Replaced macros) (Bytes.split 10 s)
      (Bytes.split 10 (substitute macros 0 s)) := by
  induction s using line_induction with
  | last line hline =>
    obtain ⟨out, hout⟩ := exists_replaced hmacros line
    have htext : substitute macros 0 (line ++ []) = out ++ [] :=
      hout.substitute_append hmacros (by simp)
    rw [List.append_nil, List.append_nil] at htext
    rw [Bytes.split_of_not_mem hline, htext,
      Bytes.split_of_not_mem (hout.not_mem hmacros hline)]
    exact .cons hout .nil
  | cons line s hline ih =>
    obtain ⟨out, hout⟩ := exists_replaced hmacros line
    have htext : substitute macros 0 (line ++ 10 :: s) = out ++ substitute macros 0 (10 :: s) :=
      hout.substitute_append hmacros (by simp)
    rw [substitute_keep (Or.inl (by decide))] at htext
    rw [Bytes.split_append_cons hline, htext, Bytes.split_append_cons (hout.not_mem hmacros hline)]
    exact .cons hout ih

theorem Fragment.allBlanked_of_allMacros_nil (h : allMacros fs = []) :
    allBlanked fs = joined fs := by
  induction fs with
  | nil => rfl
  | cons f fs ih =>
    obtain ⟨hf, hfs⟩ := List.append_eq_nil_iff.1 h
    cases f with
    | plain b => exact congrArg (b :: ·) (ih hfs)
    | definition d => cases hf

/-- At the start of a text stands what stands at the start of a line. -/
theorem collectDefines_start : collectDefines 0 0 loc s = collectDefines 10 0 loc s := by
  cases s with
  | nil => rfl
  | cons b s => rfl

/-- A text whose macros are applied is cut into fragments line by line; its definitions are blanked
and the names of all macros are replaced in each line on its own. -/
theorem exists_cut_of_applyMacros (h : applyMacros file s = .ok out) :
    ∃ lines, CutInto s lines ∧
      List.Forall₂ (fun fs shown => Replaced (lines.flatMap Fragment.allMacros)
        (Fragment.allBlanked fs) shown) lines (Bytes.split 10 out) ∧
      (lines.flatMap Fragment.allMacros = [] → out = s) := by
  obtain ⟨⟨blanked, macros⟩, hcollect, h⟩ := bind_eq_ok.1 h
  rw [collectDefines_start] at hcollect
  obtain ⟨lines, hlines, hblanked, rfl⟩ := exists_cut hcollect
  generalize hall : lines.flatMap Fragment.allMacros = macros at h ⊢
  have hmacros : ∀ m ∈ macros, m.OneLine := by
    intro m hm
    obtain ⟨fs, hfs, hm⟩ := List.mem_flatMap.1 (hall ▸ hm)
    exact (hlines.line fs hfs).oneLine m hm
  have hout : substitute macros 0 blanked = out := by
    cases macros with
    | nil => exact substitute_nil.trans (Except.ok.inj h)
    | cons m macros => exact Except.ok.inj h
  have hreplaced := replaced_lines hmacros blanked
  rw [hblanked, List.forall₂_map_left_iff, hout] at hreplaced
  subst hall
  refine ⟨lines, hlines, hreplaced, fun hnone => ?_⟩
  rw [← hout, hnone, substitute_nil]
  refine Bytes.split_injective (hblanked.trans (Eq.trans ?_ hlines.split_eq.symm))
  refine List.map_congr_left fun fs hfs => Fragment.allBlanked_of_allMacros_nil ?_
  exact List.flatMap_eq_nil_iff.1 hnone fs hfs

/-- A text without definitions stays as it is. -/
theorem applyMacros_undefining (h : Undefining 0 s) : applyMacros file s = .ok s := by
  rw [applyMacros, collectDefines_undefining h]
  rfl

end ApeScript.Preprocess
