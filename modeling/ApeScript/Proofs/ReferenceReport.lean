import ApeScript.File.References
import Mathlib

/-!
# The reference report

A report resolves every reference of a file: what it calls missing and external are the references
whose label stands nowhere in the file, in their order; what it calls unused are the labels of
switches that no command names, in increasing order; and what it calls duplicate are the labels
that stood before, as often as they stand again.
-/

namespace ApeScript

variable {labels seen before : List Label} {l : Label}

/-! ### Labels that repeat -/

def laterOccurrences (labels : List Label) : List Label :=
  (labels.zipIdx.filter fun p => decide (p.1 ∈ labels.take p.2)).map Prod.fst

/-- The labels that were seen are those before the rest of the list. -/
theorem repeats_go_eq (hseen : ∀ l, l ∈ seen ↔ l ∈ before) (labels : List Label) :
    repeats.go seen labels = ((labels.zipIdx before.length).filter fun p =>
      decide (p.1 ∈ (before ++ labels).take p.2)).map Prod.fst := by
  induction labels generalizing seen before with
  | nil => rfl
  | cons l rest ih =>
    have hhead : (before ++ l :: rest).take before.length = before := List.take_left
    have hmove : before ++ l :: rest = (before ++ [l]) ++ rest := by simp
    have hlength : before.length + 1 = (before ++ [l]).length := by simp
    rw [repeats.go, List.zipIdx_cons, List.filter_cons, hhead]
    have hmore : ∀ a, a ∈ l :: seen ↔ a ∈ before ++ [l] := by
      intro a
      rw [List.mem_cons, List.mem_append, List.mem_singleton, hseen a]
      exact or_comm
    by_cases hl : l ∈ seen
    · have hsame : ∀ a, a ∈ seen ↔ a ∈ before ++ [l] := by
        intro a
        rw [← hmore a, List.mem_cons]
        constructor
        · exact Or.inr
        · rintro (rfl | ha)
          · exact hl
          · exact ha
      have hbefore : l ∈ before := (hseen l).1 hl
      rw [if_pos (List.contains_iff_mem.2 hl), ih hsame, if_pos (decide_eq_true hbefore), hmove,
        hlength]
      rfl
    · have hbefore : l ∉ before := fun h => hl ((hseen l).2 h)
      rw [if_neg (by simpa using hl), ih hmore, if_neg (by simpa using hbefore), hmove, hlength]

theorem repeats_eq (labels : List Label) : repeats labels = laterOccurrences labels := by
  have hnil : ∀ l, l ∈ ([] : List Label) ↔ l ∈ ([] : List Label) := fun _ => Iff.rfl
  exact repeats_go_eq hnil labels

/-! ### Labels in order -/

/-- In a list in order, dropping an entry that is also the next one leaves every entry once. -/
theorem foldr_distinct (h : labels.Pairwise (· ≤ ·)) :
    let distinct := labels.foldr
      (fun l rest => if rest.head? = some l then rest else l :: rest) []
    distinct.head? = labels.head? ∧ distinct.Pairwise (· < ·) ∧ ∀ l, l ∈ distinct ↔ l ∈ labels := by
  induction labels with
  | nil => simp
  | cons a labels ih =>
    obtain ⟨hle, hsorted⟩ := List.pairwise_cons.1 h
    obtain ⟨hhead, hlt, hmem⟩ := ih hsorted
    dsimp only at hhead hlt hmem ⊢
    rw [List.foldr_cons]
    generalize labels.foldr (fun l rest => if rest.head? = some l then rest else l :: rest) [] =
      distinct at hhead hlt hmem ⊢
    by_cases ha : distinct.head? = some a
    · rw [if_pos ha]
      refine ⟨ha, hlt, fun l => ?_⟩
      rw [hmem, List.mem_cons]
      constructor
      · exact Or.inr
      · rintro (rfl | hl)
        · exact (hmem l).1 (List.mem_of_mem_head? ha)
        · exact hl
    · rw [if_neg ha]
      refine ⟨rfl, List.pairwise_cons.2 ⟨?_, hlt⟩, fun l => by simp [hmem]⟩
      -- a smaller entry than the next one, since the list is in order and the next one differs
      intro l hl
      cases distinct with
      | nil => cases hl
      | cons b distinct =>
        have hb : b ∈ labels := (hmem b).1 List.mem_cons_self
        have hne : a ≠ b := by
          rintro rfl
          exact ha rfl
        have hab : a < b := UInt32.lt_of_le_of_ne (hle b hb) hne
        cases hl with
        | head => exact hab
        | tail _ hl => exact UInt32.lt_trans hab (List.rel_of_pairwise_cons hlt hl)

theorem pairwise_mergeSort_le (labels : List Label) :
    (labels.mergeSort (· ≤ ·)).Pairwise (· ≤ ·) :=
  List.pairwise_mergeSort' _ labels

theorem pairwise_sortedDistinct (labels : List Label) :
    (sortedDistinct labels).Pairwise (· < ·) :=
  (foldr_distinct (pairwise_mergeSort_le labels)).2.1

theorem mem_sortedDistinct : l ∈ sortedDistinct labels ↔ l ∈ labels := by
  have hmem := (foldr_distinct (pairwise_mergeSort_le labels)).2.2 l
  rw [List.mem_mergeSort] at hmem
  exact hmem

/-! ### References to switches -/

/-- Only start, think and finish commands name switches. -/
theorem Command.reference?_eq_switch {c : Command} :
    c.reference? = some (.switch, l) ↔ ∃ code, c = .switchRef code l := by
  cases c with
  | switchRef code label =>
    have hreference : (Command.switchRef code label).reference? = some (.switch, label) := rfl
    rw [hreference]
    simp
  | simpleText code text =>
    rw [Command.reference?]
    split
    · cases (Label.parse text).toOption <;> simp
    · simp
  | _ => simp [Command.reference?]

namespace File

variable {f : File}

/-- The labels that references name as switches are those that commands of windows name. -/
theorem mem_switchLabels : l ∈ (f.references.filter (·.target = .switch)).map (·.label) ↔
    ∃ w ∈ f.windows, ∃ code, Command.switchRef code l ∈ w.commands := by
  simp only [references, List.mem_map, List.mem_filter, List.mem_append, List.mem_flatMap,
    decide_eq_true_eq]
  constructor
  · rintro ⟨r, ⟨⟨w, hw, hr⟩ | ⟨s, hs, hr⟩, htarget⟩, rfl⟩
    · obtain ⟨c, hc, hcr⟩ := List.mem_filterMap.1 hr
      obtain ⟨⟨target, label⟩, href, rfl⟩ := Option.map_eq_some_iff.1 hcr
      cases htarget
      obtain ⟨code, rfl⟩ := Command.reference?_eq_switch.1 href
      exact ⟨w, hw, code, hc⟩
    · obtain ⟨p, hp, hpr⟩ := List.mem_filterMap.1 hr
      obtain ⟨label, -, rfl⟩ := Option.map_eq_some_iff.1 hpr
      cases htarget
  · rintro ⟨w, hw, code, hc⟩
    refine ⟨⟨.window w.id, CommandCode.name code, .switch, l⟩, ⟨.inl ⟨w, hw, ?_⟩, rfl⟩, rfl⟩
    exact List.mem_filterMap.2 ⟨_, hc, rfl⟩

/-- What a file's report says, in terms of its windows, its switches and its references. -/
theorem checkReferences_exact (f : File) :
    f.checkReferences.missingSwitches = f.references.filter (fun r =>
      decide (r.target = .switch ∧ ∀ s ∈ f.switches, s.label ≠ r.label)) ∧
    f.checkReferences.externalWindows = f.references.filter (fun r =>
      decide (r.target = .window ∧ ∀ w ∈ f.windows, w.id ≠ r.label)) ∧
    f.checkReferences.unusedSwitches.Pairwise (· < ·) ∧
    (∀ l, l ∈ f.checkReferences.unusedSwitches ↔ (∃ s ∈ f.switches, s.label = l) ∧
      ∀ w ∈ f.windows, ∀ code, Command.switchRef code l ∉ w.commands) ∧
    f.checkReferences.duplicateWindows = laterOccurrences (f.windows.map (·.id)) ∧
    f.checkReferences.duplicateSwitches = laterOccurrences (f.switches.map (·.label)) := by
  refine ⟨?_, ?_, pairwise_sortedDistinct _, fun l => ?_, repeats_eq _, repeats_eq _⟩
  · apply List.filter_congr
    intro r hr
    rw [Bool.eq_iff_iff]
    simp
  · apply List.filter_congr
    intro r hr
    rw [Bool.eq_iff_iff]
    simp
  · have hused := mem_switchLabels (f := f) (l := l)
    rw [checkReferences]
    dsimp only
    rw [mem_sortedDistinct, List.mem_filter, Bool.not_eq_true', ← Bool.not_eq_true,
      List.contains_iff_mem, hused, List.mem_map]
    simp

end File

end ApeScript
