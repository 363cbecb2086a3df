import ApeScript.Text.Lines
import Mathlib.Data.List.Induction
import Mathlib.Data.List.TakeWhile

/-!
# Pieces and lines of a text

A text is cut at a separator into pieces that hold none; `Bytes.split_eq_splitOn` gives access to
what is known of such cuts. Lines that hold no line feed, each with a line feed after it, are read
back as they are.
-/

namespace ApeScript

namespace Bytes

theorem split_eq_splitOn (sep : UInt8) (s : Bytes) : split sep s = s.splitOn sep := by
  induction s with
  | nil => rfl
  | cons b s ih =>
    have hne : split sep s ≠ [] := ih ▸ List.splitOn_ne_nil sep s
    have hcons : split sep (b :: s) = if b = sep then [] :: split sep s else
        (split sep s).modifyHead (b :: ·) := by
      unfold split at hne ⊢
      rw [List.foldr_cons]
      split
      · rfl
      · split
        · rename_i heq
          rw [heq]
          rfl
        · contradiction
    rw [hcons, ih, List.splitOn_cons_eq_if_modifyHead]
    simp

theorem split_cons (sep b : UInt8) (s : Bytes) : split sep (b :: s) =
    if b = sep then [] :: split sep s else (split sep s).modifyHead (b :: ·) := by
  rw [split_eq_splitOn, List.splitOn_cons_eq_if_modifyHead, ← split_eq_splitOn]
  simp

theorem length_split (sep : UInt8) (s : Bytes) : (split sep s).length = s.count sep + 1 := by
  induction s with
  | nil => rfl
  | cons b s ih =>
    rw [split_cons, List.count_cons]
    by_cases hb : b = sep <;> simp [hb, ih]

theorem split_of_not_mem {sep : UInt8} {s : Bytes} (h : sep ∉ s) : split sep s = [s] := by
  rw [split_eq_splitOn, List.splitOn_eq_singleton h]

/-- The first piece ends at the first separator. -/
theorem split_append_cons {sep : UInt8} {piece : Bytes} (h : sep ∉ piece) (s : Bytes) :
    split sep (piece ++ sep :: s) = piece :: split sep s := by
  rw [split_eq_splitOn, List.splitOn_append_cons_self, List.splitOn_eq_singleton h,
    split_eq_splitOn]
  rfl

theorem split_injective {sep : UInt8} {s t : Bytes} (h : split sep s = split sep t) : s = t := by
  rw [split_eq_splitOn, split_eq_splitOn] at h
  have hs : [sep].intercalate (s.splitOn sep) = s := List.intercalate_splitOn sep
  rw [← hs, h, List.intercalate_splitOn]

/-- The longest beginning of a text whose bytes satisfy `p`. -/
theorem takeWhile_append_of_head? {p : UInt8 → Bool} {s t : Bytes} (hs : ∀ b ∈ s, p b = true)
    (ht : ∀ b, t.head? = some b → p b = false) : (s ++ t).takeWhile p = s := by
  rw [List.takeWhile_append_of_pos hs]
  cases t with
  | nil => simp
  | cons b t => simp [ht b rfl]

/-- A longest beginning is determined, and so is what follows it. -/
theorem eq_of_append_eq_append {p : UInt8 → Bool} {s s' t t' : Bytes}
    (hs : ∀ b ∈ s, p b = true) (ht : ∀ b, t.head? = some b → p b = false)
    (hs' : ∀ b ∈ s', p b = true) (ht' : ∀ b, t'.head? = some b → p b = false)
    (h : s ++ t = s' ++ t') : s = s' ∧ t = t' := by
  have hlead : s = s' := by
    rw [← takeWhile_append_of_head? hs ht, h, takeWhile_append_of_head? hs' ht']
  subst hlead
  exact ⟨rfl, List.append_cancel_left h⟩

theorem not_mem_of_mem_split {sep : UInt8} {s piece : Bytes} (h : piece ∈ split sep s) :
    sep ∉ piece := by
  rw [split_eq_splitOn] at h
  induction s generalizing piece with
  | nil =>
    rw [List.mem_singleton.1 h]
    exact List.not_mem_nil
  | cons b s ih =>
    obtain ⟨first, rest, hs⟩ := List.exists_cons_of_ne_nil (List.splitOn_ne_nil sep s)
    rw [List.splitOn_cons_eq_if_modifyHead, hs] at h
    have hfirst : sep ∉ first := ih (hs ▸ List.mem_cons_self)
    have hrest : ∀ p ∈ rest, sep ∉ p := fun p hp => ih (hs ▸ List.mem_cons_of_mem _ hp)
    by_cases hb : b = sep
    · rw [if_pos (beq_iff_eq.2 hb)] at h
      rcases List.mem_cons.1 h with rfl | h
      · exact List.not_mem_nil
      · rcases List.mem_cons.1 h with rfl | h
        · exact hfirst
        · exact hrest piece h
    · rw [if_neg (by simpa using hb), List.modifyHead_cons] at h
      rcases List.mem_cons.1 h with rfl | h
      · intro hmem
        rcases List.mem_cons.1 hmem with hsep | hmem
        · exact hb hsep.symm
        · exact hfirst hmem
      · exact hrest piece h

theorem joinWith_concat (sep : Bytes) {l : List Bytes} (hl : l ≠ []) (s : Bytes) :
    joinWith sep (l ++ [s]) = joinWith sep l ++ (sep ++ s) := by
  induction l with
  | nil => contradiction
  | cons first rest ih =>
    cases rest with
    | nil => simp [joinWith, List.intercalate]
    | cons second rest =>
      have := ih (List.cons_ne_nil second rest)
      simp only [joinWith, List.cons_append, List.intercalate_cons_cons] at this ⊢
      rw [this]
      simp

/-- Pieces with a separator after each. -/
theorem joinWith_ended (sep : Bytes) {l : List Bytes} (hl : l ≠ []) :
    joinWith sep l ++ sep = l.flatMap (· ++ sep) := by
  induction l with
  | nil => contradiction
  | cons first rest ih =>
    cases rest with
    | nil => simp [joinWith]
    | cons second rest =>
      rw [List.flatMap_cons, ← ih (List.cons_ne_nil _ _)]
      simp [joinWith, List.intercalate_cons_cons]

/-- What is added to a text without a separator in it goes to the last piece. -/
theorem split_append_of_not_mem {sep : UInt8} (s : Bytes) {t : Bytes} (ht : sep ∉ t) :
    ∃ front last, split sep (s ++ t) = front ++ [last ++ t] := by
  obtain ⟨front, last, hs⟩ : ∃ front last, split sep s = front ++ [last] := by
    have hne : split sep s ≠ [] := split_eq_splitOn sep s ▸ List.splitOn_ne_nil sep s
    exact ⟨_, _, (List.dropLast_concat_getLast hne).symm⟩
  have hjoin : s ++ t = [sep].intercalate (front ++ [last ++ t]) := by
    have hself : s = [sep].intercalate (front ++ [last]) := by
      rw [← hs, split_eq_splitOn, List.intercalate_splitOn]
    by_cases hfront : front = []
    · subst hfront
      simp [hself]
    · have hlast := joinWith_concat [sep] hfront last
      have hmore := joinWith_concat [sep] hfront (last ++ t)
      simp only [joinWith] at hlast hmore
      rw [hmore, hself, hlast]
      simp
  refine ⟨front, last, ?_⟩
  rw [split_eq_splitOn, hjoin, List.splitOn_intercalate sep]
  · intro piece hpiece
    have hnot (p : Bytes) (hp : p ∈ front ++ [last]) : sep ∉ p := not_mem_of_mem_split (hs ▸ hp)
    rcases List.mem_append.1 hpiece with hpiece | hpiece
    · exact hnot piece (List.mem_append_left _ hpiece)
    · rw [List.mem_singleton.1 hpiece]
      simp [hnot last (by simp), ht]
  · simp

end Bytes

namespace Text.Lines

theorem dropReturn_of_not_mem {s : Bytes} (h : 13 ∉ s) : dropReturn s = s := by
  apply if_neg
  intro hlast
  exact h (List.mem_of_getLast? hlast)

theorem dropReturn_concat (s : Bytes) : dropReturn (s ++ [13]) = s := by
  simp [dropReturn]

theorem dropReturn_cases (line : Bytes) :
    dropReturn line = line ∨ line = dropReturn line ++ [13] := by
  by_cases h : line.getLast? = some 13
  · obtain ⟨front, rfl⟩ := List.getLast?_eq_some_iff.1 h
    exact Or.inr (by rw [dropReturn_concat])
  · exact Or.inl (if_neg h)

/-- Only what follows another byte can lose a carriage return. -/
theorem dropReturn_append {b : UInt8} (hb : b ≠ 13) (s t : Bytes) :
    dropReturn (s ++ b :: t) = s ++ b :: dropReturn t := by
  cases t using List.reverseRecOn with
  | nil => simp [dropReturn, hb]
  | append_singleton t c =>
    by_cases hc : c = 13
    · subst hc
      rw [← List.cons_append, ← List.append_assoc, dropReturn_concat, dropReturn_concat]
    · have hkept (u : Bytes) : dropReturn (u ++ [c]) = u ++ [c] := by simp [dropReturn, hc]
      rw [← List.cons_append, ← List.append_assoc, hkept, hkept, List.append_assoc]
      rfl

theorem mem_of_mem_dropReturn {b : UInt8} {s : Bytes} (h : b ∈ dropReturn s) : b ∈ s := by
  unfold dropReturn at h
  split at h
  · exact List.dropLast_subset _ h
  · exact h

theorem not_mem_of_mem_rawLines {s line : Bytes} (h : line ∈ rawLines s) : 10 ∉ line := by
  unfold rawLines at h
  dsimp only at h
  split at h
  · exact Bytes.not_mem_of_mem_split (List.dropLast_subset _ h)
  · exact Bytes.not_mem_of_mem_split h

theorem rawLines_ended {lines : List Bytes} (h : ∀ line ∈ lines, 10 ∉ line) :
    rawLines (lines.flatMap (· ++ [10])) = lines := by
  have hsplit : Bytes.split 10 (lines.flatMap (· ++ [10])) = lines ++ [[]] := by
    rw [Bytes.split_eq_splitOn]
    induction lines with
    | nil => rfl
    | cons line lines ih =>
      rw [List.flatMap_cons, List.append_assoc, List.singleton_append,
        List.splitOn_append_cons_self, List.splitOn_eq_singleton (h line List.mem_cons_self),
        ih fun x hx => h x (List.mem_cons_of_mem _ hx)]
      rfl
  simp [rawLines, hsplit]

/-- The lines of a text, each ended, are the text with its last line ended. -/
theorem flatMap_rawLines {s : Bytes} (hs : s ≠ []) :
    (rawLines s).flatMap (· ++ [10]) = if s.getLast? = some 10 then s else s ++ [10] := by
  have hne : Bytes.split 10 s ≠ [] := Bytes.split_eq_splitOn 10 s ▸ List.splitOn_ne_nil 10 s
  obtain ⟨front, last, hsplit⟩ : ∃ front last, Bytes.split 10 s = front ++ [last] :=
    ⟨_, _, (List.dropLast_concat_getLast hne).symm⟩
  have hjoin : Bytes.joinWith [10] (front ++ [last]) = s := by
    rw [← hsplit, Bytes.split_eq_splitOn, Bytes.joinWith, List.intercalate_splitOn]
  have hlast : 10 ∉ last := Bytes.not_mem_of_mem_split (s := s) (by simp [hsplit])
  by_cases hnil : last = []
  · subst hnil
    have hfront : front ≠ [] := by
      rintro rfl
      exact hs (by rw [← hjoin]; rfl)
    have hended : front.flatMap (· ++ [10]) = s := by
      rw [← Bytes.joinWith_ended [10] hfront, ← hjoin, Bytes.joinWith_concat [10] hfront,
        List.append_nil]
    have hnewline : s.getLast? = some 10 := by
      rw [← hended, ← Bytes.joinWith_ended [10] hfront]
      simp
    have hraw : rawLines s = front := by simp [rawLines, hsplit]
    rw [hraw, hended, if_pos hnewline]
  · have hnewline : s.getLast? ≠ some 10 := by
      intro hlast'
      have hend : s.getLast? = last.getLast? := by
        by_cases hfront : front = []
        · subst hfront
          rw [← hjoin]
          simp [Bytes.joinWith]
        · rw [← hjoin, Bytes.joinWith_concat [10] hfront, List.getLast?_append,
            List.getLast?_append]
          cases h : last.getLast? with
          | none => exact absurd (List.getLast?_eq_none_iff.1 h) hnil
          | some b => rfl
      exact hlast (List.mem_of_getLast? (hend ▸ hlast'))
    have hraw : rawLines s = front ++ [last] := by simp [rawLines, hsplit, hnil]
    rw [hraw, ← Bytes.joinWith_ended [10] (by simp), hjoin, if_neg hnewline]

theorem rawLines_ne_nil {s : Bytes} (hs : s ≠ []) : rawLines s ≠ [] := by
  intro hnil
  have hended := flatMap_rawLines hs
  rw [hnil, List.flatMap_nil] at hended
  split at hended
  · exact hs hended.symm
  · simp at hended

theorem ofBytes_ended {lines : List Bytes} (h : ∀ line ∈ lines, 10 ∉ line)
    (hlong : ∀ line ∈ lines, line.length < limit) :
    ofBytes (lines.flatMap (· ++ [10])) = ⟨lines.map dropReturn, false⟩ := by
  have hshort : lines.takeWhile (fun line => line.length < limit) = lines :=
    List.takeWhile_eq_self_iff.2 (by simpa using hlong)
  simp [ofBytes, rawLines_ended h, hshort]

end Text.Lines

end ApeScript
