import ApeScript.Compile.Program
import ApeScript.Proofs.Pieces
import Mathlib

/-!
# The hash of a script's name

A file name is cut in one way into directories, a base name and a last extension
(`NamedBy.scriptStem_eq`, `exists_namedBy`). The hash goes over the base name in 32-bit words, of
which 27 bits are kept before each multiplication, so that it is the number that unbounded
arithmetic gives (`toNat_foldl_mix`).
-/

namespace ApeScript

variable {file dirs stem ext : Bytes}

/-! ### The base name -/

def isSeparator (b : UInt8) : Bool := b == 47 || b == 92

/-- A file name in three parts: directories up to the last separator, a base name, and the last
extension from its dot on. A name without a dot behind its directories has no extension. -/
structure NamedBy (file dirs stem ext : Bytes) : Prop where
  file : file = dirs ++ (stem ++ ext)
  dirs : dirs = [] ∨ ∃ above sep, dirs = above ++ [sep] ∧ isSeparator sep = true
  name : ∀ b ∈ stem ++ ext, isSeparator b = false
  ext : ext = [] ∧ 46 ∉ stem ∨ ∃ letters, ext = 46 :: letters ∧ 46 ∉ letters

theorem not_isSeparator_eq (b : UInt8) : (b != 47 && b != 92) = !isSeparator b := by
  simp [isSeparator, bne]

/-- The base name is what the hash goes over. -/
theorem NamedBy.scriptStem_eq (h : NamedBy file dirs stem ext) : scriptStem file = stem := by
  have hname : (file.reverse.takeWhile fun b => b != 47 && b != 92) = (stem ++ ext).reverse := by
    rw [h.file, List.reverse_append]
    refine Bytes.takeWhile_append_of_head? (fun b hb => ?_) fun b hb => ?_
    · rw [not_isSeparator_eq, h.name b (List.mem_reverse.1 hb)]
      rfl
    · obtain hnone | ⟨above, sep, hdirs, hsep⟩ := h.dirs
      · simp [hnone] at hb
      · have hlast : sep = b := by simpa [hdirs] using hb
        rw [← hlast, not_isSeparator_eq, hsep]
        rfl
  simp only [scriptStem, hname, List.reverse_reverse, List.reverse_append]
  obtain ⟨hext, hdot⟩ | ⟨letters, hext, hdot⟩ := h.ext
  · have hall : stem.reverse.dropWhile (· != 46) = [] := by
      rw [List.dropWhile_eq_nil_iff]
      intro b hb
      simpa using fun heq : b = 46 => hdot (heq ▸ List.mem_reverse.1 hb)
    simp [hext, hall]
  · have hlast : (ext.reverse ++ stem.reverse).dropWhile (· != 46) = 46 :: stem.reverse := by
      rw [hext, List.reverse_cons, List.append_assoc, List.dropWhile_append_of_pos]
      · simp
      · intro b hb
        simpa using fun heq : b = 46 => hdot (heq ▸ List.mem_reverse.1 hb)
    simp only [hlast, List.reverse_reverse]

/-- Every text ends in a part without separators that is cut off right behind one. -/
theorem exists_dirs (file : Bytes) : ∃ dirs name, file = dirs ++ name ∧
    (dirs = [] ∨ ∃ above sep, dirs = above ++ [sep] ∧ isSeparator sep = true) ∧
    ∀ b ∈ name, isSeparator b = false := by
  induction file using List.reverseRecOn with
  | nil => exact ⟨[], [], rfl, .inl rfl, by simp⟩
  | append_singleton file b ih =>
    cases hb : isSeparator b with
    | true => exact ⟨file ++ [b], [], by simp, .inr ⟨file, b, rfl, hb⟩, by simp⟩
    | false =>
      obtain ⟨dirs, name, hfile, hdirs, hname⟩ := ih
      refine ⟨dirs, name ++ [b], by simp [hfile], hdirs, fun a ha => ?_⟩
      obtain ha | ha := List.mem_append.1 ha
      · exact hname a ha
      · rw [List.mem_singleton.1 ha, hb]

/-- Every text is cut at its last dot, if it has one. -/
theorem exists_ext (name : Bytes) : ∃ stem ext, name = stem ++ ext ∧
    (ext = [] ∧ 46 ∉ stem ∨ ∃ letters, ext = 46 :: letters ∧ 46 ∉ letters) := by
  induction name using List.reverseRecOn with
  | nil => exact ⟨[], [], rfl, .inl ⟨rfl, by simp⟩⟩
  | append_singleton name b ih =>
    by_cases hb : b = 46
    · exact ⟨name, [46], by simp [hb], .inr ⟨[], rfl, by simp⟩⟩
    · obtain ⟨stem, ext, hname, ⟨hext, hdot⟩ | ⟨letters, hext, hdot⟩⟩ := ih
      · refine ⟨stem ++ [b], [], by simp [hname, hext], .inl ⟨rfl, ?_⟩⟩
        simpa [hdot] using Ne.symm hb
      · refine ⟨stem, 46 :: (letters ++ [b]), by simp [hname, hext], .inr ⟨_, rfl, ?_⟩⟩
        simpa [hdot] using Ne.symm hb

theorem exists_namedBy (file : Bytes) : ∃ dirs stem ext, NamedBy file dirs stem ext := by
  obtain ⟨dirs, name, hfile, hdirs, hname⟩ := exists_dirs file
  obtain ⟨stem, ext, hsplit, hext⟩ := exists_ext name
  subst hsplit
  exact ⟨dirs, stem, ext, hfile, hdirs, hname, hext⟩

/-! ### The hash of a base name -/

theorem Bytes.lower_lt_iff (b : UInt8) : lower b < 0x80 ↔ b < 0x80 := by
  unfold lower isUpper
  split
  · rename_i h
    simp only [Bool.and_eq_true, decide_eq_true_eq, UInt8.le_iff_toNat_le] at h
    simp only [UInt8.lt_iff_toNat_lt, UInt8.toNat_add] at h ⊢
    simp at h ⊢
    omega
  · rfl

/-- One step of the hash: 27 bits of what came before, and a byte in lower case. -/
def mixByte (h : UInt32) (b : UInt8) : UInt32 := (h &&& 0x7ffffff) * 31 + (Bytes.lower b).toUInt32

/-- The same step on numbers without a bound, for a byte in lower case. -/
def mixExactly (h : Nat) (b : UInt8) : Nat := h % 2 ^ 27 * 31 + b.toNat

def nameHash (letters : Bytes) : Nat := letters.foldl mixExactly 0 % 100000

theorem toNat_mask (h : UInt32) : (h &&& 0x7ffffff).toNat = h.toNat % 2 ^ 27 := by
  rw [UInt32.toNat_and]
  exact Nat.and_two_pow_sub_one_eq_mod h.toNat 27

/-- Twenty-seven bits times 31 and one byte more fit into 32 bits. -/
theorem mixExactly_lt (h : Nat) (b : UInt8) : mixExactly h b < 2 ^ 32 := by
  have hkept : h % 2 ^ 27 < 2 ^ 27 := Nat.mod_lt _ (by decide)
  have hbyte := b.toNat_lt
  simp only [mixExactly]
  omega

theorem toNat_mixByte (h : UInt32) (b : UInt8) :
    (mixByte h b).toNat = mixExactly h.toNat (Bytes.lower b) := by
  have hfits : h.toNat % 2 ^ 27 * 31 + (Bytes.lower b).toNat < 2 ^ 32 :=
    mixExactly_lt h.toNat (Bytes.lower b)
  rw [mixByte, UInt32.toNat_add, UInt32.toNat_mul, toNat_mask, UInt8.toNat_toUInt32,
    show (31 : UInt32).toNat = 31 from rfl, mixExactly]
  omega

/-- The words of the hash are the numbers that unbounded arithmetic gives. -/
theorem toNat_foldl_mix (s : Bytes) (h : UInt32) :
    (s.foldl mixByte h).toNat = (s.map Bytes.lower).foldl mixExactly h.toNat := by
  induction s generalizing h with
  | nil => rfl
  | cons b s ih => rw [List.foldl_cons, ih, toNat_mixByte, List.map_cons, List.foldl_cons]

theorem inlineHash_eq (file : Bytes) : inlineHash file =
    if (scriptStem file).any (0x80 ≤ ·) then .error (.fileName file)
    else .ok (nameHash ((scriptStem file).map Bytes.lower)) := by
  have hword : ((scriptStem file).foldl mixByte 0).toNat % 100000 =
      nameHash ((scriptStem file).map Bytes.lower) :=
    congrArg (· % 100000) (toNat_foldl_mix (scriptStem file) 0)
  rw [← hword]
  rfl

/-- A name has a hash exactly if its base name is ASCII. -/
theorem NamedBy.inlineHash_eq_ok (h : NamedBy file dirs stem ext) (hascii : ∀ b ∈ stem, b < 0x80) :
    inlineHash file = .ok (nameHash (stem.map Bytes.lower)) := by
  have hnone : stem.any (0x80 ≤ ·) = false := by simpa using hascii
  rw [inlineHash_eq, h.scriptStem_eq, hnone]
  rfl

theorem NamedBy.inlineHash_eq_error_iff (h : NamedBy file dirs stem ext) :
    inlineHash file = .error (.fileName file) ↔ ∃ b ∈ stem, 0x80 ≤ b := by
  rw [inlineHash_eq, h.scriptStem_eq]
  split
  · rename_i hany
    simpa using hany
  · rename_i hany
    simpa using hany

/-- Every file name is cut into directories, a base name and a last extension. The hash fails
exactly if a byte of the base name is outside ASCII. Otherwise it is a number up to 99999, no step
overflows 32 bits, and any name whose base name differs at most in the case of its letters has the
same hash, whatever its directories and its last extension. -/
theorem inlineHash_of_name (file : Bytes) : (∃ dirs stem ext, NamedBy file dirs stem ext) ∧
    ∀ dirs stem ext, NamedBy file dirs stem ext →
      (inlineHash file = .error (.fileName file) ↔ ∃ b ∈ stem, 0x80 ≤ b) ∧
      ((∀ b ∈ stem, b < 0x80) →
        (∃ n ≤ 99999, inlineHash file = .ok n) ∧
        (∀ before b after, stem = before ++ b :: after →
          ((before.foldl mixByte 0) &&& 0x7ffffff).toNat * 31 + (Bytes.lower b).toNat < 2 ^ 32) ∧
        inlineHash file = .ok ((stem.foldl mixByte 0).toNat % 100000) ∧
        ∀ file' dirs' stem' ext', NamedBy file' dirs' stem' ext' →
          stem'.map Bytes.lower = stem.map Bytes.lower → inlineHash file' = inlineHash file) := by
  refine ⟨exists_namedBy file, fun dirs stem ext h => ⟨h.inlineHash_eq_error_iff, fun hascii => ?_⟩⟩
  have hhash := h.inlineHash_eq_ok hascii
  refine ⟨⟨_, ?_, hhash⟩, fun before b _ _ => ?_, ?_, fun file' dirs' stem' ext' h' hlower => ?_⟩
  · exact Nat.le_of_lt_succ (Nat.mod_lt _ (by decide))
  · rw [toNat_mask]
    exact mixExactly_lt _ _
  · rw [hhash, toNat_foldl_mix]
    rfl
  · -- lower case keeps ASCII apart from other bytes
    have hascii' : ∀ b ∈ stem', b < 0x80 := by
      intro b hb
      have hmem : Bytes.lower b ∈ stem.map Bytes.lower := hlower ▸ List.mem_map_of_mem hb
      obtain ⟨a, ha, heq⟩ := List.mem_map.1 hmem
      rw [← Bytes.lower_lt_iff, ← heq, Bytes.lower_lt_iff]
      exact hascii a ha
    rw [h'.inlineHash_eq_ok hascii', hhash, hlower]

example : inlineHash (utf8 "C:\\anox\\intro.txt") = .ok 61836 := by decide +kernel

end ApeScript
