import ApeScript.Compile.Value
import Mathlib

/-!
# Rounding and comparing numbers

Rounding the units of a finite word gives the word back, so that adding zero to a finite number
changes nothing but the sign of a zero. Numbers that are not NaN are comparable, and for them every
comparison is the negation of its opposite.
-/

namespace ApeScript

namespace Number.Format

variable {f : Format} {w : Nat}

theorem leading_eq : f.leading = 2 ^ (f.precision - 1) := Nat.one_shiftLeft _

theorem leading_pos : 0 < f.leading := by
  rw [leading_eq]
  positivity

theorem pow_precision (hp : 0 < f.precision) : 2 ^ f.precision = 2 * f.leading := by
  rw [leading_eq, ← pow_succ', Nat.sub_add_cancel hp]

theorem roundDiv_mul {q d : Nat} (hd : 0 < d) : roundDiv (q * d) d = q := by
  simp [roundDiv, Nat.mul_div_cancel q hd, hd.ne]

/-- The units of a normal word are shifted back to its significand. -/
theorem shift_eq (hp : 0 < f.precision) {m e : Nat} (hm : f.leading ≤ m)
    (hm' : m < 2 * f.leading) :
    (if m * 2 ^ e < 2 ^ f.precision then 0 else (m * 2 ^ e).log2 + 1 - f.precision) = e := by
  have hpos := f.leading_pos
  split
  · rename_i hsmall
    rw [pow_precision hp] at hsmall
    by_contra hne
    have htwo : 2 ≤ 2 ^ e := by
      calc 2 = 2 ^ 1 := rfl
        _ ≤ 2 ^ e := Nat.pow_le_pow_right (by decide) (Nat.pos_of_ne_zero (Ne.symm hne))
    have := Nat.mul_le_mul hm htwo
    omega
  · have hlog : (m * 2 ^ e).log2 = f.precision - 1 + e := by
      have hne : m * 2 ^ e ≠ 0 := Nat.mul_ne_zero (by omega) (by positivity)
      rw [Nat.log2_eq_iff hne, add_right_comm, pow_add, pow_add, pow_add, ← leading_eq]
      have hpow : 0 < 2 ^ e := by positivity
      refine ⟨Nat.mul_le_mul_right _ hm, ?_⟩
      calc m * 2 ^ e < 2 * f.leading * 2 ^ e := Nat.mul_lt_mul_of_pos_right hm' hpow
        _ = f.leading * 2 ^ 1 * 2 ^ e := by ring
    omega

theorem round_magnitude (hp : 0 < f.precision) (hw : w ≤ f.infinityWord) :
    f.round (f.magnitude w) 1 = w := by
  have hpos := f.leading_pos
  have hfraction := Nat.mod_lt w hpos
  have hword := Nat.div_add_mod' w f.leading
  simp only [round, magnitude, Nat.div_one, Nat.shiftLeft_eq, Nat.one_mul]
  by_cases hzero : w / f.leading = 0
  · -- a word below the normal ones is its own number of units
    have hsmall : w % f.leading < 2 ^ f.precision := by
      rw [pow_precision hp]
      omega
    have hround : roundDiv (w % f.leading) (2 ^ 0) = w % f.leading := by
      simpa using roundDiv_mul (q := w % f.leading) one_pos
    rw [if_pos hzero, if_pos hsmall, hround, if_pos hfraction]
    rw [hzero] at hword
    omega
  · -- the significand comes back without its leading bit, which counts as one more exponent
    rw [if_neg hzero, shift_eq hp (by omega) (by omega), roundDiv_mul (by positivity),
      if_neg (by omega)]
    have hsum : (w / f.leading - 1) * f.leading + (w % f.leading + f.leading) = w := by
      obtain ⟨k, hk⟩ := Nat.exists_eq_succ_of_ne_zero hzero
      rw [hk] at hword ⊢
      rw [Nat.succ_mul] at hword
      simp only [Nat.succ_sub_one]
      omega
    rw [hsum, min_eq_left hw]

end Number.Format

namespace Binary32

open Number

variable {x y : Binary32}

def canonical (x : Binary32) : Binary32 := if x.isZero then zero else x

theorem isZero_zero : zero.isZero = true := by decide

theorem isZero_canonical : x.canonical.isZero = x.isZero := by
  unfold canonical
  split
  · rw [isZero_zero, ‹x.isZero = true›]
  · rfl

theorem canonical_canonical : x.canonical.canonical = x.canonical := by
  rw [canonical, isZero_canonical]
  split
  · rw [canonical, if_pos ‹_›]
  · rfl

theorem isZero_truth (b : Bool) : (truth b).isZero = !b := by
  cases b <;> decide

/-- A finite word is its sign with its magnitude. -/
theorem datum_of_isFinite (h : x.isFinite = true) : ∃ (n : Bool) (size : Nat),
    x.datum = .finite n (Format.binary32.magnitude size) ∧ size ≤ Format.binary32.infinityWord ∧
      x = ofWord (Format.binary32.withSign n size) := by
  refine ⟨decide (Format.binary32.signBit ≤ x.word), x.word % Format.binary32.signBit, ?_⟩
  have hbits : x.word < 2 * Format.binary32.signBit := x.bits.toNat_lt
  have hword : Format.binary32.withSign (decide (Format.binary32.signBit ≤ x.word))
      (x.word % Format.binary32.signBit) = x.word := by
    simp only [Format.withSign, decide_eq_true_eq]
    split
    · rw [Nat.mod_eq_sub_mod ‹_›, Nat.mod_eq_of_lt (by omega)]
      omega
    · exact Nat.mod_eq_of_lt (by omega)
  have hself : x = ofWord x.word := by
    cases x
    simp [ofWord, word]
  unfold isFinite datum Format.decode at h
  unfold datum Format.decode
  simp only at h ⊢
  split at h
  · cases h
  · split at h
    · cases h
    · rw [if_neg ‹_›, if_neg ‹_›, hword]
      exact ⟨rfl, by omega, hself⟩

theorem datum_zero : zero.datum = .finite false 0 := by decide

theorem datum_zero_add (n : Bool) (units : Nat) : Datum.add (.finite false 0) (.finite n units) =
    .finite (if units = 0 then false else n) units := by
  by_cases hzero : units = 0
  · cases n <;> simp [Datum.add, Datum.signedUnits, hzero]
  · have hpos := Nat.pos_of_ne_zero hzero
    cases n <;> simp [Datum.add, Datum.signedUnits, hzero, hpos]

theorem isZero_finite (n : Bool) (units : Nat) :
    (Datum.finite n units).isZero = decide (units = 0) := by
  cases units <;> rfl

/-- Adding zero changes nothing but the sign of a zero. -/
theorem zero_add (h : x.isFinite = true) : zero.add x = x.canonical := by
  obtain ⟨n, size, hdatum, hsize, hx⟩ := datum_of_isFinite h
  have hround := Format.round_magnitude (f := .binary32) (by decide) hsize
  have hadd : zero.add x = ofWord (Format.binary32.encode
      (Datum.add (.finite false 0) (.finite n (Format.binary32.magnitude size)))) := by
    rw [← hdatum, ← datum_zero]
    rfl
  rw [hadd, datum_zero_add, Format.encode, hround, canonical, isZero, hdatum]
  by_cases hzero : Format.binary32.magnitude size = 0
  · have hsize : size = 0 := by
      rw [hzero] at hround
      exact hround.symm
    rw [hzero, hsize]
    rfl
  · rw [if_neg hzero, ← hx, if_neg]
    simpa [isZero_finite] using hzero

theorem isFinite_zero : zero.isFinite = true := by decide

theorem isFinite_truth (b : Bool) : (truth b).isFinite = true := by
  cases b <;> decide

theorem isFinite_neg : x.neg.isFinite = x.isFinite := by
  have hsize : x.neg.word % Format.binary32.signBit = x.word % Format.binary32.signBit := by
    change (x.bits ^^^ 0x80000000).toNat % 2 ^ 31 = x.bits.toNat % 2 ^ 31
    rw [UInt32.toNat_xor, Nat.xor_mod_two_pow]
    exact Nat.xor_zero _
  unfold isFinite datum Format.decode
  rw [hsize]
  simp only
  split
  · rfl
  · split <;> rfl

/-! ### Comparing -/

theorem not_isNaN_of_isFinite (h : x.isFinite = true) : x.isNaN = false := by
  unfold isNaN
  unfold isFinite at h
  cases hd : x.datum with
  | nan => rw [hd] at h; cases h
  | _ => rfl

theorem exists_compare? (hx : x.isNaN = false) (hy : y.isNaN = false) :
    ∃ order, x.compare? y = some order := by
  unfold isNaN at hx hy
  unfold compare?
  cases hx' : x.datum <;> cases hy' : y.datum <;> simp_all [Datum.compare?]

theorem le_eq_not_gt (hx : x.isNaN = false) (hy : y.isNaN = false) : x.le y = !x.gt y := by
  obtain ⟨order, horder⟩ := exists_compare? hx hy
  cases order <;> simp [le, lt, eq, gt, horder]

theorem ge_eq_not_lt (hx : x.isNaN = false) (hy : y.isNaN = false) : x.ge y = !x.lt y := by
  obtain ⟨order, horder⟩ := exists_compare? hx hy
  cases order <;> simp [ge, lt, eq, gt, horder]

theorem eq_zero : x.eq zero = x.isZero := by
  unfold eq compare? isZero
  rw [datum_zero]
  cases x.datum with
  | nan => rfl
  | infinite n => cases n <;> rfl
  | finite n units =>
    rw [isZero_finite]
    cases n <;> simp [Datum.compare?, Datum.signedUnits]

end Binary32

end ApeScript
