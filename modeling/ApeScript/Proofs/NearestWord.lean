import ApeScript.Proofs.Rounding
import Mathlib

/-!
# Quotients near a word

`Format.round` gives the word nearest to a quotient, so a quotient that is close enough to the units
of a word is rounded to it. How close is measured against the units themselves: `round_near` allows
a `2 ^ (precision + 2)`th of them, which holds on either side of a power of two and below the normal
numbers.
-/

namespace ApeScript

namespace Number.Format

variable {f : Format} {w n d q k s : Nat}

theorem roundDiv_scale (hk : 0 < k) : roundDiv (n * k) (d * k) = roundDiv n d := by
  simp only [roundDiv, Nat.mul_div_mul_right _ _ hk, Nat.mul_mod_mul_right, ← Nat.mul_assoc,
    Nat.mul_lt_mul_right hk, Nat.mul_left_inj hk.ne']

/-- The rounded quotient is at most half a unit away from the quotient. -/
theorem roundDiv_bounds (hd : 0 < d) :
    2 * n ≤ 2 * (roundDiv n d * d) + d ∧ 2 * (roundDiv n d * d) ≤ 2 * n + d := by
  have hsplit := Nat.div_add_mod' n d
  have hmod := Nat.mod_lt n hd
  unfold roundDiv
  simp only
  split_ifs with h
  · rw [Nat.add_mul, Nat.one_mul]
    omega
  · omega

/-- A quotient less than half a unit away from a number is rounded to it. -/
theorem roundDiv_near (hlow : 2 * (q * d) < 2 * n + d) (hhigh : 2 * n < 2 * (q * d) + d) :
    roundDiv n d = q := by
  have hd : 0 < d := by
    by_contra hzero
    obtain rfl : d = 0 := by omega
    omega
  obtain ⟨hle, hge⟩ := roundDiv_bounds (n := n) hd
  rcases Nat.lt_trichotomy (roundDiv n d) q with hlt | heq | hgt
  · have := Nat.mul_le_mul_right d (Nat.succ_le_of_lt hlt)
    rw [Nat.succ_mul] at this
    omega
  · exact heq
  · have := Nat.mul_le_mul_right d (Nat.succ_le_of_lt hgt)
    rw [Nat.succ_mul] at this
    omega

theorem round_scale (hk : 0 < k) : f.round (n * k) (d * k) = f.round n d := by
  have hden (s : Nat) : (d * k) <<< s = d <<< s * k := by
    simp only [Nat.shiftLeft_eq]
    ring
  simp only [round, Nat.mul_div_mul_right _ _ hk, hden, roundDiv_scale hk]

/-- Rounding shifts numbers of one binade by the same. -/
theorem shift_of_bounds (hp : 0 < f.precision) (hlow : f.leading * 2 ^ s ≤ n)
    (hhigh : n < 2 * f.leading * 2 ^ s) :
    (if n < 1 <<< f.precision then 0 else n.log2 + 1 - f.precision) = s := by
  have hpos := f.leading_pos
  rw [Nat.one_shiftLeft, pow_precision hp]
  split
  · rename_i hsmall
    by_contra hne
    have htwo : 2 ≤ 2 ^ s := by
      calc 2 = 2 ^ 1 := rfl
        _ ≤ 2 ^ s := Nat.pow_le_pow_right (by decide) (Nat.pos_of_ne_zero (Ne.symm hne))
    have := Nat.mul_le_mul_left f.leading htwo
    omega
  · have hlog : n.log2 = f.precision - 1 + s := by
      have hne : n ≠ 0 := by
        have : 0 < f.leading * 2 ^ s := by positivity
        omega
      rw [Nat.log2_eq_iff hne, add_right_comm, pow_add, pow_add, pow_add, ← leading_eq]
      refine ⟨hlow, ?_⟩
      calc n < 2 * f.leading * 2 ^ s := hhigh
        _ = f.leading * 2 ^ 1 * 2 ^ s := by ring
    omega

/-- The word of a rounded quotient, from its shift and its significand. -/
theorem round_eq (hshift : (if n / d < 1 <<< f.precision then 0
    else (n / d).log2 + 1 - f.precision) = s) (hq : roundDiv n (d * 2 ^ s) = q) :
    f.round n d = min (if q < f.leading then q else s * f.leading + q) f.infinityWord := by
  unfold round
  simp only [hshift]
  rw [Nat.shiftLeft_eq, hq]

/-- A quotient close to a normal number, given by its significand and its exponent, is rounded to
it. Below the smallest significand of an exponent the step between words is half as large. -/
theorem round_near_normal (hp : 0 < f.precision) (hq : f.leading ≤ q) (hq' : q < 2 * f.leading)
    (hw : s * f.leading + q ≤ f.infinityWord) (hd : 0 < d)
    (hlow : 4 * (q * (d * 2 ^ s)) < 4 * n + d * 2 ^ s)
    (hleast : q = f.leading → 8 * (q * (d * 2 ^ s)) < 8 * n + d * 2 ^ s)
    (hhigh : 4 * n < 4 * (q * (d * 2 ^ s)) + d * 2 ^ s) :
    f.round n d = s * f.leading + q := by
  have hpos := f.leading_pos
  have hstep : 0 < d * 2 ^ s := by positivity
  -- the quotient stays below the next binade
  have hupper : n / d < 2 * f.leading * 2 ^ s := by
    rw [Nat.div_lt_iff_lt_mul hd]
    have hle : (q + 1) * (d * 2 ^ s) ≤ 2 * f.leading * (d * 2 ^ s) :=
      Nat.mul_le_mul_right _ hq'
    rw [Nat.succ_mul] at hle
    calc n < 2 * f.leading * (d * 2 ^ s) := by omega
      _ = 2 * f.leading * 2 ^ s * d := by ring
  by_cases hsame : f.leading * 2 ^ s ≤ n / d
  · have hshift := shift_of_bounds hp hsame hupper
    have hround : roundDiv n (d * 2 ^ s) = q := roundDiv_near (by omega) (by omega)
    rw [round_eq hshift hround, if_neg (by omega), min_eq_left hw]
  · -- otherwise the significand is the smallest one and the quotient lies just below it
    have hbelow : n < f.leading * (d * 2 ^ s) := by
      rw [not_le, Nat.div_lt_iff_lt_mul hd] at hsame
      calc n < f.leading * 2 ^ s * d := hsame
        _ = f.leading * (d * 2 ^ s) := by ring
    have hleading : q = f.leading := by
      by_contra hne
      have hle : (f.leading + 1) * (d * 2 ^ s) ≤ q * (d * 2 ^ s) :=
        Nat.mul_le_mul_right _ (by omega)
      rw [Nat.succ_mul] at hle
      omega
    subst hleading
    have hclose := hleast rfl
    cases s with
    | zero =>
      have hsmall : n / d < 1 <<< f.precision := by
        rw [Nat.one_shiftLeft, pow_precision hp]
        simpa using hupper
      have hround : roundDiv n (d * 2 ^ 0) = f.leading := roundDiv_near (by omega) (by omega)
      rw [round_eq (if_pos hsmall) hround, if_neg (lt_irrefl _), min_eq_left hw]
    | succ s =>
      have hdouble : d * 2 ^ (s + 1) = 2 * (d * 2 ^ s) := by ring
      have hmul : f.leading * (2 * (d * 2 ^ s)) = 2 * f.leading * (d * 2 ^ s) := by ring
      rw [hdouble, hmul] at hclose hbelow hhigh
      have hlower : f.leading * 2 ^ s ≤ n / d := by
        rw [Nat.le_div_iff_mul_le hd]
        have hone : d * 2 ^ s ≤ f.leading * (d * 2 ^ s) := Nat.le_mul_of_pos_left _ hpos
        have htwice : 2 * f.leading * (d * 2 ^ s) = 2 * (f.leading * (d * 2 ^ s)) := by ring
        calc f.leading * 2 ^ s * d = f.leading * (d * 2 ^ s) := by ring
          _ ≤ n := by omega
      have hhalf : n / d < 2 * f.leading * 2 ^ s := by
        rw [Nat.div_lt_iff_lt_mul hd]
        calc n < 2 * f.leading * (d * 2 ^ s) := hbelow
          _ = 2 * f.leading * 2 ^ s * d := by ring
      have hshift := shift_of_bounds hp hlower hhalf
      have hround : roundDiv n (d * 2 ^ s) = 2 * f.leading :=
        roundDiv_near (by omega) (by omega)
      rw [Nat.succ_mul] at hw ⊢
      rw [round_eq hshift hround, if_neg (by omega), min_eq_left (by omega)]
      omega

/-- A quotient that differs from the units of a word by less than a `2 ^ (precision + 2)`th of
them is rounded to the word. -/
theorem round_near (hp : 0 < f.precision) (hw : w ≤ f.infinityWord)
    (hlow : f.magnitude w * d * 2 ^ (f.precision + 2) <
      n * 2 ^ (f.precision + 2) + f.magnitude w * d)
    (hhigh : n * 2 ^ (f.precision + 2) <
      f.magnitude w * d * 2 ^ (f.precision + 2) + f.magnitude w * d) : f.round n d = w := by
  have hpos := f.leading_pos
  have hfraction := Nat.mod_lt w hpos
  have hword := Nat.div_add_mod' w f.leading
  have hd : 0 < d := by
    by_contra hzero
    obtain rfl : d = 0 := by omega
    simp at hhigh
  have hscale : 2 ^ (f.precision + 2) = 8 * f.leading := by
    rw [pow_add, pow_precision hp]
    ring
  rw [hscale] at hlow hhigh
  by_cases hzero : w / f.leading = 0
  · -- a word below the normal ones is its own number of units
    have hsmall : w < f.leading := by rw [hzero] at hword; omega
    have hunits : f.magnitude w = w := by
      simp [magnitude, hzero, Nat.mod_eq_of_lt hsmall]
    rw [hunits] at hlow hhigh
    have hle : w * d ≤ f.leading * d := Nat.mul_le_mul_right _ hsmall.le
    have hlow' : 8 * (w * d) < 8 * n + d := by
      refine Nat.lt_of_mul_lt_mul_left (a := f.leading) ?_
      calc f.leading * (8 * (w * d)) = w * d * (8 * f.leading) := by ring
        _ < n * (8 * f.leading) + w * d := hlow
        _ ≤ n * (8 * f.leading) + f.leading * d := by omega
        _ = f.leading * (8 * n + d) := by ring
    have hhigh' : 8 * n < 8 * (w * d) + d := by
      refine Nat.lt_of_mul_lt_mul_left (a := f.leading) ?_
      calc f.leading * (8 * n) = n * (8 * f.leading) := by ring
        _ < w * d * (8 * f.leading) + w * d := hhigh
        _ ≤ w * d * (8 * f.leading) + f.leading * d := by omega
        _ = f.leading * (8 * (w * d) + d) := by ring
    have hwhole : n / d < 1 <<< f.precision := by
      rw [Nat.one_shiftLeft, pow_precision hp, Nat.div_lt_iff_lt_mul hd, two_mul, Nat.add_mul]
      have : d ≤ f.leading * d := Nat.le_mul_of_pos_left _ hpos
      omega
    have hround : roundDiv n (d * 2 ^ 0) = w := by
      rw [pow_zero, Nat.mul_one]
      exact roundDiv_near (by omega) (by omega)
    rw [round_eq (if_pos hwhole) hround, if_pos hsmall, min_eq_left hw]
  · -- the word of a normal number is its exponent and its significand
    obtain ⟨s, hs⟩ := Nat.exists_eq_succ_of_ne_zero hzero
    have hsum : s * f.leading + (w % f.leading + f.leading) = w := by
      rw [hs, Nat.succ_mul] at hword
      omega
    have hunits : f.magnitude w = (w % f.leading + f.leading) * 2 ^ s := by
      simp [magnitude, hs, Nat.shiftLeft_eq]
    have hq : f.leading ≤ w % f.leading + f.leading := Nat.le_add_left _ _
    have hq' : w % f.leading + f.leading < 2 * f.leading := by omega
    generalize w % f.leading + f.leading = q at hsum hunits hq hq'
    have hproduct : f.magnitude w * d = q * (d * 2 ^ s) := by rw [hunits]; ring
    rw [hproduct] at hlow hhigh
    generalize hstep : d * 2 ^ s = step at hlow hhigh
    have hle : q * step ≤ 2 * f.leading * step := Nat.mul_le_mul_right _ hq'.le
    rw [← hsum]
    refine round_near_normal hp hq hq' (hsum ▸ hw) hd ?_ ?_ ?_
    · rw [hstep]
      refine Nat.lt_of_mul_lt_mul_left (a := 2 * f.leading) ?_
      calc 2 * f.leading * (4 * (q * step)) = q * step * (8 * f.leading) := by ring
        _ < n * (8 * f.leading) + q * step := hlow
        _ ≤ n * (8 * f.leading) + 2 * f.leading * step := by omega
        _ = 2 * f.leading * (4 * n + step) := by ring
    · rintro rfl
      rw [hstep]
      refine Nat.lt_of_mul_lt_mul_left (a := f.leading) ?_
      calc f.leading * (8 * (f.leading * step)) = f.leading * step * (8 * f.leading) := by ring
        _ < n * (8 * f.leading) + f.leading * step := hlow
        _ = f.leading * (8 * n + step) := by ring
    · rw [hstep]
      refine Nat.lt_of_mul_lt_mul_left (a := 2 * f.leading) ?_
      calc 2 * f.leading * (4 * n) = n * (8 * f.leading) := by ring
        _ < q * step * (8 * f.leading) + q * step := hhigh
        _ ≤ q * step * (8 * f.leading) + 2 * f.leading * step := by omega
        _ = 2 * f.leading * (4 * (q * step) + step) := by ring

end Number.Format

end ApeScript
