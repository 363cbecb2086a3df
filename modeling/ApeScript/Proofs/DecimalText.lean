import ApeScript.Compile.Expression
import ApeScript.Proofs.NearestWord
import ApeScript.Proofs.Spelling
import Mathlib

/-!
# Numbers as text

A script writes a number with the fewest digits that are read as it. Nine digits are enough for
every finite number (`Binary32.toWord_rounded`), and the text of a decimal is read as that decimal
(`Decimal.toWord_ofText_positional`), so the text of a finite number is read as its magnitude
(`Binary32.toBinary32_ofText`). It is one token, whether or not numbers may have exponents
(`Decimal.Spells.firstToken?`).
-/

namespace ApeScript

open Number

/-! ### Decimals of one value -/

namespace Decimal

variable {n m k : Nat} {e : Int}

theorem width_eq (n : Nat) : width n = (if n < 10 then 0 else width (n / 10)) + 1 := by
  unfold width
  rw [Nat.toDigits_eq_if (by decide)]
  split <;> simp

theorem width_pos (n : Nat) : 0 < width n := by
  rw [width_eq]
  omega

theorem width_mul_pow (hn : 0 < n) (k : Nat) : width (n * 10 ^ k) = width n + k := by
  induction k with
  | zero => simp
  | succ k ih =>
    have hpos : 0 < n * 10 ^ k := by positivity
    have hmul : n * 10 ^ (k + 1) = n * 10 ^ k * 10 := by ring
    rw [hmul, width_eq, if_neg (by omega), Nat.mul_div_cancel _ (by decide), ih]
    omega

theorem width_le (h : n < 10 ^ (k + 1)) : width n ≤ k + 1 := by
  induction k generalizing n with
  | zero => rw [width_eq, if_pos (by simpa using h)]
  | succ k ih =>
    rw [width_eq]
    split
    · omega
    · have hless : n / 10 < 10 ^ (k + 1) := by
        rw [Nat.div_lt_iff_lt_mul (by decide)]
        exact h
      have := ih hless
      omega

theorem ratio_pos (n : Nat) (e : Int) : 0 < (ratio n e).2 := Nat.pow_pos (by decide)

/-- Moving zeros from the digits to the exponent keeps the ratio. -/
theorem ratio_mul_pow (n k : Nat) (e : Int) : (ratio (n * 10 ^ k) e).1 * (ratio n (e + k)).2 =
    (ratio n (e + k)).1 * (ratio (n * 10 ^ k) e).2 := by
  simp only [ratio, Nat.pow_eq]
  have hexponents : k + e.toNat + (-(e + k)).toNat = (e + k).toNat + (-e).toNat := by omega
  calc n * 10 ^ k * 10 ^ e.toNat * 10 ^ (-(e + k)).toNat
      = n * 10 ^ (k + e.toNat + (-(e + k)).toNat) := by rw [pow_add, pow_add]; ring
    _ = n * 10 ^ (e + k).toNat * 10 ^ (-e).toNat := by rw [hexponents, pow_add]; ring

/-- Zeros at the end of the digits change nothing but the exponent. -/
theorem toWord_mul_pow (n k : Nat) (e : Int) :
    toWord ⟨n * 10 ^ k, e⟩ = toWord ⟨n, e + k⟩ := by
  rcases Nat.eq_zero_or_pos n with rfl | hn
  · simp [toWord]
  · have hdigits : n * 10 ^ k ≠ 0 := by positivity
    have htop : ((width n + k : Nat) : Int) + e = width n + (e + k) := by push_cast; ring
    unfold toWord
    simp only [hdigits, hn.ne', false_or, width_mul_pow hn, htop]
    have hleft := ratio_pos (n * 10 ^ k) e
    have hright := ratio_pos n (e + k)
    have hcross := ratio_mul_pow n k e
    generalize ratio (n * 10 ^ k) e = left at hleft hcross
    generalize ratio n (e + k) = right at hright hcross
    have hround (units : Nat) : Format.binary32.round (left.1 * units) left.2 =
        Format.binary32.round (right.1 * units) right.2 := by
      have hnumerators : left.1 * units * right.2 = right.1 * units * left.2 := by
        calc left.1 * units * right.2 = left.1 * right.2 * units := by ring
          _ = right.1 * units * left.2 := by rw [hcross]; ring
      calc Format.binary32.round (left.1 * units) left.2
          = Format.binary32.round (left.1 * units * right.2) (left.2 * right.2) :=
            (Format.round_scale hright).symm
        _ = Format.binary32.round (right.1 * units * left.2) (right.2 * left.2) := by
            rw [hnumerators, Nat.mul_comm left.2]
        _ = Format.binary32.round (right.1 * units) right.2 := Format.round_scale hleft
    simp only [hround]

/-- The zeros at the end of the digits of a number divide it. -/
theorem pow_trailing_dvd (n : Nat) :
    10 ^ ((Nat.toDigits 10 n).reverse.takeWhile (· = '0')).length ∣ n := by
  induction n using Nat.strong_induction_on with
  | _ n ih =>
    have hzero (d : Nat) (hd : d < 10) : Nat.digitChar d = '0' ↔ d = 0 := by
      interval_cases d <;> decide
    rw [Nat.toDigits_eq_if (by decide)]
    split
    · rename_i hn
      by_cases h0 : n = 0
      · simp [h0]
      · simp [hzero n hn, h0]
    · rename_i hn
      have hlast := hzero (n % 10) (Nat.mod_lt _ (by decide))
      rw [List.reverse_append, List.reverse_singleton, List.singleton_append, List.takeWhile_cons]
      by_cases h0 : n % 10 = 0
      · simp only [hlast.2 h0, decide_true, if_true, List.length_cons, pow_succ]
        have hmul : n = n / 10 * 10 := by omega
        conv_rhs => rw [hmul]
        exact Nat.mul_dvd_mul_right (ih (n / 10) (by omega)) 10
      · simp [hlast, h0]

theorem toWord_trim (d : Decimal) : d.trim.toWord = d.toWord := by
  obtain ⟨n, e⟩ := d
  unfold trim
  simp only
  split
  · rename_i hn
    simp [toWord, hn]
  · have hdvd := pow_trailing_dvd n
    generalize ((Nat.toDigits 10 n).reverse.takeWhile (· = '0')).length = zeros at hdvd
    rw [← toWord_mul_pow, Nat.pow_eq, Nat.div_mul_cancel hdvd]

end Decimal

/-! ### Nine digits -/

namespace Binary32

variable {num den : Nat} {e : Int}

def Reaches (num den : Nat) (e : Int) : Prop :=
  (Decimal.ratio 1 e).1 * den ≤ num * (Decimal.ratio 1 e).2

theorem reaches_add (k : Nat) : Reaches num den (e + k) ↔
    10 ^ k * (den * (Decimal.ratio 1 e).1) ≤ num * (Decimal.ratio 1 e).2 := by
  have hcross := Decimal.ratio_mul_pow 1 k e
  have hpos := Decimal.ratio_pos 1 e
  have hpos' := Decimal.ratio_pos 1 (e + k)
  have hone : Decimal.ratio (1 * 10 ^ k) e =
      (10 ^ k * (Decimal.ratio 1 e).1, (Decimal.ratio 1 e).2) := by
    simp [Decimal.ratio]
  rw [hone] at hcross
  unfold Reaches
  generalize Decimal.ratio 1 e = near at *
  generalize Decimal.ratio 1 (e + k) = far at *
  calc far.1 * den ≤ num * far.2 ↔ far.1 * den * near.2 ≤ num * far.2 * near.2 :=
        (Nat.mul_le_mul_right_iff hpos).symm
    _ ↔ 10 ^ k * (den * near.1) * far.2 ≤ num * near.2 * far.2 := by
        have hleft : far.1 * den * near.2 = 10 ^ k * (den * near.1) * far.2 := by
          calc far.1 * den * near.2 = far.1 * near.2 * den := by ring
            _ = 10 ^ k * (den * near.1) * far.2 := by rw [← hcross]; ring
        rw [hleft, Nat.mul_right_comm num]
    _ ↔ 10 ^ k * (den * near.1) ≤ num * near.2 := Nat.mul_le_mul_right_iff hpos'

theorem leadingExponent_spec {fuel : Nat} (hlow : Reaches num den (e - fuel))
    (hhigh : ¬ Reaches num den (e + 1)) : let lead := leadingExponent num den fuel e
    e - fuel ≤ lead ∧ lead ≤ e ∧ Reaches num den lead ∧ ¬ Reaches num den (lead + 1) := by
  induction fuel generalizing e with
  | zero =>
    rw [Nat.cast_zero, sub_zero] at hlow
    exact ⟨by simp [leadingExponent], le_refl _, hlow, hhigh⟩
  | succ fuel ih =>
    unfold leadingExponent
    simp only
    split
    · exact ⟨by omega, le_refl _, ‹_›, hhigh⟩
    · have hfuel : e - 1 - fuel = e - (fuel + 1 : Nat) := by push_cast; ring
      obtain ⟨hle, hge, hlead⟩ := ih (e := e - 1) (hfuel ▸ hlow) (by rwa [sub_add_cancel])
      exact ⟨by omega, by omega, hlead⟩

variable {x : Binary32}

/-- A finite number that is not zero, as its fraction and the word of its magnitude. -/
theorem fraction_of_isFinite (h : x.isFinite = true) :
    x.fraction = (Format.binary32.magnitude (x.word % Format.binary32.signBit),
      2 ^ Format.binary32.unitBits) ∧
    x.word % Format.binary32.signBit < Format.binary32.infinityWord := by
  unfold isFinite at h
  unfold fraction
  unfold datum Format.decode at h ⊢
  simp only at h ⊢
  split at h
  · cases h
  · split at h
    · cases h
    · rename_i hnan hinfinite
      rw [if_neg hnan, if_neg hinfinite]
      exact ⟨rfl, by omega⟩

theorem isZero_of_magnitude (h : x.isFinite = true) :
    x.isZero = decide (Format.binary32.magnitude (x.word % Format.binary32.signBit) = 0) := by
  unfold isFinite at h
  unfold isZero
  unfold datum Format.decode at h ⊢
  simp only at h ⊢
  split at h
  · cases h
  · split at h
    · cases h
    · rename_i hnan hinfinite
      rw [if_neg hnan, if_neg hinfinite, isZero_finite]

theorem magnitude_lt {w : Nat} (h : w < Format.binary32.infinityWord) :
    Format.binary32.magnitude w < 2 ^ 24 * 2 ^ 253 := by
  have hexponent : w / 2 ^ 23 ≤ 254 := by
    have : w < 255 * 2 ^ 23 := h
    omega
  have hfraction : w % 2 ^ 23 < 2 ^ 23 := Nat.mod_lt _ (by decide)
  change (if w / 2 ^ 23 = 0 then w % 2 ^ 23
    else (w % 2 ^ 23 + 2 ^ 23) <<< (w / 2 ^ 23 - 1)) < 2 ^ 24 * 2 ^ 253
  split
  · calc w % 2 ^ 23 < 2 ^ 23 := hfraction
      _ ≤ 2 ^ 24 * 2 ^ 253 := by decide
  · rw [Nat.shiftLeft_eq]
    calc (w % 2 ^ 23 + 2 ^ 23) * 2 ^ (w / 2 ^ 23 - 1)
        < 2 ^ 24 * 2 ^ (w / 2 ^ 23 - 1) := Nat.mul_lt_mul_of_pos_right (by omega) (by positivity)
      _ ≤ 2 ^ 24 * 2 ^ 253 :=
        Nat.mul_le_mul_left _ (Nat.pow_le_pow_right (by decide) (by omega))

/-- Nine digits give a decimal that is read as the number. -/
theorem toWord_rounded (h : x.isFinite = true) (hzero : x.isZero = false) :
    (x.rounded 9).toWord = x.word % Format.binary32.signBit := by
  obtain ⟨hfraction, hword⟩ := fraction_of_isFinite h
  rw [isZero_of_magnitude h, decide_eq_false_iff_not] at hzero
  have hlarge := magnitude_lt hword
  have hunit : Format.binary32.unitBits = 149 := by decide
  unfold rounded decimalExponent
  simp only [hfraction, hunit]
  generalize x.word % Format.binary32.signBit = w at hword hzero hlarge ⊢
  generalize hunits : Format.binary32.magnitude w = units at hzero hlarge ⊢
  -- the leading digit is found in the range that is searched
  have hleast : Reaches units (2 ^ 149) (39 - (90 : Nat)) := by
    change 1 * 10 ^ 0 * 2 ^ 149 ≤ units * 10 ^ 51
    omega
  have hgreatest : ¬ Reaches units (2 ^ 149) (39 + 1) := by
    change ¬ 1 * 10 ^ 40 * 2 ^ 149 ≤ units * 10 ^ 0
    omega
  obtain ⟨hfirst, hlast, hreach, hnot⟩ := leadingExponent_spec hleast hgreatest
  generalize hlead : leadingExponent units (2 ^ 149) 90 39 = lead at hfirst hlast hreach hnot ⊢
  obtain ⟨e, rfl⟩ : ∃ e : Int, lead = e + (8 : Nat) := ⟨lead - 8, by simp⟩
  have hexponent : e + (8 : Nat) - (9 : Nat) + 1 = e := by push_cast; ring
  have hnext : e + (8 : Nat) + 1 = e + (9 : Nat) := by push_cast; ring
  rw [hexponent]
  rw [hnext, reaches_add] at hnot
  rw [reaches_add] at hreach
  have hratio : Decimal.ratio 1 e = (10 ^ e.toNat, 10 ^ (-e).toNat) := by simp [Decimal.ratio]
  rw [hratio] at hreach hnot ⊢
  simp only at hreach hnot ⊢
  -- the decimal is at most half a step away, and it has nine digits or is the next power of ten
  have hup : 0 < 10 ^ e.toNat := by positivity
  have hstep : 0 < 2 ^ 149 * 10 ^ e.toNat := by positivity
  obtain ⟨hbelow, habove⟩ :=
    Format.roundDiv_bounds (n := units * 10 ^ (-e).toNat) hstep
  generalize Format.roundDiv (units * 10 ^ (-e).toNat) (2 ^ 149 * 10 ^ e.toNat) = digits
    at hbelow habove ⊢
  have hnumerator : digits * 10 ^ e.toNat * 2 ^ 149 = digits * (2 ^ 149 * 10 ^ e.toNat) := by ring
  have hdigits : digits ≠ 0 := by
    rintro rfl
    omega
  have hwidth : Decimal.width digits ≤ 9 + 1 := by
    refine Decimal.width_le ?_
    refine Nat.lt_of_mul_lt_mul_right (a := 2 ^ 149 * 10 ^ e.toNat) ?_
    omega
  have hwidth' := Decimal.width_pos digits
  unfold Decimal.toWord
  simp only
  rw [if_neg (by omega), if_neg (by omega)]
  simp only [Decimal.ratio, Nat.pow_eq, hunit, hnumerator]
  refine Format.round_near (by decide) hword.le ?_ ?_
  · rw [hunits]
    change _ * 2 ^ 26 < _ * 2 ^ 26 + _
    omega
  · rw [hunits]
    change _ * 2 ^ 26 < _ * 2 ^ 26 + _
    omega

theorem word_of_isZero (h : x.isFinite = true) (hzero : x.isZero = true) :
    x.word % Format.binary32.signBit = 0 := by
  rw [isZero_of_magnitude h, decide_eq_true_eq] at hzero
  have hround := Format.round_magnitude (f := .binary32) (by decide) (fraction_of_isFinite h).2.le
  rw [hzero] at hround
  rw [← hround]
  decide

/-- The shortest decimal is read as the magnitude of the number. -/
theorem toWord_shortest (h : x.isFinite = true) :
    x.shortest.toWord = x.word % Format.binary32.signBit := by
  unfold shortest
  split
  · rw [word_of_isZero h ‹_›]
    rfl
  · cases hfirst : (List.range 9).findSome? fun n => x.readsBack? (n + 1) with
    | none => exact toWord_rounded h (Bool.eq_false_of_not_eq_true ‹_›)
    | some d =>
      obtain ⟨n, -, hd⟩ := List.exists_of_findSome?_eq_some hfirst
      unfold readsBack? at hd
      simp only at hd
      split_ifs at hd with hnear hless hfar hfar <;> cases hd
      · exact hnear
      · exact hfar
      · exact hfar

end Binary32

/-! ### The text of a decimal -/

namespace Bytes

theorem digitsValue_ofNat (n : Nat) : digitsValue (ofNat n) = n := by
  have hread := read_ofNat (n := n)
    (fun m s => s.foldl (fun n b => 10 * n + (b.toNat - 48)) m) (fun m d rest hd _ => by
      simp only [List.foldl_cons, value_digit hd]) []
  simpa [digitsValue] using hread

theorem digitsValue_zeros_append (k : Nat) (s : Bytes) :
    digitsValue (List.replicate k (ofChar '0') ++ s) = digitsValue s := by
  induction k with
  | zero => rfl
  | succ k ih => exact ih

theorem digitsValue_append_zeros (s : Bytes) (k : Nat) :
    digitsValue (s ++ List.replicate k (ofChar '0')) = digitsValue s * 10 ^ k := by
  induction k with
  | zero => simp
  | succ k ih =>
    rw [List.replicate_succ', ← List.append_assoc, digitsValue, List.foldl_append]
    rw [digitsValue] at ih
    rw [ih, List.foldl_cons, List.foldl_nil, show (ofChar '0').toNat - 48 = 0 from rfl, pow_succ]
    ring

end Bytes

/-- A number that may end does, where no digit, letter or point comes next. -/
theorem Scan.numberFrom_ends {e : Bool} {step : NumberStep} {rest : Bytes}
    (hstep : step = .whole ∨ step = .fraction ∨ step = .exponent)
    (hrest : ∀ b ∈ rest.head?, isIdentifierByte b = false ∧ b ≠ 46) (size : Nat) :
    numberFrom e step size rest = .done size := by
  cases rest with
  | nil => rcases hstep with rfl | rfl | rfl <;> rfl
  | cons b rest =>
    obtain ⟨hletter, hpoint⟩ := hrest b rfl
    have hdigit : Bytes.isDigit b = false := by
      rw [isIdentifierByte] at hletter
      simp_all
    have hmark : b ≠ 101 ∧ b ≠ 69 := by
      constructor <;> rintro rfl <;> exact absurd hletter (by decide)
    rw [numberFrom.eq_def]
    rcases hstep with rfl | rfl | rfl <;> simp [hdigit, hletter, hpoint, hmark, numberFrom.finish]

namespace Decimal

/-- A text of digits, and after a point more digits if there are any. -/
structure Spells (s whole places : Bytes) : Prop where
  eq : s = whole ++ if places = [] then [] else 46 :: places
  nonempty : whole ≠ []
  digits : ∀ b ∈ whole, Bytes.isDigit b = true
  fraction : ∀ b ∈ places, Bytes.isDigit b = true

theorem isDigit_of_mem_zeros {k : Nat} {b : UInt8}
    (h : b ∈ List.replicate k (Bytes.ofChar '0')) : Bytes.isDigit b = true := by
  rw [(List.mem_replicate.1 h).2]
  rfl

/-- The text of a decimal writes its digits, perhaps with zeros at their end. -/
theorem exists_spells (d : Decimal) : ∃ whole places zeros, Spells d.positional whole places ∧
    Bytes.digitsValue (whole ++ places) = d.digits * 10 ^ zeros ∧
      d.exponent = -(places.length : Int) + (zeros : Nat) := by
  obtain ⟨n, e⟩ := d
  have hdigits : ∀ b ∈ Bytes.ofNat n, Bytes.isDigit b = true :=
    fun b hb => Bytes.isDigit_of_mem_ofNat hb
  cases e with
  | ofNat k =>
    refine ⟨Bytes.ofNat n ++ List.replicate k (Bytes.ofChar '0'), [], k, ⟨?_, ?_, ?_, by simp⟩,
      ?_, by simp⟩
    · simp [positional]
    · simp [Bytes.ofNat_ne_nil]
    · intro b hb
      exact (List.mem_append.1 hb).elim (hdigits b) isDigit_of_mem_zeros
    · rw [List.append_nil, Bytes.digitsValue_append_zeros, Bytes.digitsValue_ofNat]
  | negSucc k =>
    by_cases hlong : (Bytes.ofNat n).length ≤ k + 1
    · refine ⟨[Bytes.ofChar '0'],
        List.replicate (k + 1 - (Bytes.ofNat n).length) (Bytes.ofChar '0') ++ Bytes.ofNat n, 0,
        ⟨?_, by simp, by simp [Bytes.isDigit, Bytes.ofChar], ?_⟩, ?_, ?_⟩
      · simp only [positional, if_pos hlong]
        simp [Bytes.ofNat_ne_nil, Bytes.ofChar]
      · intro b hb
        exact (List.mem_append.1 hb).elim isDigit_of_mem_zeros (hdigits b)
      · refine (Bytes.digitsValue_zeros_append 1 _).trans ?_
        rw [Bytes.digitsValue_zeros_append, Bytes.digitsValue_ofNat, pow_zero, Nat.mul_one]
      · rw [List.length_append, List.length_replicate, Nat.sub_add_cancel hlong]
        simp [Int.negSucc_eq]
    · have hplaces : (Bytes.ofNat n).drop ((Bytes.ofNat n).length - (k + 1)) ≠ [] := by
        rw [ne_eq, List.drop_eq_nil_iff]
        omega
      refine ⟨(Bytes.ofNat n).take ((Bytes.ofNat n).length - (k + 1)),
        (Bytes.ofNat n).drop ((Bytes.ofNat n).length - (k + 1)), 0, ⟨?_, ?_, ?_, ?_⟩, ?_, ?_⟩
      · simp only [positional, if_neg hlong, if_neg hplaces]
        rfl
      · rw [ne_eq, List.take_eq_nil_iff, not_or]
        exact ⟨by omega, Bytes.ofNat_ne_nil n⟩
      · exact fun b hb => hdigits b (List.mem_of_mem_take hb)
      · exact fun b hb => hdigits b (List.mem_of_mem_drop hb)
      · rw [List.take_append_drop, Bytes.digitsValue_ofNat, pow_zero, Nat.mul_one]
      · rw [List.length_drop]
        simp only [Int.negSucc_eq]
        omega

theorem spellsDigits_iff {s : Bytes} :
    spellsDigits s = true ↔ s ≠ [] ∧ ∀ b ∈ s, Bytes.isDigit b = true := by
  simp [spellsDigits]

theorem Spells.spellsDigits {s whole places : Bytes} (h : Spells s whole places) :
    spellsDigits (whole ++ places) = true :=
  spellsDigits_iff.2 ⟨fun hnil => h.nonempty (List.append_eq_nil_iff.1 hnil).1,
    List.forall_mem_append.2 ⟨h.digits, h.fraction⟩⟩

/-- Each place after the point takes one from the power of ten that the text ends in. -/
theorem Spells.ofText_append {s whole places power : Bytes} (h : Spells s whole places)
    (hpower : ∀ b ∈ power.head?, b = 101 ∨ b = 69) : ofText (s ++ power) =
      (powerOfText power).map fun e =>
        ⟨Bytes.digitsValue (whole ++ places), e - places.length⟩ := by
  have hletter : ∀ b ∈ s, (b != 101 && b != 69) = true := by
    have hdigit : ∀ b, Bytes.isDigit b = true → (b != 101 && b != 69) = true := by
      intro b hb
      have h101 : b ≠ 101 := by rintro rfl; exact absurd hb (by decide)
      have h69 : b ≠ 69 := by rintro rfl; exact absurd hb (by decide)
      simp [h101, h69]
    intro b hb
    rw [h.eq, List.mem_append] at hb
    rcases hb with hb | hb
    · exact hdigit b (h.digits b hb)
    · split at hb
      · cases hb
      · rcases List.mem_cons.1 hb with rfl | hb
        · rfl
        · exact hdigit b (h.fraction b hb)
  have hpoint : ∀ b ∈ whole, (b != 46) = true := by
    intro b hb
    have h46 : b ≠ 46 := by rintro rfl; exact absurd (h.digits 46 hb) (by decide)
    simp [h46]
  obtain ⟨htake, hdrop⟩ : power.takeWhile (fun b => b != 101 && b != 69) = [] ∧
      power.dropWhile (fun b => b != 101 && b != 69) = power := by
    cases power with
    | nil => exact ⟨rfl, rfl⟩
    | cons b power =>
      rcases hpower b rfl with rfl | rfl
      · exact ⟨rfl, rfl⟩
      · exact ⟨rfl, rfl⟩
  unfold ofText
  simp only [List.span_eq_takeWhile_dropWhile, List.takeWhile_append_of_pos hletter,
    List.dropWhile_append_of_pos hletter, htake, hdrop, List.append_nil]
  rw [h.eq, List.takeWhile_append_of_pos hpoint, List.dropWhile_append_of_pos hpoint]
  have hdigits := h.spellsDigits
  by_cases hplaces : places = [] <;> simp_all

theorem Spells.ofText_eq {s whole places : Bytes} (h : Spells s whole places) :
    ofText s = some ⟨Bytes.digitsValue (whole ++ places), -(places.length : Int)⟩ := by
  have htext : ofText (s ++ []) = _ := h.ofText_append (by simp)
  rw [List.append_nil, show powerOfText [] = some 0 from rfl, Option.map_some, zero_sub] at htext
  exact htext

theorem toWord_ofText_positional (d : Decimal) :
    (ofText d.positional).map toWord = some d.toWord := by
  obtain ⟨whole, places, zeros, hspells, hvalue, hexponent⟩ := exists_spells d
  rw [hspells.ofText_eq, Option.map_some, hvalue, toWord_mul_pow, ← hexponent]

/-- A scan passes over the text of digits, with exponents or without. -/
theorem Spells.numberFrom_append {s whole places : Bytes} (h : Spells s whole places) (e : Bool) :
    ∃ step, (step = .whole ∨ step = .fraction) ∧ ∀ rest,
      Scan.number e (s ++ rest) = Scan.numberFrom e step s.length rest := by
  by_cases hplaces : places = []
  · refine ⟨.whole, .inl rfl, fun rest => ?_⟩
    rw [Scan.number, h.eq, if_pos hplaces, List.append_nil,
      Scan.numberFrom_digits (Or.inl rfl) h.digits, Nat.zero_add]
  · refine ⟨.fraction, .inr rfl, fun rest => ?_⟩
    obtain ⟨b, places, rfl⟩ := List.exists_cons_of_ne_nil hplaces
    have hb := h.fraction b List.mem_cons_self
    have hpoint (size : Nat) : Scan.numberFrom e .whole size (46 :: b :: places ++ rest) =
        Scan.numberFrom e .fraction (size + 2) (places ++ rest) := by
      have hdigit : Scan.numberFrom e .point (size + 1) (b :: (places ++ rest)) =
          Scan.numberFrom e .fraction (size + 2) (places ++ rest) := by
        rw [Scan.numberFrom.eq_def]
        simp [hb]
      rw [List.cons_append, List.cons_append, ← hdigit, Scan.numberFrom.eq_def]
      simp [Bytes.isDigit, isIdentifierByte, Bytes.isLower, Bytes.isUpper]
    rw [Scan.number, h.eq, if_neg hplaces, List.append_assoc,
      Scan.numberFrom_digits (Or.inl rfl) h.digits, hpoint, Scan.numberFrom_digits (Or.inr (Or.inl rfl))
        fun b hb => h.fraction b (List.mem_cons_of_mem _ hb)]
    simp only [List.length_append, List.length_cons]
    congr 1
    omega

/-- A scan of the text of digits reaches to its end, with exponents or without, where no digit,
letter or point comes after it. -/
theorem Spells.scan_eq {s whole places rest : Bytes} (h : Spells s whole places)
    (hrest : ∀ b ∈ rest.head?, isIdentifierByte b = false ∧ b ≠ 46) (e : Bool) :
    Scan.number e (s ++ rest) = .done s.length := by
  obtain ⟨step, hstep, hpass⟩ := h.numberFrom_append e
  rw [hpass, Scan.numberFrom_ends (hstep.imp_right .inl) hrest]

theorem Spells.ne_nil {s whole places : Bytes} (h : Spells s whole places) : s ≠ [] := by
  simp [h.eq, h.nonempty]

theorem Spells.head?_isDigit {s whole places : Bytes} (h : Spells s whole places) :
    ∀ b ∈ s.head?, Bytes.isDigit b = true := by
  intro b hb
  rw [h.eq, List.head?_append_of_ne_nil _ h.nonempty] at hb
  exact h.digits b (List.mem_of_mem_head? hb)

/-- The text of digits is one token, where no digit, letter or point comes after it. -/
theorem Spells.firstToken? {s whole places rest : Bytes} (h : Spells s whole places)
    (hrest : ∀ b ∈ rest.head?, isIdentifierByte b = false ∧ b ≠ 46) (e : Bool)
    (flags : ReadFlags) :
    Lexer.firstToken? e .normal flags (s ++ rest) = some ((.number, s), rest) := by
  exact Lexer.firstToken?_number h.ne_nil h.head?_isDigit (h.scan_eq hrest e)

end Decimal

/-! ### The text of a number -/

namespace Binary32

variable {x : Binary32}

def size (x : Binary32) : Binary32 := if x.isNegative then x.neg else x

theorem neg_neg : x.neg.neg = x := by
  cases x
  simp [neg]

theorem isFinite_size : x.size.isFinite = x.isFinite := by
  unfold size
  split
  · exact isFinite_neg
  · rfl

theorem sourceText_eq (h : x.isFinite = true) :
    x.sourceText = x.signText ++ x.shortest.trim.positional := by
  unfold isFinite at h
  unfold sourceText
  cases hdatum : x.datum with
  | nan => rw [hdatum] at h; cases h
  | infinite => rw [hdatum] at h; cases h
  | finite => rfl

theorem ofWord_size : ofWord (x.word % Format.binary32.signBit) = x.size := by
  have hself : ∀ n : Nat, n = x.bits.toNat → (⟨UInt32.ofNat n⟩ : Binary32) = x := by
    rintro n rfl
    simp
  change (⟨UInt32.ofNat (x.bits.toNat % 2 ^ 31)⟩ : Binary32) = x.size
  have hnegative : x.isNegative = decide (2 ^ 31 ≤ x.bits.toNat) := rfl
  rw [size, hnegative]
  by_cases hlarge : 2 ^ 31 ≤ x.bits.toNat
  · -- the exclusive or takes the sign bit away
    have hbits := x.bits.toNat_lt
    have hxor : (x.bits ^^^ 0x80000000).toNat = x.bits.toNat % 2 ^ 31 := by
      have hhigh : (x.bits.toNat ^^^ 2 ^ 31) / 2 ^ 31 = 0 := by
        rw [Nat.xor_div_two_pow, show x.bits.toNat / 2 ^ 31 = 1 by omega]
        rfl
      have hlow : (x.bits.toNat ^^^ 2 ^ 31) % 2 ^ 31 = x.bits.toNat % 2 ^ 31 := by
        rw [Nat.xor_mod_two_pow]
        exact Nat.xor_zero _
      rw [UInt32.toNat_xor]
      change x.bits.toNat ^^^ 2 ^ 31 = _
      omega
    rw [decide_eq_true hlarge, if_pos rfl, ← hxor, neg]
    simp
  · rw [decide_eq_false hlarge, hself _ (Nat.mod_eq_of_lt (by omega))]
    rfl

/-- The digits that a finite number is written with are read as its magnitude. -/
theorem toBinary32_ofText (h : x.isFinite = true) :
    (Decimal.ofText x.shortest.trim.positional).map Decimal.toBinary32 = some x.size := by
  have hword := Decimal.toWord_ofText_positional x.shortest.trim
  obtain ⟨d, hd, hword⟩ := Option.map_eq_some_iff.1 hword
  rw [hd, Option.map_some, Decimal.toBinary32, hword, Decimal.toWord_trim, toWord_shortest h,
    ofWord_size]

end Binary32

end ApeScript
