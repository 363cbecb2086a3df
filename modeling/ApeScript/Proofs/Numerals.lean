import ApeScript.Proofs.ExpressionText
import ApeScript.Proofs.TokenStream

/-!
# The texts of numbers

A number is digits, perhaps a point and more digits, and perhaps an exponent (`Scan.Numeral`). A scan
that starts at a digit succeeds exactly where nothing continues the longest such text
(`Scan.LongestNumeral.number_eq_done_iff`), and each such text stands for a decimal
(`Scan.Numeral.exists_ofText`).
-/

namespace ApeScript

namespace Scan

variable {e : Bool} {step : NumberStep} {b : UInt8} {s m rest : Bytes} {size n : Nat}

structure Digits (s : Bytes) : Prop where
  nonempty : s ≠ []
  digits : ∀ b ∈ s, Bytes.isDigit b = true

def signs : List Bytes := [[], [43], [45]]

/-- Nothing, or, where exponents are allowed, an exponent: a letter `e`, perhaps a sign, digits. -/
inductive Power (e : Bool) : Bytes → Prop
  | none : Power e []
  | marked {mark : UInt8} {sign digits : Bytes} (he : e = true) (hmark : mark = 101 ∨ mark = 69)
      (hsign : sign ∈ signs) (hdigits : Digits digits) : Power e (mark :: (sign ++ digits))

/-- The text of a number: digits, perhaps a point and more digits, perhaps an exponent. -/
inductive Numeral (e : Bool) : Bytes → Prop
  | mk {s whole places power : Bytes} (hs : Decimal.Spells s whole places)
      (hpower : Power e power) : Numeral e (s ++ power)

structure LongestNumeral (e : Bool) (s m : Bytes) : Prop where
  start : m <+: s
  numeral : Numeral e m
  longest : ∀ m', m' <+: s → Numeral e m' → m'.length ≤ m.length

theorem Digits.cons (hb : Bytes.isDigit b = true) (hs : ∀ a ∈ s, Bytes.isDigit a = true) :
    Digits (b :: s) :=
  ⟨List.cons_ne_nil b s, List.forall_mem_cons.2 ⟨hb, hs⟩⟩

def pointed (places : Bytes) : Bytes := if places = [] then [] else 46 :: places

def Follows (e : Bool) : NumberStep → Bytes → Prop
  | .whole, s => ∃ digits places power, (∀ b ∈ digits, Bytes.isDigit b = true) ∧
      (∀ b ∈ places, Bytes.isDigit b = true) ∧ Power e power ∧
      s = digits ++ (pointed places ++ power)
  | .point, s => ∃ digits power, Digits digits ∧ Power e power ∧ s = digits ++ power
  | .fraction, s => ∃ digits power, (∀ b ∈ digits, Bytes.isDigit b = true) ∧ Power e power ∧
      s = digits ++ power
  | .mark, s => ∃ sign digits, sign ∈ signs ∧ Digits digits ∧ s = sign ++ digits
  | .sign, s => Digits s
  | .exponent, s => ∀ b ∈ s, Bytes.isDigit b = true

def NumberStep.afterDigit : NumberStep → NumberStep
  | .point => .fraction
  | .mark | .sign => .exponent
  | step => step

theorem Follows.digit (hb : Bytes.isDigit b = true) (hs : Follows e step.afterDigit s) :
    Follows e step (b :: s) := by
  cases step with
  | whole =>
    obtain ⟨digits, places, power, hdigits, hplaces, hpower, rfl⟩ := hs
    exact ⟨b :: digits, places, power, List.forall_mem_cons.2 ⟨hb, hdigits⟩, hplaces, hpower, rfl⟩
  | point =>
    obtain ⟨digits, power, hdigits, hpower, rfl⟩ := hs
    exact ⟨b :: digits, power, .cons hb hdigits, hpower, rfl⟩
  | fraction =>
    obtain ⟨digits, power, hdigits, hpower, rfl⟩ := hs
    exact ⟨b :: digits, power, List.forall_mem_cons.2 ⟨hb, hdigits⟩, hpower, rfl⟩
  | mark => exact ⟨[], b :: s, by decide, .cons hb hs, rfl⟩
  | sign => exact .cons hb hs
  | exponent => exact List.forall_mem_cons.2 ⟨hb, hs⟩

theorem Follows.mark (he : e = true) (hb : b = 101 ∨ b = 69)
    (hstep : step = .whole ∨ step = .fraction) (hs : Follows e .mark s) :
    Follows e step (b :: s) := by
  obtain ⟨sign, digits, hsign, hdigits, rfl⟩ := hs
  have hpower : Power e (b :: (sign ++ digits)) := .marked he hb hsign hdigits
  rcases hstep with rfl | rfl
  · exact ⟨[], [], _, by simp, by simp, hpower, rfl⟩
  · exact ⟨[], _, by simp, hpower, rfl⟩

theorem Follows.point (hs : Follows e .point s) : Follows e .whole (46 :: s) := by
  obtain ⟨digits, power, hdigits, hpower, rfl⟩ := hs
  refine ⟨[], digits, power, by simp, hdigits.digits, hpower, ?_⟩
  rw [pointed, if_neg hdigits.nonempty]
  rfl

theorem Follows.sign (hb : b = 43 ∨ b = 45) (hs : Follows e .sign s) : Follows e .mark (b :: s) :=
  ⟨[b], s, by rcases hb with rfl | rfl <;> decide, hs, rfl⟩

/-- Nothing has to follow where a number may end. -/
theorem follows_nil (h : numberFrom.finish step size = .done n) :
    n = size ∧ Follows e step [] := by
  cases step <;> cases h
  · exact ⟨rfl, [], [], [], by simp, by simp, .none, rfl⟩
  · exact ⟨rfl, [], [], by simp, .none, rfl⟩
  · exact ⟨rfl, by simp [Follows]⟩

/-- A scan that succeeds has read what may follow, and stands where the number ends. -/
theorem numberFrom_sound (h : numberFrom e step size s = .done n) : ∃ m rest, s = m ++ rest ∧
    n = size + m.length ∧ Follows e step m ∧ Compiler.EndsOperand rest := by
  fun_induction numberFrom e step size s with
  | case1 step size =>
    obtain ⟨rfl, hfollows⟩ := follows_nil h
    exact ⟨[], [], rfl, rfl, hfollows, by simp [Compiler.EndsOperand]⟩
  | case2 step size b rest hb next ih =>
    obtain ⟨m, rest, rfl, rfl, hm, hrest⟩ := ih h
    have hnext : Follows e step.afterDigit m := by
      cases step <;> exact hm
    exact ⟨b :: m, rest, rfl, by simp [Nat.add_assoc, Nat.add_comm 1], hnext.digit hb, hrest⟩
  | case3 step size b rest hb hmark ih =>
    obtain ⟨m, rest, rfl, rfl, hm, hrest⟩ := ih h
    simp only [Bool.and_eq_true, Bool.or_eq_true, decide_eq_true_eq] at hmark
    exact ⟨b :: m, rest, rfl, by simp [Nat.add_assoc, Nat.add_comm 1],
      hm.mark hmark.1.2 hmark.1.1 hmark.2, hrest⟩
  | case4 => cases h
  | case5 size rest hb hmark hword ih =>
    obtain ⟨m, rest, rfl, rfl, hm, hrest⟩ := ih h
    exact ⟨46 :: m, rest, rfl, by simp [Nat.add_assoc, Nat.add_comm 1], hm.point, hrest⟩
  | case6 => cases h
  | case7 step size b rest hb hmark hword hpoint hsign ih =>
    obtain ⟨m, rest, rfl, rfl, hm, hrest⟩ := ih h
    simp only [Bool.and_eq_true, Bool.or_eq_true, decide_eq_true_eq] at hsign
    obtain ⟨hsign, rfl⟩ := hsign
    exact ⟨b :: m, rest, rfl, by simp [Nat.add_assoc, Nat.add_comm 1], hm.sign hsign, hrest⟩
  | case8 step size b rest hb hmark hword hpoint hsign =>
    obtain ⟨rfl, hfollows⟩ := follows_nil h
    refine ⟨[], b :: rest, rfl, rfl, hfollows, ?_⟩
    rintro _ ⟨⟩
    exact ⟨Bool.eq_false_of_not_eq_true hword, hpoint⟩

/-- What follows a digit completes a number. -/
theorem Follows.numeral (hb : Bytes.isDigit b = true) (hs : Follows e .whole s) :
    Numeral e (b :: s) := by
  obtain ⟨digits, places, power, hdigits, hplaces, hpower, rfl⟩ := hs
  have hspells : Decimal.Spells (b :: (digits ++ pointed places)) (b :: digits) places :=
    ⟨rfl, List.cons_ne_nil b digits, List.forall_mem_cons.2 ⟨hb, hdigits⟩, hplaces⟩
  rw [← List.append_assoc]
  exact .mk hspells hpower

/-- A scan that succeeds has read the text of a number, and nothing that follows continues it. -/
theorem number_sound (hb : Bytes.isDigit b = true) (h : number e (b :: s) = .done n) :
    ∃ m rest, b :: s = m ++ rest ∧ n = m.length ∧ Numeral e m ∧ Compiler.EndsOperand rest := by
  have hfirst : number e (b :: s) = numberFrom e .whole 1 s := by
    rw [number, numberFrom.eq_def]
    simp [hb]
  rw [hfirst] at h
  obtain ⟨m, rest, rfl, rfl, hm, hrest⟩ := numberFrom_sound h
  exact ⟨b :: m, rest, rfl, by simp [Nat.add_comm], hm.numeral hb, hrest⟩

theorem numberFrom_mark (he : e = true) (hb : b = 101 ∨ b = 69)
    (hstep : step = .whole ∨ step = .fraction) :
    numberFrom e step size (b :: s) = numberFrom e .mark (size + 1) s := by
  rw [numberFrom.eq_def]
  rcases hb with rfl | rfl <;> rcases hstep with rfl | rfl <;> simp [he, Bytes.isDigit]

theorem numberFrom_sign (hb : b = 43 ∨ b = 45) :
    numberFrom e .mark size (b :: s) = numberFrom e .sign (size + 1) s := by
  rw [numberFrom.eq_def]
  rcases hb with rfl | rfl <;>
    simp [Bytes.isDigit, isIdentifierByte, Bytes.isLower, Bytes.isUpper]

theorem Digits.numberFrom_append (hs : Digits s) (hstep : step = .mark ∨ step = .sign) :
    numberFrom e step size (s ++ rest) = numberFrom e .exponent (size + s.length) rest := by
  obtain ⟨b, s, rfl⟩ := List.exists_cons_of_ne_nil hs.nonempty
  obtain ⟨hb, hdigits⟩ := List.forall_mem_cons.1 hs.digits
  have hfirst : numberFrom e step size (b :: (s ++ rest)) =
      numberFrom e .exponent (size + 1) (s ++ rest) := by
    rw [numberFrom.eq_def]
    rcases hstep with rfl | rfl <;> simp [hb]
  rw [List.cons_append, hfirst, numberFrom_digits (Or.inr (Or.inr rfl)) hdigits]
  simp [Nat.add_assoc, Nat.add_comm 1]

/-- A scan passes over an exponent. -/
theorem Power.numberFrom_append (h : Power e s) (hstep : step = .whole ∨ step = .fraction) :
    ∃ step', (step' = .whole ∨ step' = .fraction ∨ step' = .exponent) ∧ ∀ size rest,
      numberFrom e step size (s ++ rest) = numberFrom e step' (size + s.length) rest := by
  cases h with
  | none => exact ⟨step, hstep.imp_right .inl, fun _ _ => rfl⟩
  | @marked mark sign digits he hmark hsign hdigits =>
    refine ⟨.exponent, .inr (.inr rfl), fun size rest => ?_⟩
    rw [List.cons_append, List.append_assoc, numberFrom_mark he hmark hstep]
    simp only [signs, List.mem_cons, List.not_mem_nil, or_false] at hsign
    rcases hsign with rfl | hsigned
    · rw [List.nil_append, hdigits.numberFrom_append (.inl rfl), List.nil_append, List.length_cons]
      congr 1
      omega
    · obtain ⟨b, hb, rfl⟩ : ∃ b : UInt8, (b = 43 ∨ b = 45) ∧ sign = [b] := by
        rcases hsigned with rfl | rfl <;> simp
      rw [List.singleton_append, numberFrom_sign hb, hdigits.numberFrom_append (.inr rfl),
        List.length_cons, List.singleton_append, List.length_cons]
      congr 1
      omega

/-- A scan passes over the text of a number. -/
theorem Numeral.number_append (h : Numeral e m) :
    ∃ step, (step = .whole ∨ step = .fraction ∨ step = .exponent) ∧ ∀ rest,
      number e (m ++ rest) = numberFrom e step m.length rest := by
  obtain ⟨hs, hpower⟩ := h
  obtain ⟨step, hstep, hmantissa⟩ := hs.numberFrom_append e
  obtain ⟨step', hstep', hpass⟩ := hpower.numberFrom_append hstep
  refine ⟨step', hstep', fun rest => ?_⟩
  rw [List.append_assoc, hmantissa, hpass, List.length_append]

/-- The text of a number is read to its end, where nothing that follows continues it. -/
theorem Numeral.number_done (h : Numeral e m) (hrest : Compiler.EndsOperand rest) :
    number e (m ++ rest) = .done m.length := by
  obtain ⟨step, hstep, hpass⟩ := h.number_append
  rw [hpass, numberFrom_ends hstep hrest]

theorem Power.head?_mark (h : Power e s) : ∀ b ∈ s.head?, b = 101 ∨ b = 69 := by
  cases h with
  | none => simp
  | marked _ hmark => simpa using hmark

theorem Power.exists_powerOfText (h : Power e s) : ∃ n, Decimal.powerOfText s = some n := by
  cases h with
  | none => exact ⟨0, rfl⟩
  | @marked mark sign digits he hmark hsign hdigits =>
    have hspells : Decimal.spellsDigits digits = true :=
      Decimal.spellsDigits_iff.2 ⟨hdigits.nonempty, hdigits.digits⟩
    simp only [signs, List.mem_cons, List.not_mem_nil, or_false] at hsign
    rcases hsign with rfl | rfl | rfl
    · obtain ⟨b, digits, rfl⟩ := List.exists_cons_of_ne_nil hdigits.nonempty
      have hb : Bytes.isDigit b = true := hdigits.digits b List.mem_cons_self
      have h45 : b ≠ 45 := by rintro rfl; exact absurd hb (by decide)
      have h43 : b ≠ 43 := by rintro rfl; exact absurd hb (by decide)
      simp [Decimal.powerOfText, h45, h43, hspells]
    · simp [Decimal.powerOfText, hspells]
    · simp [Decimal.powerOfText, hspells]

/-- The text of a number stands for a decimal. -/
theorem Numeral.exists_ofText (h : Numeral e m) : ∃ d, Decimal.ofText m = some d := by
  obtain ⟨hs, hpower⟩ := h
  obtain ⟨n, hn⟩ := hpower.exists_powerOfText
  rw [hs.ofText_append hpower.head?_mark, hn]
  exact ⟨_, rfl⟩

/-- Where exponents are allowed, the numbers without one are still numbers. -/
theorem Numeral.allowed (h : Numeral e m) : Numeral true m := by
  obtain ⟨hs, hpower⟩ := h
  refine .mk hs ?_
  cases hpower with
  | none => exact .none
  | marked _ hmark hsign hdigits => exact .marked rfl hmark hsign hdigits

namespace LongestNumeral

theorem unique {m' : Bytes} (h : LongestNumeral e s m) (h' : LongestNumeral e s m') : m = m' :=
  (List.prefix_of_prefix_length_le h.start h'.start
    (h'.longest m h.start h.numeral)).eq_of_length_le
    (h.longest m' h'.start h'.numeral)

/-- A text that starts with a digit starts with a number. -/
theorem exists_of_digit (hb : Bytes.isDigit b = true) (s : Bytes) :
    ∃ m, LongestNumeral e (b :: s) m := by
  classical
  have hone : Numeral e ((b :: s).take 1) :=
    Follows.numeral hb ⟨[], [], [], by simp, by simp, .none, rfl⟩
  let longest := Nat.findGreatest (fun k => Numeral e ((b :: s).take k)) (b :: s).length
  have hle : longest ≤ (b :: s).length := Nat.findGreatest_le _
  refine ⟨(b :: s).take longest, List.take_prefix _ _, ?_, fun m' hm' hnumeral => ?_⟩
  · exact Nat.findGreatest_spec (P := fun k => Numeral e ((b :: s).take k)) (m := 1) (by simp) hone
  · rw [List.length_take_of_le hle]
    refine Nat.le_findGreatest hm'.length_le ?_
    rwa [← List.prefix_iff_eq_take.1 hm']

/-- A scan succeeds exactly where nothing that follows continues the longest number, and then it
has read that. -/
theorem number_eq_done_iff (hb : Bytes.isDigit b = true) (h : LongestNumeral e (b :: s) m)
    (hrest : b :: s = m ++ rest) :
    number e (b :: s) = .done n ↔ n = m.length ∧ Compiler.EndsOperand rest := by
  constructor
  · intro hscan
    obtain ⟨m', rest', hsplit, rfl, hm', hends⟩ := number_sound hb hscan
    obtain ⟨step, -, hpass⟩ := h.numeral.number_append
    rw [hrest, hpass] at hscan
    have hlength : m.length = m'.length :=
      Nat.le_antisymm (le_of_numberFrom hscan) (h.longest m' ⟨rest', hsplit.symm⟩ hm')
    obtain ⟨rfl, rfl⟩ := List.append_inj (hrest.symm.trans hsplit) hlength
    exact ⟨rfl, hends⟩
  · rintro ⟨rfl, hends⟩
    rw [hrest]
    exact h.numeral.number_done hends

end LongestNumeral

end Scan

end ApeScript
