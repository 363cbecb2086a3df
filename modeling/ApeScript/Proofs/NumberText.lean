import ApeScript.Proofs.ExpressionText

/-!
# Numbers in scripts and in listings

A script writes a finite number as a minus sign, if its sign bit is set, and digits that are one
token of their own. A listing writes nine digits, perhaps with an exponent, and both texts are read
back as the number: `Compiler.Parses` says so of a script, and `Binary32.ofListing` is a reader of
listings (`Binary32.ofListing_listingText`). So no two numbers share a text.
-/

namespace ApeScript

open Number

/-! ### Exponents -/

namespace Decimal

variable {d : Decimal}

/-- A decimal that is read as neither zero nor infinity is neither small nor large. -/
theorem top_of_toWord (hzero : d.toWord ≠ 0) (hlarge : d.toWord ≠ Format.binary32.infinityWord) :
    -60 ≤ (width d.digits : Int) + d.exponent ∧ (width d.digits : Int) + d.exponent ≤ 60 := by
  unfold toWord at hzero hlarge
  simp only at hzero hlarge
  by_cases hsmall : d.digits = 0 ∨ (width d.digits : Int) + d.exponent < -60
  · rw [if_pos hsmall] at hzero
    exact absurd rfl hzero
  · rw [if_neg hsmall] at hlarge
    by_cases htop : 60 < (width d.digits : Int) + d.exponent
    · rw [if_pos htop] at hlarge
      exact absurd rfl hlarge
    · omega

/-- The digits of an exponent, which are at least two, are read to their end. -/
theorem foldl_grow {n : Nat} (h : n < 10000) :
    (if (Bytes.ofNat n).length < 2 then Bytes.ofChar '0' :: Bytes.ofNat n
      else Bytes.ofNat n).foldl
        (fun n b => if n < 10000 then 10 * n + (b.toNat - 48) else n) 0 = n := by
  have hread := Bytes.read_ofNat (n := n)
    (fun m s => s.foldl (fun n b => if n < 10000 then 10 * n + (b.toNat - 48) else n) m)
    (fun m d rest hd hle => by
      simp only [List.foldl_cons, Bytes.value_digit hd]
      rw [if_pos (by omega)]) []
  rw [List.append_nil] at hread
  split
  · exact hread
  · exact hread

theorem spellsDigits_size (n : Nat) : spellsDigits (if (Bytes.ofNat n).length < 2 then
    Bytes.ofChar '0' :: Bytes.ofNat n else Bytes.ofNat n) = true := by
  have hdigits : ∀ b ∈ Bytes.ofNat n, Bytes.isDigit b = true :=
    fun _ => Bytes.isDigit_of_mem_ofNat
  refine spellsDigits_iff.2 ⟨?_, ?_⟩
  · split
    · exact List.cons_ne_nil _ _
    · exact Bytes.ofNat_ne_nil n
  · split
    · exact List.forall_mem_cons.2 ⟨rfl, hdigits⟩
    · exact hdigits

/-- An exponent of at most four digits is read back. -/
theorem powerOfText_signed {exponent : Int} {digits : Bytes} (hdigits : spellsDigits digits = true)
    (h : digits.foldl (fun n b => if n < 10000 then 10 * n + (b.toNat - 48) else n) 0 =
      exponent.natAbs) :
    powerOfText (utf8 (if exponent < 0 then "E-" else "E+") ++ digits) = some exponent := by
  by_cases hneg : exponent < 0
  · have hvalue : powerOfText (utf8 "E-" ++ digits) = if spellsDigits digits then
        some (-((digits.foldl (fun n b => if n < 10000 then 10 * n + (b.toNat - 48) else n) 0 :
          Nat) : Int)) else none := rfl
    rw [if_pos hneg, hvalue, if_pos hdigits, h]
    congr 1
    omega
  · have hvalue : powerOfText (utf8 "E+" ++ digits) = if spellsDigits digits then
        some ((digits.foldl (fun n b => if n < 10000 then 10 * n + (b.toNat - 48) else n) 0 :
          Nat) : Int) else none := rfl
    rw [if_neg hneg, hvalue, if_pos hdigits, h]
    congr 1
    omega

theorem length_ofNat (n : Nat) : (Bytes.ofNat n).length = width n := by
  simp [Bytes.ofNat, width]

/-- The text before an exponent has one digit before its point. -/
theorem spells_mantissa (n : Nat) : Spells ((Bytes.ofNat n).take 1 ++
      if (Bytes.ofNat n).length ≤ 1 then [] else Bytes.ofChar '.' :: (Bytes.ofNat n).drop 1)
    ((Bytes.ofNat n).take 1) ((Bytes.ofNat n).drop 1) where
  eq := by
    simp only [List.drop_eq_nil_iff]
    rfl
  nonempty := by simp [Bytes.ofNat_ne_nil]
  digits b hb := Bytes.isDigit_of_mem_ofNat (List.mem_of_mem_take hb)
  fraction b hb := Bytes.isDigit_of_mem_ofNat (List.mem_of_mem_drop hb)

/-- A text with an exponent is read as the decimal that it writes. -/
theorem ofText_scientific (h : ((width d.digits : Int) + d.exponent - 1).natAbs < 10000) :
    ofText d.scientific = some d := by
  obtain ⟨n, e⟩ := d
  have hpos := width_pos n
  have hlead : e + (Bytes.ofNat n).length - 1 = (width n : Int) + e - 1 := by
    rw [length_ofNat]
    ring
  change ((width n : Int) + e - 1).natAbs < 10000 at h
  have hsigned := powerOfText_signed (spellsDigits_size _) (foldl_grow h)
  rw [scientific]
  simp only [hlead]
  rw [List.append_assoc, (spells_mantissa n).ofText_append, hsigned, Option.map_some,
    List.take_append_drop, Bytes.digitsValue_ofNat, List.length_drop, length_ofNat]
  · congr 2
    omega
  · intro b hb
    split at hb <;> cases hb <;> exact .inr rfl

theorem head?_scientific (d : Decimal) : ∀ b ∈ d.scientific.head?, Bytes.isDigit b = true := by
  intro b hb
  have hspells := spells_mantissa d.digits
  rw [scientific] at hb
  simp only [List.append_assoc] at hb
  rw [← List.append_assoc, List.head?_append_of_ne_nil _ hspells.ne_nil] at hb
  exact hspells.head?_isDigit b hb

end Decimal

/-! ### Listings -/

namespace Binary32

variable {x y : Binary32}

def wordOfListing (s : Bytes) : Nat :=
  if s = utf8 "Infinity" then Format.binary32.infinityWord else ((Decimal.ofText s).map Decimal.toWord).getD 0

def ofListing : Bytes → Binary32
  | 45 :: s => (ofWord (wordOfListing s)).neg
  | s => ofWord (wordOfListing s)

theorem ofListing_append {s : Bytes} (hs : s.head? ≠ some 45)
    (hword : wordOfListing s = x.word % Format.binary32.signBit) :
    ofListing (x.signText ++ s) = x := by
  have hsize : ofWord (wordOfListing s) = x.size := by rw [hword, ofWord_size]
  by_cases hneg : x.isNegative = true
  · have htext : x.signText ++ s = 45 :: s := by
      rw [signText, if_pos hneg]
      rfl
    rw [htext, ofListing, hsize, size, if_pos hneg, neg_neg]
  · have htext : x.signText ++ s = s := by
      rw [signText, if_neg hneg]
      rfl
    rw [size, if_neg hneg] at hsize
    rw [htext, ofListing.eq_def]
    split
    · exact absurd rfl hs
    · exact hsize

theorem wordOfListing_of_digit {s : Bytes} (h : ∀ b ∈ s.head?, Bytes.isDigit b = true) :
    s.head? ≠ some 45 ∧ wordOfListing s = ((Decimal.ofText s).map Decimal.toWord).getD 0 := by
  constructor
  · intro hs
    exact absurd (h 45 hs) (by decide)
  · rw [wordOfListing, if_neg]
    rintro rfl
    exact absurd (h 73 rfl) (by decide)

/-- A decimal in a listing is read as its magnitude, with an exponent or without. -/
theorem wordOfListing_decimal {d : Decimal} (hzero : d.toWord = 0 → d = ⟨0, 0⟩)
    (hlarge : d.toWord ≠ Format.binary32.infinityWord) :
    let lead := d.exponent + Decimal.width d.digits - 1
    let s := if lead < -4 ∨ 9 ≤ lead then d.scientific else d.positional
    s.head? ≠ some 45 ∧ wordOfListing s = d.toWord := by
  intro lead
  by_cases hlead : lead < -4 ∨ 9 ≤ lead
  · rw [if_pos hlead]
    have hne : d.toWord ≠ 0 := by
      intro hword
      obtain rfl := hzero hword
      exact absurd hlead (by decide)
    obtain ⟨hlow, hhigh⟩ := Decimal.top_of_toWord hne hlarge
    obtain ⟨hminus, hword⟩ := wordOfListing_of_digit d.head?_scientific
    rw [Decimal.ofText_scientific (by omega)] at hword
    exact ⟨hminus, hword⟩
  · rw [if_neg hlead]
    obtain ⟨whole, places, -, hspells, -⟩ := d.exists_spells
    obtain ⟨hminus, hword⟩ := wordOfListing_of_digit hspells.head?_isDigit
    rw [Decimal.toWord_ofText_positional] at hword
    exact ⟨hminus, hword⟩

/-- The decimal of a listing is read as the magnitude of the number. -/
theorem toWord_listed {units : Nat} (h : x.isFinite = true)
    (hzero : x.isZero = decide (units = 0)) :
    let d : Decimal := if units = 0 then ⟨0, 0⟩ else (x.rounded 9).trim
    d.toWord = x.word % Format.binary32.signBit ∧ (d.toWord = 0 → d = ⟨0, 0⟩) := by
  intro d
  by_cases hunits : units = 0
  · have hd : d = ⟨0, 0⟩ := if_pos hunits
    rw [hd, word_of_isZero h (by rw [hzero, decide_eq_true hunits])]
    exact ⟨rfl, fun _ => rfl⟩
  · have hd : d = (x.rounded 9).trim := if_neg hunits
    rw [decide_eq_false hunits] at hzero
    rw [hd, Decimal.toWord_trim, toWord_rounded h hzero]
    refine ⟨rfl, fun hword => ?_⟩
    rw [isZero_of_magnitude h, hword] at hzero
    exact absurd hzero (by decide)

/-- A listing is read back as the number. -/
theorem ofListing_listingText (h : x.isNaN = false) : ofListing x.listingText = x := by
  cases hdatum : x.datum with
  | nan => simp [isNaN, hdatum] at h
  | infinite negative =>
    have hdecode : Format.binary32.decode x.word = .infinite negative := hdatum
    unfold Format.decode at hdecode
    simp only at hdecode
    split_ifs at hdecode with _ hsize
    have hnegative : x.isNegative = negative := Datum.infinite.inj hdecode
    have htext : x.listingText = x.signText ++ utf8 "Infinity" := by
      rw [listingText, hdatum, signText, hnegative]
      cases negative <;> rfl
    rw [htext]
    apply ofListing_append
    · decide
    · rw [wordOfListing, if_pos rfl, hsize]
  | finite negative units =>
    have hfinite : x.isFinite = true := by rw [isFinite, hdatum]; rfl
    have hzero : x.isZero = decide (units = 0) := by rw [isZero, hdatum, isZero_finite]
    have hlarge := (fraction_of_isFinite hfinite).2
    obtain ⟨hword, hleast⟩ := toWord_listed hfinite hzero
    obtain ⟨hminus, hread⟩ := wordOfListing_decimal hleast (by rw [hword]; exact hlarge.ne)
    rw [listingText, hdatum]
    exact ofListing_append hminus (hread.trans hword)

/-! ### Numbers as text -/

/-- A finite number in a script is a minus sign, if its sign bit is set, and digits, perhaps with a
point and more digits. Those are one token, whether or not numbers may have exponents, and they are
read as a number that is the same once the minus sign is applied, so the text as a whole is parsed
as the number. The listings of two different numbers are different, infinite ones included. -/
theorem number_text (x : Binary32) :
    (x.isFinite = true → ∃ digits whole places y,
      x.sourceText = (if x.isNegative then utf8 "-" else []) ++ digits ∧
      Decimal.Spells digits whole places ∧
      (∀ exponents rest, Compiler.EndsOperand rest →
        Scan.number exponents (digits ++ rest) = .done digits.length) ∧
      (∀ loc, Compiler.floatOfToken ⟨.number, digits, loc⟩ = pure y) ∧
      (if x.isNegative then y.neg else y) = x ∧
      ∀ setting : Lexer.Setting, setting.macros = [] →
        Compiler.Parses setting x.sourceText (.const x)) ∧
    ∀ y : Binary32, x.isNaN = false → y.isNaN = false → x ≠ y → x.listingText ≠ y.listingText := by
  constructor
  · intro hx
    obtain ⟨whole, places, -, hspells, -⟩ := x.shortest.trim.exists_spells
    refine ⟨_, whole, places, x.size, sourceText_eq hx, hspells,
      fun exponents rest hrest => hspells.scan_eq hrest exponents, fun loc => ?_, ?_,
      fun setting hmacros => Compiler.parses_number hmacros hx⟩
    · have hfinite : x.size.isFinite = true := by rw [isFinite_size, hx]
      obtain ⟨d, hd, hvalue⟩ := Option.map_eq_some_iff.1 (toBinary32_ofText hx)
      simp [Compiler.floatOfToken, hd, hvalue, hfinite]
    · rw [size]
      by_cases hneg : x.isNegative = true
      · rw [if_pos hneg, if_pos hneg, neg_neg]
      · rw [if_neg hneg, if_neg hneg]
  · intro y hx hy hne htext
    apply hne
    calc x = ofListing x.listingText := (ofListing_listingText hx).symm
      _ = ofListing y.listingText := by rw [htext]
      _ = y := ofListing_listingText hy

/-- The least number with its sign bit set, and negative zero. -/
theorem number_text_least : (⟨0x80000001⟩ : Binary32).isFinite = true ∧
    (∃ digits y, (⟨0x80000001⟩ : Binary32).sourceText = utf8 "-" ++ digits ∧
      (∀ exponents, Scan.number exponents digits = .done digits.length) ∧
      (∀ loc, Compiler.floatOfToken ⟨.number, digits, loc⟩ = pure y) ∧ y.neg = ⟨0x80000001⟩ ∧
      Compiler.Parses ⟨false, []⟩ (⟨0x80000001⟩ : Binary32).sourceText (.const ⟨0x80000001⟩)) ∧
    (⟨0x80000001⟩ : Binary32).isNaN = false ∧ (⟨0x80000000⟩ : Binary32).isNaN = false ∧
    (⟨0x80000001⟩ : Binary32) ≠ ⟨0x80000000⟩ ∧
    (⟨0x80000001⟩ : Binary32).listingText ≠ (⟨0x80000000⟩ : Binary32).listingText := by
  have hfinite : (⟨0x80000001⟩ : Binary32).isFinite = true := by decide
  have hnumber : (⟨0x80000001⟩ : Binary32).isNaN = false := by decide
  have hzero : (⟨0x80000000⟩ : Binary32).isNaN = false := by decide
  have hne : (⟨0x80000001⟩ : Binary32) ≠ ⟨0x80000000⟩ := by decide
  obtain ⟨hscript, hlisting⟩ := number_text ⟨0x80000001⟩
  obtain ⟨digits, whole, places, y, htext, -, hscan, hread, hsign, hparse⟩ := hscript hfinite
  refine ⟨hfinite, ⟨digits, y, htext, fun exponents => ?_, hread, hsign, hparse _ rfl⟩, hnumber,
    hzero, hne, hlisting _ hnumber hzero hne⟩
  have hend := hscan exponents [] (by simp [Compiler.EndsOperand])
  rwa [List.append_nil] at hend

example : (⟨0x80000001⟩ : Binary32).listingText = utf8 "-1.40129846E-45" := by decide +kernel

end Binary32

end ApeScript
