import ApeScript.Proofs.Characters
import ApeScript.Proofs.LiteralTokens

/-!
# Labels as text

A label is read in two ways: from a text, each half as a number below 2^64, and from two number
tokens, each half with a bound that is checked after every digit. Both accept the same labels, and
what a label is printed as is read back, unless it numbers an inline block.
-/

namespace ApeScript

variable {s t : Bytes} {sep : UInt8} {limit value n high low high' low' : Nat} {l : Label}

/-! ### Texts without blanks and separators -/

theorem Bytes.cut?_append (h : sep ∉ s) : cut? sep (s ++ sep :: t) = some (s, t) := by
  have hs : ∀ b ∈ s, (b != sep) = true := fun b hb => by simpa using ne_of_mem_of_not_mem hb h
  rw [cut?, List.span_eq_takeWhile_dropWhile, List.takeWhile_append_of_pos hs,
    List.dropWhile_append_of_pos hs]
  simp

theorem Bytes.eq_of_cut? (h : cut? sep s = some (t, u)) : s = t ++ sep :: u := by
  unfold cut? at h
  rw [List.span_eq_takeWhile_dropWhile] at h
  cases hdrop : s.dropWhile (· != sep) with
  | nil =>
    rw [hdrop] at h
    cases h
  | cons b after =>
    rw [hdrop] at h
    cases h
    have hhead := List.head_dropWhile_not (· != sep) (l := s) (by simp [hdrop])
    obtain rfl : b = sep := by simpa [hdrop] using hhead
    rw [← hdrop, List.takeWhile_append_dropWhile]

theorem Bytes.cut?_eq_none (h : sep ∉ s) : cut? sep s = none := by
  have hs : ∀ b ∈ s, (b != sep) = true := fun b hb => by simpa using ne_of_mem_of_not_mem hb h
  rw [cut?, List.span_eq_takeWhile_dropWhile, List.dropWhile_eq_nil_iff.2 hs]

/-- A byte that is ASCII and no white space. -/
def Text.Inked (b : UInt8) : Prop := b < 0x80 ∧ isBlankChar b.toNat = false

instance : DecidablePred Text.Inked := fun _ => inferInstanceAs (Decidable (_ ∧ _))

theorem Text.pieces_of_inked (h : ∀ b ∈ s, Inked b) : ∀ p ∈ pieces s, p.isBlank = false := by
  induction s with
  | nil => simp [pieces, piecesFrom]
  | cons b s ih =>
    obtain ⟨hb, hs⟩ := List.forall_mem_cons.1 h
    rw [pieces_cons hb.1]
    exact List.forall_mem_cons.2 ⟨hb.2, ih hs⟩

/-- A text without white space is trimmed already. -/
theorem Text.trim_of_inked (h : ∀ b ∈ s, Inked b) : trim s = s := by
  have hkeep {l : List Piece} (hl : ∀ p ∈ l, p.isBlank = false) :
      l.dropWhile Piece.isBlank = l := by
    cases l with
    | nil => rfl
    | cons p l => exact List.dropWhile_cons_of_neg (by simp [hl p List.mem_cons_self])
  have hpieces := pieces_of_inked h
  rw [trim, hkeep hpieces, hkeep fun p hp => hpieces p (List.mem_reverse.1 hp),
    List.reverse_reverse, flatten_pieces]

theorem Bytes.inked_of_isDigit {b : UInt8} (h : Bytes.isDigit b = true) :
    Text.Inked b ∧ b ≠ 58 := by
  simp only [isDigit, Bool.and_eq_true, decide_eq_true_eq, UInt8.le_iff_toNat_le] at h
  have hrange : 48 ≤ b.toNat ∧ b.toNat ≤ 57 := h
  refine ⟨⟨UInt8.lt_iff_toNat_lt.2 (by change b.toNat < 128; omega), ?_⟩, ?_⟩
  · obtain ⟨hlow, hhigh⟩ := hrange
    interval_cases b.toNat <;> rfl
  · rintro rfl
    exact absurd hrange.2 (by decide)

namespace Scan

/-- A number has a first byte, and neither white space nor a colon in it. -/
theorem Numeral.inked {e : Bool} (h : Numeral e s) :
    s ≠ [] ∧ ∀ b ∈ s, Text.Inked b ∧ b ≠ 58 := by
  obtain ⟨hs, hpower⟩ := h
  rename_i mantissa whole places power
  have hplaces : ∀ b ∈ (if places = [] then [] else 46 :: places), Text.Inked b ∧ b ≠ 58 := by
    split
    · simp
    · refine List.forall_mem_cons.2 ⟨by decide, fun b hb => ?_⟩
      exact Bytes.inked_of_isDigit (hs.fraction b hb)
  have hmarked : ∀ b ∈ power, Text.Inked b ∧ b ≠ 58 := by
    cases hpower with
    | none => simp
    | marked _ hmark hsign hdigits =>
      refine List.forall_mem_cons.2 ⟨by rcases hmark with rfl | rfl <;> decide, ?_⟩
      refine List.forall_mem_append.2 ⟨?_, fun b hb => Bytes.inked_of_isDigit (hdigits.digits b hb)⟩
      simp only [signs, List.mem_cons, List.not_mem_nil, or_false] at hsign
      rcases hsign with rfl | rfl | rfl <;> simp [Text.Inked, Text.isBlankChar]
  rw [hs.eq]
  refine ⟨by simp [hs.nonempty], List.forall_mem_append.2 ⟨List.forall_mem_append.2 ⟨?_, hplaces⟩,
    hmarked⟩⟩
  exact fun b hb => Bytes.inked_of_isDigit (hs.digits b hb)

end Scan

/-! ### The halves of a label -/

/-- A half is accepted by the check after every digit if it is a number below the limit. -/
theorem Compiler.labelHalf_eq_ok_iff (hvalue : value < limit) :
    labelHalf limit value s = .ok n ↔ (∀ b ∈ s, Bytes.isDigit b = true) ∧
      s.foldl (fun n b => 10 * n + (b.toNat - 48)) value = n ∧ n < limit := by
  have hgrows (s : Bytes) (n : Nat) : n ≤ s.foldl (fun n b => 10 * n + (b.toNat - 48)) n := by
    induction s generalizing n with
    | nil => exact le_rfl
    | cons b s ih => exact le_trans (show n ≤ 10 * n + (b.toNat - 48) by omega) (ih _)
  fun_induction labelHalf limit value s with
  | case1 value =>
    simp only [Except.ok.injEq, List.not_mem_nil, false_implies, implies_true, List.foldl_nil,
      true_and]
    exact ⟨fun h => ⟨h, h ▸ hvalue⟩, And.left⟩
  | case2 value b s hb =>
    simp only [reduceCtorEq, false_iff, List.forall_mem_cons]
    exact fun h => by simp [h.1.1] at hb
  | case3 value b s hb next hnext =>
    simp only [reduceCtorEq, false_iff, List.foldl_cons]
    rintro ⟨-, hn, hlt⟩
    have hle : limit ≤ n := hn ▸ le_trans hnext (hgrows s next)
    omega
  | case4 value b s hb next hnext ih =>
    have hdigit : Bytes.isDigit b = true := by simpa using hb
    simp [ih (not_le.1 hnext), hdigit, next]

/-- A half is accepted by the conversion as a whole if it is a number below 2^64. -/
theorem Label.half?_eq_some_iff : half? s = some n ↔ s ≠ [] ∧ (∀ b ∈ s, Bytes.isDigit b = true) ∧
    Bytes.digitsValue s = n ∧ n < Nat.pow 2 64 := by
  rw [half?]
  split
  · rename_i h
    simp only [reduceCtorEq, false_iff]
    rintro ⟨hs, hdigits, -⟩
    have hall : s.all Bytes.isDigit = true := List.all_eq_true.2 hdigits
    simp [hs, hall] at h
  · rename_i h
    simp only [Bool.or_eq_true, not_or, List.isEmpty_iff, Bool.not_eq_true', Bool.not_eq_false,
      List.all_eq_true] at h
    dsimp only
    split
    · simp only [Option.some.injEq]
      exact ⟨fun hn => ⟨h.1, h.2, hn, hn ▸ ‹_›⟩, fun hn => hn.2.2.1⟩
    · simp only [reduceCtorEq, false_iff]
      rintro ⟨-, -, rfl, hlt⟩
      contradiction

namespace Label

/-- The two halves of a label are below their limits and determined by it. -/
theorem ofHalves_eq_ok_iff : ofHalves high low = .ok l ↔
    high < highLimit ∧ low < lowLimit ∧ high * lowLimit + low = l.toNat := by
  rw [ofHalves]
  split
  · simp only [reduceCtorEq, false_iff]
    omega
  · have hhigh : high < highLimit := by omega
    have hlow : low < lowLimit := by omega
    have hsize : high * lowLimit + low < UInt32.size := by
      simp only [highLimit, lowLimit, UInt32.size] at hhigh hlow ⊢
      omega
    simp only [Except.ok.injEq, hhigh, hlow, true_and]
    constructor
    · rintro rfl
      exact (UInt32.toNat_ofNat_of_lt' hsize).symm
    · intro h
      rw [h, UInt32.ofNat_toNat]

/-- A text in two parts with a colon is cut there. -/
theorem cut?_trim_colon (hs : ∀ b ∈ s, Text.Inked b ∧ b ≠ 58) (ht : ∀ b ∈ t, Text.Inked b) :
    Bytes.cut? 58 (Text.trim (s ++ utf8 ":" ++ t)) = some (s, t) := by
  have hcolon : ∀ b ∈ utf8 ":", Text.Inked b := by decide +kernel
  have hinked : ∀ b ∈ s ++ utf8 ":" ++ t, Text.Inked b :=
    List.forall_mem_append.2 ⟨List.forall_mem_append.2 ⟨fun b hb => (hs b hb).1, hcolon⟩, ht⟩
  rw [Text.trim_of_inked hinked, List.append_assoc]
  exact Bytes.cut?_append fun hmem => (hs 58 hmem).2 rfl

/-- A text in two parts with a colon is a label if both parts are numbers that fit. -/
theorem parse_colon_eq_ok_iff (hs : ∀ b ∈ s, Text.Inked b ∧ b ≠ 58)
    (ht : ∀ b ∈ t, Text.Inked b) : parse (s ++ utf8 ":" ++ t) = .ok l ↔
      ∃ high low, half? s = some high ∧ half? t = some low ∧ ofHalves high low = .ok l := by
  rw [parse, cut?_trim_colon hs ht]
  dsimp only
  cases half? s with
  | none => simp
  | some high => cases half? t <;> simp

/-- The halves of a printed label are read back as they are. -/
theorem half?_ofNat (hn : n < Nat.pow 2 64) : half? (Bytes.ofNat n) = some n :=
  half?_eq_some_iff.2 ⟨Bytes.ofNat_ne_nil n, fun _ => Bytes.isDigit_of_mem_ofNat,
    Bytes.digitsValue_ofNat n, hn⟩

/-- A printed label is read back, unless its high half is too large. -/
theorem parse_text (l : Label) :
    parse l.text = if l.toNat < inlineBase then .ok l else .error .tooLarge := by
  have hdigits (n : Nat) : ∀ b ∈ Bytes.ofNat n, Text.Inked b ∧ b ≠ 58 :=
    fun b hb => Bytes.inked_of_isDigit (Bytes.isDigit_of_mem_ofNat hb)
  have hsize := l.toNat_lt
  have hhigh : l.toNat / lowLimit < Nat.pow 2 64 := by
    have := Nat.div_le_self l.toNat lowLimit
    norm_num at hsize ⊢
    omega
  have hlow : l.toNat % lowLimit < Nat.pow 2 64 := by
    have := Nat.mod_le l.toNat lowLimit
    norm_num at hsize ⊢
    omega
  have hparse : parse l.text = ofHalves (l.toNat / lowLimit) (l.toNat % lowLimit) := by
    rw [text, parse, cut?_trim_colon (hdigits _) fun b hb => (hdigits _ b hb).1]
    simp only [half?_ofNat hhigh, half?_ofNat hlow]
  rw [hparse]
  by_cases hinline : l.toNat < inlineBase
  · rw [if_pos hinline]
    exact (Compiler.labelOfHalves (by simpa [isInline] using hinline)).2
  · rw [if_neg hinline, ofHalves, if_pos]
    simp only [inlineBase, highLimit, lowLimit] at *
    omega

end Label

namespace Compiler

variable {α β : Type} {c : CompileContext} {σ τ : CompileState}

theorem located_bind_eq_ok_iff {loc : Location} {x : Except Cause α} {f : α → Compiler β} {b : β} :
    (located loc x >>= f) c σ = .ok b τ ↔ ∃ a, x = .ok a ∧ f a c σ = .ok b τ := by
  cases x with
  | ok a =>
    refine ⟨fun h => ⟨a, rfl, h⟩, ?_⟩
    rintro ⟨_, ⟨⟩, h⟩
    exact h
  | error cause =>
    refine ⟨fun h => ?_, ?_⟩
    · cases h
    · rintro ⟨_, ⟨⟩, -⟩

/-- Two number tokens spell a label exactly if each is a number below its limit. -/
theorem labelOfTokens_eq_ok_iff {first second : Token} : labelOfTokens first second c σ = .ok l τ ↔
    (∃ high low, labelHalf Label.highLimit 0 first.text = .ok high ∧
      labelHalf Label.lowLimit 0 second.text = .ok low ∧ Label.ofHalves high low = .ok l) ∧
      τ = σ := by
  simp only [labelOfTokens, located_bind_eq_ok_iff, ← exists_and_left, ← exists_and_right,
    and_assoc]
  refine exists_congr fun high => exists_congr fun low => and_congr_right fun _ =>
    and_congr_right fun _ => ?_
  cases Label.ofHalves high low with
  | ok label =>
    constructor
    · rintro ⟨⟩
      exact ⟨rfl, rfl⟩
    · rintro ⟨⟨⟩, rfl⟩
      rfl
  | error e =>
    constructor
    · rintro ⟨⟩
    · rintro ⟨⟨⟩, -⟩

end Compiler

namespace Label

/-- A half below a limit is read alike by both conversions. -/
theorem labelHalf_eq_ok_iff_half? (hs : s ≠ []) (hpos : 0 < limit) (hlimit : limit ≤ Nat.pow 2 64) :
    Compiler.labelHalf limit 0 s = .ok n ↔ half? s = some n ∧ n < limit := by
  rw [Compiler.labelHalf_eq_ok_iff hpos, half?_eq_some_iff]
  constructor
  · rintro ⟨hdigits, hvalue, hn⟩
    exact ⟨⟨hs, hdigits, hvalue, hn.trans_le hlimit⟩, hn⟩
  · rintro ⟨⟨-, hdigits, hvalue, -⟩, hn⟩
    exact ⟨hdigits, hvalue, hn⟩

/-- Two number tokens spell a label exactly if their texts with a colon between them do. -/
theorem labelOfTokens_iff_parse {first second : Token} {e e' : Bool}
    (hfirst : Scan.Numeral e first.text) (hsecond : Scan.Numeral e' second.text)
    (c : CompileContext) (σ τ : CompileState) :
    Compiler.labelOfTokens first second c σ = .ok l τ ↔
      parse (first.text ++ utf8 ":" ++ second.text) = .ok l ∧ τ = σ := by
  obtain ⟨hne, hinked⟩ := hfirst.inked
  obtain ⟨hne', hinked'⟩ := hsecond.inked
  rw [Compiler.labelOfTokens_eq_ok_iff, parse_colon_eq_ok_iff hinked fun b hb => (hinked' b hb).1]
  refine and_congr_left fun _ => exists_congr fun high => exists_congr fun low => ?_
  rw [labelHalf_eq_ok_iff_half? hne (by decide) (by decide),
    labelHalf_eq_ok_iff_half? hne' (by decide) (by decide)]
  -- the limits of the halves are checked again when they are put together
  constructor
  · rintro ⟨⟨hhigh, -⟩, ⟨hlow, -⟩, hlabel⟩
    exact ⟨hhigh, hlow, hlabel⟩
  · rintro ⟨hhigh, hlow, hlabel⟩
    obtain ⟨hh, hl, -⟩ := ofHalves_eq_ok_iff.1 hlabel
    exact ⟨⟨hhigh, hh⟩, ⟨hlow, hl⟩, hlabel⟩

/-- A label determines the halves that make it. -/
theorem ofHalves_injective (h : ofHalves high low = .ok l) (h' : ofHalves high' low' = .ok l) :
    high = high' ∧ low = low' := by
  obtain ⟨-, hlow, hvalue⟩ := ofHalves_eq_ok_iff.1 h
  obtain ⟨-, hlow', hvalue'⟩ := ofHalves_eq_ok_iff.1 h'
  simp only [lowLimit] at hlow hlow' hvalue hvalue'
  omega

/-- Putting two halves together overflows neither in 64 bits nor when cut to 32. -/
theorem ofHalves_fits {high low : UInt64} (h : ofHalves high.toNat low.toNat = .ok l) :
    (high * 10000 + low).toNat = high.toNat * 10000 + low.toNat ∧
      high.toNat * 10000 + low.toNat < 2 ^ 32 ∧ (high * 10000 + low).toUInt32 = l := by
  obtain ⟨hhigh, hlow, hvalue⟩ := ofHalves_eq_ok_iff.1 h
  have hsize := l.toNat_lt
  simp only [highLimit, lowLimit] at hhigh hlow hvalue
  have hword : (high * 10000 + low).toNat = high.toNat * 10000 + low.toNat := by
    rw [UInt64.toNat_add, UInt64.toNat_mul, show (10000 : UInt64).toNat = 10000 from rfl]
    omega
  refine ⟨hword, hvalue ▸ hsize, UInt32.toNat_inj.1 ?_⟩
  rw [UInt64.toNat_toUInt32, hword, hvalue, Nat.mod_eq_of_lt hsize]

/-- A printed label is read back, unless it numbers an inline block, whose high half is too large.
Two number tokens spell a label exactly if their texts with a colon between them do. A label
determines its halves, and putting them together overflows neither in 64 nor in 32 bits. -/
theorem parsers_agree {first second : Token} {e e' : Bool} (hfirst : Scan.Numeral e first.text)
    (hsecond : Scan.Numeral e' second.text) :
    (∀ l : Label, parse l.text = if l.toNat < inlineBase then .ok l else .error .tooLarge) ∧
    (∀ (l : Label) c σ, (∃ τ, Compiler.labelOfTokens first second c σ = .ok l τ) ↔
      parse (first.text ++ utf8 ":" ++ second.text) = .ok l) ∧
    (∀ high low high' low' (l : Label), ofHalves high low = .ok l → ofHalves high' low' = .ok l →
      high = high' ∧ low = low') ∧
    ∀ (high low : UInt64) (l : Label), ofHalves high.toNat low.toNat = .ok l →
      (high * 10000 + low).toNat = high.toNat * 10000 + low.toNat ∧
      high.toNat * 10000 + low.toNat < 2 ^ 32 ∧ (high * 10000 + low).toUInt32 = l := by
  refine ⟨parse_text, fun l c σ => ?_, fun _ _ _ _ _ => ofHalves_injective,
    fun _ _ _ => ofHalves_fits⟩
  simp only [labelOfTokens_iff_parse hfirst hsecond, exists_and_left, exists_eq, and_true]

/-- Leading zeros count for neither reader, however many. -/
theorem parsers_agree_leading_zeros :
    parse (utf8 "007:000000000000000000000012") = .ok 70012 ∧ ∀ c σ, ∃ τ,
      Compiler.labelOfTokens ⟨.number, utf8 "007", .start []⟩
        ⟨.number, utf8 "000000000000000000000012", .start []⟩ c σ = .ok 70012 τ := by
  have hdigits {s : Bytes} (hs : s ≠ []) (h : ∀ b ∈ s, Bytes.isDigit b = true) :
      Scan.Numeral true (Token.mk .number s (.start [])).text := by
    have hspells : Decimal.Spells s s [] := ⟨by simp, hs, h, by simp⟩
    simpa using Scan.Numeral.mk hspells .none
  have hparse : parse (utf8 "007:000000000000000000000012") = .ok 70012 := by decide +kernel
  have hspelled := (parsers_agree (hdigits (s := utf8 "007") (by decide) (by decide +kernel))
    (hdigits (s := utf8 "000000000000000000000012") (by decide) (by decide +kernel))).2.1
  exact ⟨hparse, fun c σ => (hspelled 70012 c σ).2 hparse⟩

end Label

end ApeScript
