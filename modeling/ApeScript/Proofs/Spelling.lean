import ApeScript.Compile.WindowBody
import ApeScript.Proofs.Reading

/-!
# Words and numbers in scripts

The first token of a text that starts with a number, an identifier or a bare word, and what the
readers of words, labels and colours make of it. Each of them reads back what it is written as:
`reads_parseWord` a word, `reads_parseLabel` a label below the inline ones, `reads_parseColor` any
colour.
-/

namespace ApeScript

/-! ### Digits -/

namespace Bytes

theorem ofChar_digitChar {d : Nat} (hd : d < 10) :
    ofChar (Nat.digitChar d) = UInt8.ofNat (48 + d) := by
  interval_cases d <;> rfl

/-- The last digit, and the digits before it. -/
theorem ofNat_eq (n : Nat) :
    ofNat n = (if n < 10 then [] else ofNat (n / 10)) ++ [UInt8.ofNat (48 + n % 10)] := by
  unfold ofNat
  rw [Nat.toDigits_eq_if (by decide)]
  split
  · rename_i hn
    simp [ofChar_digitChar hn, Nat.mod_eq_of_lt hn]
  · simp [ofChar_digitChar (Nat.mod_lt n (by decide : 0 < 10))]

theorem ofNat_ne_nil (n : Nat) : ofNat n ≠ [] := by
  rw [ofNat_eq]
  simp

theorem toNat_digit {d : Nat} (hd : d < 10) : (UInt8.ofNat (48 + d)).toNat = 48 + d :=
  UInt8.toNat_ofNat_of_lt' (by change 48 + d < 256; omega)

theorem value_digit {d : Nat} (hd : d < 10) : (UInt8.ofNat (48 + d)).toNat - 48 = d := by
  rw [toNat_digit hd, Nat.add_sub_cancel_left]

theorem isDigit_digit {d : Nat} (hd : d < 10) : isDigit (UInt8.ofNat (48 + d)) = true := by
  interval_cases d <;> rfl

theorem isDigit_of_mem_ofNat {n : Nat} {b : UInt8} (h : b ∈ ofNat n) : isDigit b = true := by
  induction n using Nat.strong_induction_on with
  | _ n ih =>
    rw [ofNat_eq, List.mem_append] at h
    rcases h with h | h
    · split at h
      · cases h
      · exact ih (n / 10) (by omega) h
    · rw [List.mem_singleton.1 h]
      exact isDigit_digit (Nat.mod_lt n (by decide))

/-- A reader that takes digits one by one and puts each behind the number before it arrives at the
number that the digits write. -/
theorem read_ofNat {β : Type} (read : Nat → Bytes → β) {n : Nat}
    (h : ∀ m d rest, d < 10 → 10 * m + d ≤ n →
      read m (UInt8.ofNat (48 + d) :: rest) = read (10 * m + d) rest) (rest : Bytes) :
    read 0 (ofNat n ++ rest) = read n rest := by
  induction n using Nat.strong_induction_on generalizing rest with
  | _ n ih =>
    have hdigit := Nat.mod_lt n (by decide : 0 < 10)
    rw [ofNat_eq, List.append_assoc, List.singleton_append]
    split
    · rename_i hn
      rw [List.nil_append, h 0 _ rest hdigit (by omega), Nat.mod_eq_of_lt hn, Nat.mul_zero,
        Nat.zero_add]
    · have hstep := fun m d rest hd (hle : 10 * m + d ≤ n / 10) => h m d rest hd (by omega)
      rw [ih (n / 10) (by omega) hstep, h _ _ rest hdigit (by omega), Nat.div_add_mod]

theorem ofNat_not_mem_return (n : Nat) : 13 ∉ ofNat n :=
  fun h => absurd (isDigit_of_mem_ofNat h) (by decide)

end Bytes

theorem Label.text_not_mem_return (label : Label) : 13 ∉ label.text := by
  have hcolon : 13 ∉ utf8 ":" := by decide
  simp [Label.text, Bytes.ofNat_not_mem_return, hcolon]

/-! ### Tokens -/

namespace Script

/-- A text that can stand as a bare word: it has no blanks and does not start a comment. -/
structure Word (s : Bytes) : Prop where
  nonempty : s ≠ []
  solid : ∀ b ∈ s, 32 < b
  uncommented : ¬ utf8 "//" <+: s ∧ ¬ utf8 "/*" <+: s

/-- A text that the scanner takes as one raw word under some flags. -/
structure RawWord (flags : ReadFlags) (s : Bytes) : Prop where
  nonempty : s ≠ []
  start : ∀ b ∈ s.head?, 32 < b
  unclosed : flags.stopParen = true → s.head? ≠ some 41
  uncommented : ¬ utf8 "//" <+: s ∧ ¬ utf8 "/*" <+: s
  whole : Scan.rawFrom flags 0 s.tail = .done s.tail.length

/-- A text that can stand in parentheses: it closes none, starts with neither a blank nor a comment
and has no carriage returns. -/
structure Phrase (s : Bytes) : Prop where
  nonempty : s ≠ []
  start : ∀ b ∈ s.head?, 32 < b
  unclosed : 41 ∉ s
  returns : 13 ∉ s
  uncommented : ¬ utf8 "//" <+: s ∧ ¬ utf8 "/*" <+: s

/-- A text that is read in parentheses: a phrase, or the line end that comes instead of one. -/
def Enclosed (s : Bytes) : Prop := Phrase s ∨ s = [10]

/-- The check by which a given word is found to be an identifier. -/
theorem Identifier.of_all {s : Bytes}
    (h : (s.all isIdentifierByte && s.head?.any (!Bytes.isDigit ·)) = true) : Identifier s := by
  simp only [Bool.and_eq_true, List.all_eq_true, Option.any_eq_true, Bool.not_eq_true'] at h
  obtain ⟨hbytes, b, hb, hdigit⟩ := h
  refine ⟨?_, hbytes, ?_⟩
  · rintro rfl
    cases hb
  · intro a ha
    cases hb.symm.trans ha
    exact hdigit

theorem Word.not_mem_return {s : Bytes} (hs : Word s) : 13 ∉ s :=
  fun h => absurd (hs.solid 13 h) (by decide)

theorem Identifier.not_mem_return {s : Bytes} (hs : Identifier s) : 13 ∉ s :=
  fun h => absurd (hs.bytes 13 h) (by decide)

end Script

theorem isIdentifierByte_solid {b : UInt8} (h : isIdentifierByte b = true) :
    32 < b ∧ b ≠ 47 ∧ b ≠ 10 := by
  simp only [isIdentifierByte, Bytes.isDigit, Bytes.isLower, Bytes.isUpper] at h
  grind

namespace Scan

variable {flags : ReadFlags} {b : UInt8} {s rest : Bytes}

/-- Nothing is skipped before a byte that is no blank and starts no comment. -/
theorem gapFrom_solid (hb : 32 < b) (hcomment : b = 47 → rest.head? ≠ some 47 ∧
    rest.head? ≠ some 42) (size : Nat) : gapFrom size .plain (b :: rest) = (size, .plain) := by
  have hblank : isBlankByte b = false := by
    simp only [isBlankByte, decide_eq_false_iff_not]
    exact UInt8.not_le.2 hb
  unfold gapFrom
  split <;> simp_all

theorem gapFrom_succ (size : Nat) (gap : Gap) (s : Bytes) :
    gapFrom (size + 1) gap s = ((gapFrom size gap s).1 + 1, (gapFrom size gap s).2) := by
  fun_induction gapFrom size gap s <;> simp_all [gapFrom]

/-- Digits are read as far as they go, before a point, after it and in an exponent. -/
theorem numberFrom_digits {e : Bool} {step : NumberStep}
    (hstep : step = .whole ∨ step = .fraction ∨ step = .exponent)
    (hs : ∀ b ∈ s, Bytes.isDigit b = true) (size : Nat) :
    numberFrom e step size (s ++ rest) = numberFrom e step (size + s.length) rest := by
  induction s generalizing size with
  | nil => rfl
  | cons b s ih =>
    have hb := hs b List.mem_cons_self
    have hround : numberFrom e step size (b :: (s ++ rest)) =
        numberFrom e step (size + 1) (s ++ rest) := by
      rw [numberFrom.eq_def]
      rcases hstep with rfl | rfl | rfl <;> simp [hb]
    rw [List.cons_append, hround, ih fun b hb => hs b (List.mem_cons_of_mem _ hb)]
    simp [Nat.add_assoc, Nat.add_comm 1]

theorem rawFrom_solid (hstops : ∀ a ∈ s, rawStops flags a = false)
    (hspace : flags.ignoreSpace = true ∨ ∀ a ∈ s, 32 < a)
    (hescapes : flags.ignoreEscapes = true ∨ 92 ∉ s)
    (hquotes : flags.ignoreQuotes = true ∨ 34 ∉ s) (size : Nat) :
    rawFrom flags size s = .done (size + s.length) := by
  induction s generalizing size with
  | nil => rfl
  | cons a s ih =>
    have hblank : (isBlankByte a && !flags.ignoreSpace) = false := by
      rcases hspace with h | h
      · simp [h]
      · simp [isBlankByte, UInt8.not_le.2 (h a List.mem_cons_self)]
    have h92 : (decide (a = 92) && !flags.ignoreEscapes) = false := by
      rcases hescapes with h | h
      · simp [h]
      · simp [(List.ne_of_not_mem_cons h).symm]
    have h34 : (decide (a = 34) && !flags.stopParen && !flags.ignoreQuotes) = false := by
      rcases hquotes with h | h
      · simp [h]
      · simp [(List.ne_of_not_mem_cons h).symm]
    rw [rawFrom.eq_def]
    simp only [hstops a List.mem_cons_self, h92, h34, hblank, Bool.false_eq_true, if_false]
    rw [ih (fun b hb => hstops b (List.mem_cons_of_mem _ hb))
      (hspace.imp_right fun h b hb => h b (List.mem_cons_of_mem _ hb))
      (hescapes.imp_right List.not_mem_of_not_mem_cons)
      (hquotes.imp_right List.not_mem_of_not_mem_cons), List.length_cons]
    congr 1
    omega

/-- A raw word is read up to a byte at which it has to stop. -/
theorem rawFrom_append {size : Nat} (h : rawFrom flags size s = .done (size + s.length))
    (hb : rawStops flags b = true ∨ flags.ignoreSpace = false ∧ b ≤ 32) :
    rawFrom flags size (s ++ b :: rest) = .done (size + s.length) := by
  have hend (size : Nat) : rawFrom flags size (b :: rest) = .done size := by
    rw [rawFrom.eq_def]
    rcases hb with hstop | ⟨hspace, hb⟩
    · simp [hstop]
    · have hblank : isBlankByte b = true := by simpa [isBlankByte] using hb
      have h92 : b ≠ 92 := by rintro rfl; exact absurd hb (by decide)
      have h34 : b ≠ 34 := by rintro rfl; exact absurd hb (by decide)
      simp [h92, h34, hblank, hspace]
  fun_induction rawFrom flags size s
  case case1 size => exact hend size
  case case2 | case6 => simp at h
  case case3 => cases h
  case case4 hstop hescape c more ih =>
    rw [List.cons_append, List.cons_append, rawFrom.eq_def]
    simp only [hstop, hescape, Bool.false_eq_true, if_false, if_true]
    have hmore := ih (by rw [h]; simp only [List.length_cons]; congr 1; omega)
    rw [hmore]
    simp only [List.length_cons]
    congr 1
    omega
  case case5 a rest' hstop hescape hquote =>
    obtain rfl : rest' = [] := by simpa using h
    rw [List.cons_append, List.nil_append, rawFrom.eq_def]
    simp only [hstop, hescape, hquote, Bool.false_eq_true, if_false, if_true]
    rfl
  case case7 a rest' hstop hescape hquote hblank ih =>
    rw [List.cons_append, rawFrom.eq_def]
    simp only [hstop, hescape, hquote, hblank, Bool.false_eq_true, if_false]
    have hmore := ih (by rw [h]; simp only [List.length_cons]; congr 1; omega)
    rw [hmore]
    simp only [List.length_cons]
    congr 1
    omega

/-- What a scan of a raw word takes, it takes whatever comes after it. -/
theorem rawFrom_done {size n : Nat} (h : rawFrom flags size s = .done n) :
    ∃ word rest, s = word ++ rest ∧ n = size + word.length ∧
      ∀ size, rawFrom flags size word = .done (size + word.length) := by
  fun_induction rawFrom flags size s
  case case1 =>
    cases h
    exact ⟨[], [], rfl, rfl, fun _ => rfl⟩
  case case2 | case6 =>
    cases h
    exact ⟨[], _, rfl, rfl, fun _ => rfl⟩
  case case3 => cases h
  case case4 a hstop hescape c more ih =>
    obtain ⟨word, rest, rfl, rfl, hword⟩ := ih h
    refine ⟨a :: c :: word, rest, rfl, by simp only [List.length_cons]; omega, fun size => ?_⟩
    rw [rawFrom.eq_def]
    simp only [hstop, hescape, Bool.false_eq_true, if_false, if_true, hword, List.length_cons]
    congr 1
    omega
  case case5 a rest hstop hescape hquote =>
    cases h
    refine ⟨[a], rest, rfl, rfl, fun size => ?_⟩
    rw [rawFrom.eq_def]
    simp only [hstop, hescape, hquote, Bool.false_eq_true, if_false, if_true]
    rfl
  case case7 a rest' hstop hescape hquote hblank ih =>
    obtain ⟨word, rest, rfl, rfl, hword⟩ := ih h
    refine ⟨a :: word, rest, rfl, by simp only [List.length_cons]; omega, fun size => ?_⟩
    rw [rawFrom.eq_def]
    simp only [hstop, hescape, hquote, hblank, Bool.false_eq_true, if_false, hword,
      List.length_cons]
    congr 1
    omega

/-- What is read as a whole with its escapes as they are stops nowhere. -/
theorem rawFrom_whole {size : Nat} (hescapes : flags.ignoreEscapes = true)
    (h : rawFrom flags size s = .done (size + s.length)) :
    ∀ b ∈ s, rawStops flags b = false ∧ (flags.ignoreSpace = false → 32 < b) := by
  fun_induction rawFrom flags size s
  case case1 => simp
  case case2 | case6 => simp at h
  case case3 | case4 => simp [hescapes] at *
  case case5 a rest hstop hescape hquote =>
    obtain rfl : rest = [] := by simpa using h
    simp only [Bool.and_eq_true, decide_eq_true_eq] at hquote
    obtain rfl := hquote.1.1
    exact List.forall_mem_singleton.2 ⟨Bool.eq_false_of_not_eq_true hstop, fun _ => by decide⟩
  case case7 a rest hstop hescape hquote hblank ih =>
    refine List.forall_mem_cons.2 ⟨⟨Bool.eq_false_of_not_eq_true hstop, fun hspace => ?_⟩,
      ih (by rw [h]; simp only [List.length_cons]; congr 1; omega)⟩
    simpa [isBlankByte, hspace] using hblank

/-- How a bare word is read, up to a comma if it has to stop there. -/
def bareFlags (stopComma : Bool) : ReadFlags :=
  { ignoreQuotes := true, ignoreEscapes := true, stopComma := stopComma }

/-- How the text of a camera setting is read: everything up to the closing parenthesis. -/
def phraseFlags : ReadFlags :=
  { ignoreEscapes := true, ignoreQuotes := true, ignoreSpace := true, stopParen := true }

end Scan

namespace Script

variable {flags : ReadFlags} {s : Bytes}

/-- A word without escapes or quotes, or one in which they mean nothing, is a raw word. -/
theorem Word.raw (hs : Word s) (hstops : ∀ a ∈ s.tail, Scan.rawStops flags a = false)
    (hparen : flags.stopParen = false) (hescapes : flags.ignoreEscapes = true ∨ 92 ∉ s)
    (hquotes : flags.ignoreQuotes = true ∨ 34 ∉ s) : RawWord flags s where
  nonempty := hs.nonempty
  start b hb := hs.solid b (List.mem_of_mem_head? hb)
  unclosed h := by simp [hparen] at h
  uncommented := hs.uncommented
  whole := by
    have hwhole := Scan.rawFrom_solid hstops (.inr fun b hb => hs.solid b (List.mem_of_mem_tail hb))
      (hescapes.imp_right fun h hmem => h (List.mem_of_mem_tail hmem))
      (hquotes.imp_right fun h hmem => h (List.mem_of_mem_tail hmem)) 0
    rwa [Nat.zero_add] at hwhole

theorem RawWord.word (hs : RawWord flags s) (hescapes : flags.ignoreEscapes = true)
    (hspace : flags.ignoreSpace = false) : Word s where
  nonempty := hs.nonempty
  solid := by
    obtain ⟨a, s, rfl⟩ := List.exists_cons_of_ne_nil hs.nonempty
    have hwhole := Scan.rawFrom_whole hescapes (hs.whole.trans (by rw [Nat.zero_add]))
    exact List.forall_mem_cons.2 ⟨hs.start a rfl, fun b hb => (hwhole b hb).2 hspace⟩
  uncommented := hs.uncommented

theorem RawWord.phrase (hs : RawWord Scan.phraseFlags s) (hreturns : 13 ∉ s) : Phrase s where
  nonempty := hs.nonempty
  start := hs.start
  unclosed hmem := by
    obtain ⟨a, s, rfl⟩ := List.exists_cons_of_ne_nil hs.nonempty
    have hwhole := Scan.rawFrom_whole rfl (hs.whole.trans (by rw [Nat.zero_add]))
    rcases List.mem_cons.1 hmem with rfl | hmem
    · exact hs.unclosed rfl rfl
    · exact absurd (hwhole 41 hmem).1 (by decide)
  returns := hreturns
  uncommented := hs.uncommented

theorem Word.bare (hs : Word s) : RawWord (Scan.bareFlags false) s :=
  hs.raw (by simp [Scan.rawStops, Scan.bareFlags]) rfl (.inl rfl) (.inl rfl)

theorem Phrase.raw (hs : Phrase s) : RawWord Scan.phraseFlags s where
  nonempty := hs.nonempty
  start := hs.start
  unclosed _ h := hs.unclosed (List.mem_of_mem_head? h)
  uncommented := hs.uncommented
  whole := by
    have hunclosed : ∀ b ∈ s.tail, Scan.rawStops Scan.phraseFlags b = false := by
      intro b hb
      have hne : b ≠ 41 := by
        rintro rfl
        exact hs.unclosed (List.mem_of_mem_tail hb)
      simp [Scan.rawStops, Scan.phraseFlags, hne]
    have hwhole := Scan.rawFrom_solid hunclosed (.inl rfl) (.inl rfl) (.inl rfl) 0
    rwa [Nat.zero_add] at hwhole

end Script

namespace Lexer

variable {mode : ReadMode} {flags : ReadFlags} {b : UInt8} {s rest : Bytes}

@[simp]
theorem first?_blank : first? mode flags (32 :: s) = first? mode flags s := by
  have hgap : Scan.gap (32 :: s) = ((Scan.gap s).1 + 1, (Scan.gap s).2) :=
    Scan.gapFrom_succ 0 .plain s
  simp [first?, hgap]

theorem first?_solid (hb : 32 < b)
    (hcomment : b = 47 → rest.head? ≠ some 47 ∧ rest.head? ≠ some 42) :
    first? mode flags (b :: rest) = firstHere? mode flags (b :: rest) := by
  have hgap : Scan.gap (b :: rest) = (0, .plain) := Scan.gapFrom_solid hb hcomment 0
  simp [first?, hgap]

/-- A scan that ends where a word does cuts the word off. -/
theorem cut?_append (type : TokenType) (s rest : Bytes) :
    cut? type (s ++ rest) (.done s.length) = some ((type, s), rest) := by
  rw [cut?, List.take_left, List.drop_left]

theorem first?_identifier (hs : Script.Identifier s)
    (hrest : ∀ b ∈ rest.head?, isIdentifierByte b = false) :
    first? .normal flags (s ++ rest) = some ((.identifier, s), rest) := by
  obtain ⟨a, s, rfl⟩ := List.exists_cons_of_ne_nil hs.nonempty
  have ha := hs.bytes a List.mem_cons_self
  have hdigit := hs.start a rfl
  have hsolid : 32 < a ∧ a ≠ 47 ∧ a ≠ 10 := isIdentifierByte_solid ha
  have hsize : Scan.identifier (a :: s ++ rest) = (a :: s).length := by
    have hnil : rest.takeWhile isIdentifierByte = [] := by
      cases rest with
      | nil => rfl
      | cons b rest => simp [hrest b rfl]
    rw [Scan.identifier, List.takeWhile_append_of_pos hs.bytes, hnil, List.append_nil]
  rw [List.cons_append, first?_solid hsolid.1 fun h => absurd h hsolid.2.1, ← List.cons_append]
  have hcut := cut?_append .identifier (a :: s) rest
  rw [← hsize] at hcut
  simpa [firstHere?, hsolid.2.2, hdigit, ha] using hcut

/-- A number is the first token of a text that starts with a digit. -/
theorem firstToken?_number {e : Bool} (hne : s ≠ []) (hs : ∀ b ∈ s.head?, Bytes.isDigit b = true)
    (hscan : Scan.number e (s ++ rest) = .done s.length) :
    firstToken? e .normal flags (s ++ rest) = some ((.number, s), rest) := by
  obtain ⟨a, s, rfl⟩ := List.exists_cons_of_ne_nil hne
  have ha := hs a rfl
  have hsolid : 32 < a ∧ a ≠ 47 ∧ a ≠ 10 := isIdentifierByte_solid (by simp [isIdentifierByte, ha])
  have hgap : Scan.gap (a :: s ++ rest) = (0, .plain) :=
    Scan.gapFrom_solid hsolid.1 (fun h => absurd h hsolid.2.1) 0
  have hcut := cut?_append .number (a :: s) rest
  rw [← hscan, List.cons_append] at hcut
  rw [firstToken?, hgap]
  simpa [firstTokenHere?, hsolid.2.2, ha] using hcut

theorem first?_number (hne : s ≠ []) (hs : ∀ b ∈ s, Bytes.isDigit b = true)
    (hrest : ∀ size, Scan.numberFrom true .whole size rest = .done size) :
    first? .normal flags (s ++ rest) = some ((.number, s), rest) := by
  rw [first?_eq]
  refine firstToken?_number hne (fun b hb => hs b (List.mem_of_mem_head? hb)) ?_
  rw [Scan.number, Scan.numberFrom_digits (Or.inl rfl) hs, hrest, Nat.zero_add]

/-- No comment starts where a word does, if the byte after the word starts none either. -/
theorem uncommented_append {a : UInt8}
    (hs : ¬ utf8 "//" <+: a :: s ∧ ¬ utf8 "/*" <+: a :: s) (hb : b ≠ 47 ∧ b ≠ 42) :
    a = 47 → (s ++ b :: rest).head? ≠ some 47 ∧ (s ++ b :: rest).head? ≠ some 42 := by
  rintro rfl
  cases s with
  | nil => simp [hb]
  | cons second s =>
    constructor
    · rintro ⟨⟩
      exact hs.1 ⟨s, rfl⟩
    · rintro ⟨⟩
      exact hs.2 ⟨s, rfl⟩

/-- A raw word is the first token of a text that starts with it. -/
theorem first?_raw (hs : Script.RawWord flags s)
    (hb : Scan.rawStops flags b = true ∨ flags.ignoreSpace = false ∧ b ≤ 32) :
    first? .raw flags (s ++ b :: rest) = some ((.raw, s), b :: rest) := by
  obtain ⟨a, s, rfl⟩ := List.exists_cons_of_ne_nil hs.nonempty
  have ha := hs.start a rfl
  have hscan : Scan.raw flags (a :: s ++ b :: rest) = .done (a :: s).length := by
    have hword : (decide (a = 41) && flags.stopParen) = false := by
      cases h : flags.stopParen with
      | false => simp
      | true => simpa using hs.unclosed h
    have hwhole : Scan.rawFrom flags 1 s = .done (1 + s.length) := by
      obtain ⟨word, more, hs', hlength, hscan⟩ := Scan.rawFrom_done hs.whole
      obtain rfl : more = [] := by
        have hlengths := congrArg List.length hs'
        simp only [List.tail_cons, List.length_append] at hlengths hlength
        exact List.eq_nil_of_length_eq_zero (by omega)
      rw [List.append_nil] at hs'
      rw [show s = word from hs']
      exact hscan 1
    rw [List.cons_append, Scan.raw]
    simp only [hword, Bool.false_eq_true, if_false]
    rw [Scan.rawFrom_append hwhole hb, List.length_cons, Nat.add_comm]
  have hb47 : b ≠ 47 ∧ b ≠ 42 := by
    constructor
    · rintro rfl
      simp [Scan.rawStops] at hb
    · rintro rfl
      simp [Scan.rawStops] at hb
  have h10 : a ≠ 10 := by rintro rfl; exact absurd ha (by decide)
  rw [List.cons_append, first?_solid ha (uncommented_append hs.uncommented hb47), ← List.cons_append]
  have hcut := cut?_append .raw (a :: s) (b :: rest)
  rw [← hscan] at hcut
  simpa [firstHere?, h10] using hcut

theorem first?_word (hs : Script.Word s) (hstops : ∀ a ∈ s, Scan.rawStops flags a = false)
    (hparen : flags.stopParen = false) (hspace : flags.ignoreSpace = false)
    (hescapes : flags.ignoreEscapes = true ∨ 92 ∉ s) (hquotes : flags.ignoreQuotes = true ∨ 34 ∉ s)
    (hb : Scan.rawStops flags b = true ∨ b ≤ 32) :
    first? .raw flags (s ++ b :: rest) = some ((.raw, s), b :: rest) :=
  first?_raw (hs.raw (fun a ha => hstops a (List.mem_of_mem_tail ha)) hparen hescapes hquotes)
    (hb.imp_right fun h => ⟨hspace, h⟩)

theorem first?_phrase (hs : Script.Phrase s) :
    first? .raw Scan.phraseFlags (s ++ 41 :: rest) = some ((.raw, s), 41 :: rest) :=
  first?_raw hs.raw (.inl rfl)

end Lexer

/-! ### Readers -/

namespace Compiler

open Lexer

variable {c : CompileContext} {p : Spot} {b : UInt8} {s rest : Bytes}

/-- A warning under a condition changes nothing that is read after it. -/
theorem reads_warned {α : Type} {q : Spot} {P : α → Prop} {A : Prop} {_ : Decidable A}
    {loc : Location} {w : Warning} {f : Unit → Compiler α} (h : Reads (f ()) c p q P) :
    Reads (if A then warn loc w >>= f else f ()) c p q P := by
  split
  · exact .bind .warn fun _ _ => h
  · exact h

/-- A word up to a blank, or up to a comma if it has to stop there. -/
theorem reads_parseWord {stopComma : Bool} (hs : Script.RawWord (Scan.bareFlags stopComma) s)
    (hb : stopComma = true ∧ b = 44 ∨ b ≤ 32) :
    Reads (parseWord stopComma) c ⟨[], 32 :: (s ++ b :: rest)⟩ ⟨[], b :: rest⟩ (· = s) := by
  have hfirst : first? .raw (Scan.bareFlags stopComma) (32 :: (s ++ b :: rest)) =
      some ((.raw, s), b :: rest) := by
    rw [first?_blank]
    refine first?_raw hs (hb.imp ?_ fun h => ⟨rfl, h⟩)
    rintro ⟨rfl, rfl⟩
    rfl
  refine .bind (.lift (succeeds_read hfirst)) fun token ht => ?_
  obtain ⟨type, text, loc⟩ := token
  cases ht
  simp only [TokenType.endsLine, reduceCtorEq, decide_false, Bool.or_self, Bool.false_eq_true,
    if_false]
  refine reads_warned ?_
  refine reads_warned ?_
  exact .pure rfl

/-! ### Labels -/

/-- A digit that does not make a label's half too large is put behind the digits before it. -/
theorem labelHalf_digit {limit m d : Nat} (hd : d < 10) (hm : 10 * m + d < limit) :
    labelHalf limit m (UInt8.ofNat (48 + d) :: rest) = labelHalf limit (10 * m + d) rest := by
  rw [labelHalf]
  simp only [Bytes.isDigit_digit hd, Bytes.value_digit hd, Bool.not_true, Bool.false_eq_true,
    if_false, if_neg (not_le.2 hm)]

theorem labelHalf_ofNat {limit n : Nat} (hn : n < limit) :
    labelHalf limit 0 (Bytes.ofNat n) = .ok n := by
  have hread := Bytes.read_ofNat (labelHalf limit) (n := n)
    (fun m d rest hd hle => labelHalf_digit hd (by omega)) []
  rw [List.append_nil] at hread
  rw [hread, labelHalf]

theorem labelOfHalves {label : Label} (hlabel : label.isInline = false) :
    label.toNat / Label.lowLimit < Label.highLimit ∧
      Label.ofHalves (label.toNat / Label.lowLimit) (label.toNat % Label.lowLimit) = .ok label := by
  have hlt : label.toNat < Label.inlineBase := by simpa [Label.isInline] using hlabel
  have hhigh : label.toNat / Label.lowLimit < Label.highLimit :=
    Nat.div_lt_of_lt_mul (by simpa [Label.lowLimit, Label.highLimit, Label.inlineBase] using hlt)
  have hlow : label.toNat % Label.lowLimit < Label.lowLimit := Nat.mod_lt _ (by decide)
  refine ⟨hhigh, ?_⟩
  rw [Label.ofHalves, if_neg (by omega), Nat.div_add_mod', UInt32.ofNat_toNat]

theorem readsFrom_labelOfTokens {I : Lexer → Prop} {label : Label}
    (hlabel : label.isInline = false) {high low : Token}
    (hhigh : high.text = Bytes.ofNat (label.toNat / Label.lowLimit))
    (hlow : low.text = Bytes.ofNat (label.toNat % Label.lowLimit)) :
    ReadsFrom (labelOfTokens high low) c I I (· = label) := by
  obtain ⟨hbound, hhalves⟩ := labelOfHalves hlabel
  rw [labelOfTokens, hhigh, hlow, labelHalf_ofNat hbound,
    labelHalf_ofNat (Nat.mod_lt _ (by decide))]
  refine .bind (.pure rfl) ?_
  rintro _ rfl
  refine .bind (.pure rfl) ?_
  rintro _ rfl
  rw [hhalves]
  exact .pure rfl

/-- The number that starts a label. -/
theorem first?_label {flags : ReadFlags} (label : Label) :
    first? .normal flags (32 :: (label.text ++ 10 :: rest)) =
      some ((.number, Bytes.ofNat (label.toNat / Label.lowLimit)),
        58 :: (Bytes.ofNat (label.toNat % Label.lowLimit) ++ 10 :: rest)) := by
  have htext : label.text ++ 10 :: rest = Bytes.ofNat (label.toNat / Label.lowLimit) ++
      58 :: (Bytes.ofNat (label.toNat % Label.lowLimit) ++ 10 :: rest) := by
    simp [Label.text, show utf8 ":" = [58] from rfl]
  rw [first?_blank, htext]
  exact first?_number (Bytes.ofNat_ne_nil _) (fun _ => Bytes.isDigit_of_mem_ofNat) fun _ => rfl

/-- The number that ends a label. -/
theorem succeeds_lowHalf (label : Label) :
    Succeeds next (At ⟨[], Bytes.ofNat (label.toNat % Label.lowLimit) ++ 10 :: rest⟩)
      (At ⟨[], 10 :: rest⟩) (·.lexeme = (.number, Bytes.ofNat (label.toNat % Label.lowLimit))) :=
  succeeds_read (first?_number (Bytes.ofNat_ne_nil _) (fun _ => Bytes.isDigit_of_mem_ofNat)
    fun _ => rfl)

/-- A label, from a spot before its first half, with a line end after it. -/
theorem reads_parseLabel {label : Label} (hlabel : label.isInline = false)
    (hhigh : Succeeds next (At p)
      (At ⟨[], 58 :: (Bytes.ofNat (label.toNat % Label.lowLimit) ++ 10 :: rest)⟩)
      (·.lexeme = (.number, Bytes.ofNat (label.toNat / Label.lowLimit)))) :
    Reads parseLabel c p ⟨[], 10 :: rest⟩ (· = label) := by
  refine .bind (.lift (succeeds_expect hhigh)) fun high hhigh => ?_
  refine .bind (.lift (succeeds_expect (succeeds_read rfl))) fun _ _ => ?_
  refine .bind (.lift (succeeds_expect (succeeds_lowHalf label))) fun low hlow => ?_
  exact readsFrom_labelOfTokens hlabel (congrArg Prod.snd hhigh) (congrArg Prod.snd hlow)

/-! ### Colours -/

theorem hexValue?_hexDigit {n : Nat} (hn : n < 16) : hexValue? (Bytes.hexDigit n) = some n := by
  interval_cases n <;> rfl

theorem solid_hexDigit {n : Nat} (hn : n < 16) :
    32 < Bytes.hexDigit n ∧ Bytes.hexDigit n ∉ utf8 "/\"\\=" := by
  interval_cases n <;> decide

theorem hex_two (n : Nat) :
    Bytes.hex 2 n = [Bytes.hexDigit (n / 16 % 16), Bytes.hexDigit (n % 16)] := rfl

theorem colorOfDigits?_hex {n m : Nat} (hn : n < 256) {s : Bytes}
    (hs : colorOfDigits? s = some m) :
    colorOfDigits? (Bytes.hex 2 n ++ s) = some (n + 256 * m) := by
  have hvalue : 16 * (n / 16 % 16) + n % 16 = n := by omega
  simp [hex_two, colorOfDigits?, hs, hexValue?_hexDigit (Nat.mod_lt _ (by decide : 0 < 16)), hvalue]

theorem colorOfDigits?_colorText (v : UInt32) : colorOfDigits? (colorText v) = some v.toNat := by
  have hv : v.toNat < 4294967296 := v.toNat_lt
  have hread := colorOfDigits?_hex (Nat.mod_lt v.toNat (by decide : 0 < 256))
    (colorOfDigits?_hex (Nat.mod_lt (v.toNat / 256) (by decide : 0 < 256))
      (colorOfDigits?_hex (Nat.mod_lt (v.toNat / 65536) (by decide : 0 < 256))
        (colorOfDigits?_hex (n := v.toNat / 16777216) (s := []) (m := 0) (by omega) rfl)))
  simp only [colorText, List.append_assoc]
  rw [List.append_nil] at hread
  rw [hread]
  congr 1
  omega

theorem mem_colorText {v : UInt32} (h : b ∈ colorText v) :
    32 < b ∧ b ∉ utf8 "/\"\\=" := by
  simp only [colorText, hex_two, List.mem_append, List.mem_cons, List.not_mem_nil, or_false] at h
  rcases h with ((h | h) | h) | h <;> rcases h with rfl | rfl <;>
    exact solid_hexDigit (Nat.mod_lt _ (by decide))

theorem word_colorText (v : UInt32) : Script.Word (colorText v) where
  nonempty := by simp [colorText, hex_two]
  solid _ h := (mem_colorText h).1
  uncommented := by
    have hslash : 47 ∉ colorText v := fun h => (mem_colorText h).2 (by decide)
    refine ⟨fun h => ?_, fun h => ?_⟩
    · exact absurd (h.subset (by decide : 47 ∈ utf8 "//")) hslash
    · exact absurd (h.subset (by decide : 47 ∈ utf8 "/*")) hslash

theorem reads_parseColor {v : UInt32} (hb : b ≤ 32) :
    Reads parseColor c ⟨[], 61 :: (colorText v ++ b :: rest)⟩ ⟨[], b :: rest⟩ (· = v) := by
  have hassign : first? .normal {} (61 :: (colorText v ++ b :: rest)) =
      some ((.assign, [61]), colorText v ++ b :: rest) := by
    have hsecond : (colorText v ++ b :: rest).head? ≠ some 61 := by
      intro h
      rw [List.head?_append_of_ne_nil _ (word_colorText v).nonempty] at h
      exact (mem_colorText (List.mem_of_head? h)).2 (by decide)
    have hscan : Scan.symbol 61 (colorText v ++ b :: rest) = (.assign, .done 1) :=
      if_neg hsecond
    have hhere : first? .normal {} (61 :: (colorText v ++ b :: rest)) =
        cut? (Scan.symbol 61 (colorText v ++ b :: rest)).1 (61 :: (colorText v ++ b :: rest))
          (Scan.symbol 61 (colorText v ++ b :: rest)).2 := rfl
    rw [hhere, hscan]
    rfl
  have hword : first? .raw {} (colorText v ++ b :: rest) =
      some ((.raw, colorText v), b :: rest) :=
    first?_word (word_colorText v) (by simp [Scan.rawStops]) rfl rfl
      (.inr fun h => (mem_colorText h).2 (by decide))
      (.inr fun h => (mem_colorText h).2 (by decide))
      (.inr hb)
  refine .bind (.lift (succeeds_expect (succeeds_read hassign))) fun _ _ => ?_
  refine .bind (.lift (succeeds_read hword)) fun token ht => ?_
  have htext : token.text = colorText v := congrArg Prod.snd ht
  have hlength : (colorText v).length = 8 := rfl
  rw [htext, hlength, if_pos rfl, colorOfDigits?_colorText]
  exact .pure UInt32.ofNat_toNat

/-! ### Camera settings -/

theorem camNumber_digit {m d : Nat} (hd : d < 10) (hm : 10 * m + d ≤ 0xffff) :
    camNumber m (UInt8.ofNat (48 + d) :: rest) = camNumber (10 * m + d) rest := by
  rw [camNumber]
  simp only [Bytes.isDigit_digit hd, Bytes.value_digit hd, Bool.not_true, Bool.false_eq_true, if_false, if_neg (not_lt.2 hm)]

theorem camNumber_ofNat {n : Nat} (hn : n ≤ 0xffff) : camNumber 0 (Bytes.ofNat n) = .ok n := by
  have hread := Bytes.read_ofNat camNumber (n := n)
    (fun m d rest hd hle => camNumber_digit hd (by omega)) []
  rw [List.append_nil] at hread
  rw [hread, camNumber]

/-- A setting's number in parentheses. -/
theorem reads_parseCamNumber {n : UInt16} (hn : n ≠ CamParams.unset) :
    Reads parseCamNumber c ⟨[], 40 :: (Bytes.ofNat n.toNat ++ 41 :: rest)⟩ ⟨[], rest⟩ (· = n) := by
  have hnumber : first? .normal {} (Bytes.ofNat n.toNat ++ 41 :: rest) =
      some ((.number, Bytes.ofNat n.toNat), 41 :: rest) :=
    first?_number (Bytes.ofNat_ne_nil _) (fun _ => Bytes.isDigit_of_mem_ofNat) fun _ => rfl
  refine .bind (.lift (succeeds_expect (succeeds_read rfl))) fun _ _ => ?_
  refine .bind (.lift (succeeds_expect (succeeds_read hnumber))) fun token ht => ?_
  refine .bind (.lift (succeeds_expect (succeeds_read rfl))) fun _ _ => ?_
  have htext : token.text = Bytes.ofNat n.toNat := congrArg Prod.snd ht
  rw [htext]
  refine .bind (.located (camNumber_ofNat (Nat.le_of_lt_succ n.toNat_lt))) ?_
  rintro _ rfl
  rw [UInt16.ofNat_toNat, if_neg hn]
  exact .pure rfl

theorem reads_parseCamText (hs : Script.Enclosed s) :
    Reads parseCamText c ⟨[], 40 :: (s ++ 41 :: rest)⟩ ⟨[], rest⟩ (· = s) := by
  obtain ⟨type, htype, hfirst, hne⟩ : ∃ type ≠ TokenType.string,
      first? .raw Scan.phraseFlags (s ++ 41 :: rest) = some ((type, s), 41 :: rest) ∧ s ≠ [] := by
    rcases hs with hs | rfl
    · exact ⟨.raw, by decide, first?_phrase hs, hs.nonempty⟩
    · exact ⟨.endOfLine, by decide, rfl, by decide⟩
  refine .bind (.lift (succeeds_expect (succeeds_read rfl))) fun _ _ => ?_
  refine .bind (.lift (succeeds_read hfirst)) fun token ht => ?_
  obtain ⟨type, text, loc⟩ := token
  cases ht
  simp only [htype, if_false]
  refine .bind (.pure rfl) ?_
  rintro _ rfl
  have hempty : text.isEmpty = false := List.isEmpty_eq_false_iff.2 hne
  simp only [hempty, Bool.false_eq_true, if_false]
  exact .bind (.lift (succeeds_expect (succeeds_read rfl))) fun _ _ => .pure rfl

end Compiler

end ApeScript
