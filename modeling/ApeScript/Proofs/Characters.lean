import ApeScript.Charset.Basic
import Mathlib.Data.List.TakeWhile

/-!
# Characters and code pages

A text that is put together from the characters of a code page is cut into the same characters
again, so stored bytes are got back from the text that they show, as long as the page defines them.
The pieces of any text make up the text, so a text that can be stored is shown as it was. A byte
below 128 is always a character of its own, whatever stands around it.
-/

namespace ApeScript

namespace Text

/-- The code points that have a well-formed UTF-8 form. -/
def Scalar (c : Nat) : Prop := c < 0x110000 ∧ ¬ (0xd800 ≤ c ∧ c < 0xe000)

instance (c : Nat) : Decidable (Scalar c) := inferInstanceAs (Decidable (_ ∧ _))

variable {a : UInt8} {rest : Bytes} {c : Nat}

theorem toNat_ofNat {n : Nat} (h : n < 256) : (UInt8.ofNat n).toNat = n := by
  simpa using h

theorem continuation?_ofNat {lo hi : UInt8} {n : Nat} (hn : n < 256) (hlo : lo.toNat ≤ n)
    (hhi : n ≤ hi.toNat) (rest : Bytes) :
    continuation? lo hi (UInt8.ofNat n :: rest) = some (n - 0x80) := by
  simp [continuation?, UInt8.le_iff_toNat_le, Nat.mod_eq_of_lt hn, hlo, hhi]

theorem firstPiece_one (h : a < 0x80) (rest : Bytes) : firstPiece a rest = .char a.toNat := by
  simp [firstPiece, h]

theorem firstPiece_two {x : Nat} (hlo : 0xc2 ≤ a.toNat) (hhi : a.toNat ≤ 0xdf)
    (hx : continuation? 0x80 0xbf rest = some x) :
    firstPiece a rest = .char ((a.toNat - 0xc0) * 64 + x) := by
  have h1 : ¬ a < 0x80 := by rw [UInt8.lt_iff_toNat_lt]; simp; omega
  have h2 : 0xc2 ≤ a ∧ a ≤ 0xdf := by simp only [UInt8.le_iff_toNat_le]; simpa using ⟨hlo, hhi⟩
  simp [firstPiece, h1, h2, hx]

theorem firstPiece_three {x y : Nat} (hlo : 0xe0 ≤ a.toNat) (hhi : a.toNat ≤ 0xef)
    (hx : continuation? (if a = 0xe0 then 0xa0 else 0x80) (if a = 0xed then 0x9f else 0xbf) rest =
      some x) (hy : continuation? 0x80 0xbf (rest.drop 1) = some y) :
    firstPiece a rest = .char ((a.toNat - 0xe0) * 4096 + x * 64 + y) := by
  have h1 : ¬ a < 0x80 := by rw [UInt8.lt_iff_toNat_lt]; simp; omega
  have h2 : ¬ (0xc2 ≤ a ∧ a ≤ 0xdf) := by simp only [UInt8.le_iff_toNat_le]; simp; omega
  have h3 : 0xe0 ≤ a ∧ a ≤ 0xef := by simp only [UInt8.le_iff_toNat_le]; simpa using ⟨hlo, hhi⟩
  simp [firstPiece, h1, h2, h3, hx, hy, -List.drop_one]

theorem firstPiece_four {x y z : Nat} (hlo : 0xf0 ≤ a.toNat) (hhi : a.toNat ≤ 0xf4)
    (hx : continuation? (if a = 0xf0 then 0x90 else 0x80) (if a = 0xf4 then 0x8f else 0xbf) rest =
      some x) (hy : continuation? 0x80 0xbf (rest.drop 1) = some y)
    (hz : continuation? 0x80 0xbf (rest.drop 2) = some z) :
    firstPiece a rest = .char ((a.toNat - 0xf0) * 262144 + x * 4096 + y * 64 + z) := by
  have h1 : ¬ a < 0x80 := by rw [UInt8.lt_iff_toNat_lt]; simp; omega
  have h2 : ¬ (0xc2 ≤ a ∧ a ≤ 0xdf) := by simp only [UInt8.le_iff_toNat_le]; simp; omega
  have h3 : ¬ (0xe0 ≤ a ∧ a ≤ 0xef) := by simp only [UInt8.le_iff_toNat_le]; simp; omega
  have h4 : 0xf0 ≤ a ∧ a ≤ 0xf4 := by simp only [UInt8.le_iff_toNat_le]; simpa using ⟨hlo, hhi⟩
  simp [firstPiece, h1, h2, h3, h4, hx, hy, hz, -List.drop_one]

/-- A continuation byte in the widest range. -/
theorem continuation?_trail {n : Nat} (hn : n < 64) (rest : Bytes) :
    continuation? 0x80 0xbf (UInt8.ofNat (0x80 + n) :: rest) = some n := by
  have hlo : (0x80 : UInt8).toNat = 0x80 := rfl
  have hhi : (0xbf : UInt8).toNat = 0xbf := rfl
  rw [continuation?_ofNat (by omega) (by omega) (by omega), Nat.add_sub_cancel_left]

/-- A continuation byte whose range is narrower after the first byte `a₀` or `a₁`. -/
theorem continuation?_second (a a₀ a₁ lo hi : UInt8) {n : Nat} (hn : n < 64)
    (hlo : a = a₀ → lo.toNat ≤ 0x80 + n) (hhi : a = a₁ → 0x80 + n ≤ hi.toNat) (rest : Bytes) :
    continuation? (if a = a₀ then lo else 0x80) (if a = a₁ then hi else 0xbf)
      (UInt8.ofNat (0x80 + n) :: rest) = some n := by
  have hleast : (0x80 : UInt8).toNat = 0x80 := rfl
  have hmost : (0xbf : UInt8).toNat = 0xbf := rfl
  rw [continuation?_ofNat (by omega) ?_ ?_, Nat.add_sub_cancel_left]
  · by_cases h : a = a₀
    · rw [if_pos h]
      exact hlo h
    · rw [if_neg h]
      omega
  · by_cases h : a = a₁
    · rw [if_pos h]
      exact hhi h
    · rw [if_neg h]
      omega

theorem firstPiece_encoded_two (hlo : 0x80 ≤ c) (hhi : c < 0x800) (rest : Bytes) :
    firstPiece (UInt8.ofNat (0xc0 + c / 64)) (UInt8.ofNat (0x80 + c % 64) :: rest) = .char c := by
  have ha : (UInt8.ofNat (0xc0 + c / 64)).toNat = 0xc0 + c / 64 := toNat_ofNat (by omega)
  have hx := continuation?_trail (n := c % 64) (by omega) rest
  rw [firstPiece_two (by omega) (by omega) hx, ha]
  congr 1
  omega

theorem firstPiece_encoded_three (h : Scalar c) (hlo : 0x800 ≤ c) (hhi : c < 0x10000)
    (rest : Bytes) :
    firstPiece (UInt8.ofNat (0xe0 + c / 4096))
      (UInt8.ofNat (0x80 + c / 64 % 64) :: UInt8.ofNat (0x80 + c % 64) :: rest) = .char c := by
  obtain ⟨-, hsurrogate⟩ := h
  have ha : (UInt8.ofNat (0xe0 + c / 4096)).toNat = 0xe0 + c / 4096 := toNat_ofNat (by omega)
  have hx := continuation?_second (UInt8.ofNat (0xe0 + c / 4096)) 0xe0 0xed 0xa0 0x9f
    (n := c / 64 % 64) (by omega) (fun h => ?_) (fun h => ?_) (UInt8.ofNat (0x80 + c % 64) :: rest)
  · have hy := continuation?_trail (n := c % 64) (by omega) rest
    rw [firstPiece_three (by omega) (by omega) hx hy, ha]
    congr 1
    omega
  · have hfirst := congrArg UInt8.toNat h
    have : (0xe0 : UInt8).toNat = 0xe0 ∧ (0xa0 : UInt8).toNat = 0xa0 := ⟨rfl, rfl⟩
    omega
  · have hfirst := congrArg UInt8.toNat h
    have : (0xed : UInt8).toNat = 0xed ∧ (0x9f : UInt8).toNat = 0x9f := ⟨rfl, rfl⟩
    omega

theorem firstPiece_encoded_four (h : Scalar c) (hlo : 0x10000 ≤ c) (rest : Bytes) :
    firstPiece (UInt8.ofNat (0xf0 + c / 262144))
      (UInt8.ofNat (0x80 + c / 4096 % 64) :: UInt8.ofNat (0x80 + c / 64 % 64) ::
        UInt8.ofNat (0x80 + c % 64) :: rest) = .char c := by
  obtain ⟨hmax, -⟩ := h
  have ha : (UInt8.ofNat (0xf0 + c / 262144)).toNat = 0xf0 + c / 262144 := toNat_ofNat (by omega)
  have hx := continuation?_second (UInt8.ofNat (0xf0 + c / 262144)) 0xf0 0xf4 0x90 0x8f
    (n := c / 4096 % 64) (by omega) (fun h => ?_) (fun h => ?_)
    (UInt8.ofNat (0x80 + c / 64 % 64) :: UInt8.ofNat (0x80 + c % 64) :: rest)
  · have hy := continuation?_trail (n := c / 64 % 64) (by omega)
      (UInt8.ofNat (0x80 + c % 64) :: rest)
    have hz := continuation?_trail (n := c % 64) (by omega) rest
    rw [firstPiece_four (by omega) (by omega) hx hy hz, ha]
    congr 1
    omega
  · have hfirst := congrArg UInt8.toNat h
    have : (0xf0 : UInt8).toNat = 0xf0 ∧ (0x90 : UInt8).toNat = 0x90 := ⟨rfl, rfl⟩
    omega
  · have hfirst := congrArg UInt8.toNat h
    have : (0xf4 : UInt8).toNat = 0xf4 ∧ (0x8f : UInt8).toNat = 0x8f := ⟨rfl, rfl⟩
    omega

/-- A well-formed character is read back before anything. -/
theorem exists_encodeChar_cons (h : Scalar c) : ∃ a tail, encodeChar c = a :: tail ∧
    tail.length = (Piece.char c).size - 1 ∧ ∀ rest, firstPiece a (tail ++ rest) = .char c := by
  unfold encodeChar
  by_cases h1 : c < 0x80
  · rw [if_pos h1]
    refine ⟨_, _, rfl, by simp [Piece.size, h1], fun rest => ?_⟩
    have hc : (UInt8.ofNat c).toNat = c := toNat_ofNat (by omega)
    rw [firstPiece_one (by rw [UInt8.lt_iff_toNat_lt, hc]; simpa using h1), hc]
  · rw [if_neg h1]
    by_cases h2 : c < 0x800
    · rw [if_pos h2]
      exact ⟨_, _, rfl, by simp [Piece.size, h1, h2],
        firstPiece_encoded_two (Nat.le_of_not_lt h1) h2⟩
    · rw [if_neg h2]
      by_cases h3 : c < 0x10000
      · rw [if_pos h3]
        exact ⟨_, _, rfl, by simp [Piece.size, h1, h2, h3],
          firstPiece_encoded_three h (Nat.le_of_not_lt h2) h3⟩
      · rw [if_neg h3]
        exact ⟨_, _, rfl, by simp [Piece.size, h1, h2, h3],
          firstPiece_encoded_four h (Nat.le_of_not_lt h3)⟩

/-! ### The pieces of a text -/

theorem piecesFrom_eq (found : List Piece) (skip : Nat) (s : Bytes) :
    piecesFrom found skip s = found.reverse ++ piecesFrom [] skip s := by
  induction s generalizing found skip with
  | nil => simp [piecesFrom]
  | cons b s ih =>
    cases skip with
    | succ skip =>
      rw [piecesFrom, piecesFrom, ih]
    | zero =>
      rw [piecesFrom, piecesFrom, ih, ih [_]]
      simp

theorem piecesFrom_skip (found : List Piece) (t s : Bytes) :
    piecesFrom found t.length (t ++ s) = piecesFrom found 0 s := by
  induction t with
  | nil => rfl
  | cons b t ih => simpa [piecesFrom] using ih

theorem pieces_encodeChar_append (h : Scalar c) (s : Bytes) :
    pieces (encodeChar c ++ s) = .char c :: pieces s := by
  obtain ⟨a, tail, hc, htail, hfirst⟩ := exists_encodeChar_cons h
  rw [hc, List.cons_append, pieces, piecesFrom, hfirst, ← htail, piecesFrom_skip, piecesFrom_eq]
  rfl

theorem pieces_flatMap {l : List Nat} (h : ∀ c ∈ l, Scalar c) :
    pieces (l.flatMap encodeChar) = l.map .char := by
  induction l with
  | nil => rfl
  | cons c l ih =>
    rw [List.flatMap_cons, pieces_encodeChar_append (h c List.mem_cons_self),
      ih fun x hx => h x (List.mem_cons_of_mem _ hx), List.map_cons]

/-! ### The first piece of a text -/

theorem encodeChar_toNat {b : UInt8} (hb : b < 0x80) : encodeChar b.toNat = [b] := by
  rw [UInt8.lt_iff_toNat_lt] at hb
  have : b.toNat < 0x80 := hb
  simp [encodeChar, this]

theorem length_encodeChar (c : Nat) : (encodeChar c).length = (Piece.char c).size := by
  simp only [encodeChar, Piece.size]
  split_ifs <;> rfl

theorem continuation?_eq_some {lo hi : UInt8} {x : Nat} (h : continuation? lo hi rest = some x) :
    ∃ b t, rest = b :: t ∧ lo ≤ b ∧ b ≤ hi ∧ x = b.toNat - 0x80 := by
  cases rest with
  | nil => simp [continuation?] at h
  | cons b t =>
    simp only [continuation?, Option.ite_none_right_eq_some, Bool.and_eq_true, decide_eq_true_eq,
      Option.some.injEq] at h
    exact ⟨b, t, rfl, h.1.1, h.1.2, h.2.symm⟩

/-- The byte that continues a character, by its value. -/
theorem exists_of_continuation? {lo hi : UInt8} {x : Nat} (h : continuation? lo hi rest = some x)
    (hlo : 0x80 ≤ lo) (hhi : hi ≤ 0xbf) :
    ∃ b t, rest = b :: t ∧ b.toNat = 0x80 + x ∧ x < 64 ∧ lo ≤ b := by
  obtain ⟨b, t, rfl, hb, hb', hx⟩ := continuation?_eq_some h
  have hends : (0x80 : UInt8).toNat = 0x80 ∧ (0xbf : UInt8).toNat = 0xbf := ⟨rfl, rfl⟩
  have hleast : 0x80 ≤ b := UInt8.le_trans hlo hb
  have hmost : b ≤ 0xbf := UInt8.le_trans hb' hhi
  rw [UInt8.le_iff_toNat_le] at hleast hmost
  exact ⟨b, t, rfl, by omega, by omega, hb⟩

theorem ofNat_eq {n : Nat} (h : n = a.toNat) : UInt8.ofNat n = a := by
  rw [h, UInt8.ofNat_toNat]

theorem encodeChar_two {b : UInt8} {x : Nat} (hleast : 0xc2 ≤ a.toNat) (hmost : a.toNat ≤ 0xdf)
    (hb : b.toNat = 0x80 + x) (hx : x < 64) : encodeChar ((a.toNat - 0xc0) * 64 + x) = [a, b] := by
  obtain ⟨c, hc⟩ : ∃ c, c = (a.toNat - 0xc0) * 64 + x := ⟨_, rfl⟩
  have hrange : ¬ c < 0x80 ∧ c < 0x800 := by omega
  have hfirst : UInt8.ofNat (0xc0 + c / 64) = a := ofNat_eq (by omega)
  have hlast : UInt8.ofNat (0x80 + c % 64) = b := ofNat_eq (by omega)
  rw [← hc, encodeChar, if_neg hrange.1, if_pos hrange.2, hfirst, hlast]

theorem encodeChar_three {b b' : UInt8} {x y : Nat} (hleast : 0xe0 ≤ a.toNat)
    (hmost : a.toNat ≤ 0xef) (hnarrow : a.toNat = 0xe0 → 0x20 ≤ x) (hb : b.toNat = 0x80 + x)
    (hx : x < 64) (hb' : b'.toNat = 0x80 + y) (hy : y < 64) :
    encodeChar ((a.toNat - 0xe0) * 4096 + x * 64 + y) = [a, b, b'] := by
  obtain ⟨c, hc⟩ : ∃ c, c = (a.toNat - 0xe0) * 4096 + x * 64 + y := ⟨_, rfl⟩
  have hrange : ¬ c < 0x80 ∧ ¬ c < 0x800 ∧ c < 0x10000 := by omega
  have hfirst : UInt8.ofNat (0xe0 + c / 4096) = a := ofNat_eq (by omega)
  have hsecond : UInt8.ofNat (0x80 + c / 64 % 64) = b := ofNat_eq (by omega)
  have hlast : UInt8.ofNat (0x80 + c % 64) = b' := ofNat_eq (by omega)
  rw [← hc, encodeChar, if_neg hrange.1, if_neg hrange.2.1, if_pos hrange.2.2, hfirst, hsecond,
    hlast]

theorem encodeChar_four {b b' b'' : UInt8} {x y z : Nat} (hleast : 0xf0 ≤ a.toNat)
    (hmost : a.toNat ≤ 0xf4) (hnarrow : a.toNat = 0xf0 → 0x10 ≤ x) (hb : b.toNat = 0x80 + x)
    (hx : x < 64) (hb' : b'.toNat = 0x80 + y) (hy : y < 64) (hb'' : b''.toNat = 0x80 + z)
    (hz : z < 64) :
    encodeChar ((a.toNat - 0xf0) * 262144 + x * 4096 + y * 64 + z) = [a, b, b', b''] := by
  obtain ⟨c, hc⟩ : ∃ c, c = (a.toNat - 0xf0) * 262144 + x * 4096 + y * 64 + z := ⟨_, rfl⟩
  have hrange : ¬ c < 0x80 ∧ ¬ c < 0x800 ∧ ¬ c < 0x10000 := by omega
  have hfirst : UInt8.ofNat (0xf0 + c / 262144) = a := ofNat_eq (by omega)
  have hsecond : UInt8.ofNat (0x80 + c / 4096 % 64) = b := ofNat_eq (by omega)
  have hthird : UInt8.ofNat (0x80 + c / 64 % 64) = b' := ofNat_eq (by omega)
  have hlast : UInt8.ofNat (0x80 + c % 64) = b'' := ofNat_eq (by omega)
  rw [← hc, encodeChar, if_neg hrange.1, if_neg hrange.2.1, if_neg hrange.2.2, hfirst, hsecond,
    hthird, hlast]

/-- The first piece of a text is its first byte, stray, or a character that is written with its
first bytes, of which only the first can be ASCII. -/
theorem firstPiece_cases (a : UInt8) (rest : Bytes) : firstPiece a rest = .stray a ∨
    ∃ c tail more, firstPiece a rest = .char c ∧ encodeChar c = a :: tail ∧ rest = tail ++ more ∧
      ∀ b ∈ tail, 0x80 ≤ b := by
  by_cases h1 : a < 0x80
  · exact Or.inr ⟨a.toNat, [], rest, firstPiece_one h1 rest, encodeChar_toNat h1, rfl, by simp⟩
  by_cases h2 : 0xc2 ≤ a ∧ a ≤ 0xdf
  · have hleast : 0xc2 ≤ a.toNat := UInt8.le_iff_toNat_le.1 h2.1
    have hmost : a.toNat ≤ 0xdf := UInt8.le_iff_toNat_le.1 h2.2
    cases hx : continuation? 0x80 0xbf rest with
    | none => simp [firstPiece, h1, h2, hx]
    | some x =>
      obtain ⟨b, t, rfl, hb, hlt, hhigh⟩ := exists_of_continuation? hx (by decide) (by decide)
      exact Or.inr ⟨_, [b], t, firstPiece_two hleast hmost hx, encodeChar_two hleast hmost hb hlt,
        rfl, by simpa using hhigh⟩
  by_cases h3 : 0xe0 ≤ a ∧ a ≤ 0xef
  · have hleast : 0xe0 ≤ a.toNat := UInt8.le_iff_toNat_le.1 h3.1
    have hmost : a.toNat ≤ 0xef := UInt8.le_iff_toNat_le.1 h3.2
    have hlow : (0x80 : UInt8) ≤ if a = 0xe0 then 0xa0 else 0x80 := by split <;> decide
    cases hx : continuation? (if a = 0xe0 then 0xa0 else 0x80) (if a = 0xed then 0x9f else 0xbf)
        rest with
    | none => simp [firstPiece, h1, h2, h3, hx]
    | some x =>
      cases hy : continuation? 0x80 0xbf (rest.drop 1) with
      | none => simp [firstPiece, h1, h2, h3, hx, hy, -List.drop_one]
      | some y =>
        obtain ⟨b, t, rfl, hb, hlt, hlo⟩ := exists_of_continuation? hx hlow (by split <;> decide)
        have hnext : continuation? 0x80 0xbf t = some y := hy
        obtain ⟨b', t', rfl, hb', hlt', hhigh⟩ :=
          exists_of_continuation? hnext (by decide) (by decide)
        have hnarrow : a.toNat = 0xe0 → 0x20 ≤ x := by
          intro hfirst
          rw [if_pos (UInt8.toNat_inj.1 hfirst), UInt8.le_iff_toNat_le] at hlo
          have : (0xa0 : UInt8).toNat = 0xa0 := rfl
          omega
        exact Or.inr ⟨_, [b, b'], t', firstPiece_three hleast hmost hx hy,
          encodeChar_three hleast hmost hnarrow hb hlt hb' hlt', rfl,
          by simpa using ⟨UInt8.le_trans hlow hlo, hhigh⟩⟩
  by_cases h4 : 0xf0 ≤ a ∧ a ≤ 0xf4
  · have hleast : 0xf0 ≤ a.toNat := UInt8.le_iff_toNat_le.1 h4.1
    have hmost : a.toNat ≤ 0xf4 := UInt8.le_iff_toNat_le.1 h4.2
    have hlow : (0x80 : UInt8) ≤ if a = 0xf0 then 0x90 else 0x80 := by split <;> decide
    cases hx : continuation? (if a = 0xf0 then 0x90 else 0x80) (if a = 0xf4 then 0x8f else 0xbf)
        rest with
    | none => simp [firstPiece, h1, h2, h3, h4, hx]
    | some x =>
      cases hy : continuation? 0x80 0xbf (rest.drop 1) with
      | none => simp [firstPiece, h1, h2, h3, h4, hx, hy, -List.drop_one]
      | some y =>
        cases hz : continuation? 0x80 0xbf (rest.drop 2) with
        | none => simp [firstPiece, h1, h2, h3, h4, hx, hy, hz, -List.drop_one]
        | some z =>
          obtain ⟨b, t, rfl, hb, hlt, hlo⟩ := exists_of_continuation? hx hlow (by split <;> decide)
          have hnext : continuation? 0x80 0xbf t = some y := hy
          obtain ⟨b', t', rfl, hb', hlt', hhigh⟩ :=
            exists_of_continuation? hnext (by decide) (by decide)
          have hlast : continuation? 0x80 0xbf t' = some z := hz
          obtain ⟨b'', t'', rfl, hb'', hlt'', hhigh'⟩ :=
            exists_of_continuation? hlast (by decide) (by decide)
          have hnarrow : a.toNat = 0xf0 → 0x10 ≤ x := by
            intro hfirst
            rw [if_pos (UInt8.toNat_inj.1 hfirst), UInt8.le_iff_toNat_le] at hlo
            have : (0x90 : UInt8).toNat = 0x90 := rfl
            omega
          exact Or.inr ⟨_, [b, b', b''], t'', firstPiece_four hleast hmost hx hy hz,
            encodeChar_four hleast hmost hnarrow hb hlt hb' hlt' hb'' hlt'', rfl,
            by simpa using ⟨UInt8.le_trans hlow hlo, hhigh, hhigh'⟩⟩
  · simp [firstPiece, h1, h2, h3, h4]

/-- A piece does not reach past the end of its text. -/
theorem size_firstPiece_le (a : UInt8) (rest : Bytes) :
    (firstPiece a rest).size - 1 ≤ rest.length := by
  obtain hstray | ⟨c, tail, more, hchar, hbytes, rfl, -⟩ := firstPiece_cases a rest
  · simp [hstray, Piece.size]
  · have hlength := length_encodeChar c
    rw [hbytes, List.length_cons] at hlength
    rw [hchar, List.length_append]
    omega

/-- A piece is written with the bytes it was read from. -/
theorem bytes_firstPiece (a : UInt8) (rest : Bytes) :
    (firstPiece a rest).bytes ++ rest.drop ((firstPiece a rest).size - 1) = a :: rest := by
  obtain hstray | ⟨c, tail, more, hchar, hbytes, rfl, -⟩ := firstPiece_cases a rest
  · rw [hstray]
    rfl
  · have hlength := length_encodeChar c
    rw [hbytes, List.length_cons] at hlength
    rw [hchar, Piece.bytes, hbytes, ← hlength, Nat.add_sub_cancel, List.drop_left]
    rfl

/-- The pieces of a text make up the text. -/
theorem flatten_pieces (s : Bytes) : flatten (pieces s) = s := by
  have hfrom (skip : Nat) : flatten (piecesFrom [] skip s) = s.drop skip := by
    induction s generalizing skip with
    | nil => cases skip <;> rfl
    | cons a s ih =>
      cases skip with
      | succ skip => exact ih skip
      | zero =>
        rw [piecesFrom, piecesFrom_eq, flatten, List.flatMap_append, ← flatten, ← flatten, ih]
        simpa [flatten] using bytes_firstPiece a s
  exact hfrom 0

/-! ### ASCII bytes in a text -/

variable {b : UInt8}

/-- An ASCII byte continues no character. -/
theorem continuation?_ascii (hb : b < 0x80) {lo hi : UInt8} (hlo : 0x80 ≤ lo) (t : Bytes) :
    continuation? lo hi (b :: t) = none := by
  have hnot : ¬ lo ≤ b := fun h => UInt8.not_le.2 hb (UInt8.le_trans hlo h)
  simp [continuation?, hnot]

/-- What follows an ASCII byte does not belong to the piece before it. -/
theorem firstPiece_append_cons (hb : b < 0x80) (a : UInt8) (rest t : Bytes) :
    firstPiece a (rest ++ b :: t) = firstPiece a rest := by
  have hnone {lo hi : UInt8} (hlo : 0x80 ≤ lo) : continuation? lo hi (b :: t) = none :=
    continuation?_ascii hb hlo t
  have hend (lo hi : UInt8) : continuation? lo hi [] = none := rfl
  have hthree : (0x80 : UInt8) ≤ if a = 0xe0 then 0xa0 else 0x80 := by split <;> decide
  have hfour : (0x80 : UInt8) ≤ if a = 0xf0 then 0x90 else 0x80 := by split <;> decide
  rcases rest with _ | ⟨c, _ | ⟨d, _ | ⟨e, rest⟩⟩⟩
  · simp only [firstPiece, List.nil_append, List.drop_nil, hnone UInt8.le_rfl, hnone hthree,
      hnone hfour, hend, Option.bind_eq_bind, Option.bind_none]
  · simp only [firstPiece, List.cons_append, List.nil_append, List.drop_succ_cons, List.drop_zero,
      List.drop_nil, hnone UInt8.le_rfl, hend, Option.bind_eq_bind, Option.bind_none]
    rfl
  · simp only [firstPiece, List.cons_append, List.nil_append, List.drop_succ_cons, List.drop_zero,
      List.drop_nil, hnone UInt8.le_rfl, hend, Option.bind_eq_bind, Option.bind_none]
    rfl
  · rfl

theorem pieces_append_cons (hb : b < 0x80) (s t : Bytes) :
    pieces (s ++ b :: t) = pieces s ++ Piece.char b.toNat :: pieces t := by
  have hfrom (skip : Nat) (hskip : skip ≤ s.length) :
      piecesFrom [] skip (s ++ b :: t) = piecesFrom [] skip s ++ .char b.toNat :: pieces t := by
    induction s generalizing skip with
    | nil =>
      obtain rfl : skip = 0 := Nat.le_zero.1 hskip
      have hsize : (Piece.char b.toNat).size = 1 := if_pos (UInt8.lt_iff_toNat_lt.1 hb)
      simp only [List.nil_append, piecesFrom, firstPiece_one hb, hsize]
      exact piecesFrom_eq [_] 0 t
    | cons a s ih =>
      cases skip with
      | succ skip => exact ih skip (Nat.le_of_succ_le_succ hskip)
      | zero =>
        rw [List.cons_append, piecesFrom, piecesFrom, firstPiece_append_cons hb, piecesFrom_eq,
          piecesFrom_eq [_], ih _ (size_firstPiece_le a s), List.append_assoc]
  exact hfrom 0 (Nat.zero_le _)

theorem pieces_cons (hb : b < 0x80) (s : Bytes) : pieces (b :: s) = Piece.char b.toNat :: pieces s :=
  pieces_append_cons hb [] s

theorem mem_pieces_of_ascii (hb : b < 0x80) {s : Bytes} (h : b ∈ s) :
    Piece.char b.toNat ∈ pieces s := by
  obtain ⟨t, u, rfl⟩ := List.append_of_mem h
  rw [pieces_append_cons hb]
  exact List.mem_append_right _ List.mem_cons_self

/-! ### Trimming -/

/-- Trimming leaves nothing of white space only. -/
theorem trim_eq_nil_iff {s : Bytes} : trim s = [] ↔ ∀ p ∈ pieces s, p.isBlank = true := by
  constructor
  · intro h p hp
    by_contra hnot
    have hstays {l : List Piece} (hl : p ∈ l) : p ∈ l.dropWhile Piece.isBlank := by
      rw [← List.takeWhile_append_dropWhile (p := Piece.isBlank) (l := l)] at hl
      exact (List.mem_append.1 hl).resolve_left fun htake => hnot (List.mem_takeWhile_imp htake)
    have hmem : p ∈ (((pieces s).dropWhile Piece.isBlank).reverse.dropWhile
        Piece.isBlank).reverse := by
      rw [List.mem_reverse]
      apply hstays
      rw [List.mem_reverse]
      exact hstays hp
    have hbytes : p.bytes = [] := List.flatMap_eq_nil_iff.1 h p hmem
    cases p with
    | char c =>
      have hlength := length_encodeChar c
      rw [show encodeChar c = [] from hbytes, List.length_nil, Piece.size] at hlength
      split_ifs at hlength
    | stray b => cases hbytes
  · intro h
    rw [trim, List.dropWhile_eq_nil_iff.2 h]
    rfl

/-- A text with an ASCII byte that is no white space is not blank. -/
theorem trim_ne_nil {s : Bytes} (h : b ∈ s) (hb : b < 0x80)
    (hblank : isBlankChar b.toNat = false) : trim s ≠ [] := by
  intro hnil
  have hpiece := trim_eq_nil_iff.1 hnil _ (mem_pieces_of_ascii hb h)
  rw [Piece.isBlank, hblank] at hpiece
  cases hpiece

/-- A text in two parts with an ASCII byte between them is blank only if both parts are. -/
theorem trim_append_cons_ne_nil (hb : b < 0x80) {s t : Bytes} (h : trim s ≠ [] ∨ trim t ≠ []) :
    trim (s ++ b :: t) ≠ [] := by
  intro hnil
  rw [trim_eq_nil_iff, pieces_append_cons hb, List.forall_mem_append,
    List.forall_mem_cons] at hnil
  rcases h with h | h
  · exact h (trim_eq_nil_iff.2 hnil.1)
  · exact h (trim_eq_nil_iff.2 hnil.2.2)

/-- A blank at the end of a text does not show once the text is trimmed. -/
theorem trim_concat (hb : b < 0x80) (hblank : isBlankChar b.toNat = true) (s : Bytes) :
    trim (s ++ [b]) = trim s := by
  have hpiece : Piece.isBlank (.char b.toNat) = true := hblank
  have hpieces : pieces (s ++ [b]) = pieces s ++ [Piece.char b.toNat] := pieces_append_cons hb s []
  rw [trim, hpieces, List.dropWhile_append]
  split
  · rename_i hempty
    rw [trim, List.isEmpty_iff.1 hempty]
    simp [hpiece]
  · rw [List.reverse_append, List.reverse_singleton, List.singleton_append,
      List.dropWhile_cons_of_pos hpiece, trim]

/-- Trimming stops at the first byte that is no blank. -/
theorem exists_trim_eq_cons (hb : b < 0x80) (hblank : isBlankChar b.toNat = false)
    {lead : Bytes} (hlead : ∀ c ∈ lead, c < 0x80 ∧ isBlankChar c.toNat = true) (s : Bytes) :
    ∃ t, trim (lead ++ b :: s) = b :: t := by
  have hdrop : (pieces (lead ++ b :: s)).dropWhile Piece.isBlank =
      Piece.char b.toNat :: pieces s := by
    induction lead with
    | nil =>
      rw [List.nil_append, pieces_cons hb,
        List.dropWhile_cons_of_neg (by simp [Piece.isBlank, hblank])]
    | cons c lead ih =>
      obtain ⟨hc, hlead⟩ := List.forall_mem_cons.1 hlead
      have hpiece : Piece.isBlank (.char c.toNat) = true := hc.2
      rw [List.cons_append, pieces_cons hc.1, List.dropWhile_cons_of_pos hpiece, ih hlead]
  have hfirst : ∃ front, ((Piece.char b.toNat :: pieces s).reverse.dropWhile Piece.isBlank) =
      front ++ [Piece.char b.toNat] := by
    rw [List.reverse_cons, List.dropWhile_append]
    split
    · exact ⟨[], by simp [Piece.isBlank, hblank]⟩
    · exact ⟨_, rfl⟩
  obtain ⟨front, hfront⟩ := hfirst
  refine ⟨flatten front.reverse, ?_⟩
  rw [trim, hdrop, hfront]
  simp [flatten, Piece.bytes, encodeChar_toNat hb]

end Text

/-! ### Code pages -/

namespace CodePage

variable {p : CodePage}

/-- Whether no character of a list but the replacement character occurs twice or is in the mask. -/
def apartFrom (mask : Nat) : List Nat → Bool
  | [] => true
  | c :: rest =>
    if c = undefinedChar then apartFrom mask rest
    else !mask.testBit c && apartFrom (mask ||| 1 <<< c) rest

theorem apartFrom_sound {mask : Nat} {l : List Nat} (h : apartFrom mask l = true) :
    l.Pairwise (fun a b => a = b → a = undefinedChar) ∧
      ∀ c ∈ l, mask.testBit c = true → c = undefinedChar := by
  induction l generalizing mask with
  | nil => simp
  | cons c rest ih =>
    rw [apartFrom] at h
    split at h
    · rename_i hc
      obtain ⟨hrest, hmask⟩ := ih h
      exact ⟨.cons (fun _ _ _ => hc) hrest, List.forall_mem_cons.2 ⟨fun _ => hc, hmask⟩⟩
    · obtain ⟨hc, h⟩ := Bool.and_eq_true_iff.1 h
      obtain ⟨hrest, hmask⟩ := ih h
      simp only [Nat.testBit_or, Nat.one_shiftLeft, Nat.testBit_two_pow, Bool.or_eq_true,
        decide_eq_true_eq] at hmask
      refine ⟨.cons (fun b hb hcb => ?_) hrest, List.forall_mem_cons.2 ⟨fun hbit => ?_, ?_⟩⟩
      · exact hcb.trans (hmask b hb (.inr hcb))
      · simp [hbit] at hc
      · exact fun b hb hbit => hmask b hb (.inl hbit)

/-- The upper half of a page has characters from 128 on, and gives none of them to two bytes but
the replacement character. -/
theorem upper_spec (p : CodePage) : p.upper.length = 128 ∧
    (∀ c ∈ p.upper, 128 ≤ c ∧ Text.Scalar c) ∧
    p.upper.Pairwise fun a b => a = b → a = undefinedChar := by
  have hchars : p.upper.length = 128 ∧ ∀ c ∈ p.upper, 128 ≤ c ∧ Text.Scalar c := by
    cases p <;> decide +kernel
  -- a mask of the characters met so far needs one test for each, not one for each two
  have hapart : apartFrom 0 p.upper = true := by
    cases p <;> decide +kernel
  exact ⟨hchars.1, hchars.2, (apartFrom_sound hapart).1⟩

theorem char_of_lt {b : UInt8} (h : b < 128) : p.char b = b.toNat := if_pos h

theorem exists_upper_eq {b : UInt8} (h : ¬ b < 128) :
    ∃ (i : Nat) (hi : i < p.upper.length), b = UInt8.ofNat (i + 128) ∧ p.char b = p.upper[i] := by
  have hle : 128 ≤ b.toNat := UInt8.le_iff_toNat_le.1 (UInt8.not_lt.1 h)
  have hb : b.toNat < 256 := b.toNat_lt
  have hi : b.toNat - 128 < p.upper.length := by
    rw [(upper_spec p).1]
    omega
  refine ⟨b.toNat - 128, hi, by rw [Nat.sub_add_cancel hle, UInt8.ofNat_toNat], ?_⟩
  rw [char, if_neg h]
  simp [hi]

theorem scalar_char (p : CodePage) (b : UInt8) : Text.Scalar (p.char b) := by
  by_cases h : b < 128
  · have : b.toNat < 128 := UInt8.lt_iff_toNat_lt.1 h
    rw [char_of_lt h, Text.Scalar]
    omega
  · obtain ⟨i, hi, -, hchar⟩ := exists_upper_eq (p := p) h
    exact hchar ▸ ((upper_spec p).2.1 _ (List.getElem_mem hi)).2

/-- A byte that the page defines is got back from its character. -/
theorem byte?_char {b : UInt8} (h : p.char b ≠ undefinedChar) : p.byte? (p.char b) = some b := by
  by_cases hb : b < 128
  · have : b.toNat < 128 := UInt8.lt_iff_toNat_lt.1 hb
    rw [char_of_lt hb, byte?, if_pos this]
    simp
  · obtain ⟨i, hi, hbi, hchar⟩ := exists_upper_eq (p := p) hb
    have hupper := ((upper_spec p).2.1 _ (List.getElem_mem hi)).1
    rw [hchar] at h ⊢
    have hfind : p.upper.findIdx? (· = p.upper[i]) = some i := by
      rw [List.findIdx?_eq_some_iff_getElem]
      refine ⟨hi, by simp, fun j hj hsame => ?_⟩
      have heq : p.upper[j] = p.upper[i] := of_decide_eq_true hsame
      have hpair := List.pairwise_iff_getElem.1 (upper_spec p).2.2 j i (by omega) hi hj heq
      exact h (heq ▸ hpair)
    rw [byte?, if_neg (Nat.not_lt.2 hupper), if_neg h, hfind, hbi]
    rfl

/-- The byte of a character is shown by that character. -/
theorem char_of_byte? (h : p.byte? c = some b) : p.char b = c := by
  unfold byte? at h
  by_cases hc : c < 128
  · rw [if_pos hc] at h
    obtain rfl := Option.some.inj h
    have htoNat : (UInt8.ofNat c).toNat = c := Text.toNat_ofNat (by omega)
    rw [char_of_lt (by rw [UInt8.lt_iff_toNat_lt, htoNat]; exact hc), htoNat]
  · rw [if_neg hc, Option.ite_none_left_eq_some] at h
    obtain ⟨i, hi, rfl⟩ := Option.map_eq_some_iff.1 h.2
    obtain ⟨hlt, hchar, -⟩ := List.findIdx?_eq_some_iff_getElem.1 hi
    have hlength := (upper_spec p).1
    have htoNat : (UInt8.ofNat (i + 128)).toNat = i + 128 := Text.toNat_ofNat (by omega)
    have hupper : ¬ UInt8.ofNat (i + 128) < 128 := by
      rw [UInt8.lt_iff_toNat_lt, htoNat]
      exact Nat.not_lt.2 (Nat.le_add_left 128 i)
    rw [char, if_neg hupper, htoNat, Nat.add_sub_cancel]
    simpa [hlt] using hchar

theorem decode_eq (p : CodePage) (s : Bytes) :
    p.decode s = (s.map p.char).flatMap Text.encodeChar := by
  rw [decode, List.flatMap_map]
  congr 1
  funext b
  by_cases hb : b < 128
  · rw [if_pos hb, char_of_lt hb, Text.encodeChar_toNat hb]
  · simp [hb, char]

end CodePage

namespace Charset

/-- Every byte of the stored text is defined, so that it is shown by a character of its own. -/
def Covers : Charset → Bytes → Prop
  | raw, _ => True
  | page p, s => ∀ b ∈ s, p.char b ≠ CodePage.undefinedChar

instance (charset : Charset) (s : Bytes) : Decidable (charset.Covers s) :=
  match charset with
  | raw => .isTrue trivial
  | page p => inferInstanceAs (Decidable (∀ b ∈ s, p.char b ≠ CodePage.undefinedChar))

variable {charset : Charset} {s : Bytes}

/-- A text that the character set covers is stored as it was. -/
theorem encode_decode (h : charset.Covers s) : charset.encode (charset.decode s) = .ok s := by
  cases charset with
  | raw => rfl
  | page p =>
    have hpieces : Text.pieces (p.decode s) = (s.map p.char).map .char := by
      rw [p.decode_eq]
      apply Text.pieces_flatMap
      intro c hc
      obtain ⟨b, -, rfl⟩ := List.mem_map.1 hc
      exact p.scalar_char b
    have hbytes : (Text.pieces (p.decode s)).mapM p.pieceByte? = some s := by
      rw [hpieces]
      clear hpieces
      induction s with
      | nil => rfl
      | cons b s ih =>
        have hb : p.pieceByte? (.char (p.char b)) = some b :=
          CodePage.byte?_char (h b List.mem_cons_self)
        have hs := ih fun x hx => h x (List.mem_cons_of_mem _ hx)
        simp only [List.map_cons, List.mapM_cons, hb, hs]
        rfl
    simp only [decode, encode, hbytes]

/-- A text that can be stored is shown as it was. -/
theorem decode_encode (h : charset.encode s = .ok stored) : charset.decode stored = s := by
  cases charset with
  | raw => exact (Except.ok.inj h).symm
  | page p =>
    have hbytes : (Text.pieces s).mapM p.pieceByte? = some stored := by
      cases hmap : (Text.pieces s).mapM p.pieceByte? with
      | none => simp [encode, hmap] at h
      | some bytes => simpa [encode, hmap] using h
    have hflat {pieces : List Text.Piece} {bytes : Bytes}
        (h : pieces.mapM p.pieceByte? = some bytes) : p.decode bytes = Text.flatten pieces := by
      rw [p.decode_eq]
      induction pieces generalizing bytes with
      | nil =>
        obtain rfl : [] = bytes := by simpa using h
        rfl
      | cons piece pieces ih =>
        rw [List.mapM_cons] at h
        obtain ⟨b, hb, h⟩ := Option.bind_eq_some_iff.1 h
        obtain ⟨more, hmore, h⟩ := Option.bind_eq_some_iff.1 h
        obtain rfl := Option.some.inj h
        cases piece with
        | stray => cases hb
        | char c =>
          rw [List.map_cons, List.flatMap_cons, CodePage.char_of_byte? hb, ih hmore]
          rfl
    exact (hflat hbytes).trans (Text.flatten_pieces s)

end Charset

end ApeScript
