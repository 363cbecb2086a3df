import ApeScript.Catalog.Row
import ApeScript.Proofs.Characters

/-!
# Previews

A shortened text ends between two characters. The search for its end goes back over the bytes that
continue a character, so it stops at the last place up to the limit where a character starts
(`boundary_spec`, `isContinuation_iff`). A text that is shown is well-formed after its stray bytes
have been replaced, and so is its preview.
-/

namespace ApeScript

namespace Text

variable {a : UInt8} {rest s t : Bytes} {c n p : Nat}

/-! ### Well-formed texts -/

def encodeAll (cs : List Nat) : Bytes := cs.flatMap encodeChar

/-- A text that consists of well-formed characters. -/
def Valid (s : Bytes) : Prop := ∃ cs, (∀ c ∈ cs, Scalar c) ∧ s = encodeAll cs

theorem encodeAll_append (cs ds : List Nat) : encodeAll (cs ++ ds) = encodeAll cs ++ encodeAll ds :=
  List.flatMap_append

theorem Valid.append (hs : Valid s) (ht : Valid t) : Valid (s ++ t) := by
  obtain ⟨cs, hcs, rfl⟩ := hs
  obtain ⟨ds, hds, rfl⟩ := ht
  refine ⟨cs ++ ds, fun c hc => ?_, (encodeAll_append cs ds).symm⟩
  exact (List.mem_append.1 hc).elim (hcs c) (hds c)

theorem Valid.nil : Valid [] := ⟨[], by simp, rfl⟩

theorem Valid.char (hc : Scalar c) : Valid (encodeChar c) :=
  ⟨[c], by simpa using hc, by simp [encodeAll]⟩

theorem Valid.ascii (hs : ∀ b ∈ s, b < 0x80) : Valid s := by
  induction s with
  | nil => exact .nil
  | cons b s ih =>
    have hb := hs b List.mem_cons_self
    have hscalar : Scalar b.toNat := by
      have hlt : b.toNat < 0x80 := UInt8.lt_iff_toNat_lt.1 hb
      constructor <;> omega
    have hchar : Valid [b] := by
      rw [← encodeChar_toNat hb]
      exact .char hscalar
    exact hchar.append (ih fun b hb => hs b (List.mem_cons_of_mem _ hb))

/-! ### Characters that are read are well-formed -/

theorem continuation?_bounds {lo hi : UInt8} {x : Nat} (h : continuation? lo hi rest = some x)
    (hlo : 0x80 ≤ lo.toNat) : lo.toNat ≤ 0x80 + x ∧ 0x80 + x ≤ hi.toNat := by
  obtain ⟨b, t, -, hleast, hmost, hx⟩ := continuation?_eq_some h
  rw [UInt8.le_iff_toNat_le] at hleast hmost
  omega

/-- The ranges of the bytes rule out surrogates and code points past the last one. -/
theorem scalar_of_firstPiece (h : firstPiece a rest = .char c) : Scalar c := by
  have hplain : (0x80 : UInt8).toNat = 0x80 ∧ (0xbf : UInt8).toNat = 0xbf := ⟨rfl, rfl⟩
  simp only [firstPiece] at h
  split at h
  · rename_i hfound
    cases h
    simp only [Bool.and_eq_true, decide_eq_true_eq, UInt8.le_iff_toNat_le, UInt8.lt_iff_toNat_lt,
      Option.bind_eq_bind, Option.pure_def] at hfound
    split at hfound
    · cases hfound
      constructor <;> omega
    split at hfound
    · simp only [Option.bind_eq_some_iff, Option.some.injEq] at hfound
      obtain ⟨x, hx, rfl⟩ := hfound
      have hlast := continuation?_bounds hx (by decide)
      have hfirst : (0xc2 : UInt8).toNat = 0xc2 ∧ (0xdf : UInt8).toNat = 0xdf := ⟨rfl, rfl⟩
      constructor <;> omega
    split at hfound
    · simp only [Option.bind_eq_some_iff, Option.some.injEq] at hfound
      obtain ⟨x, hx, y, hy, rfl⟩ := hfound
      have hsecond := continuation?_bounds hx (by split <;> decide)
      have hlast := continuation?_bounds hy (by decide)
      -- after 0xed a second byte up to 0x9f keeps clear of the surrogates
      have hnarrow : a.toNat = 0xed → 0x80 + x ≤ 0x9f := fun hed => by
        simpa [UInt8.toNat_inj.1 (show a.toNat = (0xed : UInt8).toNat from hed)] using hsecond.2
      have hwide : 0x80 + x ≤ 0xbf := hsecond.2.trans (by split <;> decide)
      have hfirst : (0xe0 : UInt8).toNat = 0xe0 ∧ (0xef : UInt8).toNat = 0xef := ⟨rfl, rfl⟩
      constructor <;> omega
    split at hfound
    · simp only [Option.bind_eq_some_iff, Option.some.injEq] at hfound
      obtain ⟨x, hx, y, hy, z, hz, rfl⟩ := hfound
      have hsecond := continuation?_bounds hx (by split <;> decide)
      have hthird := continuation?_bounds hy (by decide)
      have hlast := continuation?_bounds hz (by decide)
      have hleast : a.toNat = 0xf0 → 0x90 ≤ 0x80 + x := fun hf0 => by
        simpa [UInt8.toNat_inj.1 (show a.toNat = (0xf0 : UInt8).toNat from hf0)] using hsecond.1
      have hmost : a.toNat = 0xf4 → 0x80 + x ≤ 0x8f := fun hf4 => by
        simpa [UInt8.toNat_inj.1 (show a.toNat = (0xf4 : UInt8).toNat from hf4)] using hsecond.2
      have hwide : 0x80 + x ≤ 0xbf := hsecond.2.trans (by split <;> decide)
      have hfirst : (0xf0 : UInt8).toNat = 0xf0 ∧ (0xf4 : UInt8).toNat = 0xf4 := ⟨rfl, rfl⟩
      constructor <;> omega
    · cases hfound
  · cases h

/-- Every character that is read from a text is well-formed. -/
theorem scalar_of_mem_pieces (h : .char c ∈ pieces s) : Scalar c := by
  have hfrom (s : Bytes) (skip : Nat) (h : .char c ∈ piecesFrom [] skip s) : Scalar c := by
    induction s generalizing skip with
    | nil => cases skip <;> simp [piecesFrom] at h
    | cons a s ih =>
      cases skip with
      | succ skip => exact ih skip h
      | zero =>
        rw [piecesFrom, piecesFrom_eq, List.reverse_singleton, List.singleton_append] at h
        obtain hfirst | hrest := List.mem_cons.1 h
        · exact scalar_of_firstPiece hfirst.symm
        · exact ih _ hrest
  exact hfrom s 0 h

/-- A text is well-formed exactly if all its pieces are characters. -/
theorem isUtf8_iff_valid : isUtf8 s = true ↔ Valid s := by
  constructor
  · intro h
    have hall : ∀ p ∈ pieces s, ∃ c, p = .char c := by
      intro p hp
      have hchar := List.all_eq_true.1 h p hp
      cases p with
      | char c => exact ⟨c, rfl⟩
      | stray b => cases hchar
    refine ⟨(pieces s).map Piece.code, fun c hc => ?_, ?_⟩
    · obtain ⟨p, hp, rfl⟩ := List.mem_map.1 hc
      obtain ⟨c, rfl⟩ := hall p hp
      exact scalar_of_mem_pieces hp
    · have hbytes : ∀ p ∈ pieces s, encodeChar p.code = p.bytes := by
        intro p hp
        obtain ⟨c, rfl⟩ := hall p hp
        rfl
      rw [encodeAll, List.flatMap_map, List.flatMap_def, List.map_congr_left hbytes]
      exact (flatten_pieces s).symm
  · rintro ⟨cs, hcs, rfl⟩
    rw [isUtf8, encodeAll, pieces_flatMap hcs, List.all_map]
    exact List.all_eq_true.2 fun _ _ => rfl

instance : DecidablePred Valid := fun _ => decidable_of_iff _ isUtf8_iff_valid

/-- Once its stray bytes have been replaced, any text is well-formed. -/
theorem valid_replaceStray {replacement : Bytes} (hreplacement : Valid replacement) (s : Bytes) :
    Valid (replaceStray replacement s) := by
  have hfrom (ps : List Piece) (inRun : Bool) (hps : ∀ c, .char c ∈ ps → Scalar c) :
      Valid (replaceStrayFrom replacement inRun ps) := by
    induction ps generalizing inRun with
    | nil => exact .nil
    | cons p ps ih =>
      have hrest (inRun : Bool) : Valid (replaceStrayFrom replacement inRun ps) :=
        ih inRun fun c hc => hps c (List.mem_cons_of_mem _ hc)
      cases p with
      | char c => exact (Valid.char (hps c List.mem_cons_self)).append (hrest false)
      | stray b =>
        cases inRun with
        | true => exact hrest true
        | false => exact hreplacement.append (hrest true)
  exact hfrom (pieces s) false fun c hc => scalar_of_mem_pieces hc

/-! ### Where a text can be cut -/

theorem isContinuation_ofNat (hn : n < 256) :
    isContinuation (UInt8.ofNat n) = decide (0x80 ≤ n ∧ n ≤ 0xbf) := by
  have hends : (0x80 : UInt8).toNat = 0x80 ∧ (0xbf : UInt8).toNat = 0xbf := ⟨rfl, rfl⟩
  simp only [isContinuation, UInt8.le_iff_toNat_le, toNat_ofNat hn, hends, Bool.decide_and]

/-- A character starts with a byte that continues none and goes on with bytes that do. -/
theorem encodeChar_bytes (h : Scalar c) : ∃ b tail, encodeChar c = b :: tail ∧
    isContinuation b = false ∧ ∀ a ∈ tail, isContinuation a = true := by
  have hlimit := h.1
  have hfirst {n : Nat} (hn : n < 256) (hstart : n < 0x80 ∨ 0xbf < n) :
      isContinuation (UInt8.ofNat n) = false := by
    rw [isContinuation_ofNat hn]
    exact decide_eq_false (by omega)
  have htrail (n : Nat) : isContinuation (UInt8.ofNat (0x80 + n % 64)) = true := by
    rw [isContinuation_ofNat (by omega)]
    exact decide_eq_true (by omega)
  unfold encodeChar
  split_ifs with h1 h2 h3
  · exact ⟨_, _, rfl, hfirst (by omega) (by omega), by simp⟩
  · exact ⟨_, _, rfl, hfirst (by omega) (by omega), List.forall_mem_singleton.2 (htrail c)⟩
  · exact ⟨_, _, rfl, hfirst (by omega) (by omega),
      List.forall_mem_cons.2 ⟨htrail _, List.forall_mem_singleton.2 (htrail c)⟩⟩
  · exact ⟨_, _, rfl, hfirst (by omega) (by omega), List.forall_mem_cons.2 ⟨htrail _,
      List.forall_mem_cons.2 ⟨htrail _, List.forall_mem_singleton.2 (htrail c)⟩⟩⟩

/-- A byte of a text continues a character unless a character starts there. -/
theorem isContinuation_iff {cs : List Nat} (hcs : ∀ c ∈ cs, Scalar c) {b : UInt8}
    (hb : (encodeAll cs)[p]? = some b) :
    isContinuation b = false ↔ ∃ k, p = (encodeAll (cs.take k)).length := by
  induction cs generalizing p with
  | nil => simp [encodeAll] at hb
  | cons c cs ih =>
    obtain ⟨hc, hcs⟩ := List.forall_mem_cons.1 hcs
    have hsplit (ds : List Nat) : encodeAll (c :: ds) = encodeChar c ++ encodeAll ds := rfl
    have htake : (∃ k, p = (encodeAll ((c :: cs).take k)).length) ↔
        p = 0 ∨ ∃ k, p = (encodeChar c).length + (encodeAll (cs.take k)).length := by
      constructor
      · rintro ⟨k, hk⟩
        cases k with
        | zero => exact .inl hk
        | succ k => exact .inr ⟨k, by rw [hk, List.take_succ_cons, hsplit, List.length_append]⟩
      · rintro (hzero | ⟨k, hk⟩)
        · exact ⟨0, hzero⟩
        · exact ⟨k + 1, by rw [hk, List.take_succ_cons, hsplit, List.length_append]⟩
    obtain ⟨first, tail, hbytes, hfirst, htail⟩ := encodeChar_bytes hc
    rw [htake]
    rw [hsplit] at hb
    by_cases hp : p < (encodeChar c).length
    · -- inside the first character only its first byte can be cut off
      rw [List.getElem?_append_left hp, hbytes] at hb
      cases p with
      | zero =>
        cases hb
        simp [hfirst]
      | succ p =>
        have hcontinues : isContinuation b = true := htail b (List.mem_of_getElem? hb)
        simp only [hcontinues, Bool.true_eq_false, Nat.succ_ne_zero, false_or, false_iff]
        omega
    · rw [List.getElem?_append_right (by omega)] at hb
      rw [ih hcs hb]
      have hpos : 0 < (encodeChar c).length := by rw [hbytes]; simp
      constructor
      · rintro ⟨k, hk⟩
        exact .inr ⟨k, by omega⟩
      · rintro (hzero | ⟨k, hk⟩)
        · omega
        · exact ⟨k, by omega⟩

/-- The search goes back to the first place that is the start or in front of a byte that continues
no character. -/
theorem boundary_spec (s : Bytes) (n : Nat) : boundary s n ≤ n ∧
    (boundary s n = 0 ∨ ∀ b, s[boundary s n]? = some b → isContinuation b = false) ∧
    ∀ p, boundary s n < p → p ≤ n → ∃ b, s[p]? = some b ∧ isContinuation b = true := by
  induction n with
  | zero => exact ⟨Nat.le_refl 0, .inl rfl, fun p hp hn => absurd hp (by omega)⟩
  | succ n ih =>
    cases hs : s[n + 1]? with
    | none =>
      have heq : boundary s (n + 1) = n + 1 := by simp [boundary, hs]
      rw [heq]
      exact ⟨Nat.le_refl _, .inr (by simp [hs]), fun p hp hn => absurd hp (by omega)⟩
    | some b =>
      cases hb : isContinuation b with
      | false =>
        have heq : boundary s (n + 1) = n + 1 := by simp [boundary, hs, hb]
        rw [heq]
        refine ⟨Nat.le_refl _, .inr fun a ha => ?_, fun p hp hn => absurd hp (by omega)⟩
        rw [hs] at ha
        cases ha
        exact hb
      | true =>
        have heq : boundary s (n + 1) = boundary s n := by simp [boundary, hs, hb]
        obtain ⟨hle, hstop, hback⟩ := ih
        rw [heq]
        refine ⟨by omega, hstop, fun p hp hn => ?_⟩
        obtain hpn | hpn := Nat.lt_or_ge n p
        · obtain rfl : p = n + 1 := by omega
          exact ⟨b, hs, hb⟩
        · exact hback p hp hpn

/-- A beginning of a text that ends between two of its characters, or where the text does. -/
def EndsBetween (p s : Bytes) : Prop := ∃ rest, s = p ++ rest ∧ Valid p ∧ Valid rest

theorem encodeAll_injective {cs ds : List Nat} (hcs : ∀ c ∈ cs, Scalar c) (hds : ∀ c ∈ ds, Scalar c)
    (h : encodeAll cs = encodeAll ds) : cs = ds := by
  have hpieces := congrArg pieces h
  rw [encodeAll, encodeAll, pieces_flatMap hcs, pieces_flatMap hds] at hpieces
  exact (List.map_inj_right fun _ _ => Piece.char.inj).1 hpieces

theorem endsBetween_iff {cs : List Nat} (hcs : ∀ c ∈ cs, Scalar c) {q : Bytes} :
    EndsBetween q (encodeAll cs) ↔ ∃ k, q = encodeAll (cs.take k) := by
  constructor
  · rintro ⟨rest, hs, ⟨ds, hds, rfl⟩, ⟨es, hes, rfl⟩⟩
    have hall : ∀ c ∈ ds ++ es, Scalar c := fun c hc => (List.mem_append.1 hc).elim (hds c) (hes c)
    have hsplit : cs = ds ++ es :=
      encodeAll_injective hcs hall (hs.trans (encodeAll_append ds es).symm)
    exact ⟨ds.length, by rw [hsplit, List.take_left]⟩
  · rintro ⟨k, rfl⟩
    refine ⟨encodeAll (cs.drop k), ?_, ⟨_, fun c hc => hcs c (List.mem_of_mem_take hc), rfl⟩,
      ⟨_, fun c hc => hcs c (List.mem_of_mem_drop hc), rfl⟩⟩
    rw [← encodeAll_append, List.take_append_drop]

/-- A shorter beginning is a beginning of a longer one. -/
theorem EndsBetween.isPrefix {q : Bytes} (hq : EndsBetween q s) (hp : EndsBetween t s)
    (h : q.length ≤ t.length) : q <+: t := by
  obtain ⟨rest, hs, -⟩ := hq
  obtain ⟨rest', hs', -⟩ := hp
  exact List.prefix_of_prefix_length_le ⟨rest, hs.symm⟩ ⟨rest', hs'.symm⟩ h

/-- The text before a boundary is the longest beginning up to the limit that ends between
characters. -/
theorem take_boundary (hs : Valid s) (hn : n < s.length) :
    EndsBetween (s.take (boundary s n)) s ∧ (s.take (boundary s n)).length ≤ n ∧
      ∀ q, EndsBetween q s → q.length ≤ n → q <+: s.take (boundary s n) := by
  obtain ⟨cs, hcs, rfl⟩ := hs
  obtain ⟨hle, hstop, hback⟩ := boundary_spec (encodeAll cs) n
  have hlength : ((encodeAll cs).take (boundary (encodeAll cs) n)).length =
      boundary (encodeAll cs) n := by
    rw [List.length_take]
    omega
  obtain ⟨k, hk⟩ : ∃ k, boundary (encodeAll cs) n = (encodeAll (cs.take k)).length := by
    obtain hzero | hstart := hstop
    · exact ⟨0, hzero⟩
    · have hb := List.getElem?_eq_getElem (hle.trans_lt hn)
      exact (isContinuation_iff hcs hb).1 (hstart _ hb)
  have hends : EndsBetween ((encodeAll cs).take (boundary (encodeAll cs) n)) (encodeAll cs) := by
    have hsplit : (encodeAll (cs.take k) ++ encodeAll (cs.drop k)).take
        (encodeAll (cs.take k)).length = encodeAll (cs.take k) := List.take_left
    rw [← encodeAll_append, List.take_append_drop, ← hk] at hsplit
    exact (endsBetween_iff hcs).2 ⟨k, hsplit⟩
  refine ⟨hends, by omega, fun q hq hqn => hq.isPrefix hends ?_⟩
  -- a later end up to the limit would be in front of a byte that continues a character
  by_contra hlater
  obtain ⟨b, hb, hcontinues⟩ := hback q.length (by omega) hqn
  obtain ⟨j, rfl⟩ := (endsBetween_iff hcs).1 hq
  rw [(isContinuation_iff hcs hb).2 ⟨j, rfl⟩] at hcontinues
  cases hcontinues

theorem valid_truncate (hs : Valid s) (n : Nat) : Valid (truncate s n) := by
  unfold truncate
  split
  · exact hs
  · rename_i hn
    obtain ⟨⟨-, -, hvalid, -⟩, -⟩ := take_boundary hs (Nat.lt_of_not_le hn)
    exact hvalid.append (.ascii (by decide +kernel))

theorem length_truncate_le (hs : Valid s) (n : Nat) : (truncate s n).length ≤ n + 3 := by
  unfold truncate
  split
  · omega
  · rename_i hn
    obtain ⟨-, hle, -⟩ := take_boundary hs (Nat.lt_of_not_le hn)
    have hdots : (utf8 "...").length = 3 := rfl
    rw [List.length_append]
    omega

end Text

namespace Catalog

theorem valid_preview (charset : Charset) (w : Window) :
    Text.Valid (preview charset w) ∧ (preview charset w).length ≤ 63 := by
  unfold preview
  split
  · have hshown (text : Bytes) : Text.Valid (Text.replaceStray (utf8 "?") text) :=
      Text.valid_replaceStray (.ascii (by decide +kernel)) text
    exact ⟨Text.valid_truncate (hshown _) _, Text.length_truncate_le (hshown _) previewLength⟩
  · exact ⟨.nil, Nat.zero_le _⟩

/-- A well-formed text that fits into the limit is kept as it is; of any other, the longest
beginning up to the limit that ends between characters is kept, with three dots behind it. Either
way it stays well-formed, and the preview of every window under every character set is a
well-formed text of at most 63 bytes. -/
theorem previews_end_between_characters :
    (∀ s n, Text.Valid s →
      (s.length ≤ n → Text.truncate s n = s) ∧
      (n < s.length → ∃ p, Text.truncate s n = p ++ utf8 "..." ∧ Text.EndsBetween p s ∧
        p.length ≤ n ∧ ∀ q, Text.EndsBetween q s → q.length ≤ n → q <+: p) ∧
      Text.Valid (Text.truncate s n)) ∧
    ∀ charset w, Text.Valid (preview charset w) ∧ (preview charset w).length ≤ 63 := by
  refine ⟨fun s n hs => ⟨fun hn => if_pos hn, fun hn => ?_, Text.valid_truncate hs n⟩,
    valid_preview⟩
  obtain ⟨hends, hle, hlongest⟩ := Text.take_boundary hs hn
  exact ⟨_, if_neg (Nat.not_le_of_lt hn), hends, hle, hlongest⟩

/-- The cut inside a character of three bytes goes back to its start. -/
example : Text.truncate [226, 130, 172, 226, 130, 172, 33] 5 = [226, 130, 172, 46, 46, 46] := by
  decide +kernel

end Catalog

end ApeScript
