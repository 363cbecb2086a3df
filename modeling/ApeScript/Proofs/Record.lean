import ApeScript.Binary.CountedString
import Mathlib

/-!
# Records between readers

`Encoded.Spans e r r'` says that the record `e` is what stands between the readers `r` and `r'`:
`r` holds the bytes of `e` and then what `r'` holds, and the offset of `r'` counts them. Every
decoder is described by one equivalence: it turns `r` into a value and `r'` exactly when the
encoding of the value spans them. Both directions matter, since one says that what is written can
be read and the other that nothing else can.
-/

namespace ApeScript

namespace Encoded

variable {e e₁ e₂ : Encoded} {r r' : Reader} {α : Type}

def Spans (e : Encoded) (r r' : Reader) : Prop :=
  ∃ b, e = .bytes b ∧ r.rest = b ++ r'.rest ∧ r'.offset = r.offset + b.length

@[simp] theorem spans_bytes {b : Bytes} :
    (bytes b).Spans r r' ↔ r.rest = b ++ r'.rest ∧ r'.offset = r.offset + b.length := by
  simp [Spans]

@[simp] theorem not_spans_refused {x : EncodeError} : ¬ (refused x).Spans r r' := by simp [Spans]

@[simp] theorem not_spans_halted : ¬ halted.Spans r r' := by simp [Spans]

theorem append_eq_bytes {c : Bytes} :
    e₁ ++ e₂ = bytes c ↔ ∃ a b, e₁ = bytes a ∧ e₂ = bytes b ∧ c = a ++ b := by
  change append e₁ e₂ = bytes c ↔ _
  cases e₁ <;> cases e₂ <;> simp [append, eq_comm]

theorem append_assoc (e₁ e₂ e₃ : Encoded) : e₁ ++ e₂ ++ e₃ = e₁ ++ (e₂ ++ e₃) := by
  change append (append e₁ e₂) e₃ = append e₁ (append e₂ e₃)
  cases e₁ <;> cases e₂ <;> cases e₃ <;> simp [append]

@[simp] theorem spans_empty : empty.Spans r r' ↔ r = r' := by
  cases r
  cases r'
  simp [empty, eq_comm]

@[simp] theorem spans_append : (e₁ ++ e₂).Spans r r' ↔ ∃ m, e₁.Spans r m ∧ e₂.Spans m r' := by
  constructor
  · rintro ⟨c, hc, hr, ho⟩
    obtain ⟨a, b, rfl, rfl, rfl⟩ := append_eq_bytes.1 hc
    refine ⟨⟨b ++ r'.rest, r.offset + a.length⟩, ?_, ?_⟩
    · simpa using hr
    · simpa [Nat.add_assoc] using ho
  · rintro ⟨m, ⟨a, rfl, hr, ho⟩, ⟨b, rfl, hr', ho'⟩⟩
    refine ⟨a ++ b, rfl, ?_, ?_⟩
    · rw [hr, hr', List.append_assoc]
    · rw [ho', ho, List.length_append, Nat.add_assoc]

theorem Spans.length_le (h : e.Spans r r') : r'.rest.length ≤ r.rest.length := by
  obtain ⟨b, -, hr, -⟩ := h
  simp [hr]

theorem Spans.lt_of_lt {n : Nat} (h : e.Spans r r') (hr : r.rest.length < n) :
    r'.rest.length < n :=
  Nat.lt_of_le_of_lt h.length_le hr

/-- A record that starts with a byte leaves less to read. -/
theorem Spans.length_lt {b : UInt8} {s : Bytes} (h : (bytes (b :: s) ++ e).Spans r r') :
    r'.rest.length < r.rest.length := by
  obtain ⟨m, hb, he⟩ := spans_append.1 h
  have hm := he.length_le
  simp only [spans_bytes] at hb
  simp only [hb.1, List.length_append, List.length_cons]
  omega

/-- What a record spans is its bytes, when nothing is left after it. -/
theorem spans_ofBytes {d : Bytes} {n : Nat} :
    e.Spans (.ofBytes d) ⟨[], n⟩ ↔ e = bytes d ∧ n = d.length := by
  simp only [Spans, Reader.ofBytes, List.append_nil, Nat.zero_add]
  constructor
  · rintro ⟨b, rfl, rfl, rfl⟩
    exact ⟨rfl, rfl⟩
  · rintro ⟨rfl, rfl⟩
    exact ⟨d, rfl, rfl, rfl⟩

@[simp] theorem length_littleEndian (width n : Nat) : (littleEndian width n).length = width := by
  induction width generalizing n with
  | zero => rfl
  | succ width ih => simp [littleEndian, ih]

theorem u8_eq_littleEndian (v : UInt8) : u8 v = bytes (littleEndian 1 v.toNat) := by
  have hv := v.toNat_lt
  have hm : v.toNat % 256 = v.toNat := Nat.mod_eq_of_lt hv
  simp [u8, littleEndian, hm]

@[simp] theorem append_empty : e ++ empty = e := by
  change append e empty = e
  cases e <;> simp [append, empty]

@[simp] theorem concat_nil : concat [] = empty := rfl

theorem concat_cons (records : List Encoded) : concat (e :: records) = e ++ concat records := rfl

theorem u32_offset {v : UInt32} (h : (u32 v).Spans r r') : r'.offset = r.offset + 4 := by
  simp only [u32, spans_bytes, length_littleEndian] at h
  exact h.2

/-- A list whose walk is refused at the first item with a fault is written out exactly when no item
has it. -/
theorem spans_guarded {bad : α → Prop} [DecidablePred bad] {enc : α → Encoded}
    {x : α → EncodeError} {g : List α → Encoded} {as : List α}
    (hcons : ∀ a as, g (a :: as) = if bad a then refused (x a) else enc a ++ g as) :
    (g as).Spans r r' ↔ (∀ a ∈ as, ¬ bad a) ∧ (concat (as.map enc) ++ g []).Spans r r' := by
  induction as generalizing r with
  | nil => simp [concat_nil]
  | cons a as ih =>
    rw [hcons, List.forall_mem_cons, List.map_cons, concat_cons, append_assoc]
    split_ifs with ha
    · simp [ha]
    · simp only [spans_append, ih, ha, not_false_eq_true, true_and]
      constructor
      · rintro ⟨m, hs, has, hrest⟩
        exact ⟨has, m, hs, hrest⟩
      · rintro ⟨has, m, hs, hrest⟩
        exact ⟨m, hs, has, hrest⟩

end Encoded

namespace Decoder

variable {α β : Type} {r r' : Reader}

@[simp] theorem pure_ok {a b : α} : (pure a : Decoder α) r = .ok b r' ↔ a = b ∧ r = r' := by
  simp [pure, EStateM.pure]

@[simp] theorem bind_ok {d : Decoder α} {f : α → Decoder β} {b : β} :
    (d >>= f) r = .ok b r' ↔ ∃ a m, d r = .ok a m ∧ f a m = .ok b r' := by
  simp only [bind, EStateM.bind]
  cases d r <;> simp

@[simp] theorem map_ok {d : Decoder α} {f : α → β} {b : β} :
    (f <$> d) r = .ok b r' ↔ ∃ a, d r = .ok a r' ∧ f a = b := by
  simp only [Functor.map, EStateM.map]
  cases d r <;> simp [and_comm]

@[simp] theorem fail_ok {x : Malformed} {a : α} : (fail x : Decoder α) r = .ok a r' ↔ False := by
  simp [fail]

@[simp] theorem fail_bind {x : Malformed} {k : α → Decoder β} : fail x >>= k = fail x := rfl

@[simp] theorem get_ok {a : Reader} : (get : Decoder Reader) r = .ok a r' ↔ r = a ∧ r = r' := by
  simp [get, getThe, MonadStateOf.get, EStateM.get]

@[simp] theorem offset_ok {n : Nat} : offset r = .ok n r' ↔ r.offset = n ∧ r = r' := by
  simp [offset, and_comm]

@[simp] theorem ite_ok {p : Prop} [Decidable p] {d e : Decoder α} {a : α} :
    (if p then d else e) r = .ok a r' ↔ (p ∧ d r = .ok a r') ∨ (¬ p ∧ e r = .ok a r') := by
  by_cases hp : p <;> simp [hp]

@[simp] theorem take_ok {n : Nat} {b : Bytes} :
    take n r = .ok b r' ↔ b.length = n ∧ (Encoded.bytes b).Spans r r' := by
  obtain ⟨rest, off⟩ := r
  obtain ⟨rest', off'⟩ := r'
  simp only [take, Encoded.spans_bytes]
  split
  · rename_i h
    simp only [EStateM.Result.ok.injEq, Reader.mk.injEq]
    constructor
    · rintro ⟨rfl, rfl, rfl⟩
      exact ⟨h, (List.take_append_drop n rest).symm, by rw [h]⟩
    · rintro ⟨rfl, rfl, rfl⟩
      simp
  · rename_i h
    simp only [reduceCtorEq, false_iff, not_and]
    rintro rfl rfl
    simp at h

/-! ### Words -/

theorem littleEndian_lt (b : Bytes) : littleEndian b < 256 ^ b.length := by
  induction b with
  | nil => simp [littleEndian]
  | cons x b ih =>
    have hx := x.toNat_lt
    simp only [littleEndian, List.foldr_cons, List.length_cons, Nat.pow_succ] at ih ⊢
    omega

theorem littleEndian_encode {width n : Nat} (h : n < 256 ^ width) :
    littleEndian (Encoded.littleEndian width n) = n := by
  induction width generalizing n with
  | zero =>
    rw [Nat.pow_zero] at h
    simp only [Encoded.littleEndian, littleEndian, List.foldr_nil]
    omega
  | succ width ih =>
    rw [Nat.pow_succ] at h
    have hi := ih (n := n / 256) (by omega)
    simp only [littleEndian] at hi
    simp only [Encoded.littleEndian, littleEndian, List.foldr_cons, hi, UInt8.toNat_ofNat']
    omega

theorem encode_littleEndian (b : Bytes) :
    Encoded.littleEndian b.length (littleEndian b) = b := by
  induction b with
  | nil => rfl
  | cons x b ih =>
    have hx := x.toNat_lt
    have hm : (x.toNat + 256 * littleEndian b) % 256 = x.toNat := by omega
    have hd : (x.toNat + 256 * littleEndian b) / 256 = littleEndian b := by omega
    change UInt8.ofNat ((x.toNat + 256 * littleEndian b) % 256) ::
      Encoded.littleEndian b.length ((x.toNat + 256 * littleEndian b) / 256) = x :: b
    rw [hm, hd, ih, UInt8.ofNat_toNat]

/-- Reading a word of any width, from the two facts that make it a word of that width. -/
theorem word_ok {ω : Type} {width : Nat} {toNat : ω → Nat} {ofNat : Nat → ω} {v : ω}
    (hof : ∀ w, ofNat (toNat w) = w ∧ toNat w < 256 ^ width)
    (hto : ∀ n < 256 ^ width, toNat (ofNat n) = n) :
    (do return ofNat (littleEndian (← take width)) : Decoder ω) r = .ok v r' ↔
      (Encoded.bytes (Encoded.littleEndian width (toNat v))).Spans r r' := by
  simp only [bind_ok, pure_ok, take_ok]
  constructor
  · rintro ⟨b, m, ⟨rfl, hs⟩, rfl, rfl⟩
    rwa [hto _ (littleEndian_lt b), encode_littleEndian]
  · intro hs
    refine ⟨_, r', ⟨Encoded.length_littleEndian _ _, hs⟩, ?_, rfl⟩
    rw [littleEndian_encode (hof v).2, (hof v).1]

@[simp] theorem u8_ok {v : UInt8} : u8 r = .ok v r' ↔ (Encoded.u8 v).Spans r r' := by
  rw [Encoded.u8_eq_littleEndian]
  exact word_ok (fun w => ⟨UInt8.ofNat_toNat, w.toNat_lt⟩) (fun _ => UInt8.toNat_ofNat_of_lt')

@[simp] theorem u16_ok {v : UInt16} : u16 r = .ok v r' ↔ (Encoded.u16 v).Spans r r' :=
  word_ok (fun w => ⟨UInt16.ofNat_toNat, w.toNat_lt⟩) (fun _ => UInt16.toNat_ofNat_of_lt')

@[simp] theorem u32_ok {v : UInt32} : u32 r = .ok v r' ↔ (Encoded.u32 v).Spans r r' :=
  word_ok (fun w => ⟨UInt32.ofNat_toNat, w.toNat_lt⟩) (fun _ => UInt32.toNat_ofNat_of_lt')

@[simp] theorem u64_ok {v : UInt64} : u64 r = .ok v r' ↔ (Encoded.u64 v).Spans r r' :=
  word_ok (fun w => ⟨UInt64.ofNat_toNat, w.toNat_lt⟩) (fun _ => UInt64.toNat_ofNat_of_lt')

@[simp] theorem expect32_ok {want : UInt32} {u : Unit} :
    expect32 want r = .ok u r' ↔ (Encoded.u32 want).Spans r r' := by
  simp [expect32]

/-! ### Lists -/

def Sequence (item : α → Reader → Reader → Prop) : List α → Reader → Reader → Prop
  | [], r, r' => r = r'
  | a :: as, r, r' => ∃ m, item a r m ∧ Sequence item as m r'

/-- Items that are records follow one another as the concatenation of the records. -/
theorem sequence_spans {ok : α → Prop} {enc : α → Encoded} {as : List α} :
    Sequence (fun a r r' => ok a ∧ (enc a).Spans r r') as r r' ↔
      (∀ a ∈ as, ok a) ∧ (Encoded.concat (as.map enc)).Spans r r' := by
  induction as generalizing r with
  | nil => simp [Sequence, Encoded.concat]
  | cons a as ih =>
    simp only [Sequence, ih, List.map_cons, Encoded.concat_cons, Encoded.spans_append,
      List.forall_mem_cons]
    constructor
    · rintro ⟨m, ⟨ha, hs⟩, has, hss⟩
      exact ⟨⟨ha, has⟩, m, hs, hss⟩
    · rintro ⟨⟨ha, has⟩, m, hs, hss⟩
      exact ⟨m, ⟨ha, hs⟩, has, hss⟩

/-- Records that come with the offset four bytes past their start, where the number of a window or
switch ends. The offsets add nothing to the records and follow from them. -/
theorem sequence_numbered {ok : α → Prop} {enc : α → Encoded} {as : List α} :
    (∃ l : List (Nat × α), l.map (·.2) = as ∧
      Sequence (fun p r r' => p.1 = r.offset + 4 ∧ ok p.2 ∧ (enc p.2).Spans r r') l r r') ↔
      (∀ a ∈ as, ok a) ∧ (Encoded.concat (as.map enc)).Spans r r' := by
  rw [← sequence_spans]
  induction as generalizing r with
  | nil => simp [Sequence]
  | cons a as ih =>
    constructor
    · rintro ⟨l, hl, hs⟩
      obtain ⟨p, l, rfl, rfl, rfl⟩ := List.map_eq_cons_iff.1 hl
      obtain ⟨m, ⟨-, hp⟩, hs⟩ := hs
      exact ⟨m, hp, ih.1 ⟨l, rfl, hs⟩⟩
    · rintro ⟨m, ha, hs⟩
      obtain ⟨l, rfl, hl⟩ := ih.2 hs
      exact ⟨(r.offset + 4, a) :: l, rfl, m, ⟨rfl, ha⟩, hl⟩

/-- Two descriptions of an item that agree where there is less than `bound` left to read. -/
theorem sequence_congr {item item' : α → Reader → Reader → Prop} {bound : Nat} {as : List α}
    (hitem : ∀ {a r r'}, r.rest.length < bound → (item a r r' ↔ item' a r r'))
    (hless : ∀ {a r r'}, item' a r r' → r'.rest.length ≤ r.rest.length)
    (hr : r.rest.length < bound) : Sequence item as r r' ↔ Sequence item' as r r' := by
  induction as generalizing r with
  | nil => rfl
  | cons a as ih =>
    refine exists_congr fun m => ?_
    rw [hitem hr]
    refine and_congr_right fun ha => ih ?_
    exact Nat.lt_of_le_of_lt (hless ha) hr

/-- A list is read item by item. The fuel is never what ends it, since every item leaves less to
read and there is more fuel than there are bytes. -/
theorem listUntilEnd_ok {step : Decoder (Option α)} {item : α → Reader → Reader → Prop}
    {stop : Reader → Reader → Prop} {bound fuel : Nat} {as : List α}
    (hitem : ∀ {r a r'}, r.rest.length < bound → (step r = .ok (some a) r' ↔ item a r r'))
    (hstop : ∀ {r r'}, r.rest.length < bound → (step r = .ok none r' ↔ stop r r'))
    (hless : ∀ {a r r'}, item a r r' → r'.rest.length < r.rest.length)
    (hb : r.rest.length < bound) (hf : r.rest.length < fuel) :
    listUntilEnd step fuel r = .ok as r' ↔ ∃ m, Sequence item as r m ∧ stop m r' := by
  induction fuel generalizing r as with
  | zero => omega
  | succ fuel ih =>
    -- an item leaves less to read, so one unit less of fuel still exceeds what is left
    have hnext {a m} (ha : item a r m) {bs} : listUntilEnd step fuel m = .ok bs r' ↔
        ∃ m', Sequence item bs m m' ∧ stop m' r' := by
      have hlt := hless ha
      exact ih (by omega) (by omega)
    simp only [listUntilEnd, bind_ok]
    constructor
    · rintro ⟨o, m, ho, hrest⟩
      cases o with
      | none =>
        obtain ⟨rfl, rfl⟩ := pure_ok.1 hrest
        exact ⟨r, rfl, (hstop hb).1 ho⟩
      | some a =>
        have ha := (hitem hb).1 ho
        obtain ⟨bs, m', hbs, hp⟩ := bind_ok.1 hrest
        obtain ⟨rfl, rfl⟩ := pure_ok.1 hp
        obtain ⟨e, hseq, hend⟩ := (hnext ha).1 hbs
        exact ⟨e, ⟨m, ha, hseq⟩, hend⟩
    · rintro ⟨e, hseq, hend⟩
      cases as with
      | nil =>
        cases hseq
        exact ⟨none, r', (hstop hb).2 hend, pure_ok.2 ⟨rfl, rfl⟩⟩
      | cons a as =>
        obtain ⟨m, ha, hseq⟩ := hseq
        refine ⟨some a, m, (hitem hb).2 ha, bind_ok.2 ⟨as, r', ?_, pure_ok.2 ⟨rfl, rfl⟩⟩⟩
        exact (hnext ha).2 ⟨e, hseq, hend⟩

/-- A list of records up to an end record. -/
theorem recordList_ok {step : Decoder (Option α)} {ok : α → Prop} {enc : α → Encoded}
    {stop : Encoded} {fuel : Nat} {as : List α}
    (hitem : ∀ {r a r'}, r.rest.length < fuel →
      (step r = .ok (some a) r' ↔ ok a ∧ (enc a).Spans r r'))
    (hstop : ∀ {r r'}, r.rest.length < fuel → (step r = .ok none r' ↔ stop.Spans r r'))
    (hless : ∀ {a r r'}, (enc a).Spans r r' → r'.rest.length < r.rest.length)
    (hr : r.rest.length < fuel) :
    listUntilEnd step fuel r = .ok as r' ↔
      (∀ a ∈ as, ok a) ∧ (Encoded.concat (as.map enc) ++ stop).Spans r r' := by
  rw [listUntilEnd_ok hitem hstop (fun h => hless h.2) hr hr]
  simp only [sequence_spans, Encoded.spans_append, and_assoc, exists_and_left]

/-- A list of numbered records, each with the offset of its body. -/
theorem numberedList_ok {step : Decoder (Option (Nat × α))} {ok : α → Prop} {enc : α → Encoded}
    {stop : Reader → Reader → Prop} {fuel : Nat} {as : List α}
    (hitem : ∀ {r p r'}, r.rest.length < fuel →
      (step r = .ok (some p) r' ↔ p.1 = r.offset + 4 ∧ ok p.2 ∧ (enc p.2).Spans r r'))
    (hstop : ∀ {r r'}, r.rest.length < fuel → (step r = .ok none r' ↔ stop r r'))
    (hless : ∀ {a r r'}, (enc a).Spans r r' → r'.rest.length < r.rest.length)
    (hr : r.rest.length < fuel) :
    (∃ l, l.map (·.2) = as ∧ listUntilEnd step fuel r = .ok l r') ↔
      (∀ a ∈ as, ok a) ∧ ∃ m, (Encoded.concat (as.map enc)).Spans r m ∧ stop m r' := by
  simp only [listUntilEnd_ok hitem hstop (fun h => hless h.2.2) hr hr]
  constructor
  · rintro ⟨l, hl, m, hs, hend⟩
    obtain ⟨hok, hm⟩ := sequence_numbered.1 ⟨l, hl, hs⟩
    exact ⟨hok, m, hm, hend⟩
  · rintro ⟨hok, m, hm, hend⟩
    obtain ⟨l, hl, hs⟩ := sequence_numbered.2 ⟨hok, hm⟩
    exact ⟨l, hl, m, hs, hend⟩

end Decoder

/-! ### Strings -/

namespace CountedString

open Encoded
open Decoder hiding bytes u8 u32

variable {r r' : Reader} {s : Bytes}

theorem spans_encode : (encode s).Spans r r' ↔ s.length ≤ maxStringLength ∧
    (u32 (UInt32.ofNat (s.length + 1)) ++ bytes (s ++ [0])).Spans r r' := by
  unfold encode
  split
  · simp only [not_spans_refused, false_iff]
    omega
  · rename_i h
    exact (and_iff_right (by omega)).symm

theorem decodeBody_ok {length : UInt32} : decodeBody length r = .ok s r' ↔
    length = UInt32.ofNat (s.length + 1) ∧ s.length ≤ maxStringLength ∧
      (bytes (s ++ [0])).Spans r r' := by
  have hz : (bytes (s ++ [0])).Spans r r' ↔ ∃ m, (bytes s).Spans r m ∧ (u8 0).Spans m r' :=
    @spans_append (bytes s) (u8 0) r r'
  have hlen : (¬ (length = 0 ∨ maxStringLength + 1 < length.toNat) ∧
      s.length = length.toNat - 1) ↔
      length = UInt32.ofNat (s.length + 1) ∧ s.length ≤ maxStringLength := by
    rw [← UInt32.toNat_inj, ← UInt32.toNat_inj, UInt32.toNat_ofNat', UInt32.toNat_zero]
    simp only [maxStringLength]
    omega
  rw [hz, ← and_assoc, ← hlen]
  simp only [decodeBody, fail_bind, ite_ok, fail_ok, bind_ok, take_ok, u8_ok, pure_ok, and_false,
    false_or]
  constructor
  · rintro ⟨hl, t, m, ⟨ht, hs⟩, z, m', hz, hz', rfl, rfl⟩
    obtain rfl : z = 0 := not_not.1 hz'
    exact ⟨⟨hl, ht⟩, m, hs, hz⟩
  · rintro ⟨⟨hl, ht⟩, m, hs, hz⟩
    exact ⟨hl, s, m, ⟨ht, hs⟩, 0, r', hz, not_not.2 rfl, rfl, rfl⟩

@[simp] theorem decode_ok : decode r = .ok s r' ↔ (encode s).Spans r r' := by
  simp only [decode, bind_ok, u32_ok, decodeBody_ok, spans_encode, spans_append]
  constructor
  · rintro ⟨n, m, hn, rfl, hl, hs⟩
    exact ⟨hl, m, hn, hs⟩
  · rintro ⟨hl, m, hn, hs⟩
    exact ⟨_, m, hn, rfl, hl, hs⟩

@[simp] theorem decode?_ok {o : Option Bytes} : decode? r = .ok o r' ↔ (encode? o).Spans r r' := by
  simp only [decode?, bind_ok, u32_ok, ite_ok, pure_ok, decodeBody_ok]
  constructor
  · rintro ⟨n, m, hn, ⟨rfl, rfl, rfl⟩ | ⟨h0, s, m', ⟨rfl, hl, hs⟩, rfl, rfl⟩⟩
    · exact hn
    · exact spans_encode.2 ⟨hl, spans_append.2 ⟨m, hn, hs⟩⟩
  · intro h
    cases o with
    | none => exact ⟨0, r', h, Or.inl ⟨rfl, rfl, rfl⟩⟩
    | some s =>
      obtain ⟨hl, hs⟩ := spans_encode.1 h
      obtain ⟨m, hn, hs⟩ := spans_append.1 hs
      refine ⟨_, m, hn, Or.inr ⟨?_, s, r', ⟨rfl, hl, hs⟩, rfl, rfl⟩⟩
      rw [← UInt32.toNat_inj, UInt32.toNat_ofNat', UInt32.toNat_zero]
      simp only [maxStringLength] at hl
      omega

end CountedString

end ApeScript
