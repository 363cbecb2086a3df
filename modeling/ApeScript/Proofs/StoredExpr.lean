import ApeScript.FormatValue
import ApeScript.Proofs.Record

/-!
# Stored expressions and formatting values

The decoder of expressions accepts exactly the encodings of expressions of bounded nesting:
`Expr.nesting` counts the levels below the root, and `decodeWithin levels` reads an expression
exactly when it has fewer than `levels` of them. The flag byte determines both operand types and
is determined by them, so no two flag bytes stand for the same types.
-/

namespace ApeScript

open Encoded
open Decoder hiding bytes u8 u16 u32 u64 littleEndian

variable {r r' : Reader}

/-- Looking a code up in a table that lists every entry finds the entry with that code. -/
theorem find?_code_eq_some {α : Type} {code : α → UInt8} {all : List α} {c : UInt8} {a : α}
    (hall : ∀ a, all.find? (code · = code a) = some a) :
    all.find? (code · = c) = some a ↔ c = code a := by
  constructor
  · intro h
    simpa [eq_comm] using List.find?_some h
  · rintro rfl
    exact hall a

theorem Operator.ofCode?_eq_some {c : UInt8} {op : Operator} :
    ofCode? c = some op ↔ c = op.code :=
  find?_code_eq_some (fun op => by cases op <;> rfl)

theorem OperandType.ofCode?_eq_some {c : UInt8} {t : OperandType} :
    ofCode? c = some t ↔ c = t.code :=
  find?_code_eq_some (fun t => by cases t <;> rfl)

theorem OperandType.code_inj {s t : OperandType} : s.code = t.code ↔ s = t := by
  rw [← ofCode?_eq_some, ofCode?_eq_some.2 rfl, Option.some_inj]

theorem FormatType.ofCode?_eq_some {c : UInt8} {t : FormatType} :
    ofCode? c = some t ↔ c = t.code :=
  find?_code_eq_some (fun t => by cases t <;> rfl)

namespace Operand

def height : Operand → Nat
  | nested _ _ _ l _ _ r => max l.height r.height + 1
  | _ => 0

end Operand

namespace Expr

def nesting (e : Expr) : Nat := max e.left.value.height e.right.value.height

theorem height_toOperand (e : Expr) : e.toOperand.height = e.nesting + 1 := rfl

/-! ### The flag byte -/

set_option maxRecDepth 4096 in
theorem flags_split (flags : UInt8) (h : flags &&& 0xc0 = 0) :
    typeFlags (flags &&& 0x15) ((flags >>> 1) &&& 0x15) = flags := by
  cases flags with
  | ofBitVec flags =>
    cases flags with
    | ofFin flags =>
      revert flags
      decide

theorem typeFlags_code (s t : OperandType) :
    typeFlags s.code t.code &&& 0xc0 = 0 ∧ typeFlags s.code t.code &&& 0x15 = s.code ∧
      (typeFlags s.code t.code >>> 1) &&& 0x15 = t.code := by
  cases s <;> cases t <;> decide

/-- The flag byte of two types is the one byte from which they are read. -/
theorem eq_typeFlags {flags : UInt8} {s t : OperandType} : flags = typeFlags s.code t.code ↔
    flags &&& 0xc0 = 0 ∧ flags &&& 0x15 = s.code ∧ (flags >>> 1) &&& 0x15 = t.code := by
  constructor
  · rintro rfl
    exact typeFlags_code s t
  · rintro ⟨h, hs, ht⟩
    rw [← hs, ← ht, flags_split flags h]

theorem decodeType_ok {c : UInt8} {t : OperandType} :
    decodeType c r = .ok t r' ↔ c = t.code ∧ r = r' := by
  rw [← OperandType.ofCode?_eq_some, decodeType]
  cases OperandType.ofCode? c with
  | none => simp
  | some s => simp

/-! ### Sides and nodes -/

def encodeSide (s : Side) : Encoded := s.value.encodeSide s.type s.pos s.value.encode

theorem spans_encodeSide {s : Side} : (encodeSide s).Spans r r' ↔
    (∃ t, s.type = OperandType.code t ∧ s.value.fits t = true) ∧
      (u64 s.pos ++ s.value.encode).Spans r r' := by
  have hfit : ((OperandType.ofCode? s.type).map s.value.fits).getD false = true ↔
      ∃ t, s.type = OperandType.code t ∧ s.value.fits t = true := by
    simp only [← OperandType.ofCode?_eq_some]
    cases OperandType.ofCode? s.type <;> simp
  rw [← hfit]
  unfold encodeSide Operand.encodeSide
  split
  · rename_i hv
    simp [hv, Operand.encode]
  · rename_i hv
    simp [hv, Operand.encode]
  · split_ifs with h
    · exact (and_iff_right h).symm
    · simp [h]

theorem spans_encode {e : Expr} : e.encode.Spans r r' ↔ (∃ op, e.op = Operator.code op) ∧
    (u8 e.op ++ (u8 (typeFlags e.left.type e.right.type) ++
      (encodeSide e.left ++ encodeSide e.right))).Spans r r' := by
  have hop : (∃ op, Operator.ofCode? e.op = some op) ↔ ∃ op, e.op = Operator.code op := by
    simp only [Operator.ofCode?_eq_some]
  rw [← hop, ← append_assoc]
  change (Operand.encodeNode e.op e.left.type e.right.type (encodeSide e.left)
    (encodeSide e.right)).Spans r r' ↔ _
  unfold Operand.encodeNode
  cases Operator.ofCode? e.op with
  | none => simp
  | some op => exact (and_iff_right ⟨op, rfl⟩).symm

/-- A side of a known type that fits is a position and an operand of that type. -/
theorem spans_encodeSide_of_type {t : OperandType} {s : Side} (ht : s.type = t.code) :
    (encodeSide s).Spans r r' ↔
      ∃ m, (u64 s.pos).Spans r m ∧ s.value.fits t = true ∧ s.value.encode.Spans m r' := by
  simp only [spans_encodeSide, ht, OperandType.code_inj, spans_append]
  constructor
  · rintro ⟨⟨u, rfl, hfit⟩, m, hp, hv⟩
    exact ⟨m, hp, hfit, hv⟩
  · rintro ⟨m, hp, hfit, hv⟩
    exact ⟨⟨t, rfl, hfit⟩, m, hp, hv⟩

/-- The operand read after a position fits the type it was read for. -/
theorem decodeSide_ok {nested : Decoder Expr} {levels : Nat} {t : OperandType} {s : Side}
    (hnested : ∀ {r e r'}, nested r = .ok e r' ↔ e.nesting < levels ∧ e.encode.Spans r r') :
    decodeSide nested t r = .ok s r' ↔
      s.type = t.code ∧ s.value.height ≤ levels ∧ (encodeSide s).Spans r r' := by
  constructor
  · intro h
    suffices hs : s.type = t.code ∧ s.value.height ≤ levels ∧
        ∃ m, (u64 s.pos).Spans r m ∧ s.value.fits t = true ∧ s.value.encode.Spans m r' from
      ⟨hs.1, hs.2.1, (spans_encodeSide_of_type hs.1).2 hs.2.2⟩
    cases t with
    | expression =>
      simp only [decodeSide, bind_ok, pure_ok, u64_ok, hnested] at h
      obtain ⟨pos, m, hp, e, m', ⟨hn, he⟩, rfl, rfl⟩ := h
      exact ⟨rfl, hn, m, hp, rfl, he⟩
    | floatConst =>
      simp only [decodeSide, bind_ok, pure_ok, u64_ok, u32_ok] at h
      obtain ⟨pos, m, hp, x, m', hx, v, m'', ⟨rfl, rfl⟩, rfl, rfl⟩ := h
      exact ⟨rfl, Nat.zero_le _, m, hp, rfl, hx⟩
    | floatVar | stringVar | stringConst =>
      simp only [decodeSide, bind_ok, pure_ok, u64_ok, CountedString.decode_ok] at h
      obtain ⟨pos, m, hp, x, m', hx, v, m'', ⟨rfl, rfl⟩, rfl, rfl⟩ := h
      exact ⟨rfl, Nat.zero_le _, m, hp, rfl, hx⟩
  · rintro ⟨ht, hh, hs⟩
    obtain ⟨m, hp, hfit, hv⟩ := (spans_encodeSide_of_type ht).1 hs
    obtain ⟨type, pos, value⟩ := s
    obtain rfl : type = t.code := ht
    refine bind_ok.2 ⟨pos, m, u64_ok.2 hp, ?_⟩
    cases value with
    | missing | invalid | hollow => simp [Operand.encode] at hv
    | float x =>
      obtain rfl : t = .floatConst := of_decide_eq_true hfit
      exact bind_ok.2 ⟨x.bits, r', u32_ok.2 hv, pure_ok.2 ⟨rfl, rfl⟩⟩
    | name x =>
      obtain rfl | rfl : t = .floatVar ∨ t = .stringVar := by simpa [Operand.fits] using hfit
      all_goals exact bind_ok.2 ⟨x, r', CountedString.decode_ok.2 hv, pure_ok.2 ⟨rfl, rfl⟩⟩
    | quoted x =>
      obtain rfl : t = .stringConst := of_decide_eq_true hfit
      exact bind_ok.2 ⟨x, r', CountedString.decode_ok.2 hv, pure_ok.2 ⟨rfl, rfl⟩⟩
    | nested op lt lp l rt rp r₀ =>
      obtain rfl : t = .expression := of_decide_eq_true hfit
      refine bind_ok.2 ⟨⟨op, ⟨lt, lp, l⟩, ⟨rt, rp, r₀⟩⟩, r', hnested.2 ⟨hh, hv⟩, ?_⟩
      exact pure_ok.2 ⟨rfl, rfl⟩

theorem decodeWithin_ok {levels : Nat} {e : Expr} :
    decodeWithin levels r = .ok e r' ↔ e.nesting < levels ∧ e.encode.Spans r r' := by
  induction levels generalizing e r r' with
  | zero => simp [decodeWithin]
  | succ levels ih =>
    have hop (c : UInt8) : ¬ (Operator.ofCode? c).isNone = true ↔ ∃ op, c = Operator.code op := by
      simp only [← Operator.ofCode?_eq_some]
      cases Operator.ofCode? c <;> simp
    have hnest : e.nesting < levels + 1 ↔
        e.left.value.height ≤ levels ∧ e.right.value.height ≤ levels := by
      rw [Nat.lt_succ_iff, nesting, Nat.max_le]
    rw [hnest, spans_encode]
    simp only [decodeWithin, fail_bind, ite_ok, fail_ok, bind_ok, u8_ok, decodeType_ok,
      decodeSide_ok ih, pure_ok, hop, spans_append, and_false, false_or, ne_eq, not_not]
    constructor
    · rintro ⟨op, m₁, hop, flags, m₂, hflags, hvalid, hmask, lt, m₃, ⟨hlt, rfl⟩, rt, m₄,
        ⟨hrt, rfl⟩, left, m₅, ⟨htl, hhl, hl⟩, right, m₆, ⟨htr, hhr, hr⟩, rfl, rfl⟩
      refine ⟨⟨hhl, hhr⟩, hvalid, m₁, hop, m₂, ?_, m₅, hl, hr⟩
      -- the flag byte was read as two types; it is the one byte that is written for them
      rwa [htl, htr, ← eq_typeFlags.2 ⟨hmask, hlt, hrt⟩]
    · rintro ⟨⟨hhl, hhr⟩, hvalid, m₁, hop, m₂, hflags, m₃, hl, hr⟩
      obtain ⟨lt, htl, -⟩ := (spans_encodeSide.1 hl).1
      obtain ⟨rt, htr, -⟩ := (spans_encodeSide.1 hr).1
      rw [htl, htr] at hflags
      obtain ⟨hmask, hlt, hrt⟩ := typeFlags_code lt rt
      exact ⟨e.op, m₁, hop, _, m₂, hflags, hvalid, hmask, lt, m₂, ⟨hlt, rfl⟩, rt, m₂, ⟨hrt, rfl⟩,
        e.left, m₃, ⟨htl, hhl, hl⟩, e.right, r', ⟨htr, hhr, hr⟩, rfl, rfl⟩

theorem decode_ok {limit : Nat} {e : Expr} :
    decode limit r = .ok e r' ↔ e.nesting ≤ limit ∧ e.encode.Spans r r' := by
  rw [decode, decodeWithin_ok, Nat.lt_succ_iff]

theorem u64_zero : u64 0 = u32 0 ++ u32 0 := rfl

@[simp] theorem decode?_ok {limit : Nat} {o : Option Expr} :
    decode? limit r = .ok o r' ↔ (∀ e ∈ o, e.nesting ≤ limit) ∧ (encode? o).Spans r r' := by
  simp only [decode?, fail_bind, ite_ok, fail_ok, bind_ok, u64_ok, pure_ok, decode_ok, expect32_ok,
    and_false, false_or, ne_eq, not_not]
  constructor
  · rintro ⟨flag, m, hflag, ⟨rfl, rfl, rfl⟩ | ⟨-, rfl, e, m₁, ⟨hn, he⟩, _, m₂, h₁, _, m₃, h₂,
      rfl, rfl⟩⟩
    · exact ⟨by simp, hflag⟩
    · refine ⟨by simpa using hn, ?_⟩
      simp only [encode?, u64_zero, spans_append]
      exact ⟨m, hflag, m₁, he, m₂, h₁, h₂⟩
  · rintro ⟨hn, hs⟩
    cases o with
    | none => exact ⟨0, r', hs, Or.inl ⟨rfl, rfl, rfl⟩⟩
    | some e =>
      simp only [encode?, u64_zero, spans_append] at hs
      obtain ⟨m, hflag, m₁, he, m₂, h₁, h₂⟩ := hs
      refine ⟨1, m, hflag, Or.inr ⟨by decide, rfl, e, m₁, ⟨hn e rfl, he⟩, ?_⟩⟩
      exact ⟨(), m₂, h₁, (), r', h₂, rfl, rfl⟩

end Expr

/-! ### Formatting values -/

namespace FormatValue

theorem spans_encode {v : FormatValue} : v.encode.Spans r r' ↔
    ∃ t, v.type = FormatType.code t ∧ v.value.fits t.operandType = true ∧
      (u8 v.type ++ v.value.encode).Spans r r' := by
  simp only [← FormatType.ofCode?_eq_some, encode]
  cases FormatType.ofCode? v.type with
  | none => simp
  | some t =>
    simp only [Option.some_inj, exists_eq_left']
    split
    · rename_i hv
      simp [hv, Operand.encode]
    · rename_i hv
      simp [hv, Operand.encode]
    · split_ifs with h
      · exact (and_iff_right h).symm
      · simp [h]

@[simp] theorem decode_ok {v : FormatValue} : decode r = .ok v r' ↔ v.encode.Spans r r' := by
  simp only [spans_encode, decode, bind_ok, u8_ok, spans_append]
  constructor
  · rintro ⟨tag, m, htag, h⟩
    cases ht : FormatType.ofCode? tag with
    | none => simp [ht] at h
    | some t =>
      cases t with
      | float =>
        simp only [ht, bind_ok, u32_ok, pure_ok] at h
        obtain ⟨x, m', hx, rfl, rfl⟩ := h
        exact ⟨.float, FormatType.ofCode?_eq_some.1 ht, rfl, m, htag, hx⟩
      | variableName | string | stringVariableName =>
        simp only [ht, bind_ok, CountedString.decode_ok, pure_ok] at h
        obtain ⟨x, m', hx, rfl, rfl⟩ := h
        exact ⟨_, FormatType.ofCode?_eq_some.1 ht, rfl, m, htag, hx⟩
  · obtain ⟨tag, value⟩ := v
    rintro ⟨t, htype, hfit, m, htag, hv⟩
    refine ⟨tag, m, htag, ?_⟩
    rw [FormatType.ofCode?_eq_some.2 htype]
    cases value with
    | missing | invalid | hollow => simp [Operand.encode] at hv
    | nested => cases t <;> simp [Operand.fits, FormatType.operandType] at hfit
    | float x =>
      obtain rfl : t = .float := by cases t <;> first | rfl | cases hfit
      exact bind_ok.2 ⟨x.bits, r', u32_ok.2 hv, pure_ok.2 ⟨rfl, rfl⟩⟩
    | name x =>
      obtain rfl | rfl : t = .variableName ∨ t = .stringVariableName := by
        cases t <;> simp [Operand.fits, FormatType.operandType] at hfit ⊢
      all_goals exact bind_ok.2 ⟨x, r', CountedString.decode_ok.2 hv, pure_ok.2 ⟨rfl, rfl⟩⟩
    | quoted x =>
      obtain rfl : t = .string := by cases t <;> first | rfl | cases hfit
      exact bind_ok.2 ⟨x, r', CountedString.decode_ok.2 hv, pure_ok.2 ⟨rfl, rfl⟩⟩

theorem decodeNext_some {v : FormatValue} :
    decodeNext r = .ok (some v) r' ↔ (u8 0 ++ v.encode).Spans r r' := by
  simp only [decodeNext, fail_bind, ite_ok, fail_ok, bind_ok, u8_ok, decode_ok, pure_ok,
    spans_append, and_false, Option.some_inj, reduceCtorEq, false_and, or_false]
  constructor
  · rintro ⟨lead, m, hlead, rfl, v', m', hv, rfl, rfl⟩
    exact ⟨m, hlead, hv⟩
  · rintro ⟨m, hlead, hv⟩
    exact ⟨0, m, hlead, rfl, v, r', hv, rfl, rfl⟩

theorem decodeNext_none : decodeNext r = .ok none r' ↔ (u8 0xff).Spans r r' := by
  simp only [decodeNext, fail_bind, ite_ok, fail_ok, bind_ok, u8_ok, decode_ok, pure_ok,
    and_false, false_or, reduceCtorEq, false_and, exists_false, ne_eq, not_not]
  constructor
  · rintro ⟨lead, m, hlead, -, rfl, -, rfl⟩
    exact hlead
  · intro h
    exact ⟨0xff, r', h, by decide, rfl, trivial, rfl⟩

theorem decodeList_ok {fuel : Nat} {vs : List FormatValue} (hr : r.rest.length < fuel) :
    decodeList fuel r = .ok vs r' ↔ (encodeList vs).Spans r r' := by
  have hlist {vs : List FormatValue} {m : Reader} : listUntilEnd decodeNext fuel r = .ok vs m ↔
      (concat (vs.map fun v => u8 0 ++ v.encode) ++ u8 0xff).Spans r m := by
    have hitem {r v r'} : decodeNext r = .ok (some v) r' ↔
        True ∧ (u8 0 ++ v.encode).Spans r r' := by
      rw [decodeNext_some, true_and]
    rw [recordList_ok (fun _ => hitem) (fun _ => decodeNext_none) Spans.length_lt hr]
    exact and_iff_right fun _ _ => trivial
  have hend : bytes [0xff, 0xff] = u8 0xff ++ u8 0xff := rfl
  rw [encodeList, hend, ← append_assoc, spans_append]
  simp only [decodeList, fail_bind, ite_ok, fail_ok, bind_ok, hlist, u8_ok, pure_ok, and_false,
    false_or, ne_eq, not_not]
  constructor
  · rintro ⟨vs, m, hvs, last, m', hlast, rfl, rfl, rfl⟩
    exact ⟨m, hvs, hlast⟩
  · rintro ⟨m, hvs, hlast⟩
    exact ⟨vs, m, hvs, 0xff, r', hlast, rfl, rfl, rfl⟩

end FormatValue

end ApeScript
