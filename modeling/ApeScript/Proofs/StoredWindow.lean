import ApeScript.Proofs.StoredExpr
import ApeScript.Window.Codec

/-!
# Stored window commands

One equivalence for each of the twelve payloads: the decoder for a code accepts exactly the
payloads of the commands of that kind. They are joined in `Command.decodeNext_some`, which says
that a command is read exactly where its own encoding stands, as long as its expressions are
shallow enough to be read.
-/

namespace ApeScript

open Encoded
open Decoder hiding bytes u8 u16 u32 u64 littleEndian

variable {r r' : Reader} {fuel limit : Nat}

namespace Area

def exprs (a : Area) : List Expr :=
  a.x.toList ++ (a.y.toList ++ (a.width.toList ++ a.height.toList))

theorem forall_mem_exprs {a : Area} {P : Expr → Prop} : (∀ e ∈ a.exprs, P e) ↔
    (∀ e ∈ a.x.toList, P e) ∧ (∀ e ∈ a.y.toList, P e) ∧ (∀ e ∈ a.width.toList, P e) ∧
      ∀ e ∈ a.height.toList, P e := by
  simp only [exprs, List.forall_mem_append]

theorem decode_ok {a : Area} :
    decode limit r = .ok a r' ↔ (∀ e ∈ a.exprs, e.nesting ≤ limit) ∧ a.encode.Spans r r' := by
  simp only [decode, bind_ok, pure_ok, Expr.decode?_ok, encode, forall_mem_exprs, spans_append,
    Option.mem_toList]
  constructor
  · rintro ⟨x, m₁, ⟨hx, sx⟩, y, m₂, ⟨hy, sy⟩, w, m₃, ⟨hw, sw⟩, h, m₄, ⟨hh, sh⟩, rfl, rfl⟩
    exact ⟨⟨hx, hy, hw, hh⟩, m₁, sx, m₂, sy, m₃, sw, sh⟩
  · rintro ⟨⟨hx, hy, hw, hh⟩, m₁, sx, m₂, sy, m₃, sw, sh⟩
    exact ⟨_, m₁, ⟨hx, sx⟩, _, m₂, ⟨hy, sy⟩, _, m₃, ⟨hw, sw⟩, _, r', ⟨hh, sh⟩, rfl, rfl⟩

end Area

namespace CamParams

theorem decode_ok {p : CamParams} : decode r = .ok p r' ↔ p.encode.Spans r r' := by
  simp only [decode, bind_ok, pure_ok, u16_ok, encode, toList, List.map_cons, List.map_nil,
    concat_cons, concat_nil, append_empty, spans_append]
  constructor
  · rintro ⟨_, m₁, s₁, _, m₂, s₂, _, m₃, s₃, _, m₄, s₄, _, m₅, s₅, _, m₆, s₆, _, m₇, s₇, _, m₈, s₈,
      _, m₉, s₉, _, m₁₀, s₁₀, _, m₁₁, s₁₁, _, m₁₂, s₁₂, rfl, rfl⟩
    exact ⟨m₁, s₁, m₂, s₂, m₃, s₃, m₄, s₄, m₅, s₅, m₆, s₆, m₇, s₇, m₈, s₈, m₉, s₉, m₁₀, s₁₀, m₁₁,
      s₁₁, s₁₂⟩
  · rintro ⟨m₁, s₁, m₂, s₂, m₃, s₃, m₄, s₄, m₅, s₅, m₆, s₆, m₇, s₇, m₈, s₈, m₉, s₉, m₁₀, s₁₀, m₁₁,
      s₁₁, s₁₂⟩
    exact ⟨_, m₁, s₁, _, m₂, s₂, _, m₃, s₃, _, m₄, s₄, _, m₅, s₅, _, m₆, s₆, _, m₇, s₇, _, m₈, s₈,
      _, m₉, s₉, _, m₁₀, s₁₀, _, m₁₁, s₁₁, _, r', s₁₂, rfl, rfl⟩

end CamParams

namespace Command

def exprs : Command → List Expr
  | formattedText _ condition _ _ => condition.toList
  | dimensions area => area.exprs
  | image i => i.condition.toList ++ i.area.exprs
  | choice condition _ _ _ => condition.toList
  | print p => p.x.toList ++ (p.y.toList ++ (p.alpha.toList ++ (p.red.toList ++
      (p.green.toList ++ (p.blue.toList ++ p.condition.toList)))))
  | _ => []

/-- The payload of a command stands between two readers, and no expression of it is nested deeper
than `limit`. -/
def Between (limit : Nat) (c : Command) (r r' : Reader) : Prop :=
  (∀ e ∈ c.exprs, e.nesting ≤ limit) ∧ c.encodeBody.Spans r r'

/-! ### Payloads -/

variable {c : Command} {code : UInt8}

theorem between_switchRef {label : Label} : (switchRef code label).Between limit r r' ↔
    CommandCode.isSwitchRef code = true ∧ (u32 label).Spans r r' := by
  simp only [Between, exprs, encodeBody]
  split_ifs with hc <;> simp [hc]

theorem decodeBody_switchRef (hc : CommandCode.isSwitchRef code = true) :
    decodeBody fuel limit code r = .ok c r' ↔
      (∃ label, c = switchRef code label) ∧ c.Between limit r r' := by
  simp only [decodeBody, hc, ↓reduceIte, bind_ok, pure_ok, u32_ok]
  constructor
  · rintro ⟨label, m, hl, rfl, rfl⟩
    exact ⟨⟨label, rfl⟩, between_switchRef.2 ⟨hc, hl⟩⟩
  · rintro ⟨⟨label, rfl⟩, hs⟩
    exact ⟨label, r', (between_switchRef.1 hs).2, rfl, rfl⟩

theorem between_simpleText {text : Bytes} : (simpleText code text).Between limit r r' ↔
    CommandCode.isSimpleText code = true ∧ (CountedString.encode text).Spans r r' := by
  simp only [Between, exprs, encodeBody]
  split_ifs with hc <;> simp [hc]

theorem decodeBody_simpleText (hc : CommandCode.isSimpleText code = true) :
    decodeBody fuel limit code r = .ok c r' ↔
      (∃ text, c = simpleText code text) ∧ c.Between limit r r' := by
  have hn : CommandCode.isSwitchRef code = false := by
    simp only [CommandCode.isSimpleText, Bool.or_eq_true, decide_eq_true_eq] at hc
    rcases hc with (((rfl | rfl) | rfl) | rfl) | rfl <;> rfl
  simp only [decodeBody, hn, hc, Bool.false_eq_true, ↓reduceIte, bind_ok, pure_ok,
    CountedString.decode_ok]
  constructor
  · rintro ⟨text, m, ht, rfl, rfl⟩
    exact ⟨⟨text, rfl⟩, between_simpleText.2 ⟨hc, ht⟩⟩
  · rintro ⟨⟨text, rfl⟩, hs⟩
    exact ⟨text, r', (between_simpleText.1 hs).2, rfl, rfl⟩

theorem between_formattedText {condition : Option Expr} {text : Bytes} {format : List FormatValue} :
    (formattedText code condition text format).Between limit r r' ↔
      CommandCode.isFormattedText code = true ∧ (∀ e ∈ condition, e.nesting ≤ limit) ∧
        (Expr.encode? condition ++
          (CountedString.encode text ++ FormatValue.encodeList format)).Spans r r' := by
  simp only [Between, exprs, encodeBody, Option.mem_toList]
  split_ifs with hc
  · exact (and_iff_right hc).symm
  · simp [hc]

theorem decodeBody_formattedText (hc : CommandCode.isFormattedText code = true)
    (hr : r.rest.length < fuel) : decodeBody fuel limit code r = .ok c r' ↔
      (∃ condition text format, c = formattedText code condition text format) ∧
        c.Between limit r r' := by
  have hn : CommandCode.isSwitchRef code = false ∧ CommandCode.isSimpleText code = false := by
    simp only [CommandCode.isFormattedText, Bool.or_eq_true, decide_eq_true_eq] at hc
    rcases hc with rfl | rfl <;> exact ⟨rfl, rfl⟩
  simp only [decodeBody, hn, hc, Bool.false_eq_true, ↓reduceIte, bind_ok, pure_ok,
    Expr.decode?_ok, CountedString.decode_ok]
  constructor
  · rintro ⟨o, m₁, ⟨ho, so⟩, t, m₂, st, f, m₃, hf, rfl, rfl⟩
    have sf := (FormatValue.decodeList_ok (st.lt_of_lt (so.lt_of_lt hr))).1 hf
    refine ⟨⟨o, t, f, rfl⟩, between_formattedText.2 ⟨hc, ho, ?_⟩⟩
    simp only [spans_append]
    exact ⟨m₁, so, m₂, st, sf⟩
  · rintro ⟨⟨o, t, f, rfl⟩, hs⟩
    obtain ⟨-, ho, hs⟩ := between_formattedText.1 hs
    simp only [spans_append] at hs
    obtain ⟨m₁, so, m₂, st, sf⟩ := hs
    have hf := (FormatValue.decodeList_ok (st.lt_of_lt (so.lt_of_lt hr))).2 sf
    exact ⟨o, m₁, ⟨ho, so⟩, t, m₂, st, f, r', hf, rfl, rfl⟩

theorem decodeBody_choice (hr : r.rest.length < fuel) :
    decodeBody fuel limit CommandCode.choice r = .ok c r' ↔
      (∃ condition text format label, c = choice condition text format label) ∧
        c.Between limit r r' := by
  simp +decide only [decodeBody, ↓reduceIte, bind_ok, pure_ok, Expr.decode?_ok,
    CountedString.decode_ok, u32_ok]
  constructor
  · rintro ⟨o, m₁, ⟨ho, so⟩, t, m₂, st, f, m₃, hf, l, m₄, sl, rfl, rfl⟩
    have sf := (FormatValue.decodeList_ok (st.lt_of_lt (so.lt_of_lt hr))).1 hf
    simp only [Between, exprs, encodeBody, spans_append, Option.mem_toList]
    exact ⟨⟨o, t, f, l, rfl⟩, ho, m₁, so, m₂, st, m₃, sf, sl⟩
  · rintro ⟨⟨o, t, f, l, rfl⟩, hs⟩
    simp only [Between, exprs, encodeBody, spans_append, Option.mem_toList] at hs
    obtain ⟨ho, m₁, so, m₂, st, m₃, sf, sl⟩ := hs
    have hf := (FormatValue.decodeList_ok (st.lt_of_lt (so.lt_of_lt hr))).2 sf
    exact ⟨o, m₁, ⟨ho, so⟩, t, m₂, st, f, m₃, hf, l, r', sl, rfl, rfl⟩

theorem decodeBody_background : decodeBody fuel limit CommandCode.background r = .ok c r' ↔
    (∃ corners, c = background corners) ∧ c.Between limit r r' := by
  simp +decide only [decodeBody, ↓reduceIte, bind_ok, pure_ok, u32_ok]
  constructor
  · rintro ⟨_, m₁, s₁, _, m₂, s₂, _, m₃, s₃, _, m₄, s₄, rfl, rfl⟩
    simp only [Between, exprs, encodeBody, spans_append]
    exact ⟨⟨_, rfl⟩, by simp, m₁, s₁, m₂, s₂, m₃, s₃, s₄⟩
  · rintro ⟨⟨corners, rfl⟩, hs⟩
    simp only [Between, exprs, encodeBody, spans_append] at hs
    obtain ⟨-, m₁, s₁, m₂, s₂, m₃, s₃, s₄⟩ := hs
    exact ⟨_, m₁, s₁, _, m₂, s₂, _, m₃, s₃, _, r', s₄, rfl, rfl⟩

theorem decodeBody_dimensions : decodeBody fuel limit CommandCode.dimensions r = .ok c r' ↔
    (∃ area, c = dimensions area) ∧ c.Between limit r r' := by
  simp +decide only [decodeBody, ↓reduceIte, bind_ok, pure_ok, Area.decode_ok]
  constructor
  · rintro ⟨area, m, ha, rfl, rfl⟩
    exact ⟨⟨area, rfl⟩, ha⟩
  · rintro ⟨⟨area, rfl⟩, ha⟩
    exact ⟨area, r', ha, rfl, rfl⟩

theorem decodeBody_subWindow : decodeBody fuel limit CommandCode.subWindow r = .ok c r' ↔
    (∃ label, c = subWindow label) ∧ c.Between limit r r' := by
  simp +decide only [decodeBody, ↓reduceIte, bind_ok, pure_ok, u32_ok, expect32_ok]
  constructor
  · rintro ⟨_, m₁, s₁, _, m₂, s₂, label, m₃, s₃, rfl, rfl⟩
    simp only [Between, exprs, encodeBody, spans_append]
    exact ⟨⟨label, rfl⟩, by simp, m₁, s₁, m₂, s₂, s₃⟩
  · rintro ⟨⟨label, rfl⟩, hs⟩
    simp only [Between, exprs, encodeBody, spans_append] at hs
    obtain ⟨-, m₁, s₁, m₂, s₂, s₃⟩ := hs
    exact ⟨(), m₁, s₁, (), m₂, s₂, label, r', s₃, rfl, rfl⟩

theorem decodeBody_image : decodeBody fuel limit CommandCode.image r = .ok c r' ↔
    (∃ i, c = image i) ∧ c.Between limit r r' := by
  simp +decide only [decodeBody, ↓reduceIte, bind_ok, pure_ok, u32_ok, Expr.decode?_ok,
    CountedString.decode_ok, Area.decode_ok]
  constructor
  · rintro ⟨o, m₁, ⟨ho, so⟩, file, m₂, sf, area, m₃, ⟨ha, sa⟩, bits, m₄, sb, rfl, rfl⟩
    simp only [Between, exprs, encodeBody, spans_append, List.forall_mem_append, Option.mem_toList]
    exact ⟨⟨_, rfl⟩, ⟨ho, ha⟩, m₁, so, m₂, sf, m₃, sa, sb⟩
  · rintro ⟨⟨i, rfl⟩, hs⟩
    simp only [Between, exprs, encodeBody, spans_append, List.forall_mem_append,
      Option.mem_toList] at hs
    obtain ⟨⟨ho, ha⟩, m₁, so, m₂, sf, m₃, sa, sb⟩ := hs
    exact ⟨_, m₁, ⟨ho, so⟩, _, m₂, sf, _, m₃, ⟨ha, sa⟩, _, r', sb, rfl, rfl⟩

theorem decodeBody_flags : decodeBody fuel limit CommandCode.flags r = .ok c r' ↔
    (∃ bits, c = flags bits) ∧ c.Between limit r r' := by
  simp +decide only [decodeBody, ↓reduceIte, bind_ok, pure_ok, u32_ok]
  constructor
  · rintro ⟨bits, m, hb, rfl, rfl⟩
    exact ⟨⟨bits, rfl⟩, by simp [exprs], hb⟩
  · rintro ⟨⟨bits, rfl⟩, -, hb⟩
    exact ⟨bits, r', hb, rfl, rfl⟩

theorem decodeBody_cam : decodeBody fuel limit CommandCode.cam r = .ok c r' ↔
    (∃ k, c = cam k) ∧ c.Between limit r r' := by
  simp +decide only [decodeBody, ↓reduceIte, bind_ok, pure_ok, CountedString.decode_ok,
    CountedString.decode?_ok, CamParams.decode_ok]
  constructor
  · rintro ⟨_, m₁, s₁, _, m₂, s₂, _, m₃, s₃, _, m₄, s₄, _, m₅, s₅, rfl, rfl⟩
    simp only [Between, exprs, encodeBody, spans_append]
    exact ⟨⟨_, rfl⟩, by simp, m₁, s₁, m₂, s₂, m₃, s₃, m₄, s₄, s₅⟩
  · rintro ⟨⟨k, rfl⟩, hs⟩
    simp only [Between, exprs, encodeBody, spans_append] at hs
    obtain ⟨-, m₁, s₁, m₂, s₂, m₃, s₃, m₄, s₄, s₅⟩ := hs
    exact ⟨_, m₁, s₁, _, m₂, s₂, _, m₃, s₃, _, m₄, s₄, _, r', s₅, rfl, rfl⟩

theorem decodeBody_talk : decodeBody fuel limit CommandCode.talk r = .ok c r' ↔
    (∃ t, c = talk t) ∧ c.Between limit r r' := by
  simp +decide only [decodeBody, ↓reduceIte, bind_ok, pure_ok, u32_ok, CountedString.decode_ok,
    CountedString.decode?_ok]
  constructor
  · rintro ⟨_, m₁, s₁, _, m₂, s₂, _, m₃, s₃, _, m₄, s₄, _, m₅, s₅, _, m₆, s₆, rfl, rfl⟩
    simp only [Between, exprs, encodeBody, spans_append]
    exact ⟨⟨_, rfl⟩, by simp, m₁, s₁, m₂, s₂, m₃, s₃, m₄, s₄, m₅, s₅, s₆⟩
  · rintro ⟨⟨t, rfl⟩, hs⟩
    simp only [Between, exprs, encodeBody, spans_append] at hs
    obtain ⟨-, m₁, s₁, m₂, s₂, m₃, s₃, m₄, s₄, m₅, s₅, s₆⟩ := hs
    exact ⟨_, m₁, s₁, _, m₂, s₂, _, m₃, s₃, _, m₄, s₄, _, m₅, s₅, _, r', s₆, rfl, rfl⟩

theorem decodeBody_print (hr : r.rest.length < fuel) :
    decodeBody fuel limit CommandCode.xyPrint r = .ok c r' ↔
      (∃ p, c = print p) ∧ c.Between limit r r' := by
  simp +decide only [decodeBody, ↓reduceIte, bind_ok, pure_ok, Expr.decode?_ok,
    CountedString.decode_ok, CountedString.decode?_ok]
  constructor
  · rintro ⟨_, m₁, ⟨h₁, s₁⟩, _, m₂, ⟨h₂, s₂⟩, _, m₃, ⟨h₃, s₃⟩, _, m₄, ⟨h₄, s₄⟩, _, m₅, ⟨h₅, s₅⟩,
      _, m₆, ⟨h₆, s₆⟩, _, m₇, s₇, _, m₈, s₈, _, m₉, ⟨h₉, s₉⟩, _, m₁₀, hf, rfl, rfl⟩
    have hm : m₉.rest.length < fuel := s₉.lt_of_lt <| s₈.lt_of_lt <| s₇.lt_of_lt <|
      s₆.lt_of_lt <| s₅.lt_of_lt <| s₄.lt_of_lt <| s₃.lt_of_lt <| s₂.lt_of_lt <| s₁.lt_of_lt hr
    have sf := (FormatValue.decodeList_ok hm).1 hf
    simp only [Between, exprs, encodeBody, spans_append, List.forall_mem_append, Option.mem_toList]
    exact ⟨⟨_, rfl⟩, ⟨h₁, h₂, h₃, h₄, h₅, h₆, h₉⟩, m₁, s₁, m₂, s₂, m₃, s₃, m₄, s₄, m₅, s₅, m₆, s₆,
      m₇, s₇, m₈, s₈, m₉, s₉, sf⟩
  · rintro ⟨⟨p, rfl⟩, hs⟩
    simp only [Between, exprs, encodeBody, spans_append, List.forall_mem_append,
      Option.mem_toList] at hs
    obtain ⟨⟨h₁, h₂, h₃, h₄, h₅, h₆, h₉⟩, m₁, s₁, m₂, s₂, m₃, s₃, m₄, s₄, m₅, s₅, m₆, s₆, m₇, s₇,
      m₈, s₈, m₉, s₉, sf⟩ := hs
    have hm : m₉.rest.length < fuel := s₉.lt_of_lt <| s₈.lt_of_lt <| s₇.lt_of_lt <|
      s₆.lt_of_lt <| s₅.lt_of_lt <| s₄.lt_of_lt <| s₃.lt_of_lt <| s₂.lt_of_lt <| s₁.lt_of_lt hr
    have hf := (FormatValue.decodeList_ok hm).2 sf
    exact ⟨_, m₁, ⟨h₁, s₁⟩, _, m₂, ⟨h₂, s₂⟩, _, m₃, ⟨h₃, s₃⟩, _, m₄, ⟨h₄, s₄⟩, _, m₅, ⟨h₅, s₅⟩, _,
      m₆, ⟨h₆, s₆⟩, _, m₇, s₇, _, m₈, s₈, _, m₉, ⟨h₉, s₉⟩, _, r', hf, rfl, rfl⟩

/-! ### Commands -/

/-- Every code leads to the payload of its own kind, and a code of no kind is refused. -/
theorem code_of_decodeBody (hr : r.rest.length < fuel)
    (h : decodeBody fuel limit code r = .ok c r') : c.code = code ∧ c.Between limit r r' := by
  by_cases h₁ : CommandCode.isSwitchRef code = true
  · obtain ⟨⟨label, rfl⟩, hs⟩ := (decodeBody_switchRef h₁).1 h
    exact ⟨rfl, hs⟩
  by_cases h₂ : CommandCode.isSimpleText code = true
  · obtain ⟨⟨text, rfl⟩, hs⟩ := (decodeBody_simpleText h₂).1 h
    exact ⟨rfl, hs⟩
  by_cases h₃ : CommandCode.isFormattedText code = true
  · obtain ⟨⟨condition, text, format, rfl⟩, hs⟩ := (decodeBody_formattedText h₃ hr).1 h
    exact ⟨rfl, hs⟩
  by_cases h₄ : code = CommandCode.choice
  · subst h₄
    obtain ⟨⟨condition, text, format, label, rfl⟩, hs⟩ := (decodeBody_choice hr).1 h
    exact ⟨rfl, hs⟩
  by_cases h₅ : code = CommandCode.background
  · subst h₅
    obtain ⟨⟨corners, rfl⟩, hs⟩ := decodeBody_background.1 h
    exact ⟨rfl, hs⟩
  by_cases h₆ : code = CommandCode.dimensions
  · subst h₆
    obtain ⟨⟨area, rfl⟩, hs⟩ := decodeBody_dimensions.1 h
    exact ⟨rfl, hs⟩
  by_cases h₇ : code = CommandCode.subWindow
  · subst h₇
    obtain ⟨⟨label, rfl⟩, hs⟩ := decodeBody_subWindow.1 h
    exact ⟨rfl, hs⟩
  by_cases h₈ : code = CommandCode.image
  · subst h₈
    obtain ⟨⟨i, rfl⟩, hs⟩ := decodeBody_image.1 h
    exact ⟨rfl, hs⟩
  by_cases h₉ : code = CommandCode.flags
  · subst h₉
    obtain ⟨⟨bits, rfl⟩, hs⟩ := decodeBody_flags.1 h
    exact ⟨rfl, hs⟩
  by_cases h₁₀ : code = CommandCode.cam
  · subst h₁₀
    obtain ⟨⟨k, rfl⟩, hs⟩ := decodeBody_cam.1 h
    exact ⟨rfl, hs⟩
  by_cases h₁₁ : code = CommandCode.xyPrint
  · subst h₁₁
    obtain ⟨⟨p, rfl⟩, hs⟩ := (decodeBody_print hr).1 h
    exact ⟨rfl, hs⟩
  by_cases h₁₂ : code = CommandCode.talk
  · subst h₁₂
    obtain ⟨⟨t, rfl⟩, hs⟩ := decodeBody_talk.1 h
    exact ⟨rfl, hs⟩
  simp only [decodeBody, h₁, h₂, h₃, h₄, h₅, h₆, h₇, h₈, h₉, h₁₀, h₁₁, h₁₂, Bool.false_eq_true,
    ↓reduceIte, fail_ok] at h

-- The kinds that stand for several codes check their code on writing, which `h` has passed.
theorem decodeBody_code (hr : r.rest.length < fuel) (h : c.Between limit r r') :
    decodeBody fuel limit c.code r = .ok c r' := by
  cases c with
  | formattedText code o t f =>
    exact (decodeBody_formattedText (between_formattedText.1 h).1 hr).2 ⟨⟨o, t, f, rfl⟩, h⟩
  | talk t => exact decodeBody_talk.2 ⟨⟨t, rfl⟩, h⟩
  | dimensions area => exact decodeBody_dimensions.2 ⟨⟨area, rfl⟩, h⟩
  | image i => exact decodeBody_image.2 ⟨⟨i, rfl⟩, h⟩
  | flags bits => exact decodeBody_flags.2 ⟨⟨bits, rfl⟩, h⟩
  | subWindow label => exact decodeBody_subWindow.2 ⟨⟨label, rfl⟩, h⟩
  | choice o t f label => exact (decodeBody_choice hr).2 ⟨⟨o, t, f, label, rfl⟩, h⟩
  | simpleText code t =>
    exact (decodeBody_simpleText (between_simpleText.1 h).1).2 ⟨⟨t, rfl⟩, h⟩
  | print p => exact (decodeBody_print hr).2 ⟨⟨p, rfl⟩, h⟩
  | switchRef code label =>
    exact (decodeBody_switchRef (between_switchRef.1 h).1).2 ⟨⟨label, rfl⟩, h⟩
  | background corners => exact decodeBody_background.2 ⟨⟨corners, rfl⟩, h⟩
  | cam k => exact decodeBody_cam.2 ⟨⟨k, rfl⟩, h⟩
  | blank => exact absurd h.2 not_spans_refused

theorem spans_encode : c.encode.Spans r r' ↔ (u8 c.code ++ c.encodeBody).Spans r r' := by
  cases c <;> simp [encode, encodeBody]

/-- The end code starts no command. -/
theorem code_ne_end (hr : r.rest.length < fuel) (h : c.Between limit r r') :
    c.code ≠ CommandCode.end := by
  intro he
  have hd := decodeBody_code hr h
  rw [he] at hd
  simp +decide only [decodeBody, ↓reduceIte, fail_ok] at hd

theorem decodeNext_some (hr : r.rest.length < fuel) : decodeNext fuel limit r = .ok (some c) r' ↔
    (∀ e ∈ c.exprs, e.nesting ≤ limit) ∧ c.encode.Spans r r' := by
  simp only [decodeNext, ite_ok, bind_ok, u8_ok, pure_ok, spans_encode, spans_append, reduceCtorEq,
    false_and, and_false, false_or, Option.some_inj]
  constructor
  · rintro ⟨code, m, hcode, -, c', m', hc, rfl, rfl⟩
    obtain ⟨rfl, he, hs⟩ := code_of_decodeBody (hcode.lt_of_lt hr) hc
    exact ⟨he, m, hcode, hs⟩
  · rintro ⟨he, m, hcode, hs⟩
    have hm := hcode.lt_of_lt hr
    exact ⟨c.code, m, hcode, code_ne_end hm ⟨he, hs⟩, c, r', decodeBody_code hm ⟨he, hs⟩, rfl, rfl⟩

theorem decodeNext_none :
    decodeNext fuel limit r = .ok none r' ↔ (u8 CommandCode.end).Spans r r' := by
  simp only [decodeNext, ite_ok, bind_ok, u8_ok, pure_ok, reduceCtorEq, false_and, and_false,
    exists_false, or_false, true_and]
  constructor
  · rintro ⟨code, m, hcode, rfl, rfl⟩
    exact hcode
  · intro h
    exact ⟨_, r', h, rfl, rfl⟩

end Command

namespace Window

def exprs (w : Window) : List Expr := w.commands.flatMap Command.exprs

theorem decodeCommands_ok {commands : List Command} (hr : r.rest.length < fuel) :
    decodeCommands fuel limit r = .ok commands r' ↔
      (∀ c ∈ commands, ∀ e ∈ c.exprs, e.nesting ≤ limit) ∧ (encodeCommands commands).Spans r r' :=
  recordList_ok Command.decodeNext_some (fun _ => Command.decodeNext_none)
    (fun h => (Command.spans_encode.1 h).length_lt) hr

end Window

end ApeScript
