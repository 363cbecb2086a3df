import ApeScript.File.Validation
import ApeScript.Proofs.StoredFile

/-!
# Reading and writing files

Reading undoes writing, and writing undoes reading up to the zero label that a file may leave out
at its end. The only models that are written and cannot be read again are those with an expression
nested deeper than `Expr.maxNesting`: the limit is checked on reading and not on writing.
-/

namespace ApeScript

open Encoded
open Decoder hiding bytes u8 u16 u32 u64 littleEndian

theorem commonLength_append (d more : Bytes) : commonLength (d ++ more) d = d.length := by
  induction d with
  | nil => simp [commonLength]
  | cons b d ih =>
    simp only [commonLength] at ih
    simp [commonLength, ih]

namespace File

variable {f : File} {d : Bytes}

/-- A model without deeply nested expressions is read back from its encoding. -/
theorem decodeWithLayout_encode (hn : f.NestedWithin Expr.maxNesting) (h : f.encode = .bytes d) :
    ∃ layout, decodeWithLayout d = .ok (f, layout) :=
  decodeWithLayout_ok.2 ⟨hn, Or.inr h⟩

/-- A window with a present but empty string, a condition of two levels and a number that is not
one, and a switch with one statement. -/
def specimen : File where
  windows := [⟨10001,
    [.talk ⟨[119, 97, 118, 101], some [], [97], [], 1, 0⟩,
     .formattedText CommandCode.body
       (some ⟨Operator.and.code,
         ⟨OperandType.expression.code, 5, .nested Operator.eq.code OperandType.stringVar.code 21
           (.name [97, 36]) OperandType.stringConst.code 22 (.quoted [])⟩,
         ⟨OperandType.floatVar.code, 6, .name [98]⟩⟩)
       [72, 105] [⟨FormatType.float.code, .float ⟨0x7fc00001⟩⟩]]⟩]
  switches := [⟨20001, [⟨1, StatementType.echo.code, some [104], [], none⟩]⟩]

theorem decodeWithLayout_encode_specimen : ∃ d layout, specimen.NestedWithin Expr.maxNesting ∧
    specimen.encode = .bytes d ∧ decodeWithLayout d = .ok (specimen, layout) := by
  have hn : specimen.NestedWithin Expr.maxNesting := by decide
  obtain ⟨d, hd⟩ : ∃ d, specimen.encode = .bytes d := ⟨_, rfl⟩
  obtain ⟨layout, h⟩ := decodeWithLayout_encode hn hd
  exact ⟨d, layout, hn, hd, h⟩

/-! ### Files without the last zero label -/

/-- The data stops where the label of one more switch could stand: right after the marker, or right
after the last of some switches. -/
def StopsOpen (d : Bytes) : Prop :=
  ∃ windows switches r r',
    decodeFront (d.length + 1) Expr.maxNesting (.ofBytes d) = .ok windows r ∧
    Sequence (fun s r r' => decodeSwitch (d.length + 1) Expr.maxNesting r = .ok (some s) r')
      switches r r' ∧ r'.atEnd = true

/-- Switches read one after another, without what ends them. -/
theorem switchSequence_ok {ss : List Switch} {r r' : Reader} {fuel limit : Nat}
    (hr : r.rest.length < fuel) :
    (∃ l, l.map (·.2) = ss ∧
      Sequence (fun s r r' => decodeSwitch fuel limit r = .ok (some s) r') l r r') ↔
      (∀ s ∈ ss, ∀ e ∈ s.exprs, e.nesting ≤ limit) ∧ (encodeSwitches ss).Spans r r' := by
  have hraw {l : List (Nat × Switch)} :
      Sequence (fun s r r' => decodeSwitch fuel limit r = .ok (some s) r') l r r' ↔
        Sequence (fun p r r' => p.1 = r.offset + 4 ∧ p.2.Readable limit ∧
          p.2.encode.Spans r r') l r r' :=
    sequence_congr decodeSwitch_some (fun h => h.2.2.length_le) hr
  simp only [hraw]
  rw [sequence_numbered, spans_encodeSwitches]
  simp only [Switch.Readable, forall₂_and, and_assoc]
  exact and_left_comm

theorem stopsOpen_iff : StopsOpen d ↔
    ∃ f : File, f.NestedWithin Expr.maxNesting ∧ f.encodeOpen = .bytes d := by
  have hr : (Reader.ofBytes d).rest.length < d.length + 1 := Nat.lt_succ_self _
  constructor
  · rintro ⟨windows, switches, r, ⟨rest, n⟩, hfront, hswitches, hend⟩
    obtain rfl : rest = [] := List.isEmpty_iff.1 hend
    obtain ⟨hw, hws⟩ := (decodeFront_ok hr).1 ⟨windows, rfl, hfront⟩
    obtain ⟨hs, hss⟩ := (switchSequence_ok (hws.lt_of_lt hr)).1 ⟨switches, rfl, hswitches⟩
    refine ⟨⟨windows.map (·.2), switches.map (·.2)⟩, nestedWithin_iff.2 ⟨hw, hs⟩, ?_⟩
    exact (spans_ofBytes.1 (spans_append.2 ⟨r, hws, hss⟩)).1
  · rintro ⟨f, hn, hopen⟩
    obtain ⟨hw, hs⟩ := nestedWithin_iff.1 hn
    obtain ⟨r, hws, hss⟩ := spans_append.1 (spans_ofBytes.2 ⟨hopen, rfl⟩)
    obtain ⟨windows, -, hfront⟩ := (decodeFront_ok hr).2 ⟨hw, hws⟩
    obtain ⟨switches, -, hswitches⟩ := (switchSequence_ok (hws.lt_of_lt hr)).2 ⟨hs, hss⟩
    exact ⟨windows, switches, r, _, hfront, hswitches, rfl⟩

/-- What is read from open data is what its open encoding stands for. -/
theorem stopsOpen_iff_of_decode (h : decode d = .ok f) :
    StopsOpen d ↔ f.encodeOpen = .bytes d := by
  obtain ⟨hn, hd⟩ := decode_ok.1 h
  rw [stopsOpen_iff]
  constructor
  · rintro ⟨g, -, hg⟩
    rwa [eq_of_encodings hd (Or.inl hg)]
  · exact fun hopen => ⟨f, hn, hopen⟩

theorem encode_of_encodeOpen (h : f.encodeOpen = .bytes d) :
    f.encode = .bytes (d ++ [0, 0, 0, 0]) := by
  rw [encode_eq_encodeOpen, h]
  rfl

/-- Every byte that is read is forced: the model that was read has one encoding, which is the data
it was read from, completed by the zero label if the data lacked it. -/
theorem encode_of_decode (h : decode d = .ok f) :
    (StopsOpen d → f.encode = .bytes (d ++ [0, 0, 0, 0]) ∧
      f.validate d = .error (.differs d.length (d.length + 4) d.length)) ∧
    (¬ StopsOpen d → f.encode = .bytes d ∧ f.validate d = .ok ()) := by
  rw [stopsOpen_iff_of_decode h]
  constructor
  · intro hopen
    have he := encode_of_encodeOpen hopen
    refine ⟨he, ?_⟩
    simp [validate, he, commonLength_append]
  · intro hclosed
    have he := (decode_ok.1 h).2.resolve_left hclosed
    exact ⟨he, by simp [validate, he]⟩

/-- A file that stops right after its only switch, which has no statement. -/
theorem encode_of_decode_switch :
    let d : Bytes := [61, 1, 0, 0, 255, 255, 255, 255, 0, 0, 0, 0, 254, 255, 255, 255, 1, 0, 0, 0,
      0, 0, 0, 0, 0, 0, 0, 0, 69]
    decode d = .ok ⟨[], [⟨1, []⟩]⟩ ∧ StopsOpen d ∧
      (⟨[], [⟨1, []⟩]⟩ : File).encode = .bytes (d ++ [0, 0, 0, 0]) ∧
        (⟨[], [⟨1, []⟩]⟩ : File).validate d = .error (.differs 29 33 29) := by
  intro d
  have h : decode d = .ok ⟨[], [⟨1, []⟩]⟩ := rfl
  have hopen : StopsOpen d :=
    ⟨[], [(20, ⟨1, []⟩)], ⟨d.drop 16, 16⟩, ⟨[], 29⟩, rfl, ⟨_, rfl, rfl⟩, rfl⟩
  exact ⟨h, hopen, (encode_of_decode h).1 hopen⟩

/-! ### Deeply nested expressions -/

/-- A model that is written can be read again exactly when no expression is nested deeper than the
limit, and it is then read back unchanged. -/
theorem decode_encode_iff (h : f.encode = .bytes d) :
    (decode d = .ok f ↔ f.NestedWithin Expr.maxNesting) ∧
      ((∃ g, decode d = .ok g) ↔ f.NestedWithin Expr.maxNesting) := by
  have hread : decode d = .ok f ↔ f.NestedWithin Expr.maxNesting := by
    rw [decode_ok]
    exact and_iff_left (Or.inr h)
  refine ⟨hread, ?_⟩
  constructor
  · rintro ⟨g, hg⟩
    rwa [← hread, eq_of_encodings (Or.inr h) (decode_ok.1 hg).2]
  · exact fun hn => ⟨f, hread.2 hn⟩

/-- Zero, added to zero on the right `levels` times. -/
def tower : (levels : Nat) → Operand
  | 0 => .float .zero
  | levels + 1 => .nested Operator.add.code
      (if levels = 0 then OperandType.floatConst.code else OperandType.expression.code) 5
      (tower levels) OperandType.floatConst.code 6 (.float .zero)

set_option maxRecDepth 4096 in
/-- A window whose horizontal place is nested 65 levels below its root is written, and what is
written cannot be read. -/
theorem decode_encode_iff_tower :
    let x : Option Expr := (tower 66).expr?
    let f : File := ⟨[⟨1, [.dimensions ⟨x, none, none, none⟩]⟩], []⟩
    ∃ d, f.encode = .bytes d ∧ ¬ ∃ g, decode d = .ok g := by
  intro x f
  obtain ⟨d, hd⟩ : ∃ d, f.encode = .bytes d := ⟨_, rfl⟩
  have hdeep : ¬ f.NestedWithin Expr.maxNesting := by decide
  exact ⟨d, hd, fun h => hdeep ((decode_encode_iff hd).2.1 h)⟩

end File

end ApeScript
