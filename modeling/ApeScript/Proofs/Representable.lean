import ApeScript.Proofs.WellFormed

/-!
# What can be written

A model is written exactly if it is `File.Representable`: its parts are numbered, every command and
statement has a code of its own kind, every operand is there and of the kind that its type
announces, and no string is too long. A walk over the model adds up what its parts need
(`Encoded.Needs`). It halts only where an operand is missing, was never filled in, or stands for a
nested expression that is not there.
-/

namespace ApeScript

open Encoded

namespace Operand

/-- The operand, or one nested in it, is missing, was never filled in, or is a nested expression
that is not there. -/
def HasHole : Operand → Prop
  | missing | invalid | hollow => True
  | nested _ _ _ l _ _ r => l.HasHole ∨ r.HasHole
  | _ => False

end Operand

namespace Encoded

variable {e e₁ e₂ : Encoded} {p p₁ p₂ q : Prop} {exprs exprs₁ exprs₂ : List Expr}
  {formats formats₁ formats₂ : List FormatValue} {strings strings₁ strings₂ : List Bytes}
  {α : Type}

/-- The record is a byte string. -/
def Written (e : Encoded) : Prop := ∃ b, e = bytes b

@[simp] theorem written_bytes {b : Bytes} : (bytes b).Written := ⟨b, rfl⟩

@[simp] theorem not_written_refused {x : EncodeError} : ¬ (refused x).Written := by simp [Written]

@[simp] theorem not_written_halted : ¬ halted.Written := by simp [Written]

@[simp] theorem written_append : (e₁ ++ e₂).Written ↔ e₁.Written ∧ e₂.Written := by
  change (append e₁ e₂).Written ↔ _
  cases e₁ <;> cases e₂ <;> simp [append]

@[simp] theorem append_eq_halted : e₁ ++ e₂ = halted ↔ e₁ = halted ∨ e₂ = halted := by
  change append e₁ e₂ = halted ↔ _
  cases e₁ <;> cases e₂ <;> simp [append]

/-- What a record needs to be written: a condition on its codes, and that its expressions and
formatting values are well typed and its strings not too long. It halts only for an operand of
these. -/
structure Needs (e : Encoded) (p : Prop) (exprs : List Expr) (formats : List FormatValue)
    (strings : List Bytes) : Prop where
  written_iff : e.Written ↔ p ∧ (∀ x ∈ exprs, x.toOperand.WellTyped) ∧
    (∀ v ∈ formats, v.WellTyped) ∧ ∀ s ∈ strings, s.length ≤ maxStringLength
  hasHole : e = halted →
    (∃ x ∈ exprs, x.toOperand.HasHole) ∨ ∃ v ∈ formats, v.value.HasHole

theorem needs_bytes {b : Bytes} : (bytes b).Needs True [] [] [] := ⟨by simp, by simp⟩

theorem needs_refused {x : EncodeError} : (refused x).Needs False exprs formats strings :=
  ⟨by simp, by simp⟩

theorem Needs.append (h₁ : e₁.Needs p₁ exprs₁ formats₁ strings₁)
    (h₂ : e₂.Needs p₂ exprs₂ formats₂ strings₂) :
    (e₁ ++ e₂).Needs (p₁ ∧ p₂) (exprs₁ ++ exprs₂) (formats₁ ++ formats₂)
      (strings₁ ++ strings₂) where
  written_iff := by
    simp only [written_append, h₁.written_iff, h₂.written_iff, List.forall_mem_append]
    tauto
  hasHole h := by
    simp only [List.mem_append, or_and_right, exists_or]
    rcases append_eq_halted.1 h with h | h
    · exact (h₁.hasHole h).imp Or.inl Or.inl
    · exact (h₂.hasHole h).imp Or.inr Or.inr

theorem Needs.congr (h : e.Needs p exprs formats strings) (hp : p ↔ q) :
    e.Needs q exprs formats strings := by
  rwa [← propext hp]

/-- The same needs, said in other words. -/
theorem Needs.of_eq (h : e.Needs p exprs₁ formats₁ strings₁) (hp : p ↔ q) (hexprs : exprs₁ = exprs)
    (hformats : formats₁ = formats) (hstrings : strings₁ = strings) :
    e.Needs q exprs formats strings := by
  subst hexprs hformats hstrings
  exact h.congr hp

/-- Fixed bytes before a record need nothing. -/
theorem Needs.bytes_append {b : Bytes} (h : e.Needs p exprs formats strings) :
    (bytes b ++ e).Needs p exprs formats strings :=
  (needs_bytes.append h).congr (by simp)

/-- Nor do fixed bytes after it. -/
theorem Needs.append_bytes {b : Bytes} (h : e.Needs p exprs formats strings) :
    (e ++ bytes b).Needs p exprs formats strings := by
  simpa using h.append (needs_bytes (b := b))

theorem Needs.concat {enc : α → Encoded} {p : α → Prop} {exprs : α → List Expr}
    {formats : α → List FormatValue} {strings : α → List Bytes} {l : List α}
    (h : ∀ a, (enc a).Needs (p a) (exprs a) (formats a) (strings a)) :
    (concat (l.map enc)).Needs (∀ a ∈ l, p a) (l.flatMap exprs) (l.flatMap formats)
      (l.flatMap strings) := by
  induction l with
  | nil => exact needs_bytes.congr (by simp)
  | cons a l ih => exact ((h a).append ih).congr (by simp)

/-- A record that is refused unless its code is right. -/
theorem Needs.guarded [Decidable p] {x : EncodeError} (h : e.Needs q exprs formats strings) :
    (if p then e else refused x).Needs (p ∧ q) exprs formats strings := by
  split_ifs with hp
  · exact h.congr (and_iff_right hp).symm
  · exact needs_refused.congr (by simp [hp])

/-- A record that is refused if its number or type is not allowed. -/
theorem Needs.unless [Decidable p] {x : EncodeError} (h : e.Needs q exprs formats strings) :
    (if p then refused x else e).Needs (¬ p ∧ q) exprs formats strings := by
  rw [← ite_not]
  exact h.guarded

end Encoded

/-! ### Strings, expressions and formatting values -/

theorem CountedString.needs_encode (s : Bytes) : (encode s).Needs True [] [] [s] := by
  unfold encode
  split_ifs with h
  · exact ⟨by simp [h], by simp⟩
  · exact ⟨by simp [Nat.le_of_not_lt h, u32], by simp [u32]⟩

theorem CountedString.needs_encode? (s : Option Bytes) : (encode? s).Needs True [] [] s.toList := by
  cases s with
  | none => exact needs_bytes
  | some s => exact needs_encode s

namespace Operand

variable {type : UInt8} {pos : UInt64} {v : Operand} {payload : Encoded}

theorem fits_ofCode?_iff :
    ((OperandType.ofCode? type).map v.fits).getD false = true ↔ v.Fits type := by
  simp only [Fits, ← OperandType.ofCode?_eq_some]
  cases OperandType.ofCode? type <;> simp

theorem written_encodeSide :
    (encodeSide type pos v payload).Written ↔ v.Fits type ∧ payload.Written := by
  unfold encodeSide
  split
  · simp [Fits, fits]
  · simp [Fits, fits]
  · rw [← fits_ofCode?_iff]
    split_ifs with h <;> simp [h, u64]

theorem hasHole_of_encodeSide (h : encodeSide type pos v payload = .halted)
    (hpayload : payload = .halted → v.HasHole) : v.HasHole := by
  unfold encodeSide at h
  split at h
  · trivial
  · trivial
  · split_ifs at h with hfits
    exact hpayload ((append_eq_halted.1 h).resolve_left (by simp [u64]))

/-- An operand of some type is written exactly if everything below it is right. -/
theorem written_encode (hfits : v.Fits type) :
    v.encode.Written ↔ v.WellTyped ∧ ∀ s ∈ v.strings, s.length ≤ maxStringLength := by
  induction v generalizing type with
  | missing | invalid => simp [Fits, fits] at hfits
  | hollow => simp [encode, WellTyped]
  | float x => simp [encode, WellTyped, strings, u32]
  | name s | quoted s =>
    rw [encode, (CountedString.needs_encode s).written_iff]
    simp [WellTyped, strings]
  | nested op lt lp l rt rp r ihl ihr =>
    have hop : (∃ o, op = Operator.code o) ↔ ∃ o, Operator.ofCode? op = some o := by
      simp only [Operator.ofCode?_eq_some]
    rw [encode, encodeNode, WellTyped, hop, strings, List.forall_mem_append]
    cases Operator.ofCode? op with
    | none => simp
    | some o =>
      have hl : (encodeSide lt lp l l.encode).Written ↔ l.Fits lt ∧ l.WellTyped ∧
          ∀ s ∈ l.strings, s.length ≤ maxStringLength := by
        rw [written_encodeSide]
        exact and_congr_right ihl
      have hr : (encodeSide rt rp r r.encode).Written ↔ r.Fits rt ∧ r.WellTyped ∧
          ∀ s ∈ r.strings, s.length ≤ maxStringLength := by
        rw [written_encodeSide]
        exact and_congr_right ihr
      simp only [written_append, written_bytes, hl, hr, Option.some_inj, exists_eq', true_and]
      tauto

theorem hasHole_of_encode (h : v.encode = .halted) : v.HasHole := by
  induction v with
  | missing | invalid | hollow => trivial
  | float x => simp [encode, u32] at h
  | name s | quoted s => simpa using (CountedString.needs_encode s).hasHole h
  | nested op lt lp l rt rp r ihl ihr =>
    rw [encode, encodeNode] at h
    cases hop : Operator.ofCode? op with
    | none => simp [hop] at h
    | some o =>
      simp only [hop, append_eq_halted, reduceCtorEq, false_or] at h
      exact h.imp (hasHole_of_encodeSide · ihl) (hasHole_of_encodeSide · ihr)

end Operand

namespace Expr

theorem needs_encode (e : Expr) : e.encode.Needs True [e] [] e.strings where
  written_iff := by
    have hfits : e.toOperand.Fits OperandType.expression.code := ⟨.expression, rfl, rfl⟩
    rw [encode, Operand.written_encode hfits]
    simp [strings]
  hasHole h := Or.inl ⟨e, List.mem_singleton_self e, Operand.hasHole_of_encode h⟩

theorem needs_encode? (o : Option Expr) :
    (encode? o).Needs True o.toList [] (o.toList.flatMap strings) := by
  cases o with
  | none => exact needs_bytes
  | some e =>
    rw [Option.toList_some, List.flatMap_singleton]
    exact e.needs_encode.append_bytes.bytes_append

end Expr

namespace FormatValue

variable {v : FormatValue}

theorem wellTyped_iff {t : FormatType} (ht : FormatType.ofCode? v.type = some t) :
    v.WellTyped ↔ v.value.fits t.operandType = true := by
  simp [WellTyped, ← FormatType.ofCode?_eq_some, ht]

/-- A value that fits a format type has nothing nested in it. -/
theorem WellTyped.written_iff (h : v.WellTyped) :
    v.value.encode.Written ↔ ∀ s ∈ v.strings, s.length ≤ maxStringLength := by
  obtain ⟨t, -, hfits⟩ := h
  rw [Operand.written_encode ⟨t.operandType, rfl, hfits⟩, strings]
  refine and_iff_right ?_
  cases hv : v.value with
  | hollow | nested => cases t <;> simp [hv, Operand.fits, FormatType.operandType] at hfits
  | _ => trivial

theorem needs_encode (v : FormatValue) : v.encode.Needs True [] [v] v.strings where
  written_iff := by
    suffices h : v.encode.Written ↔ v.WellTyped ∧ v.value.encode.Written by
      simp only [h, and_congr_right fun h : v.WellTyped => h.written_iff]
      simp
    unfold encode
    cases ht : FormatType.ofCode? v.type with
    | none => simp [WellTyped, ← FormatType.ofCode?_eq_some, ht]
    | some t =>
      rw [wellTyped_iff ht]
      dsimp only
      split
      · rename_i hv
        simp [hv, Operand.fits]
      · rename_i hv
        simp [hv, Operand.fits]
      · split_ifs with h <;> simp [h, u8]
  hasHole h := by
    refine Or.inr ⟨v, List.mem_singleton_self v, ?_⟩
    unfold encode at h
    cases ht : FormatType.ofCode? v.type with
    | none => simp [ht] at h
    | some t =>
      simp only [ht] at h
      split at h
      · rename_i hv
        simp [hv, Operand.HasHole]
      · rename_i hv
        simp [hv, Operand.HasHole]
      · split_ifs at h
        exact Operand.hasHole_of_encode ((append_eq_halted.1 h).resolve_left (by simp [u8]))

theorem needs_encodeList (vs : List FormatValue) :
    (encodeList vs).Needs True [] vs (vs.flatMap strings) := by
  have h := (Needs.concat (l := vs) fun v => (needs_encode v).bytes_append (b := [0])).append_bytes
    (b := [0xff, 0xff])
  rw [List.flatMap_singleton', List.flatMap_eq_nil_iff.2 fun _ _ => rfl] at h
  exact h.congr (by simp)

end FormatValue

/-! ### Window commands -/

theorem Area.needs_encode (a : Area) : a.encode.Needs True a.exprs [] a.strings := by
  have h := (Expr.needs_encode? a.x).append ((Expr.needs_encode? a.y).append
    ((Expr.needs_encode? a.width).append (Expr.needs_encode? a.height)))
  exact h.congr (by simp)

namespace Command

theorem needs_encodeBody (c : Command) :
    c.encodeBody.Needs c.Coded c.exprs c.formats c.strings := by
  cases c with
  | formattedText code condition text format =>
    have h := (Expr.needs_encode? condition).append ((CountedString.needs_encode text).append
      (FormatValue.needs_encodeList format))
    exact (h.guarded (p := CommandCode.isFormattedText code = true)).of_eq (and_iff_left (by simp))
      (by simp [exprs]) rfl rfl
  | talk t =>
    exact ((CountedString.needs_encode t.anim1).append ((CountedString.needs_encode? t.anim2).append
      ((CountedString.needs_encode t.name1).append
        (CountedString.needs_encode t.name2).append_bytes))).congr (iff_of_true (by simp) trivial)
  | dimensions area => exact area.needs_encode
  | image i =>
    exact ((Expr.needs_encode? i.condition).append ((CountedString.needs_encode i.file).append
      i.area.needs_encode.append_bytes)).congr (iff_of_true (by simp) trivial)
  | flags bits => exact needs_bytes
  | subWindow label => exact needs_bytes
  | choice condition text format label =>
    exact ((Expr.needs_encode? condition).append ((CountedString.needs_encode text).append
      (FormatValue.needs_encodeList format).append_bytes)).of_eq (iff_of_true (by simp) trivial)
        (by simp [exprs]) rfl rfl
  | simpleText code text =>
    have h := CountedString.needs_encode text
    exact (h.guarded (p := CommandCode.isSimpleText code = true)).congr (and_iff_left trivial)
  | print p =>
    have h := (Expr.needs_encode? p.x).append ((Expr.needs_encode? p.y).append
      ((Expr.needs_encode? p.alpha).append ((Expr.needs_encode? p.red).append
        ((Expr.needs_encode? p.green).append ((Expr.needs_encode? p.blue).append
          ((CountedString.needs_encode? p.font).append
            ((CountedString.needs_encode p.message).append
              ((Expr.needs_encode? p.condition).append
                (FormatValue.needs_encodeList p.format)))))))))
    exact h.of_eq (iff_of_true (by simp) trivial) (by simp [exprs]) rfl rfl
  | switchRef code label =>
    exact (needs_bytes.guarded (p := CommandCode.isSwitchRef code = true)).congr
      (and_iff_left trivial)
  | background corners => exact needs_bytes
  | cam c =>
    exact ((CountedString.needs_encode c.name).append ((CountedString.needs_encode? c.source).append
      ((CountedString.needs_encode? c.target).append
        (CountedString.needs_encode? c.owner).append_bytes))).congr (iff_of_true (by simp) trivial)
  | blank => exact needs_refused

theorem needs_encode (c : Command) : c.encode.Needs c.Coded c.exprs c.formats c.strings := by
  have h := c.needs_encodeBody
  cases c with
  | blank => exact h
  | _ => exact h.bytes_append

end Command

/-! ### Statements, windows and files -/

namespace Placed

def formats (p : Placed) : List FormatValue := p.statement.format

theorem known_iff {p : Placed} : p.Known ↔ p.statement.type.toNat ≤ 21 := by
  rw [Known, StatementType.ofCode?, Option.isSome_iff_ne_none, ne_eq, List.getElem?_eq_none_iff,
    Nat.not_le]
  exact Nat.lt_succ_iff

theorem needs_encode (p : Placed) : p.encode.Needs True p.exprs p.formats p.strings := by
  have h := (CountedString.needs_encode? p.statement.str).append
    ((FormatValue.needs_encodeList p.statement.format).append
      (Expr.needs_encode? p.statement.expr))
  exact h.bytes_append.bytes_append.of_eq (by simp) rfl (by simp [formats]) rfl

end Placed

namespace Switch

def formats (s : Switch) : List FormatValue := s.commands.flatMap Placed.formats

theorem needs_encodeCommands (commands : List Placed) :
    (encodeCommands commands).Needs (∀ p ∈ commands, p.Known) (commands.flatMap Placed.exprs)
      (commands.flatMap Placed.formats) (commands.flatMap Placed.strings) := by
  induction commands with
  | nil => exact needs_bytes.congr (by simp)
  | cons p rest ih =>
    exact (p.needs_encode.append ih).unless.congr
      (by simp [Placed.Known, Option.isSome_iff_ne_none])

end Switch

namespace Window

def formats (w : Window) : List FormatValue := w.commands.flatMap Command.formats

theorem needs_encodeCommands (w : Window) :
    (encodeCommands w.commands).Needs (∀ c ∈ w.commands, c.Coded) w.exprs w.formats w.strings :=
  (Needs.concat Command.needs_encode).append_bytes

end Window

namespace File

def formats (f : File) : List FormatValue :=
  f.windows.flatMap Window.formats ++ f.switches.flatMap Switch.formats

/-- What the format can hold: numbered windows and switches, commands and statements with a code of
their own kind, operands that are there and fit their types, and strings of limited length. -/
structure Representable (f : File) : Prop where
  ids : ∀ w ∈ f.windows, w.id ≠ 0
  labels : ∀ s ∈ f.switches, s.label ≠ 0
  commands : ∀ w ∈ f.windows, ∀ c ∈ w.commands, c.Coded
  statements : ∀ s ∈ f.switches, ∀ p ∈ s.commands, p.statement.type.toNat ≤ 21
  exprs : ∀ e ∈ f.exprs, e.toOperand.WellTyped
  formats : ∀ v ∈ f.formats, v.WellTyped
  strings : ∀ s ∈ f.strings, s.length ≤ maxStringLength

/-- Some operand of the file is missing or was never filled in, or a nested expression is not
there. -/
def HasHole (f : File) : Prop :=
  (∃ e ∈ f.exprs, e.toOperand.HasHole) ∨ ∃ v ∈ f.formats, v.value.HasHole

theorem needs_encodeWindows (ws : List Window) :
    (encodeWindows ws).Needs (∀ w ∈ ws, w.id ≠ 0 ∧ ∀ c ∈ w.commands, c.Coded)
      (ws.flatMap Window.exprs) (ws.flatMap Window.formats) (ws.flatMap Window.strings) := by
  induction ws with
  | nil => exact needs_bytes.congr (by simp)
  | cons w rest ih =>
    exact (w.needs_encodeCommands.append ih).bytes_append.unless.congr (by simp [and_assoc])

theorem needs_encodeSwitches (ss : List Switch) :
    (encodeSwitches ss).Needs (∀ s ∈ ss, s.label ≠ 0 ∧ ∀ p ∈ s.commands, p.Known)
      (ss.flatMap Switch.exprs) (ss.flatMap Switch.formats) (ss.flatMap Switch.strings) := by
  induction ss with
  | nil => exact needs_bytes.congr (by simp)
  | cons s rest ih =>
    exact ((Switch.needs_encodeCommands s.commands).append ih).bytes_append.unless.congr
      (by simp [and_assoc])

theorem needs_encode (f : File) : f.encode.Needs
    ((∀ w ∈ f.windows, w.id ≠ 0 ∧ ∀ c ∈ w.commands, c.Coded) ∧
      ∀ s ∈ f.switches, s.label ≠ 0 ∧ ∀ p ∈ s.commands, p.Known)
    f.exprs f.formats f.strings := by
  exact Needs.bytes_append <| Needs.bytes_append <|
    (needs_encodeWindows f.windows).append <| Needs.bytes_append <| Needs.bytes_append <|
      (needs_encodeSwitches f.switches).append_bytes

/-- A file is written exactly if it is representable. Otherwise it is refused, or the walk over it
halts, which it does only if the file has a hole. -/
theorem encode_iff_representable (f : File) :
    ((∃ d, f.encode = .bytes d) ↔ f.Representable) ∧
      (¬ f.Representable → (∃ x, f.encode = .refused x) ∨ f.encode = .halted) ∧
      (f.encode = .halted → f.HasHole) := by
  have hwritten : (∃ d, f.encode = .bytes d) ↔ f.Representable := by
    refine f.needs_encode.written_iff.trans ⟨?_, ?_⟩
    · rintro ⟨⟨hwindows, hswitches⟩, hexprs, hformats, hstrings⟩
      simp only [forall₂_and, Placed.known_iff] at hwindows hswitches
      exact ⟨hwindows.1, hswitches.1, hwindows.2, hswitches.2, hexprs, hformats, hstrings⟩
    · rintro ⟨hids, hlabels, hcommands, hstatements, hexprs, hformats, hstrings⟩
      simp only [forall₂_and, Placed.known_iff]
      exact ⟨⟨⟨hids, hcommands⟩, hlabels, hstatements⟩, hexprs, hformats, hstrings⟩
  refine ⟨hwritten, fun hnot => ?_, f.needs_encode.hasHole⟩
  cases hencode : f.encode with
  | bytes d => exact absurd (hwritten.1 ⟨d, hencode⟩) hnot
  | refused x => exact Or.inl ⟨x, rfl⟩
  | halted => exact Or.inr rfl

end File

end ApeScript
