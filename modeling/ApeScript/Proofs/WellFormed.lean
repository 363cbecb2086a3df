import ApeScript.Proofs.StoredFile

/-!
# Well-formed models

A model is well formed when its windows and switches are numbered, every command and operand is of
the kind its code announces, and every expression is laid out with its root at position one and the
sides of the operator at `p` at `4p + 1` and `4p + 2`. Positions are compared as natural numbers,
so a layout that wrapped around would not count.

Writing a well-formed model fails only for a string that is too long. Since positions are stored in
64 bits, its expressions are shallow, and what is written can be read again.
-/

namespace ApeScript

open Encoded

/-! ### Records limited by their strings -/

namespace Encoded

variable {strings strings' : List Bytes} {e e' : Encoded} {α : Type}

/-- The record is written when none of the strings is too long; otherwise it is refused for one of
those that are. -/
def LimitedBy (strings : List Bytes) : Encoded → Prop
  | bytes _ => ∀ s ∈ strings, s.length ≤ maxStringLength
  | refused x => ∃ s ∈ strings, maxStringLength < s.length ∧ x = .stringTooLong s.length
  | halted => False

theorem limitedBy_bytes {b : Bytes} : (bytes b).LimitedBy [] := by simp [LimitedBy]

theorem LimitedBy.append (h : e.LimitedBy strings) (h' : e'.LimitedBy strings') :
    (e ++ e').LimitedBy (strings ++ strings') := by
  change (Encoded.append e e').LimitedBy _
  cases e with
  | halted => exact h.elim
  | bytes b =>
    cases e' with
    | halted => exact h'.elim
    | bytes b' => exact List.forall_mem_append.2 ⟨h, h'⟩
    | refused x =>
      obtain ⟨s, hs, hlong⟩ := h'
      exact ⟨s, List.mem_append_right _ hs, hlong⟩
  | refused x =>
    obtain ⟨s, hs, hlong⟩ := h
    cases e' with
    | halted => exact h'.elim
    | bytes b' => exact ⟨s, List.mem_append_left _ hs, hlong⟩
    | refused x' => exact ⟨s, List.mem_append_left _ hs, hlong⟩

theorem LimitedBy.append_bytes {b : Bytes} (h : e.LimitedBy strings) :
    (e ++ bytes b).LimitedBy strings := by
  simpa using h.append (limitedBy_bytes (b := b))

theorem LimitedBy.bytes_append {b : Bytes} (h : e.LimitedBy strings) :
    (bytes b ++ e).LimitedBy strings :=
  limitedBy_bytes.append h

theorem LimitedBy.concat {enc : α → Encoded} {strs : α → List Bytes} {as : List α}
    (h : ∀ a ∈ as, (enc a).LimitedBy (strs a)) :
    (concat (as.map enc)).LimitedBy (as.flatMap strs) := by
  induction as with
  | nil => exact limitedBy_bytes
  | cons a as ih =>
    obtain ⟨ha, has⟩ := List.forall_mem_cons.1 h
    exact ha.append (ih has)

end Encoded

theorem CountedString.encode_limitedBy (s : Bytes) : (encode s).LimitedBy [s] := by
  unfold encode
  split_ifs with h
  · exact ⟨s, List.mem_singleton_self s, h, rfl⟩
  · intro t ht
    rw [List.mem_singleton.1 ht]
    exact Nat.le_of_not_lt h

theorem CountedString.encode?_limitedBy (s : Option Bytes) :
    (encode? s).LimitedBy s.toList := by
  cases s with
  | none => exact limitedBy_bytes
  | some s => exact encode_limitedBy s

/-! ### Expressions -/

namespace Operand

def Fits (type : UInt8) (v : Operand) : Prop :=
  ∃ t, type = OperandType.code t ∧ v.fits t = true

/-- Every operator below is valid, and both its sides fit their type codes. -/
def WellTyped : Operand → Prop
  | nested op lt _ l rt _ r =>
      (∃ o, op = Operator.code o) ∧ (l.Fits lt ∧ l.WellTyped) ∧ r.Fits rt ∧ r.WellTyped
  | hollow => False
  | _ => True

/-- The sides of every operator below are at the positions that follow from its own, `pos` for the
operand itself. -/
def PlacedAt : (pos : Nat) → Operand → Prop
  | pos, nested _ _ lp l _ rp r =>
      (lp.toNat = 4 * pos + 1 ∧ l.PlacedAt (4 * pos + 1)) ∧
        rp.toNat = 4 * pos + 2 ∧ r.PlacedAt (4 * pos + 2)
  | _, _ => True

def strings : Operand → List Bytes
  | name s | quoted s => [s]
  | nested _ _ _ l _ _ r => l.strings ++ r.strings
  | _ => []

theorem encodeSide_of_fits {type : UInt8} {pos : UInt64} {v : Operand} {payload : Encoded}
    (h : v.Fits type) : encodeSide type pos v payload = u64 pos ++ payload := by
  obtain ⟨t, rfl, hfit⟩ := h
  have hfits : ((OperandType.ofCode? t.code).map v.fits).getD false = true := by
    rw [OperandType.ofCode?_eq_some.2 rfl]
    exact hfit
  cases v with
  | missing | invalid => simp [fits] at hfit
  | float | name | quoted | hollow | nested => exact if_pos hfits

theorem encode_limitedBy {type : UInt8} {v : Operand} (hfit : v.Fits type) (hv : v.WellTyped) :
    v.encode.LimitedBy v.strings := by
  induction v generalizing type with
  | missing | invalid =>
    obtain ⟨t, -, h⟩ := hfit
    simp [fits] at h
  | hollow => exact hv.elim
  | float x => exact limitedBy_bytes
  | name s => exact CountedString.encode_limitedBy s
  | quoted s => exact CountedString.encode_limitedBy s
  | nested op lt lp l rt rp r ihl ihr =>
    obtain ⟨⟨o, rfl⟩, ⟨hfl, hl⟩, hfr, hr⟩ := hv
    rw [encode, encodeNode, Operator.ofCode?_eq_some.2 rfl, encodeSide_of_fits hfl,
      encodeSide_of_fits hfr]
    exact ((ihl hfl hl).bytes_append.append (ihr hfr hr).bytes_append).bytes_append

/-- A level takes two bits of the position, so an operand at a position can only be so deep. -/
theorem mul_pow_height_lt {pos : Nat} {v : Operand} (hp : v.PlacedAt pos) (hh : 0 < v.height) :
    pos * 4 ^ v.height < 2 ^ 64 := by
  induction v generalizing pos with
  | nested op lt lp l rt rp r ihl ihr =>
    obtain ⟨⟨hlp, hl⟩, hrp, hr⟩ := hp
    have hfits := lp.toNat_lt
    -- the deeper side decides, unless neither has a level of its own
    have hdeep : ∀ side pos', 4 * pos ≤ pos' → (0 < side → pos' * 4 ^ side < 2 ^ 64) →
        pos * 4 ^ (side + 1) < 2 ^ 64 := by
      intro side pos' hpos hside
      rcases Nat.eq_zero_or_pos side with rfl | hpositive
      · omega
      · calc pos * 4 ^ (side + 1) = 4 * pos * 4 ^ side := by rw [Nat.pow_succ]; ac_rfl
          _ ≤ pos' * 4 ^ side := Nat.mul_le_mul_right _ hpos
          _ < 2 ^ 64 := hside hpositive
    rcases Nat.le_total l.height r.height with hle | hle
    · rw [height, Nat.max_eq_right hle]
      exact hdeep r.height (4 * pos + 2) (by omega) (ihr hr)
    · rw [height, Nat.max_eq_left hle]
      exact hdeep l.height (4 * pos + 1) (by omega) (ihl hl)
  | _ => simp [height] at hh

end Operand

namespace Expr

/-- Every operand fits its type, and the positions follow from the root at one. -/
structure WellFormed (e : Expr) : Prop where
  typed : e.toOperand.WellTyped
  placed : e.toOperand.PlacedAt 1

def strings (e : Expr) : List Bytes := e.toOperand.strings

theorem WellFormed.encode_limitedBy {e : Expr} (he : e.WellFormed) :
    e.encode.LimitedBy e.strings :=
  Operand.encode_limitedBy ⟨.expression, rfl, rfl⟩ he.typed

theorem encode?_limitedBy {o : Option Expr} (ho : ∀ e ∈ o.toList, e.WellFormed) :
    (encode? o).LimitedBy (o.toList.flatMap strings) := by
  cases o with
  | none => exact limitedBy_bytes
  | some e =>
    rw [Option.toList_some, List.flatMap_singleton]
    exact (ho e (List.mem_singleton_self e)).encode_limitedBy.append_bytes.bytes_append

/-- Positions run out before the nesting limit is reached. -/
theorem WellFormed.nesting_le {e : Expr} (he : e.WellFormed) : e.nesting ≤ maxNesting := by
  have h := Operand.mul_pow_height_lt he.placed (by simp [height_toOperand])
  rw [Nat.one_mul, show (2 : Nat) ^ 64 = 4 ^ 32 from rfl, height_toOperand] at h
  have hlt := (Nat.pow_lt_pow_iff_right (by decide)).1 h
  simp only [maxNesting]
  omega

end Expr

namespace FormatValue

def WellTyped (v : FormatValue) : Prop :=
  ∃ t, v.type = FormatType.code t ∧ v.value.fits t.operandType = true

def strings (v : FormatValue) : List Bytes := v.value.strings

theorem WellTyped.encode_limitedBy {v : FormatValue} (hv : v.WellTyped) :
    v.encode.LimitedBy v.strings := by
  obtain ⟨type, value⟩ := v
  obtain ⟨t, rfl, hfit⟩ := hv
  have hvalue : value.encode.LimitedBy value.strings := by
    refine Operand.encode_limitedBy ⟨t.operandType, rfl, hfit⟩ ?_
    cases value with
    | hollow | nested => cases t <;> simp [Operand.fits, FormatType.operandType] at hfit
    | _ => trivial
  rw [encode, FormatType.ofCode?_eq_some.2 rfl]
  cases value with
  | missing | invalid => simp [Operand.fits] at hfit
  | float | name | quoted | hollow | nested =>
    simp only [hfit, ↓reduceIte]
    exact hvalue.bytes_append

theorem encodeList_limitedBy {vs : List FormatValue} (hvs : ∀ v ∈ vs, v.WellTyped) :
    (encodeList vs).LimitedBy (vs.flatMap strings) :=
  (LimitedBy.concat fun v hv => (hvs v hv).encode_limitedBy.bytes_append).append_bytes

end FormatValue

/-! ### Window commands -/

def Area.strings (a : Area) : List Bytes :=
  a.x.toList.flatMap Expr.strings ++ (a.y.toList.flatMap Expr.strings ++
    (a.width.toList.flatMap Expr.strings ++ a.height.toList.flatMap Expr.strings))

theorem Area.encode_limitedBy {a : Area} (ha : ∀ e ∈ a.exprs, e.WellFormed) :
    a.encode.LimitedBy a.strings := by
  obtain ⟨hx, hy, hw, hh⟩ := forall_mem_exprs.1 ha
  exact (Expr.encode?_limitedBy hx).append ((Expr.encode?_limitedBy hy).append
    ((Expr.encode?_limitedBy hw).append (Expr.encode?_limitedBy hh)))

namespace Command

def Coded : Command → Prop
  | formattedText code .. => CommandCode.isFormattedText code = true
  | simpleText code _ => CommandCode.isSimpleText code = true
  | switchRef code _ => CommandCode.isSwitchRef code = true
  | blank => False
  | _ => True

def formats : Command → List FormatValue
  | formattedText _ _ _ format => format
  | choice _ _ format _ => format
  | print p => p.format
  | _ => []

structure WellFormed (c : Command) : Prop where
  coded : c.Coded
  exprs : ∀ e ∈ c.exprs, e.WellFormed
  formats : ∀ v ∈ c.formats, v.WellTyped

def strings : Command → List Bytes
  | formattedText _ condition text format =>
      condition.toList.flatMap Expr.strings ++ ([text] ++ format.flatMap FormatValue.strings)
  | talk t => [t.anim1] ++ (t.anim2.toList ++ ([t.name1] ++ [t.name2]))
  | dimensions area => area.strings
  | image i => i.condition.toList.flatMap Expr.strings ++ ([i.file] ++ i.area.strings)
  | choice condition text format _ =>
      condition.toList.flatMap Expr.strings ++ ([text] ++ format.flatMap FormatValue.strings)
  | simpleText _ text => [text]
  | print p =>
      p.x.toList.flatMap Expr.strings ++ (p.y.toList.flatMap Expr.strings ++
        (p.alpha.toList.flatMap Expr.strings ++ (p.red.toList.flatMap Expr.strings ++
          (p.green.toList.flatMap Expr.strings ++ (p.blue.toList.flatMap Expr.strings ++
            (p.font.toList ++ ([p.message] ++ (p.condition.toList.flatMap Expr.strings ++
              p.format.flatMap FormatValue.strings))))))))
  | cam c => [c.name] ++ (c.source.toList ++ (c.target.toList ++ c.owner.toList))
  | flags _ | subWindow _ | switchRef .. | background _ | blank => []

theorem WellFormed.encodeBody_limitedBy {c : Command} (hc : c.WellFormed) :
    c.encodeBody.LimitedBy c.strings := by
  obtain ⟨hcode, hexprs, hformats⟩ := hc
  cases c with
  | formattedText code condition text format =>
    rw [encodeBody, if_pos (show CommandCode.isFormattedText code = true from hcode)]
    exact (Expr.encode?_limitedBy hexprs).append
      ((CountedString.encode_limitedBy _).append (FormatValue.encodeList_limitedBy hformats))
  | talk t =>
    exact (CountedString.encode_limitedBy _).append ((CountedString.encode?_limitedBy _).append
      ((CountedString.encode_limitedBy _).append
        (CountedString.encode_limitedBy _).append_bytes))
  | dimensions area => exact area.encode_limitedBy hexprs
  | image i =>
    obtain ⟨hcondition, harea⟩ := List.forall_mem_append.1 hexprs
    exact (Expr.encode?_limitedBy hcondition).append ((CountedString.encode_limitedBy _).append
      (i.area.encode_limitedBy harea).append_bytes)
  | flags bits => exact limitedBy_bytes
  | subWindow label => exact limitedBy_bytes
  | choice condition text format label =>
    exact (Expr.encode?_limitedBy hexprs).append ((CountedString.encode_limitedBy _).append
      (FormatValue.encodeList_limitedBy hformats).append_bytes)
  | simpleText code text =>
    rw [encodeBody, if_pos (show CommandCode.isSimpleText code = true from hcode)]
    exact CountedString.encode_limitedBy text
  | print p =>
    simp only [Command.exprs, List.forall_mem_append] at hexprs
    obtain ⟨hx, hy, halpha, hred, hgreen, hblue, hcondition⟩ := hexprs
    exact (Expr.encode?_limitedBy hx).append ((Expr.encode?_limitedBy hy).append
      ((Expr.encode?_limitedBy halpha).append ((Expr.encode?_limitedBy hred).append
        ((Expr.encode?_limitedBy hgreen).append ((Expr.encode?_limitedBy hblue).append
          ((CountedString.encode?_limitedBy _).append ((CountedString.encode_limitedBy _).append
            ((Expr.encode?_limitedBy hcondition).append
              (FormatValue.encodeList_limitedBy hformats)))))))))
  | switchRef code label =>
    rw [encodeBody, if_pos (show CommandCode.isSwitchRef code = true from hcode)]
    exact limitedBy_bytes
  | background corners => exact limitedBy_bytes
  | cam c =>
    exact (CountedString.encode_limitedBy _).append ((CountedString.encode?_limitedBy _).append
      ((CountedString.encode?_limitedBy _).append
        (CountedString.encode?_limitedBy _).append_bytes))
  | blank => exact hcode.elim

theorem WellFormed.encode_limitedBy {c : Command} (hc : c.WellFormed) :
    c.encode.LimitedBy c.strings := by
  have hbody := hc.encodeBody_limitedBy
  cases c with
  | blank => exact hc.coded.elim
  | _ => exact hbody.bytes_append

end Command

/-! ### Windows, switches and files -/

structure Window.WellFormed (w : Window) : Prop where
  id_ne_zero : w.id ≠ 0
  commands : ∀ c ∈ w.commands, c.WellFormed

structure Placed.WellFormed (p : Placed) : Prop where
  known : p.Known
  exprs : ∀ e ∈ p.exprs, e.WellFormed
  formats : ∀ v ∈ p.statement.format, v.WellTyped

structure Switch.WellFormed (s : Switch) : Prop where
  label_ne_zero : s.label ≠ 0
  commands : ∀ p ∈ s.commands, p.WellFormed

structure File.WellFormed (f : File) : Prop where
  windows : ∀ w ∈ f.windows, w.WellFormed
  switches : ∀ s ∈ f.switches, s.WellFormed

def Window.strings (w : Window) : List Bytes := w.commands.flatMap Command.strings

def Placed.strings (p : Placed) : List Bytes :=
  p.statement.str.toList ++ (p.statement.format.flatMap FormatValue.strings ++
    p.statement.expr.toList.flatMap Expr.strings)

def Switch.strings (s : Switch) : List Bytes := s.commands.flatMap Placed.strings

def File.strings (f : File) : List Bytes :=
  f.windows.flatMap Window.strings ++ f.switches.flatMap Switch.strings

theorem Placed.WellFormed.encode_limitedBy {p : Placed} (hp : p.WellFormed) :
    p.encode.LimitedBy p.strings :=
  ((CountedString.encode?_limitedBy _).append ((FormatValue.encodeList_limitedBy hp.formats).append
    (Expr.encode?_limitedBy hp.exprs))).bytes_append.bytes_append

theorem Switch.encodeCommands_limitedBy {commands : List Placed}
    (h : ∀ p ∈ commands, p.WellFormed) :
    (encodeCommands commands).LimitedBy (commands.flatMap Placed.strings) := by
  induction commands with
  | nil => exact limitedBy_bytes
  | cons p rest ih =>
    obtain ⟨hp, hrest⟩ := List.forall_mem_cons.1 h
    have hknown : ¬ (StatementType.ofCode? p.statement.type).isNone = true := by
      rw [Bool.not_eq_true, Option.isNone_eq_false_iff]
      exact hp.known
    rw [encodeCommands, if_neg hknown]
    exact hp.encode_limitedBy.append (ih hrest)

namespace File

theorem encodeWindows_limitedBy {ws : List Window} (h : ∀ w ∈ ws, w.WellFormed) :
    (encodeWindows ws).LimitedBy (ws.flatMap Window.strings) := by
  induction ws with
  | nil => exact limitedBy_bytes
  | cons w rest ih =>
    obtain ⟨hw, hrest⟩ := List.forall_mem_cons.1 h
    have hcommands : (Window.encodeCommands w.commands).LimitedBy w.strings :=
      (LimitedBy.concat fun c hc => (hw.commands c hc).encode_limitedBy).append_bytes
    rw [encodeWindows, if_neg hw.id_ne_zero]
    exact (hcommands.append (ih hrest)).bytes_append

theorem encodeSwitches_limitedBy {ss : List Switch} (h : ∀ s ∈ ss, s.WellFormed) :
    (encodeSwitches ss).LimitedBy (ss.flatMap Switch.strings) := by
  induction ss with
  | nil => exact limitedBy_bytes
  | cons s rest ih =>
    obtain ⟨hs, hrest⟩ := List.forall_mem_cons.1 h
    rw [encodeSwitches, if_neg hs.label_ne_zero]
    exact ((Switch.encodeCommands_limitedBy hs.commands).append (ih hrest)).bytes_append

variable {f : File}

/-- Writing a well-formed file can only fail for a string that is too long. -/
theorem WellFormed.encode_limitedBy (hf : f.WellFormed) : f.encode.LimitedBy f.strings := by
  have hwindows := encodeWindows_limitedBy hf.windows
  have hswitches := encodeSwitches_limitedBy hf.switches
  exact (hwindows.append
    hswitches.append_bytes.bytes_append.bytes_append).bytes_append.bytes_append

theorem WellFormed.nestedWithin (hf : f.WellFormed) : f.NestedWithin Expr.maxNesting := by
  refine nestedWithin_iff.2 ⟨fun w hw e he => ?_, fun s hs e he => ?_⟩
  · obtain ⟨c, hc, he⟩ := List.mem_flatMap.1 he
    exact (((hf.windows w hw).commands c hc).exprs e he).nesting_le
  · obtain ⟨p, hp, he⟩ := List.mem_flatMap.1 he
    exact (((hf.switches s hs).commands p hp).exprs e he).nesting_le

theorem WellFormed.decode_encode (hf : f.WellFormed) {d : Bytes} (h : f.encode = .bytes d) :
    decode d = .ok f :=
  decode_ok.2 ⟨hf.nestedWithin, Or.inr h⟩

end File

end ApeScript
