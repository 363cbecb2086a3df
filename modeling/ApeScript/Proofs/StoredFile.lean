import ApeScript.File.Codec
import ApeScript.Proofs.StoredWindow

/-!
# Stored files

A file is read exactly from its own encoding, or from that encoding without the zero label that
ends the switches (`File.encodeOpen`), provided that no expression is nested too deep. The reader
of files takes the nesting limit as an argument, so the same statement holds for every limit, and
since the reader is a function no two files have the same encoding, however deep they are.
-/

namespace ApeScript

open Encoded
open Decoder hiding bytes u8 u16 u32 u64 littleEndian

variable {r r' : Reader} {fuel limit : Nat}

/-! ### Statements -/

namespace Placed

def Known (p : Placed) : Prop := (StatementType.ofCode? p.statement.type).isSome = true

def exprs (p : Placed) : List Expr := p.statement.expr.toList

theorem decodeNext_some {p : Placed} (hr : r.rest.length < fuel) :
    decodeNext fuel limit r = .ok (some p) r' ↔
      (p.Known ∧ ∀ e ∈ p.exprs, e.nesting ≤ limit) ∧ p.encode.Spans r r' := by
  simp only [decodeNext, fail_bind, ite_ok, fail_ok, bind_ok, u64_ok, u8_ok, pure_ok,
    CountedString.decode?_ok, Expr.decode?_ok, reduceCtorEq, false_and, and_false, or_false,
    false_or, Option.some_inj, Option.isNone_iff_eq_none, ← ne_eq,
    Option.ne_none_iff_isSome]
  simp only [encode, exprs, Known, spans_append, Option.mem_toList]
  constructor
  · rintro ⟨cc, m₁, s₁, code, m₂, s₂, hk, str, m₃, s₃, f, m₄, hf, o, m₅, ⟨ho, s₅⟩, rfl, rfl⟩
    have sf := (FormatValue.decodeList_ok
      (s₃.lt_of_lt (s₂.lt_of_lt (s₁.lt_of_lt hr)))).1 hf
    exact ⟨⟨hk, ho⟩, m₁, s₁, m₂, s₂, m₃, s₃, m₄, sf, s₅⟩
  · rintro ⟨⟨hk, ho⟩, m₁, s₁, m₂, s₂, m₃, s₃, m₄, sf, s₅⟩
    have hf := (FormatValue.decodeList_ok
      (s₃.lt_of_lt (s₂.lt_of_lt (s₁.lt_of_lt hr)))).2 sf
    exact ⟨_, m₁, s₁, _, m₂, s₂, hk, _, m₃, s₃, _, m₄, hf, _, r', ⟨ho, s₅⟩, rfl, rfl⟩

theorem decodeNext_none : decodeNext fuel limit r = .ok none r' ↔
    (u64 0 ++ u8 Switch.endCode).Spans r r' := by
  simp only [decodeNext, fail_bind, ite_ok, fail_ok, bind_ok, u64_ok, u8_ok, pure_ok,
    reduceCtorEq, false_and, and_false, exists_false, or_false, false_or, spans_append, ne_eq,
    not_not, true_and]
  constructor
  · rintro ⟨cc, m₁, s₁, code, m₂, s₂, -, rfl, rfl, rfl⟩
    exact ⟨m₁, s₁, s₂⟩
  · rintro ⟨m₁, s₁, s₂⟩
    exact ⟨0, m₁, s₁, _, r', s₂, rfl, rfl, rfl, rfl⟩

end Placed

namespace Switch

def exprs (s : Switch) : List Expr := s.commands.flatMap Placed.exprs

theorem spans_encodeCommands {commands : List Placed} : (encodeCommands commands).Spans r r' ↔
    (∀ p ∈ commands, p.Known) ∧
      (concat (commands.map Placed.encode) ++ (u64 0 ++ u8 endCode)).Spans r r' := by
  rw [spans_guarded (fun _ _ => rfl)]
  simp only [Bool.not_eq_true, Option.isNone_eq_false_iff, Placed.Known, encodeCommands]

theorem decodeCommands_ok {commands : List Placed} (hr : r.rest.length < fuel) :
    decodeCommands fuel limit r = .ok commands r' ↔
      (∀ p ∈ commands, ∀ e ∈ p.exprs, e.nesting ≤ limit) ∧
        (encodeCommands commands).Spans r r' := by
  rw [decodeCommands, recordList_ok Placed.decodeNext_some (fun _ => Placed.decodeNext_none)
    Spans.length_lt hr, spans_encodeCommands]
  simp only [forall₂_and, and_assoc, and_left_comm]

end Switch

/-! ### Windows and switches -/

namespace Window

def encode (w : Window) : Encoded := u32 w.id ++ encodeCommands w.commands

/-- A window that can be read: it is numbered, and no expression is nested deeper than `limit`. -/
def Readable (limit : Nat) (w : Window) : Prop := w.id ≠ 0 ∧ ∀ e ∈ w.exprs, e.nesting ≤ limit

end Window

namespace Switch

def encode (s : Switch) : Encoded := u32 s.label ++ encodeCommands s.commands

/-- A switch that can be read: it is numbered, and no expression is nested deeper than `limit`. -/
def Readable (limit : Nat) (s : Switch) : Prop := s.label ≠ 0 ∧ ∀ e ∈ s.exprs, e.nesting ≤ limit

end Switch

namespace File

theorem decodeWindow_some {p : Nat × Window} (hr : r.rest.length < fuel) :
    decodeWindow fuel limit r = .ok (some p) r' ↔
      p.1 = r.offset + 4 ∧ p.2.Readable limit ∧ p.2.encode.Spans r r' := by
  obtain ⟨off, w⟩ := p
  simp only [decodeWindow, ite_ok, bind_ok, pure_ok, u32_ok, offset_ok, reduceCtorEq, false_and,
    and_false, false_or, Option.some_inj, Prod.mk.injEq, Window.Readable, Window.encode,
    Window.exprs, List.forall_mem_flatMap, spans_append]
  constructor
  · rintro ⟨id, m, hid, h0, _, m', ⟨rfl, rfl⟩, cs, m'', hcs, ⟨rfl, rfl⟩, rfl⟩
    obtain ⟨hn, hs⟩ := (Window.decodeCommands_ok (hid.lt_of_lt hr)).1 hcs
    exact ⟨u32_offset hid, ⟨h0, hn⟩, m, hid, hs⟩
  · rintro ⟨ho, ⟨h0, hn⟩, m, hid, hs⟩
    have hcs := (Window.decodeCommands_ok (hid.lt_of_lt hr)).2 ⟨hn, hs⟩
    exact ⟨_, m, hid, h0, _, m, ⟨rfl, rfl⟩, _, r', hcs, ⟨(u32_offset hid).trans ho.symm, rfl⟩, rfl⟩

theorem decodeWindow_none : decodeWindow fuel limit r = .ok none r' ↔ (u32 0).Spans r r' := by
  simp only [decodeWindow, ite_ok, bind_ok, pure_ok, u32_ok, reduceCtorEq, false_and, and_false,
    exists_false, or_false, true_and]
  constructor
  · rintro ⟨id, m, hid, rfl, rfl⟩
    exact hid
  · intro h
    exact ⟨0, r', h, rfl, rfl⟩

theorem not_atEnd_of_u32 {v : UInt32} (h : (u32 v).Spans r r') : ¬ r.atEnd = true := by
  intro he
  have hlen := congrArg List.length (spans_bytes.1 h).1
  simp only [List.isEmpty_iff.1 he, List.length_nil, List.length_append,
    length_littleEndian] at hlen
  omega

theorem decodeSwitch_some {p : Nat × Switch} (hr : r.rest.length < fuel) :
    decodeSwitch fuel limit r = .ok (some p) r' ↔
      p.1 = r.offset + 4 ∧ p.2.Readable limit ∧ p.2.encode.Spans r r' := by
  obtain ⟨off, s⟩ := p
  simp only [decodeSwitch, get_ok, ite_ok, bind_ok, pure_ok, u32_ok, offset_ok, reduceCtorEq,
    false_and, and_false, false_or, Option.some_inj, Prod.mk.injEq, Switch.Readable,
    Switch.encode, Switch.exprs, List.forall_mem_flatMap, spans_append]
  constructor
  · rintro ⟨_, _, ⟨rfl, rfl⟩, -, l, m, hl, h0, _, m', ⟨rfl, rfl⟩, cs, m'', hcs, ⟨rfl, rfl⟩, rfl⟩
    obtain ⟨hn, hs⟩ := (Switch.decodeCommands_ok (hl.lt_of_lt hr)).1 hcs
    exact ⟨u32_offset hl, ⟨h0, hn⟩, m, hl, hs⟩
  · rintro ⟨ho, ⟨h0, hn⟩, m, hl, hs⟩
    have hcs := (Switch.decodeCommands_ok (hl.lt_of_lt hr)).2 ⟨hn, hs⟩
    exact ⟨r, r, ⟨rfl, rfl⟩, not_atEnd_of_u32 hl, _, m, hl, h0, _, m, ⟨rfl, rfl⟩, _, r', hcs,
      ⟨(u32_offset hl).trans ho.symm, rfl⟩, rfl⟩

/-- The switches end at a zero label or where the file ends. -/
theorem decodeSwitch_none : decodeSwitch fuel limit r = .ok none r' ↔
    (r.rest = [] ∧ r = r') ∨ (u32 0).Spans r r' := by
  simp only [decodeSwitch, get_ok, ite_ok, bind_ok, pure_ok, u32_ok, reduceCtorEq, false_and,
    and_false, exists_false, or_false, true_and]
  constructor
  · rintro ⟨_, _, ⟨rfl, rfl⟩, ⟨he, rfl⟩ | ⟨-, l, m, hl, rfl, rfl⟩⟩
    · exact Or.inl ⟨List.isEmpty_iff.1 he, rfl⟩
    · exact Or.inr hl
  · rintro (⟨he, rfl⟩ | hl)
    · exact ⟨r, r, ⟨rfl, rfl⟩, Or.inl ⟨List.isEmpty_iff.2 he, rfl⟩⟩
    · exact ⟨r, r, ⟨rfl, rfl⟩, Or.inr ⟨not_atEnd_of_u32 hl, 0, r', hl, rfl, rfl⟩⟩

/-! ### Files -/

theorem spans_encodeWindows {ws : List Window} : (encodeWindows ws).Spans r r' ↔
    (∀ w ∈ ws, w.id ≠ 0) ∧ (concat (ws.map Window.encode)).Spans r r' := by
  have hcons (w : Window) (ws : List Window) : encodeWindows (w :: ws) =
      if w.id = 0 then .refused .windowZero else w.encode ++ encodeWindows ws := by
    rw [encodeWindows, Window.encode, append_assoc]
  rw [spans_guarded hcons, encodeWindows, append_empty]

theorem spans_encodeSwitches {ss : List Switch} : (encodeSwitches ss).Spans r r' ↔
    (∀ s ∈ ss, s.label ≠ 0) ∧ (concat (ss.map Switch.encode)).Spans r r' := by
  have hcons (s : Switch) (ss : List Switch) : encodeSwitches (s :: ss) =
      if s.label = 0 then .refused .switchZero else s.encode ++ encodeSwitches ss := by
    rw [encodeSwitches, Switch.encode, append_assoc]
  rw [spans_guarded hcons, encodeSwitches, append_empty]

/-- The windows are read up to the zero id, whatever is noted of their offsets. -/
theorem windows_ok {ws : List Window} (hr : r.rest.length < fuel) :
    (∃ l, l.map (·.2) = ws ∧ listUntilEnd (decodeWindow fuel limit) fuel r = .ok l r') ↔
      (∀ w ∈ ws, ∀ e ∈ w.exprs, e.nesting ≤ limit) ∧
        ∃ m, (encodeWindows ws).Spans r m ∧ (u32 0).Spans m r' := by
  rw [numberedList_ok decodeWindow_some (fun _ => decodeWindow_none) Spans.length_lt hr]
  simp only [Window.Readable, spans_encodeWindows, forall₂_and, and_assoc, exists_and_left]
  exact and_left_comm

/-- The switches are read up to the zero label or the end of the file. -/
theorem switches_ok {ss : List Switch} (hr : r.rest.length < fuel) :
    (∃ l, l.map (·.2) = ss ∧ listUntilEnd (decodeSwitch fuel limit) fuel r = .ok l r') ↔
      (∀ s ∈ ss, ∀ e ∈ s.exprs, e.nesting ≤ limit) ∧
        ∃ m, (encodeSwitches ss).Spans r m ∧ ((m.rest = [] ∧ m = r') ∨ (u32 0).Spans m r') := by
  rw [numberedList_ok decodeSwitch_some (fun _ => decodeSwitch_none) Spans.length_lt hr]
  simp only [Switch.Readable, spans_encodeSwitches, forall₂_and, and_assoc, exists_and_left]
  exact and_left_comm

def exprs (f : File) : List Expr :=
  f.windows.flatMap Window.exprs ++ f.switches.flatMap Switch.exprs

/-- No expression of the file is nested more than `limit` levels below its root. -/
def NestedWithin (limit : Nat) (f : File) : Prop := ∀ e ∈ f.exprs, e.nesting ≤ limit

instance (limit : Nat) (f : File) : Decidable (f.NestedWithin limit) :=
  inferInstanceAs (Decidable (∀ e ∈ f.exprs, e.nesting ≤ limit))

theorem nestedWithin_iff {f : File} : f.NestedWithin limit ↔
    (∀ w ∈ f.windows, ∀ e ∈ w.exprs, e.nesting ≤ limit) ∧
      ∀ s ∈ f.switches, ∀ e ∈ s.exprs, e.nesting ≤ limit := by
  simp only [NestedWithin, exprs, List.forall_mem_append, List.forall_mem_flatMap]

def encodeFront (ws : List Window) : Encoded :=
  u32 magic ++ (u32 version ++ (encodeWindows ws ++ (u32 0 ++ u32 switchMarker)))

def encodeOpen (f : File) : Encoded := encodeFront f.windows ++ encodeSwitches f.switches

theorem encode_eq_encodeOpen (f : File) : f.encode = f.encodeOpen ++ u32 0 := by
  simp only [encode, encodeOpen, encodeFront, append_assoc]

theorem decodeFront_ok {ws : List Window} (hr : r.rest.length < fuel) :
    (∃ l, l.map (·.2) = ws ∧ decodeFront fuel limit r = .ok l r') ↔
      (∀ w ∈ ws, ∀ e ∈ w.exprs, e.nesting ≤ limit) ∧ (encodeFront ws).Spans r r' := by
  simp only [decodeFront, fail_bind, ite_ok, fail_ok, bind_ok, u32_ok, pure_ok, and_false, false_or,
    encodeFront, spans_append]
  constructor
  · rintro ⟨l, rfl, _, m₁, h₁, _, m₂, h₂, hhead, l', m₃, hw, _, m₄, h₄, hmark, rfl, rfl⟩
    obtain ⟨rfl, rfl⟩ := (not_or.1 hhead).imp not_not.1 not_not.1
    obtain rfl := not_not.1 hmark
    obtain ⟨hn, w, sw, s0⟩ := (windows_ok (h₂.lt_of_lt (h₁.lt_of_lt hr))).1 ⟨l', rfl, hw⟩
    exact ⟨hn, m₁, h₁, m₂, h₂, w, sw, m₃, s0, h₄⟩
  · rintro ⟨hn, m₁, h₁, m₂, h₂, w, sw, m₃, s0, h₄⟩
    obtain ⟨l, rfl, hw⟩ := (windows_ok (h₂.lt_of_lt (h₁.lt_of_lt hr))).2 ⟨hn, w, sw, s0⟩
    exact ⟨l, rfl, _, m₁, h₁, _, m₂, h₂, by simp, l, m₃, hw, _, r', h₄, by simp, rfl, rfl⟩

/-- A file is read from its encoding, with or without the zero label at the end, and from nothing
else. -/
theorem decoder_ok {f : File} (hr : r.rest.length < fuel) :
    (∃ layout, decoder fuel limit r = .ok (f, layout) r') ↔ f.NestedWithin limit ∧
      r'.rest = [] ∧ (f.encodeOpen.Spans r r' ∨ f.encode.Spans r r') := by
  obtain ⟨ws, ss⟩ := f
  simp only [decoder, fail_bind, ite_ok, fail_ok, bind_ok, pure_ok, get_ok, and_false, false_or,
    Prod.mk.injEq, File.mk.injEq, nestedWithin_iff, encode_eq_encodeOpen, encodeOpen, spans_append]
  constructor
  · rintro ⟨layout, lw, m, hw, ls, m', hs, _, _, ⟨rfl, rfl⟩, hend, ⟨⟨rfl, rfl⟩, -⟩, rfl⟩
    obtain ⟨hwn, hfront⟩ := (decodeFront_ok hr).1 ⟨lw, rfl, hw⟩
    obtain ⟨hsn, s, hss, hstop⟩ := (switches_ok (hfront.lt_of_lt hr)).1 ⟨ls, rfl, hs⟩
    refine ⟨⟨hwn, hsn⟩, by simpa [Reader.atEnd] using hend, ?_⟩
    rcases hstop with ⟨-, rfl⟩ | hzero
    · exact Or.inl ⟨m, hfront, hss⟩
    · exact Or.inr ⟨s, ⟨m, hfront, hss⟩, hzero⟩
  · rintro ⟨⟨hwn, hsn⟩, hend, hspan⟩
    obtain ⟨s, m, hfront, hss, hstop⟩ : ∃ s m, (encodeFront ws).Spans r m ∧
        (encodeSwitches ss).Spans m s ∧ ((s.rest = [] ∧ s = r') ∨ (u32 0).Spans s r') := by
      rcases hspan with ⟨m, hfront, hss⟩ | ⟨s, ⟨m, hfront, hss⟩, hzero⟩
      · exact ⟨r', m, hfront, hss, Or.inl ⟨hend, rfl⟩⟩
      · exact ⟨s, m, hfront, hss, Or.inr hzero⟩
    obtain ⟨lw, rfl, hw⟩ := (decodeFront_ok hr).2 ⟨hwn, hfront⟩
    obtain ⟨ls, rfl, hs⟩ := (switches_ok (hfront.lt_of_lt hr)).2 ⟨hsn, s, hss, hstop⟩
    exact ⟨_, lw, m, hw, ls, r', hs, r', r', ⟨rfl, rfl⟩, by simp [Reader.atEnd, hend],
      ⟨⟨rfl, rfl⟩, rfl⟩, rfl⟩

/-- What the reader makes of a byte string, for every limit on the nesting. -/
theorem decoder_ofBytes {f : File} {d : Bytes} :
    (∃ layout r', decoder (d.length + 1) limit (.ofBytes d) = .ok (f, layout) r') ↔
      f.NestedWithin limit ∧ (f.encodeOpen = .bytes d ∨ f.encode = .bytes d) := by
  have hread {r'} := @decoder_ok (.ofBytes d) r' (d.length + 1) limit f (Nat.lt_succ_self d.length)
  constructor
  · rintro ⟨layout, ⟨rest, n⟩, h⟩
    obtain ⟨hn, rfl, hspan⟩ := hread.1 ⟨layout, h⟩
    exact ⟨hn, hspan.imp (fun h => (spans_ofBytes.1 h).1) (fun h => (spans_ofBytes.1 h).1)⟩
  · rintro ⟨hn, hspan⟩
    obtain ⟨layout, h⟩ := hread.2 ⟨hn, rfl,
      hspan.imp (fun h => spans_ofBytes.2 ⟨h, rfl⟩) (fun h => spans_ofBytes.2 ⟨h, rfl⟩)⟩
    exact ⟨layout, _, h⟩

theorem decodeWithLayout_ok {f : File} {d : Bytes} :
    (∃ layout, decodeWithLayout d = .ok (f, layout)) ↔
      f.NestedWithin Expr.maxNesting ∧ (f.encodeOpen = .bytes d ∨ f.encode = .bytes d) := by
  rw [← decoder_ofBytes, decodeWithLayout]
  cases decoder (d.length + 1) Expr.maxNesting (.ofBytes d) <;> simp

theorem decode_ok {f : File} {d : Bytes} : decode d = .ok f ↔
    f.NestedWithin Expr.maxNesting ∧ (f.encodeOpen = .bytes d ∨ f.encode = .bytes d) := by
  rw [← decodeWithLayout_ok, decode]
  cases decodeWithLayout d <;> simp [Except.map, Prod.ext_iff]

theorem NestedWithin.mono {f : File} {limit' : Nat} (h : f.NestedWithin limit)
    (hle : limit ≤ limit') : f.NestedWithin limit' :=
  fun e he => Nat.le_trans (h e he) hle

theorem exists_nestedWithin (f : File) : ∃ limit, f.NestedWithin limit := by
  unfold NestedWithin
  induction f.exprs with
  | nil => exact ⟨0, by simp⟩
  | cons e es ih =>
    obtain ⟨limit, hes⟩ := ih
    refine ⟨max e.nesting limit, List.forall_mem_cons.2 ⟨Nat.le_max_left _ _, ?_⟩⟩
    exact fun e' he' => Nat.le_trans (hes e' he') (Nat.le_max_right _ _)

/-- Two files that a byte string may stand for are the same, however deep they are nested: a reader
with a limit beyond both reads the byte string as each of them. -/
theorem eq_of_encodings {f g : File} {d : Bytes}
    (hf : f.encodeOpen = .bytes d ∨ f.encode = .bytes d)
    (hg : g.encodeOpen = .bytes d ∨ g.encode = .bytes d) : f = g := by
  obtain ⟨lf, hlf⟩ := f.exists_nestedWithin
  obtain ⟨lg, hlg⟩ := g.exists_nestedWithin
  obtain ⟨_, _, hdf⟩ := decoder_ofBytes.2 ⟨hlf.mono (Nat.le_max_left lf lg), hf⟩
  obtain ⟨_, _, hdg⟩ := decoder_ofBytes.2 ⟨hlg.mono (Nat.le_max_right lf lg), hg⟩
  have he := hdf.symm.trans hdg
  simp only [EStateM.Result.ok.injEq, Prod.mk.injEq] at he
  exact he.1.1

end File

end ApeScript
