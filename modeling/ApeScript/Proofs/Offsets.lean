import ApeScript.Proofs.Truncated

/-!
# Where the parts of a file start

The reader notes the offset of every window and switch right after it has read the number. Its own
offset counts the bytes before it (`Reader.Within`), so that each offset stands between the number
of a part and the encoding of its commands, and they increase from part to part.
-/

namespace ApeScript

open Encoded
open Decoder hiding bytes u8 u16 u32 u64 littleEndian

variable {d : Bytes} {r r' m : Reader} {e commands : Encoded}

structure Reader.Within (r : Reader) (d : Bytes) : Prop where
  le : r.offset ≤ d.length
  rest : r.rest = d.drop r.offset

/-- A part of a file starts at the offset: its number stands right before the offset, and what
stands from there on begins with its commands. -/
structure Starts (d : Bytes) (offset : Nat) (number : UInt32) (commands : Encoded) : Prop where
  number : (d.take offset).drop (offset - 4) = littleEndian 4 number.toNat
  commands : ∃ b, commands = .bytes b ∧ b <+: d.drop offset

namespace Reader

theorem within_ofBytes : (ofBytes d).Within d := ⟨Nat.zero_le _, rfl⟩

theorem Within.of_spans (h : r.Within d) (hs : e.Spans r r') : r'.Within d := by
  obtain ⟨b, -, hr, ho⟩ := hs
  rw [h.rest] at hr
  have hlength := congrArg List.length hr
  have hle := h.le
  simp only [List.length_drop, List.length_append] at hlength
  refine ⟨by omega, ?_⟩
  rw [ho, ← List.drop_drop, hr, List.drop_left]

/-- What a number and commands span starts right after the number. -/
theorem Within.starts {number : UInt32} (h : r.Within d)
    (hs : (u32 number ++ commands).Spans r r') : Starts d (r.offset + 4) number commands := by
  obtain ⟨m, hn, b, rfl, hb, -⟩ := spans_append.1 hs
  have hm := h.of_spans hn
  have ho := u32_offset hn
  have hnumber := (spans_bytes.1 hn).1
  refine ⟨?_, b, rfl, ?_⟩
  · rw [Nat.add_sub_cancel, List.drop_take, ← h.rest, hnumber, Nat.add_sub_cancel_left]
    exact List.take_left' (length_littleEndian _ _)
  · rw [← ho, ← hm.rest, hb]
    exact List.prefix_append _ _

end Reader

/-! ### Sections -/

/-- The parts between two readers, with the offsets that were noted for them. -/
structure Noted {α : Type} (d : Bytes) (number : α → UInt32) (commands : α → Encoded)
    (parts : List (Nat × α)) (r m : Reader) : Prop where
  within : m.Within d
  le : r.offset ≤ m.offset
  sorted : (parts.map (·.1)).Pairwise (· < ·)
  between : ∀ p ∈ parts, r.offset < p.1 ∧ p.1 < m.offset
  starts : ∀ p ∈ parts, Starts d p.1 (number p.2) (commands p.2)

theorem Noted.of_sequence {α : Type} {ok : α → Prop} {number : α → UInt32}
    {commands : α → Encoded} {parts : List (Nat × α)} (hr : r.Within d)
    (hlt : ∀ {a m m'}, (commands a).Spans m m' → m.offset < m'.offset)
    (h : Sequence (fun p r r' => p.1 = r.offset + 4 ∧ ok p.2 ∧
      (Encoded.u32 (number p.2) ++ commands p.2).Spans r r') parts r m) :
    Noted d number commands parts r m := by
  induction parts generalizing r with
  | nil =>
    cases h
    exact ⟨hr, Nat.le_refl _, .nil, by simp, by simp⟩
  | cons p parts ih =>
    obtain ⟨n, ⟨hp, -, hs⟩, hparts⟩ := h
    obtain ⟨k, hk, hc⟩ := spans_append.1 hs
    have hfirst : p.1 < n.offset := by
      rw [hp, ← u32_offset hk]
      exact hlt hc
    have hrest := ih (hr.of_spans hs) hparts
    have hle := hrest.le
    refine ⟨hrest.within, by omega, ?_, ?_, ?_⟩
    · refine List.pairwise_cons.2 ⟨fun offset hoffset => ?_, hrest.sorted⟩
      obtain ⟨q, hq, rfl⟩ := List.mem_map.1 hoffset
      exact hfirst.trans (hrest.between q hq).1
    · refine List.forall_mem_cons.2 ⟨⟨by omega, by omega⟩, fun q hq => ?_⟩
      have hbetween := hrest.between q hq
      omega
    · refine List.forall_mem_cons.2 ⟨?_, hrest.starts⟩
      rw [hp]
      exact hr.starts hs

/-- Each part of a section, with the offset at the same place of the list of offsets. -/
theorem Noted.forall₂ {α : Type} {number : α → UInt32} {commands : α → Encoded}
    {parts : List (Nat × α)} (h : Noted d number commands parts r m) :
    List.Forall₂ (fun offset a => Starts d offset (number a) (commands a))
      (parts.map (·.1)) (parts.map (·.2)) := by
  rw [List.forall₂_map_left_iff, List.forall₂_map_right_iff, List.forall₂_same]
  exact h.starts

/-! ### Windows and switches -/

theorem offset_lt_of_spans {b : UInt8} (h : (e ++ u8 b).Spans r r') : r.offset < r'.offset := by
  obtain ⟨m, ⟨before, -, -, ho⟩, hlast⟩ := spans_append.1 h
  have ho' := (spans_bytes.1 hlast).2
  simp only [List.length_singleton] at ho'
  omega

theorem Switch.offset_lt {commands : List Placed} (h : (encodeCommands commands).Spans r r') :
    r.offset < r'.offset := by
  have hspans := (spans_encodeCommands.1 h).2
  rw [← append_assoc] at hspans
  exact offset_lt_of_spans hspans

namespace File

variable {f : File} {layout : Layout} {fuel limit : Nat}

/-- The windows of a file, of which the offsets are noted before the one at which the switches
start. -/
theorem noted_windows {parts : List (Nat × Window)} (hr : r.Within d) (hfuel : r.rest.length < fuel)
    (h : decodeFront fuel limit r = .ok parts r') :
    r'.Within d ∧ ∃ r₀ m, Noted d Window.id (fun w => Window.encodeCommands w.commands) parts r₀ m ∧
      m.offset ≤ r'.offset := by
  simp only [decodeFront, fail_bind, ite_ok, fail_ok, bind_ok, u32_ok, pure_ok, and_false,
    false_or] at h
  obtain ⟨_, m₁, h₁, _, m₂, h₂, -, l, m₃, hwindows, _, m₄, h₄, -, rfl, rfl⟩ := h
  have hfuel₂ := h₂.lt_of_lt (h₁.lt_of_lt hfuel)
  rw [listUntilEnd_ok decodeWindow_some (fun _ => decodeWindow_none)
    (fun h => h.2.2.length_lt) hfuel₂ hfuel₂] at hwindows
  obtain ⟨m, hparts, hend⟩ := hwindows
  have hnoted : Noted d Window.id (fun w => Window.encodeCommands w.commands) l m₂ m :=
    .of_sequence ((hr.of_spans h₁).of_spans h₂) offset_lt_of_spans hparts
  have hzero := u32_offset hend
  have hmarker := u32_offset h₄
  exact ⟨(hnoted.within.of_spans hend).of_spans h₄, m₂, m, hnoted, by omega⟩

theorem noted_switches {parts : List (Nat × Switch)} (hr : r.Within d)
    (hfuel : r.rest.length < fuel)
    (h : listUntilEnd (decodeSwitch fuel limit) fuel r = .ok parts r') :
    ∃ m, Noted d Switch.label (fun s => Switch.encodeCommands s.commands) parts r m := by
  rw [listUntilEnd_ok decodeSwitch_some (fun _ => decodeSwitch_none)
    (fun h => h.2.2.length_lt) hfuel hfuel] at h
  obtain ⟨m, hparts, -⟩ := h
  exact ⟨m, .of_sequence hr Switch.offset_lt hparts⟩

/-- The offsets of a file that was read: one for each window and one for each switch, increasing
from the first window to the last switch and inside the data, each of them between the number of its
part and the encoding of that part's commands. -/
theorem layout_of_decode (h : decodeWithLayout d = .ok (f, layout)) :
    (layout.windows ++ layout.switches).Pairwise (· < ·) ∧
      (∀ offset ∈ layout.windows ++ layout.switches, offset ≤ d.length) ∧
      List.Forall₂ (fun offset w => Starts d offset w.id (Window.encodeCommands w.commands))
        layout.windows f.windows ∧
      List.Forall₂ (fun offset s => Starts d offset s.label (Switch.encodeCommands s.commands))
        layout.switches f.switches := by
  rw [decodeWithLayout] at h
  cases hrun : decoder (d.length + 1) Expr.maxNesting (.ofBytes d) with
  | error e _ => simp [hrun] at h
  | ok result last =>
    simp only [hrun, Except.ok.injEq] at h
    subst h
    simp only [decoder, fail_bind, ite_ok, fail_ok, bind_ok, pure_ok, get_ok, and_false,
      false_or] at hrun
    obtain ⟨windows, m, hfront, switches, m', hswitches, -, -, -, -, hresult, -⟩ := hrun
    obtain ⟨rfl, rfl⟩ := Prod.mk.inj hresult
    have hfuel : (Reader.ofBytes d).rest.length < d.length + 1 := Nat.lt_succ_self _
    obtain ⟨hm, start, stop, hw, hle⟩ := noted_windows Reader.within_ofBytes hfuel hfront
    have hfuel' : m.rest.length < d.length + 1 := by
      rw [hm.rest, List.length_drop]
      omega
    obtain ⟨final, hs⟩ := noted_switches hm hfuel' hswitches
    -- the windows end before the reader at which the switches start
    have hbefore : ∀ p ∈ windows, p.1 < m.offset := fun p hp => by
      have hbetween := hw.between p hp
      omega
    have hlast := hs.le
    have hend := hs.within.le
    refine ⟨List.pairwise_append.2 ⟨hw.sorted, hs.sorted, ?_⟩, ?_, hw.forall₂, hs.forall₂⟩
    · intro offset hoffset offset' hoffset'
      obtain ⟨p, hp, rfl⟩ := List.mem_map.1 hoffset
      obtain ⟨q, hq, rfl⟩ := List.mem_map.1 hoffset'
      exact (hbefore p hp).trans (hs.between q hq).1
    · intro offset hoffset
      rcases List.mem_append.1 hoffset with hoffset | hoffset
      · obtain ⟨p, hp, rfl⟩ := List.mem_map.1 hoffset
        have hlt := hbefore p hp
        omega
      · obtain ⟨q, hq, rfl⟩ := List.mem_map.1 hoffset
        have hlt := (hs.between q hq).2
        omega

/-- The window and the two switches of `twoSwitches` start at 12, 32 and 45. -/
theorem layout_of_decode_twoSwitches :
    decodeWithLayout (firstSwitch ++ secondSwitch) = .ok (twoSwitches, ⟨[12], [32, 45]⟩) ∧
      Starts (firstSwitch ++ secondSwitch) 45 2 (Switch.encodeCommands []) := by
  have h : decodeWithLayout (firstSwitch ++ secondSwitch) =
      .ok (twoSwitches, ⟨[12], [32, 45]⟩) := by cbv
  obtain ⟨-, -, -, hswitches⟩ := layout_of_decode h
  obtain ⟨-, hswitches⟩ := List.forall₂_cons.1 hswitches
  exact ⟨h, (List.forall₂_cons.1 hswitches).1⟩

end File

end ApeScript
