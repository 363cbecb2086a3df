import ApeScript.Proofs.RoundTrip

/-!
# Truncated files

What is left of a stored file when its end is lost can be read only if it was cut where the label of
one more switch could stand: right after the marker that ends the windows, or right after the end
record of a switch. The switches before the cut are then read, and nothing tells that there were
more. Everywhere else the cut is noticed.
-/

namespace ApeScript

open Encoded
open Decoder hiding bytes u8 u16 u32 u64 littleEndian

namespace Decoder

variable {α : Type} {step : Decoder (Option α)} {r m m' e : Reader}

/-- Items read one after another up to a reader at which the list ends. Whatever else is read item
by item from the same start is the beginning of that list. -/
theorem sequence_beginning {as bs : List α} (hend : step m = .ok none e)
    (has : Sequence (fun a r r' => step r = .ok (some a) r') as r m)
    (hbs : Sequence (fun a r r' => step r = .ok (some a) r') bs r m') :
    ∃ cs, as = bs ++ cs ∧ Sequence (fun a r r' => step r = .ok (some a) r') cs m' m := by
  induction bs generalizing as r with
  | nil =>
    cases hbs
    exact ⟨as, rfl, has⟩
  | cons b bs ih =>
    obtain ⟨n, hb, hbs⟩ := hbs
    cases as with
    | nil =>
      cases has
      rw [hend] at hb
      cases hb
    | cons a as =>
      obtain ⟨n', ha, has⟩ := has
      rw [hb] at ha
      cases ha
      obtain ⟨cs, rfl, hcs⟩ := ih has hbs
      exact ⟨cs, rfl, hcs⟩

end Decoder

/-- What a record spans at the start of some data is its bytes. -/
theorem Encoded.spans_beginning {enc : Encoded} {p q : Bytes} :
    enc = .bytes p → enc.Spans (.ofBytes (p ++ q)) ⟨q, p.length⟩ := by
  rintro rfl
  simp [Reader.ofBytes]

namespace File

variable {f g : File} {d p : Bytes} {r m m' : Reader} {limit : Nat}

def upTo (f : File) (k : Nat) : File := { f with switches := f.switches.take k }

/-- The data ends right after the marker and the first `k` switches with their end records. -/
def EndsAfter (f : File) (k : Nat) (p : Bytes) : Prop :=
  encodeFront f.windows ++ encodeSwitches (f.switches.take k) = .bytes p

theorem NestedWithin.upTo (hf : f.NestedWithin limit) (k : Nat) :
    (f.upTo k).NestedWithin limit := by
  obtain ⟨hw, hs⟩ := nestedWithin_iff.1 hf
  exact nestedWithin_iff.2 ⟨hw, fun s hmem => hs s (List.mem_of_mem_take hmem)⟩

/-- The header, the windows and the marker can be read in one way only. -/
theorem encodeFront_unique {ws ws' : List Window}
    (hn : ∀ w ∈ ws, ∀ e ∈ w.exprs, e.nesting ≤ limit)
    (hn' : ∀ w ∈ ws', ∀ e ∈ w.exprs, e.nesting ≤ limit)
    (h : (encodeFront ws).Spans r m) (h' : (encodeFront ws').Spans r m') : ws = ws' ∧ m = m' := by
  have hr : r.rest.length < r.rest.length + 1 := Nat.lt_succ_self _
  obtain ⟨l, rfl, hl⟩ := (decodeFront_ok hr).2 ⟨hn, h⟩
  obtain ⟨l', rfl, hl'⟩ := (decodeFront_ok hr).2 ⟨hn', h'⟩
  rw [hl] at hl'
  cases hl'
  exact ⟨rfl, rfl⟩

/-- Switches at the start of switches that a zero label ends are the first of them. They are all of
them if a zero label ends them too. -/
theorem encodeSwitches_beginning {ss ss' : List Switch} {e : Reader}
    (hn : ∀ s ∈ ss, ∀ e ∈ s.exprs, e.nesting ≤ limit)
    (hn' : ∀ s ∈ ss', ∀ e ∈ s.exprs, e.nesting ≤ limit)
    (h : (encodeSwitches ss).Spans r m) (hzero : (u32 0).Spans m e)
    (h' : (encodeSwitches ss').Spans r m') :
    ss' = ss.take ss'.length ∧ ss'.length ≤ ss.length ∧
      ∀ e', (u32 0).Spans m' e' → e' = e := by
  have hr : r.rest.length < r.rest.length + 1 := Nat.lt_succ_self _
  obtain ⟨l, rfl, hl⟩ := (switchSequence_ok hr).2 ⟨hn, h⟩
  obtain ⟨l', rfl, hl'⟩ := (switchSequence_ok hr).2 ⟨hn', h'⟩
  have hend : decodeSwitch (r.rest.length + 1) limit m = .ok none e :=
    decodeSwitch_none.2 (Or.inr hzero)
  obtain ⟨more, rfl, hmore⟩ := sequence_beginning hend hl hl'
  refine ⟨by simp, by simp, fun e' hzero' => ?_⟩
  have hend' : decodeSwitch (r.rest.length + 1) limit m' = .ok none e' :=
    decodeSwitch_none.2 (Or.inr hzero')
  cases more with
  | nil =>
    cases hmore
    rw [hend] at hend'
    cases hend'
    rfl
  | cons s more =>
    obtain ⟨n, hs, -⟩ := hmore
    rw [hend'] at hs
    cases hs

/-- What is read from a proper beginning of a stored file is the file with some of its switches
left out at the end, and the beginning stops after those that are left. -/
theorem endsAfter_of_decode (hd : f.encode = .bytes d) (hf : f.NestedWithin Expr.maxNesting)
    (hp : p <+: d) (hne : p ≠ d) (hg : decode p = .ok g) :
    ∃ k ≤ f.switches.length, f.EndsAfter k p ∧ g = f.upTo k := by
  obtain ⟨q, rfl⟩ := hp
  have hq : q ≠ [] := fun h => hne (by simp [h])
  obtain ⟨hwn, hsn⟩ := nestedWithin_iff.1 hf
  obtain ⟨hgn, hgp⟩ := decode_ok.1 hg
  obtain ⟨hwn', hsn'⟩ := nestedWithin_iff.1 hgn
  -- the whole data, read as the file
  have hwhole := spans_ofBytes.2 ⟨hd, rfl⟩
  rw [encode_eq_encodeOpen, spans_append] at hwhole
  obtain ⟨m, hopen, hzero⟩ := hwhole
  obtain ⟨n, hfront, hswitches⟩ := spans_append.1 hopen
  -- its beginning, read as what is left, without or with a zero label of its own
  obtain ⟨m', hopen', hlast⟩ : ∃ m', g.encodeOpen.Spans (.ofBytes (p ++ q)) m' ∧
      (g.encodeOpen = .bytes p ∨ (u32 0).Spans m' ⟨q, p.length⟩) := by
    rcases hgp with h | h
    · exact ⟨_, spans_beginning h, Or.inl h⟩
    · have hspan := spans_beginning (q := q) h
      rw [encode_eq_encodeOpen, spans_append] at hspan
      obtain ⟨m', hm', hlabel⟩ := hspan
      exact ⟨m', hm', Or.inr hlabel⟩
  obtain ⟨n', hfront', hswitches'⟩ := spans_append.1 hopen'
  obtain ⟨hwindows, rfl⟩ := encodeFront_unique hwn hwn' hfront hfront'
  obtain ⟨htake, hle, hlabel⟩ := encodeSwitches_beginning hsn hsn' hswitches hzero hswitches'
  have hg : g = f.upTo g.switches.length := by
    rw [upTo, hwindows, ← htake]
  refine ⟨g.switches.length, hle, ?_, hg⟩
  rcases hlast with hbytes | hsecond
  · rw [EndsAfter, hwindows, ← htake]
    exact hbytes
  · exact absurd (congrArg Reader.rest (hlabel _ hsecond)) hq

/-- A stored file that loses its end can still be read exactly when it was cut right after the
marker or right after a switch; it is then read as the file with the switches before the cut. -/
theorem decode_truncated (hd : f.encode = .bytes d) (hf : decode d = .ok f) (hp : p <+: d)
    (hne : p ≠ d) :
    ((∃ g, decode p = .ok g) ↔ ∃ k ≤ f.switches.length, f.EndsAfter k p) ∧
      ∀ k ≤ f.switches.length, f.EndsAfter k p → decode p = .ok (f.upTo k) := by
  have hnested : f.NestedWithin Expr.maxNesting := (decode_ok.1 hf).1
  have hread (k : Nat) (h : f.EndsAfter k p) : decode p = .ok (f.upTo k) :=
    decode_ok.2 ⟨hnested.upTo k, Or.inl h⟩
  refine ⟨⟨?_, ?_⟩, fun k _ h => hread k h⟩
  · rintro ⟨g, hg⟩
    obtain ⟨k, hk, hends, -⟩ := endsAfter_of_decode hd hnested hp hne hg
    exact ⟨k, hk, hends⟩
  · rintro ⟨k, -, hends⟩
    exact ⟨f.upTo k, hread k hends⟩

def twoSwitches : File where
  windows := [⟨10001, [.simpleText CommandCode.font [97]]⟩]
  switches := [⟨1, []⟩, ⟨2, []⟩]

/-- The beginning of `twoSwitches` that ends with the first switch. -/
def firstSwitch : Bytes :=
  [61, 1, 0, 0, 255, 255, 255, 255, 17, 39, 0, 0, 70, 2, 0, 0, 0, 97, 0, 69, 0, 0, 0, 0,
   254, 255, 255, 255, 1, 0, 0, 0, 0, 0, 0, 0, 0, 0, 0, 0, 69]

/-- What follows `firstSwitch` in the encoding of `twoSwitches`. -/
def secondSwitch : Bytes := [2, 0, 0, 0, 0, 0, 0, 0, 0, 0, 0, 0, 69, 0, 0, 0, 0]

/-- `twoSwitches` cut after its first switch is read without the second; cut inside the label of the
second it is not read. -/
theorem decode_truncated_twoSwitches :
    twoSwitches.encode = .bytes (firstSwitch ++ secondSwitch) ∧
      decode (firstSwitch ++ secondSwitch) = .ok twoSwitches ∧
      decode firstSwitch = .ok (twoSwitches.upTo 1) ∧
      ¬ ∃ g, decode (firstSwitch ++ [2, 0]) = .ok g := by
  have hd : twoSwitches.encode = .bytes (firstSwitch ++ secondSwitch) := rfl
  have hf : decode (firstSwitch ++ secondSwitch) = .ok twoSwitches := by cbv
  refine ⟨hd, hf, ?_, fun h => ?_⟩
  · have hp : firstSwitch <+: firstSwitch ++ secondSwitch := List.prefix_append _ _
    exact (decode_truncated hd hf hp (by decide)).2 1 (by decide) rfl
  · have hp : firstSwitch ++ [2, 0] <+: firstSwitch ++ secondSwitch := ⟨secondSwitch.drop 2, rfl⟩
    obtain ⟨k, hk, hends⟩ := (decode_truncated hd hf hp (by decide)).1.1 h
    have hcuts : ∀ k ≤ 2, encodeFront twoSwitches.windows ++
        encodeSwitches (twoSwitches.switches.take k) ≠ .bytes (firstSwitch ++ [2, 0]) := by
      decide
    exact hcuts k hk hends

end File

end ApeScript
