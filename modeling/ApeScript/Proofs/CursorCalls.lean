import ApeScript.Number.Binary32
import ApeScript.Proofs.Offsets

/-!
# Typed writing and reading

A writer takes typed values one after another, and the same calls of a reader give them back. Any
call of a reader ends in one of three ways (`Decoder.outcome`): the bytes are there and are read,
they are not and the reader stays where it is, or they spell another word than the expected one,
which has been read by then. So a reader only moves forward and never past the end of its bytes.
-/

namespace ApeScript

inductive Cell where
  | u8 (v : UInt8)
  | u16 (v : UInt16)
  | u32 (v : UInt32)
  | u64 (v : UInt64)
  | f32 (x : Binary32)
  | bytes (b : Bytes)
  deriving DecidableEq, Repr

/-- The bytes of a value; a number with a point is written as its 32 bits. -/
def Cell.encode : Cell → Encoded
  | u8 v => .u8 v
  | u16 v => .u16 v
  | u32 v => .u32 v
  | u64 v => .u64 v
  | f32 x => .u32 x.bits
  | bytes b => .bytes b

namespace Encoded

def writeAll (cells : List Cell) (w : Encoded) : Encoded :=
  cells.foldl (fun w cell => w ++ cell.encode) w

theorem exists_encode (cell : Cell) : ∃ b, cell.encode = bytes b := by
  cases cell with
  | u8 | u16 | u32 | u64 | f32 | bytes => exact ⟨_, rfl⟩

/-- Writing adds to what has been written. -/
theorem writeAll_bytes (cells : List Cell) (written : Bytes) :
    ∃ data, writeAll cells (bytes written) = bytes (written ++ data) ∧
      concat (cells.map Cell.encode) = bytes data := by
  induction cells generalizing written with
  | nil => exact ⟨[], by simp [writeAll], rfl⟩
  | cons cell cells ih =>
    obtain ⟨b, hb⟩ := exists_encode cell
    obtain ⟨data, hall, hconcat⟩ := ih (written ++ b)
    refine ⟨b ++ data, ?_, ?_⟩
    · have hcell : bytes written ++ cell.encode = bytes (written ++ b) := by rw [hb]; rfl
      rw [← List.append_assoc, ← hall, ← hcell]
      rfl
    · rw [List.map_cons, concat_cons, hconcat, hb]
      rfl

/-- A writer that has failed ignores what is written later. -/
theorem writeAll_refused (cells : List Cell) (e : EncodeError) :
    writeAll cells (refused e) = refused e := by
  induction cells with
  | nil => rfl
  | cons cell cells ih =>
    obtain ⟨b, hb⟩ := exists_encode cell
    have hcell : refused e ++ cell.encode = refused e := by rw [hb]; rfl
    have hcons : writeAll (cell :: cells) (refused e) =
        writeAll cells (refused e ++ cell.encode) := rfl
    rw [hcons, hcell, ih]

end Encoded

namespace Reader

variable {r r' : Reader} {data : Bytes}

inductive Call where
  | u8
  | u16
  | u32
  | u64
  | f32
  | bytes (count : Int)
  | expect32 (want : UInt32)
  | expect64 (want : UInt64)
  deriving DecidableEq, Repr

namespace Call

/-- What a call reads: a value, or nothing but the expected word. -/
def run : Call → Decoder (Option Cell)
  | u8 => return some (.u8 (← Decoder.u8))
  | u16 => return some (.u16 (← Decoder.u16))
  | u32 => return some (.u32 (← Decoder.u32))
  | u64 => return some (.u64 (← Decoder.u64))
  | f32 => return some (.f32 ⟨← Decoder.u32⟩)
  | bytes count => return some (.bytes (← Decoder.bytes count))
  | expect32 want => do
    Decoder.expect32 want
    return none
  | expect64 want => do
    Decoder.expect64 want
    return none

def size : Call → Int
  | u8 => 1
  | u16 => 2
  | u32 | f32 | expect32 _ => 4
  | u64 | expect64 _ => 8
  | bytes count => count

def Fits (call : Call) (r : Reader) : Prop := 0 ≤ call.size ∧ call.size ≤ r.rest.length

def after (call : Call) (r : Reader) : Reader :=
  match call.run r with
  | .ok _ r' => r'
  | .error _ r' => r'

def answer (call : Call) (r : Reader) : Except DecodeError (Option Cell) :=
  match call.run r with
  | .ok v _ => .ok v
  | .error e _ => .error e

end Call

def afterAll (calls : List Call) (r : Reader) : Reader := calls.foldl (fun r call => call.after r) r

def answers : List Call → Reader → List (Except DecodeError (Option Cell))
  | [], _ => []
  | call :: calls, r => call.answer r :: answers calls (call.after r)

end Reader

/-- The call that reads a value of the same type back; bytes are read by their number. -/
def Cell.call : Cell → Reader.Call
  | u8 _ => .u8
  | u16 _ => .u16
  | u32 _ => .u32
  | u64 _ => .u64
  | f32 _ => .f32
  | bytes b => .bytes b.length

namespace Decoder

open Reader (Call)

variable {α : Type} {r r' : Reader} {call : Call}

/-- Bytes that are there are read, and otherwise nothing is. -/
theorem take_cases (n : Nat) (r : Reader) :
    (∃ b r', take n r = .ok b r' ∧ b.length = n ∧ (Encoded.bytes b).Spans r r') ∨
      r.rest.length < n ∧ take n r = .error ⟨r.offset, .shortRead n r.offset⟩ r := by
  cases hrun : take n r with
  | ok b r' => exact .inl ⟨b, r', rfl, take_ok.1 hrun⟩
  | error e r' =>
    simp only [take, List.length_take] at hrun
    split at hrun
    · cases hrun
    · cases hrun
      exact .inr ⟨by omega, rfl⟩

/-- The same for what is made of the bytes. -/
theorem map_take_cases (f : Bytes → α) (n : Nat) (r : Reader) :
    (∃ b r', (do return f (← take n) : Decoder α) r = .ok (f b) r' ∧ b.length = n ∧
        (Encoded.bytes b).Spans r r') ∨
      r.rest.length < n ∧
        (do return f (← take n) : Decoder α) r = .error ⟨r.offset, .shortRead n r.offset⟩ r := by
  simp only [bind, EStateM.bind]
  obtain ⟨b, r', htake, hb⟩ | ⟨hlength, htake⟩ := take_cases n r
  · rw [htake]
    exact .inl ⟨b, r', rfl, hb⟩
  · rw [htake]
    exact .inr ⟨hlength, rfl⟩

/-- What a call may do: read as many bytes as it asks for, or stay where it is because they are not
there, or read another word than the expected one. -/
inductive Outcome (call : Call) (r : Reader) :
    EStateM.Result DecodeError Reader (Option Cell) → Prop where
  | read {b : Bytes} {v : Option Cell} {r' : Reader} : (b.length : Int) = call.size →
      (Encoded.bytes b).Spans r r' → Outcome call r (.ok v r')
  | short : ¬ call.Fits r → Outcome call r (.error ⟨r.offset, .shortRead call.size r.offset⟩ r)
  | other32 {want found : UInt32} {r' : Reader} : call = .expect32 want → found ≠ want →
      (Encoded.u32 found).Spans r r' →
      Outcome call r (.error ⟨r'.offset, .wrongWord32 want r.offset found⟩ r')
  | other64 {want found : UInt64} {r' : Reader} : call = .expect64 want → found ≠ want →
      (Encoded.u64 found).Spans r r' →
      Outcome call r (.error ⟨r'.offset, .wrongWord64 want r.offset found⟩ r')

theorem not_fits {n : Nat} (hsize : call.size = n) (h : r.rest.length < n) : ¬ call.Fits r :=
  fun hfits => by
    have := hfits.2
    omega

theorem outcome_of_take {n : Nat} (hsize : call.size = n) {f : Bytes → Option Cell}
    (hrun : call.run = do return f (← take n)) (r : Reader) : Outcome call r (call.run r) := by
  rw [hrun]
  obtain ⟨b, r', htake, hlength, hb⟩ | ⟨hlength, htake⟩ := map_take_cases f n r
  · rw [htake]
    exact .read (by rw [hlength, hsize]) hb
  · rw [htake, ← hsize]
    exact .short (not_fits hsize hlength)

/-- The same for a number that is made of the bytes. -/
theorem outcome_of_number {n : Nat} (hsize : call.size = n) {number : Bytes → α}
    {word : Decoder α} {f : α → Option Cell} (hword : word = do return number (← take n))
    (hrun : call.run = do return f (← word)) (r : Reader) : Outcome call r (call.run r) := by
  refine outcome_of_take hsize (f := fun b => f (number b)) ?_ r
  rw [hrun, hword, bind_assoc]
  rfl

/-- An expected word is read, whether it is the right one or not. -/
theorem outcome_of_word {ω : Type} [DecidableEq ω] {n : Nat} (hsize : call.size = n) {want : ω}
    {word : Decoder ω} {ofBytes : Bytes → ω} {wrong : ω → Nat → ω → Malformed}
    (hword : word = do return ofBytes (← take n))
    (hrun : call.run = do
      (do let start ← offset
          let found ← word
          if found ≠ want then fail (wrong want start found) : Decoder Unit)
      return none)
    (hwrong : ∀ found r', found ≠ want → word r = .ok found r' →
      Outcome call r (.error ⟨r'.offset, wrong want r.offset found⟩ r')) :
    Outcome call r (call.run r) := by
  have hoffset : offset r = .ok r.offset r := rfl
  rw [hrun]
  simp only [bind, EStateM.bind, hoffset]
  obtain ⟨b, r', htake, hlength, hb⟩ | ⟨hlength, htake⟩ := map_take_cases ofBytes n r
  · rw [← hword] at htake
    simp only [htake]
    by_cases hfound : ofBytes b = want
    · rw [if_neg (not_not.2 hfound)]
      exact .read (by rw [hlength, hsize]) hb
    · rw [if_pos hfound]
      exact hwrong _ _ hfound htake
  · rw [← hword] at htake
    simp only [htake]
    rw [← hsize]
    exact .short (not_fits hsize hlength)

/-- Every call ends in one of these ways. -/
theorem outcome (call : Call) (r : Reader) : Outcome call r (call.run r) := by
  cases call with
  | u8 => exact outcome_of_number rfl rfl rfl r
  | u16 => exact outcome_of_number rfl rfl rfl r
  | u32 => exact outcome_of_number rfl rfl rfl r
  | u64 => exact outcome_of_number rfl rfl rfl r
  | f32 => exact outcome_of_number rfl rfl rfl r
  | bytes count =>
    cases count with
    | ofNat n => exact outcome_of_take rfl rfl r
    | negSucc n => exact .short fun h => absurd h.1 (by simp [Call.size])
  | expect32 want =>
    exact outcome_of_word rfl rfl (rfl : Call.run (.expect32 want) = do
      Decoder.expect32 want
      return none) fun found r' hfound hread => .other32 rfl hfound (u32_ok.1 hread)
  | expect64 want =>
    exact outcome_of_word rfl rfl (rfl : Call.run (.expect64 want) = do
      Decoder.expect64 want
      return none) fun found r' hfound hread => .other64 rfl hfound (u64_ok.1 hread)

/-- A written value is read back. -/
theorem run_call {cell : Cell} (h : cell.encode.Spans r r') :
    cell.call.run r = .ok (some cell) r' := by
  cases cell with
  | u8 v => exact bind_ok.2 ⟨v, r', u8_ok.2 h, rfl⟩
  | u16 v => exact bind_ok.2 ⟨v, r', u16_ok.2 h, rfl⟩
  | u32 v => exact bind_ok.2 ⟨v, r', u32_ok.2 h, rfl⟩
  | u64 v => exact bind_ok.2 ⟨v, r', u64_ok.2 h, rfl⟩
  | f32 x => exact bind_ok.2 ⟨x.bits, r', u32_ok.2 h, rfl⟩
  | bytes b => exact bind_ok.2 ⟨b, r', take_ok.2 ⟨rfl, h⟩, rfl⟩

end Decoder

namespace Reader

open Decoder (Outcome)

variable {r r' : Reader} {data : Bytes}

/-! ### Reading what was written -/

/-- Written values are read back by the same calls, which leave the reader after them. -/
theorem answers_of_spans {cells : List Cell}
    (h : (Encoded.concat (cells.map Cell.encode)).Spans r r') :
    answers (cells.map Cell.call) r = cells.map (fun cell => .ok (some cell)) ∧
      afterAll (cells.map Cell.call) r = r' := by
  induction cells generalizing r with
  | nil => exact ⟨rfl, Encoded.spans_empty.1 h⟩
  | cons cell cells ih =>
    rw [List.map_cons, Encoded.concat_cons] at h
    obtain ⟨m, hcell, hcells⟩ := Encoded.spans_append.1 h
    have hrun := Decoder.run_call hcell
    have hafter : cell.call.after r = m := by rw [Call.after, hrun]
    have hanswer : cell.call.answer r = .ok (some cell) := by rw [Call.answer, hrun]
    obtain ⟨hanswers, hall⟩ := ih hcells
    constructor
    · rw [List.map_cons, List.map_cons, answers, hanswer, hafter, hanswers]
    · rw [← hall, ← hafter]
      rfl

/-! ### Any calls -/

def Moves (r r' : Reader) : Prop := ∃ b, (Encoded.bytes b).Spans r r'

theorem moves_refl (r : Reader) : r.Moves r := ⟨[], Encoded.spans_empty.2 rfl⟩

theorem Moves.offset_le (h : r.Moves r') : r.offset ≤ r'.offset := by
  obtain ⟨b, hb⟩ := h
  rw [(Encoded.spans_bytes.1 hb).2]
  exact Nat.le_add_right _ _

theorem moves_after (call : Call) (r : Reader) : r.Moves (call.after r) := by
  have h := Decoder.outcome call r
  rw [Call.after]
  cases hrun : call.run r with
  | ok v r' =>
    rw [hrun] at h
    obtain ⟨-, hb⟩ | _ | _ | _ := h
    exact ⟨_, hb⟩
  | error e r' =>
    rw [hrun] at h
    obtain _ | _ | ⟨-, -, hword⟩ | ⟨-, -, hword⟩ := h
    · exact moves_refl r
    · exact ⟨_, hword⟩
    · exact ⟨_, hword⟩

theorem within_afterAll (calls : List Call) (h : r.Within data) :
    (afterAll calls r).Within data := by
  induction calls generalizing r with
  | nil => exact h
  | cons call calls ih =>
    obtain ⟨b, hb⟩ := moves_after call r
    exact ih (h.of_spans hb)

theorem Within.atEnd_iff (h : r.Within data) : r.atEnd = true ↔ r.offset = data.length := by
  have hle := h.le
  rw [atEnd, List.isEmpty_iff, h.rest, List.drop_eq_nil_iff]
  omega

def Call.Misread (call : Call) (r r' : Reader) : Prop :=
  (∃ want found : UInt32, call = .expect32 want ∧ found ≠ want ∧
      Decoder.u32 r = .ok found r') ∨
    ∃ want found : UInt64, call = .expect64 want ∧ found ≠ want ∧ Decoder.u64 r = .ok found r'

/-- The bytes between two readers are there, as many as the call asks for. -/
theorem fits_of_spans (call : Call) {b : Bytes} (hsize : (b.length : Int) = call.size)
    (h : (Encoded.bytes b).Spans r r') :
    call.Fits r ∧ (r'.offset : Int) = r.offset + call.size := by
  obtain ⟨hrest, hoffset⟩ := Encoded.spans_bytes.1 h
  have hlength := congrArg List.length hrest
  rw [List.length_append] at hlength
  exact ⟨⟨by omega, by omega⟩, by omega⟩

/-- A call that succeeds has read what it asks for. -/
theorem answer_eq_ok {call : Call} {v : Option Cell} (h : call.answer r = .ok v) :
    call.Fits r ∧ ((call.after r).offset : Int) = r.offset + call.size := by
  have houtcome := Decoder.outcome call r
  rw [Call.answer] at h
  rw [Call.after]
  cases hrun : call.run r with
  | ok v r' =>
    rw [hrun] at houtcome
    obtain ⟨hsize, hb⟩ | _ | _ | _ := houtcome
    exact fits_of_spans call hsize hb
  | error e r' => simp [hrun] at h

/-- A call that fails asks for what is not there and has read nothing, or has read another word than
the expected one. -/
theorem answer_eq_error {call : Call} {e : DecodeError} (h : call.answer r = .error e) :
    e.offset = (call.after r).offset ∧
      (¬ call.Fits r ∧ call.after r = r ∨
        call.Fits r ∧ call.Misread r (call.after r) ∧
          ((call.after r).offset : Int) = r.offset + call.size) := by
  have houtcome := Decoder.outcome call r
  rw [Call.answer] at h
  rw [Call.after]
  cases hrun : call.run r with
  | ok v r' => simp [hrun] at h
  | error e' r' =>
    rw [hrun] at houtcome
    simp only [hrun, Except.error.injEq] at h
    subst h
    obtain _ | hfits | ⟨rfl, hfound, hword⟩ | ⟨rfl, hfound, hword⟩ := houtcome
    · exact ⟨rfl, .inl ⟨hfits, rfl⟩⟩
    · obtain ⟨hfits, hoffset⟩ := fits_of_spans (.expect32 _) rfl hword
      exact ⟨rfl, .inr ⟨hfits, .inl ⟨_, _, rfl, hfound, Decoder.u32_ok.2 hword⟩, hoffset⟩⟩
    · obtain ⟨hfits, hoffset⟩ := fits_of_spans (.expect64 _) rfl hword
      exact ⟨rfl, .inr ⟨hfits, .inr ⟨_, _, rfl, hfound, Decoder.u64_ok.2 hword⟩, hoffset⟩⟩

/-- Reading undoes writing: the same calls give back whatever values were written, and nothing is
left. After any calls on any bytes a reader stands inside them, at the end exactly when it has read
them all. The next call does not move it back: it reads as many bytes as it asks for, or fails and
moves nowhere because they are not there, or fails after another word than the expected one. -/
theorem reads_what_was_written :
    (∀ cells : List Cell, ∃ data, Encoded.writeAll cells .empty = .bytes data ∧
      answers (cells.map Cell.call) (.ofBytes data) = cells.map (fun cell => .ok (some cell)) ∧
      (afterAll (cells.map Cell.call) (.ofBytes data)).atEnd = true) ∧
    ∀ (data : Bytes) (calls : List Call) (call : Call),
      let r := afterAll calls (.ofBytes data)
      r.Within data ∧ (r.atEnd = true ↔ r.offset = data.length) ∧
      r.offset ≤ (call.after r).offset ∧
      (∀ v, call.answer r = .ok v →
        call.Fits r ∧ ((call.after r).offset : Int) = r.offset + call.size) ∧
      ∀ e, call.answer r = .error e → e.offset = (call.after r).offset ∧
        (¬ call.Fits r ∧ call.after r = r ∨
          call.Fits r ∧ call.Misread r (call.after r) ∧
            ((call.after r).offset : Int) = r.offset + call.size) := by
  constructor
  · intro cells
    obtain ⟨data, hall, hconcat⟩ := Encoded.writeAll_bytes cells []
    have hspans := Encoded.spans_ofBytes.2 ⟨hconcat, rfl⟩
    obtain ⟨hanswers, hafter⟩ := answers_of_spans hspans
    exact ⟨data, hall, hanswers, by rw [hafter]; rfl⟩
  · intro data calls call r
    have hwithin : r.Within data := within_afterAll calls within_ofBytes
    exact ⟨hwithin, hwithin.atEnd_iff, (moves_after call r).offset_le, fun _ => answer_eq_ok,
      fun _ => answer_eq_error⟩

/-- Two reads that ask for what is not there change nothing for the word after them. -/
example : (afterAll [.u8, .bytes (-1), .bytes 5, .expect32 7] (.ofBytes [1, 2, 0, 0, 0])).offset =
    5 := by decide

end Reader

end ApeScript
