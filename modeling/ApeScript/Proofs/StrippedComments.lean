import ApeScript.Compile.Preprocess
import ApeScript.Compile.Scan
import Mathlib

/-!
# Stripped comments

A text is cut into stretches: bytes outside comments, line comments and block comments. A line
comment runs up to its newline, a block comment up to the first closing marker after its first
slash, so that one star may belong to both of its markers. `stripComments` blanks the comments of a
text that is cut in this way, and fails if what is left over opens a block comment that never
closes. What it gives holds no comment marker, and nothing but comments has changed.
-/

namespace ApeScript.Preprocess

/-- A byte outside comments, the text of a line comment after its slashes, or the text of a block
comment between its first slash and its closing marker. -/
inductive Stretch where
  | plain (b : UInt8)
  | line (text : Bytes)
  | block (inner : Bytes)

namespace Stretch

def bytes : Stretch → Bytes
  | plain b => [b]
  | line text => 47 :: 47 :: text
  | block inner => 47 :: (inner ++ [42, 47])

def blank (s : Bytes) : Bytes := s.map fun b => if b = 10 then 10 else 32

def blanked : Stretch → Bytes
  | plain b => [b]
  | comment => blank comment.bytes

/-- The stretch is what it claims to be when `rest` follows it: a plain byte opens no comment, a
line comment reaches up to its newline, and a block comment up to its first closing marker. -/
def EndsBefore (rest : Bytes) : Stretch → Prop
  | plain b => b = 47 → rest.head? ≠ some 47 ∧ rest.head? ≠ some 42
  | line text => 10 ∉ text ∧ ∀ b ∈ rest.head?, b = 10
  | block inner => (∀ b ∈ inner.head?, b = 42) ∧ ¬ [42, 47] <:+: inner

end Stretch

def joined (ps : List Stretch) : Bytes := ps.flatMap Stretch.bytes

def blanked (ps : List Stretch) : Bytes := ps.flatMap Stretch.blanked

def CutBefore (rest : Bytes) : List Stretch → Prop
  | [] => True
  | p :: ps => p.EndsBefore (joined ps ++ rest) ∧ CutBefore rest ps

def Markerless (s : Bytes) : Prop := ¬ [47, 47] <:+: s ∧ ¬ [47, 42] <:+: s

variable {s rest text inner out : Bytes} {b : UInt8} {loc opened : Location} {ps : List Stretch}
  {pending : Option Location}

theorem joined_cons (p : Stretch) : joined (p :: ps) = p.bytes ++ joined ps := List.flatMap_cons

theorem blanked_cons (p : Stretch) : blanked (p :: ps) = p.blanked ++ blanked ps :=
  List.flatMap_cons

/-! ### Stripping stretches -/

def Zone.opened? : Zone → Option Location
  | block opened => some opened
  | _ => none

/-- From a zone and a place on, a text is stripped to `out`, and ends in a block comment or not. -/
structure Strips (zone : Zone) (loc : Location) (s out : Bytes) (pending : Option Location) :
    Prop where
  out_eq : (stripFrom zone loc s).1 = out
  pending_eq : (stripFrom zone loc s).2.opened? = pending

theorem Strips.cons {zone next : Zone} {a : UInt8}
    (hbyte : stripByte zone loc b s.head? = (a, next))
    (h : Strips next (loc.after b) s out pending) :
    Strips zone loc (b :: s) (a :: out) pending := by
  constructor
  · rw [stripFrom, hbyte, ← h.out_eq]
  · rw [stripFrom, hbyte, ← h.pending_eq]

theorem stripByte_opening {next : Option UInt8} (h : next = some 42) :
    stripByte .plain loc 47 next = (32, .block loc) := by
  subst h
  rfl

theorem stripByte_block {next : Option UInt8} (h : ¬ (b = 42 ∧ next = some 47)) :
    stripByte (.block opened) loc b next = (if b = 10 then 10 else 32, .block opened) :=
  if_neg h

/-- Two bytes next to each other, at the start or further on. -/
theorem pair_infix_cons {a c : UInt8} :
    [a, c] <:+: b :: s ↔ (a = b ∧ s.head? = some c) ∨ [a, c] <:+: s := by
  have hhead : [c] <+: s ↔ s.head? = some c := by
    cases s with
    | nil => simp
    | cons d s => rw [List.cons_prefix_cons]; simp [eq_comm (a := c)]
  rw [List.infix_cons_iff, List.cons_prefix_cons, hhead]

/-- A line comment ends before its newline or with the text. -/
theorem Strips.line (htext : 10 ∉ text) (hrest : ∀ b ∈ rest.head?, b = 10)
    (h : Strips .plain (loc.advance text) rest out pending) :
    Strips .line loc (text ++ rest) (Stretch.blank text ++ out) pending := by
  induction text generalizing loc with
  | nil =>
    cases rest with
    | nil => exact ⟨h.out_eq, h.pending_eq⟩
    | cons b rest =>
      obtain rfl := hrest b rfl
      exact ⟨h.out_eq, h.pending_eq⟩
  | cons b text ih =>
    obtain ⟨hb, htext⟩ := not_or.1 (List.mem_cons.not.1 htext)
    refine .cons ?_ (ih htext h)
    simp [stripByte, Ne.symm hb]

/-- A block comment ends with its first closing marker. -/
theorem Strips.block (hinner : ¬ [42, 47] <:+: inner)
    (h : Strips .plain (loc.advance (inner ++ [42, 47])) rest out pending) :
    Strips (.block opened) loc (inner ++ [42, 47] ++ rest)
      (Stretch.blank (inner ++ [42, 47]) ++ out) pending := by
  induction inner generalizing loc with
  | nil =>
    have hstar : stripByte (.block opened) loc 42 (some 47) = (32, .closing) := rfl
    have hslash : stripByte .closing (loc.after 42) 47 rest.head? = (32, .plain) := rfl
    exact .cons hstar (.cons hslash h)
  | cons b inner ih =>
    obtain ⟨hb, hinner⟩ := not_or.1 (pair_infix_cons.not.1 hinner)
    refine .cons (stripByte_block ?_) (ih hinner h)
    rintro ⟨rfl, hnext⟩
    cases inner with
    | nil => simp at hnext
    | cons c inner => exact hb ⟨rfl, hnext⟩

theorem Strips.stretch {p : Stretch} (hp : p.EndsBefore rest)
    (h : Strips .plain (loc.advance p.bytes) rest out pending) :
    Strips .plain loc (p.bytes ++ rest) (p.blanked ++ out) pending := by
  cases p with
  | plain b =>
    refine .cons ?_ h
    by_cases hb : b = 47
    · obtain ⟨hline, hblock⟩ := hp hb
      simp [stripByte, hline, hblock]
    · simp [stripByte, hb]
  | line text =>
    have hfirst : stripByte .plain loc 47 (some 47) = (32, .line) := rfl
    have hsecond : stripByte .line (loc.after 47) 47 (text ++ rest).head? = (32, .line) := rfl
    exact .cons hfirst (.cons hsecond (.line hp.1 hp.2 h))
  | block inner =>
    have hstar : (inner ++ [42, 47] ++ rest).head? = some 42 := by
      cases inner with
      | nil => rfl
      | cons c inner => rw [hp.1 c rfl]; rfl
    exact .cons (stripByte_opening hstar) (.block hp.2 h)

theorem Strips.stretches (hps : CutBefore rest ps)
    (h : Strips .plain (loc.advance (joined ps)) rest out pending) :
    Strips .plain loc (joined ps ++ rest) (blanked ps ++ out) pending := by
  induction ps generalizing loc with
  | nil => exact h
  | cons p ps ih =>
    rw [joined_cons, blanked_cons, List.append_assoc, List.append_assoc]
    refine .stretch hps.1 (ih hps.2 ?_)
    rwa [joined_cons, Location.advance, List.foldl_append] at h

/-- A block comment that never closes is open at the end of the text. -/
theorem Strips.unclosed (h : ¬ [42, 47] <:+: s) :
    ∃ out, Strips (.block opened) loc s out (some opened) := by
  induction s generalizing loc with
  | nil => exact ⟨[], rfl, rfl⟩
  | cons b s ih =>
    obtain ⟨hb, hs⟩ := not_or.1 (pair_infix_cons.not.1 h)
    obtain ⟨out, hout⟩ : ∃ out, Strips (.block opened) (loc.after b) s out (some opened) := ih hs
    exact ⟨_, .cons (stripByte_block fun h => hb ⟨h.1.symm, h.2⟩) hout⟩

/-! ### Cutting a text -/

/-- Two bytes that stand next to each other somewhere do so for the first time. -/
theorem exists_first_pair {a c : UInt8} (h : [a, c] <:+: s) :
    ∃ inner rest, s = inner ++ [a, c] ++ rest ∧ ¬ [a, c] <:+: inner := by
  induction s with
  | nil => simp at h
  | cons b s ih =>
    by_cases hfirst : a = b ∧ s.head? = some c
    · obtain ⟨rfl, hnext⟩ := hfirst
      obtain ⟨rest, rfl⟩ := List.head?_eq_some_iff.1 hnext
      exact ⟨[], rest, rfl, by simp⟩
    · obtain ⟨inner, rest, rfl, hinner⟩ := ih ((pair_infix_cons.1 h).resolve_left hfirst)
      refine ⟨b :: inner, rest, rfl, pair_infix_cons.not.2 (not_or.2 ⟨?_, hinner⟩)⟩
      rintro ⟨rfl, hnext⟩
      refine hfirst ⟨rfl, ?_⟩
      cases inner with
      | nil => simp at hnext
      | cons d inner => exact hnext

/-- A text is cut into stretches up to its end, or up to a block comment that never closes. -/
theorem exists_stretches (s : Bytes) : ∃ ps rest, CutBefore rest ps ∧ s = joined ps ++ rest ∧
    (rest = [] ∨ ∃ body, rest = 47 :: 42 :: body ∧ ¬ [42, 47] <:+: 42 :: body) := by
  induction hn : s.length using Nat.strong_induction_on generalizing s with
  | _ n ih =>
  subst hn
  -- the first stretch, cut off from a shorter text
  have hcons {p : Stretch} {t : Bytes} (hs : s = p.bytes ++ t) (hp : p.EndsBefore t)
      (ht : t.length < s.length) : ∃ ps rest, CutBefore rest ps ∧ s = joined ps ++ rest ∧
        (rest = [] ∨ ∃ body, rest = 47 :: 42 :: body ∧ ¬ [42, 47] <:+: 42 :: body) := by
    obtain ⟨ps, rest, hcut, rfl, hrest⟩ := ih t.length ht t rfl
    exact ⟨p :: ps, rest, ⟨hp, hcut⟩, by rw [hs, joined_cons, List.append_assoc], hrest⟩
  cases s with
  | nil => exact ⟨[], [], trivial, rfl, Or.inl rfl⟩
  | cons b t =>
    by_cases hline : b = 47 ∧ t.head? = some 47
    · obtain ⟨rfl, hnext⟩ := hline
      obtain ⟨u, rfl⟩ := List.head?_eq_some_iff.1 hnext
      refine hcons (p := .line (u.takeWhile (· ≠ 10))) (t := u.dropWhile (· ≠ 10)) ?_ ⟨?_, ?_⟩ ?_
      · simp [Stretch.bytes]
      · exact fun h => by simpa using List.mem_takeWhile_imp h
      · intro b hb
        have hstop := List.head?_dropWhile_not (· ≠ (10 : UInt8)) u
        rw [Option.mem_def.1 hb] at hstop
        simpa using hstop
      · have := (List.dropWhile_sublist (p := (· ≠ (10 : UInt8))) (l := u)).length_le
        simp only [List.length_cons]
        omega
    by_cases hblock : b = 47 ∧ t.head? = some 42
    · obtain ⟨rfl, hnext⟩ := hblock
      by_cases hclosed : [42, 47] <:+: t
      · obtain ⟨inner, rest, rfl, hinner⟩ := exists_first_pair hclosed
        refine hcons (p := .block inner) (t := rest) rfl ⟨fun c hc => ?_, hinner⟩ ?_
        · obtain ⟨more, rfl⟩ := List.head?_eq_some_iff.1 hc
          exact Option.some.inj hnext
        · simp only [List.length_cons, List.length_append]
          omega
      · obtain ⟨body, rfl⟩ := List.head?_eq_some_iff.1 hnext
        exact ⟨[], _, trivial, rfl, Or.inr ⟨body, rfl, hclosed⟩⟩
    · refine hcons (p := .plain b) (t := t) rfl (fun hb => ⟨?_, ?_⟩) (Nat.lt_succ_self _)
      · exact fun h => hline ⟨hb, h⟩
      · exact fun h => hblock ⟨hb, h⟩

theorem stripComments_joined (hps : CutBefore [] ps) :
    stripComments file (joined ps) = .ok (blanked ps) := by
  have hend (loc : Location) : Strips .plain loc [] [] none := ⟨rfl, rfl⟩
  have hstrips : Strips .plain (.start file) (joined ps) (blanked ps) none := by
    simpa using Strips.stretches hps (hend ((Location.start file).advance (joined ps)))
  obtain ⟨hout, hpending⟩ := hstrips
  revert hout hpending
  unfold stripComments
  cases stripFrom .plain (.start file) (joined ps) with
  | mk out zone => cases zone <;> rintro rfl hpending <;> first | rfl | cases hpending

theorem stripComments_unclosed {body : Bytes} (hps : CutBefore (47 :: 42 :: body) ps)
    (hbody : ¬ [42, 47] <:+: 42 :: body) :
    stripComments file (joined ps ++ 47 :: 42 :: body) =
      .error ⟨.ofOffset file (joined ps ++ 47 :: 42 :: body) (joined ps).length,
        .unterminatedComment⟩ := by
  have hloc : Location.ofOffset file (joined ps ++ 47 :: 42 :: body) (joined ps).length =
      (Location.start file).advance (joined ps) := by
    rw [Location.ofOffset, List.take_left]
  obtain ⟨out, hout⟩ : ∃ out, Strips (.block ((Location.start file).advance (joined ps)))
      (((Location.start file).advance (joined ps)).after 47) (42 :: body) out
      (some ((Location.start file).advance (joined ps))) := Strips.unclosed hbody
  obtain ⟨-, hpending⟩ := Strips.stretches hps (.cons (stripByte_opening rfl) hout)
  revert hpending
  rw [hloc]
  unfold stripComments
  cases stripFrom .plain (.start file) (joined ps ++ 47 :: 42 :: body) with
  | mk out zone =>
    cases zone <;> intro hpending <;> cases hpending
    rfl

/-! ### What stripping changes -/

/-- A byte and what stands in its place: the byte itself, or a blank unless it is a newline. -/
def Cleared (b a : UInt8) : Prop := a = b ∨ b ≠ 10 ∧ a = 32

theorem cleared_joined (ps : List Stretch) : List.Forall₂ Cleared (joined ps) (blanked ps) := by
  have hblank (s : Bytes) : List.Forall₂ Cleared s (Stretch.blank s) := by
    rw [Stretch.blank, List.forall₂_map_right_iff, List.forall₂_same]
    intro b _
    by_cases hb : b = 10
    · exact Or.inl (by simp [hb])
    · exact Or.inr ⟨hb, if_neg hb⟩
  induction ps with
  | nil => exact .nil
  | cons p ps ih =>
    rw [joined_cons, blanked_cons]
    refine List.rel_append ?_ ih
    cases p with
    | plain b => exact .cons (Or.inl rfl) .nil
    | line text => exact hblank _
    | block inner => exact hblank _

theorem markerless_cons : Markerless (b :: s) ↔
    (b = 47 → s.head? ≠ some 47 ∧ s.head? ≠ some 42) ∧ Markerless s := by
  simp only [Markerless, pair_infix_cons]
  grind

theorem markerless_blank_append (ht : ∀ b ∈ text, b ≠ 47) :
    Markerless (text ++ s) ↔ Markerless s := by
  induction text with
  | nil => rfl
  | cons b text ih =>
    obtain ⟨hb, ht⟩ := List.forall_mem_cons.1 ht
    rw [List.cons_append, markerless_cons, ih ht]
    exact ⟨And.right, fun h => ⟨fun h47 => absurd h47 hb, h⟩⟩

/-- Blanking leaves no marker: a slash that stays is followed by what followed it or by a blank. -/
theorem markerless_blanked (hps : CutBefore [] ps) : Markerless (blanked ps) := by
  have hblank (s : Bytes) : ∀ b ∈ Stretch.blank s, b ≠ 47 := by
    intro b hb
    obtain ⟨a, -, rfl⟩ := List.mem_map.1 hb
    split <;> decide
  induction ps with
  | nil => exact ⟨by simp [blanked], by simp [blanked]⟩
  | cons p ps ih =>
    rw [blanked_cons]
    cases p with
    | line text => exact (markerless_blank_append (hblank _)).2 (ih hps.2)
    | block inner => exact (markerless_blank_append (hblank _)).2 (ih hps.2)
    | plain b =>
      refine markerless_cons.2 ⟨fun hb => ?_, ih hps.2⟩
      have hnext := hps.1 hb
      rw [List.append_nil] at hnext
      have hcleared := cleared_joined ps
      generalize joined ps = t at hnext hcleared
      generalize blanked ps = u at hcleared
      cases hcleared with
      | nil => simp
      | cons hfirst _ =>
        obtain rfl | ⟨-, rfl⟩ := hfirst
        · exact hnext
        · simp

/-- A text without markers consists of plain bytes. -/
theorem stripComments_of_markerless (h : Markerless s) : stripComments file s = .ok s := by
  have hjoined (s : Bytes) : joined (s.map .plain) = s ∧ blanked (s.map .plain) = s := by
    induction s with
    | nil => exact ⟨rfl, rfl⟩
    | cons b s ih => exact ⟨congrArg (b :: ·) ih.1, congrArg (b :: ·) ih.2⟩
  have hcut : CutBefore [] (s.map .plain) := by
    induction s with
    | nil => trivial
    | cons b s ih =>
      obtain ⟨hb, hs⟩ := markerless_cons.1 h
      refine ⟨fun h47 => ?_, ih hs⟩
      rw [List.append_nil, (hjoined s).1]
      exact hb h47
  have hstrip : stripComments file _ = _ := stripComments_joined hcut
  rwa [(hjoined s).1, (hjoined s).2] at hstrip

theorem stripComments_eq_ok_iff : stripComments file s = .ok out ↔
    ∃ ps, CutBefore [] ps ∧ s = joined ps ∧ out = blanked ps := by
  constructor
  · intro h
    obtain ⟨ps, rest, hps, rfl, rfl | ⟨body, rfl, hbody⟩⟩ := exists_stretches s
    · rw [List.append_nil, stripComments_joined hps] at h
      exact ⟨ps, hps, List.append_nil _, (Except.ok.inj h).symm⟩
    · rw [stripComments_unclosed hps hbody] at h
      cases h
  · rintro ⟨ps, hps, rfl, rfl⟩
    exact stripComments_joined hps

theorem stripComments_eq_error_iff {e : CompileError} : stripComments file s = .error e ↔
    ∃ ps body, CutBefore (47 :: 42 :: body) ps ∧ ¬ [42, 47] <:+: 42 :: body ∧
      s = joined ps ++ 47 :: 42 :: body ∧
      e = ⟨.ofOffset file s (joined ps).length, .unterminatedComment⟩ := by
  constructor
  · intro h
    obtain ⟨ps, rest, hps, rfl, rfl | ⟨body, rfl, hbody⟩⟩ := exists_stretches s
    · rw [List.append_nil, stripComments_joined hps] at h
      cases h
    · rw [stripComments_unclosed hps hbody] at h
      exact ⟨ps, body, hps, hbody, rfl, (Except.error.inj h).symm⟩
  · rintro ⟨ps, body, hps, hbody, rfl, rfl⟩
    exact stripComments_unclosed hps hbody

/-- Stripping keeps every byte at its place. -/
theorem cleared_stripComments (h : stripComments file s = .ok out) : List.Forall₂ Cleared s out := by
  obtain ⟨ps, -, rfl, rfl⟩ := stripComments_eq_ok_iff.1 h
  exact cleared_joined ps

theorem getElem?_of_cleared (h : List.Forall₂ Cleared s out) (i : Nat) :
    (out[i]? = some 10 ↔ s[i]? = some 10) ∧ (out[i]? = s[i]? ∨ out[i]? = some 32) := by
  induction h generalizing i with
  | nil => simp
  | cons hfirst _ ih =>
    cases i with
    | succ i => exact ih i
    | zero =>
      obtain rfl | ⟨hb, rfl⟩ := hfirst
      · simp
      · simp [hb]

/-- Stripping keeps the length of a text, its newlines and all bytes outside comments, which become
blanks; it leaves no marker, so that a second time changes nothing. A text without markers is left
as it is. Stripping succeeds exactly on texts that are cut into plain bytes and comments, and fails
exactly if a block comment is opened outside of comments and no closing marker comes from its star
on; the place of that comment is reported. -/
theorem stripComments_clears (file s : Bytes) :
    (∀ out : Bytes, stripComments file s = .ok out → out.length = s.length ∧
      (∀ i : Nat, out[i]? = some 10 ↔ s[i]? = some 10) ∧
      (∀ i : Nat, out[i]? = s[i]? ∨ out[i]? = some 32) ∧
      Markerless out ∧ stripComments file out = .ok out) ∧
    (Markerless s → stripComments file s = .ok s) ∧
    (∀ out, stripComments file s = .ok out ↔
      ∃ ps, CutBefore [] ps ∧ s = joined ps ∧ out = blanked ps) ∧
    ∀ e, stripComments file s = .error e ↔
      ∃ ps body, CutBefore (47 :: 42 :: body) ps ∧ ¬ [42, 47] <:+: 42 :: body ∧
        s = joined ps ++ 47 :: 42 :: body ∧
        e = ⟨.ofOffset file s (joined ps).length, .unterminatedComment⟩ := by
  refine ⟨fun out h => ?_, stripComments_of_markerless, fun _ => stripComments_eq_ok_iff,
    fun _ => stripComments_eq_error_iff⟩
  have hcleared := cleared_stripComments h
  have hmarkerless : Markerless out := by
    obtain ⟨ps, hps, -, rfl⟩ := stripComments_eq_ok_iff.1 h
    exact markerless_blanked hps
  exact ⟨hcleared.length_eq.symm, fun i => (getElem?_of_cleared hcleared i).1,
    fun i => (getElem?_of_cleared hcleared i).2, hmarkerless,
    stripComments_of_markerless hmarkerless⟩

theorem stripComments_clears_twoComments :
    stripComments [] (utf8 "a//b\n/*\n*/c") = .ok (utf8 "a   \n  \n  c") ∧
      stripComments [] (utf8 "a   \n  \n  c") = .ok (utf8 "a   \n  \n  c") ∧
      stripComments [] (utf8 "a\n/* b") = .error ⟨⟨[], 1, 0⟩, .unterminatedComment⟩ := by
  have h : stripComments [] (utf8 "a//b\n/*\n*/c") = .ok (utf8 "a   \n  \n  c") := by decide
  exact ⟨h, ((stripComments_clears _ _).1 _ h).2.2.2.2, by decide⟩

/-- Where one star belongs to both markers the comment counts as closed, although no closing marker
follows the opening one; the token reader finds the same comment unclosed. -/
theorem stripComments_sharedStar : ¬ [42, 47] <:+: (utf8 "/*/").drop 2 ∧
    stripComments [] (utf8 "/*/") = .ok (utf8 "   ") ∧ (Scan.gap (utf8 "/*/")).2 = .block := by
  decide

end ApeScript.Preprocess
