import ApeScript.Compile.Preprocess
import ApeScript.Proofs.CompilerRun
import ApeScript.Proofs.Pieces
import Mathlib

/-!
# Lines of a text with definitions

A line of a legacy script is cut into fragments: bytes outside definitions, and definitions, each
with the number sign right before its keyword. A definition ends in its line, so a text whose
definitions can be read is cut line by line, in one way, and its definitions are blanked line by
line.
-/

namespace ApeScript.Preprocess

/-- Blanks between two parts of a definition. -/
structure IsGap (s : Bytes) : Prop where
  ne_nil : s ≠ []
  blank : ∀ b ∈ s, isBlankByte b = true ∧ b ≠ 10

/-- A definition by its parts: a name and a value in quotes, each after blanks; `hash` tells that a
number sign stands right before the keyword. -/
structure Definition where
  hash : Bool
  nameGap : Bytes
  name : Bytes
  valueGap : Bytes
  value : Bytes

namespace Definition

def body (d : Definition) : Bytes :=
  defineKeyword ++ (d.nameGap ++ (d.name ++ (d.valueGap ++ 34 :: (d.value ++ [34]))))

def bytes (d : Definition) : Bytes := if d.hash then 35 :: d.body else d.body

def textMacro (d : Definition) : TextMacro := ⟨d.name, d.value⟩

structure WellFormed (d : Definition) : Prop where
  nameGap : IsGap d.nameGap
  name_ne_nil : d.name ≠ []
  name : ∀ b ∈ d.name, isBlankByte b = false
  valueGap : IsGap d.valueGap
  value : ∀ b ∈ d.value, b ≠ 34 ∧ b ≠ 10

end Definition

/-- The keyword stands at the start of `s` as a word of its own. -/
def KeywordAt (before : UInt8) (s : Bytes) : Prop :=
  isIdentifierByte before = false ∧
    ∃ t, s = defineKeyword ++ t ∧ ∀ b ∈ t.head?, isBlankByte b = true

inductive Fragment where
  | plain (b : UInt8)
  | definition (d : Definition)

namespace Fragment

def bytes : Fragment → Bytes
  | plain b => [b]
  | definition d => d.bytes

def blanked : Fragment → Bytes
  | plain b => [b]
  | definition d => List.replicate d.bytes.length 32

def macros : Fragment → List TextMacro
  | plain _ => []
  | definition d => [d.textMacro]

def last : Fragment → UInt8
  | plain b => b
  | definition _ => 32

/-- The fragment is what it claims to be between a byte and the rest of its line: a plain byte
starts no definition and is no number sign of one, and a definition starts with its keyword, as a
word of its own, or with the number sign before it. -/
def Stands (before : UInt8) (rest : Bytes) : Fragment → Prop
  | plain b => ¬ KeywordAt before (b :: rest) ∧ (b = 35 → ¬ KeywordAt 35 rest)
  | definition d =>
      d.WellFormed ∧ (d.hash = false → isIdentifierByte before = false ∧ before ≠ 35)

end Fragment

def Fragment.joined (fs : List Fragment) : Bytes := fs.flatMap Fragment.bytes

def Fragment.allBlanked (fs : List Fragment) : Bytes := fs.flatMap Fragment.blanked

def Fragment.allMacros (fs : List Fragment) : List TextMacro := fs.flatMap Fragment.macros

def Fragment.Line (before : UInt8) : List Fragment → Prop
  | [] => True
  | f :: fs => f.Stands before (joined fs) ∧ Line f.last fs

structure CutInto (s : Bytes) (lines : List (List Fragment)) : Prop where
  line : ∀ fs ∈ lines, Fragment.Line 10 fs
  split_eq : Bytes.split 10 s = lines.map Fragment.joined

variable {s rest rest' line tail out after : Bytes} {b before : UInt8} {loc loc' : Location}
  {found : TextMacro} {macros : List TextMacro} {fs : List Fragment}

/-! ### Reading a definition -/

theorem skipBlanks_eq_ok (h : skipBlanks loc s = .ok rest) :
    ∃ gap, (∀ b ∈ gap, isBlankByte b = true ∧ b ≠ 10) ∧ s = gap ++ rest ∧
      ∃ b ∈ rest.head?, isBlankByte b = false := by
  have hcut := List.takeWhile_append_dropWhile (p := fun b => isBlankByte b && b != 10) (l := s)
  have hstop := List.head?_dropWhile_not (fun b => isBlankByte b && b != 10) s
  have hgap (b : UInt8) (hb : b ∈ s.takeWhile fun b => isBlankByte b && b != 10) :
      isBlankByte b = true ∧ b ≠ 10 := by
    simpa using List.mem_takeWhile_imp hb
  unfold skipBlanks at h
  split at h
  · cases h
  · cases h
  · rename_i hend hline
    obtain rfl := Except.ok.inj h
    refine ⟨_, hgap, hcut.symm, ?_⟩
    cases hrest : s.dropWhile fun b => isBlankByte b && b != 10 with
    | nil => exact absurd hrest hend
    | cons b t =>
      refine ⟨b, rfl, ?_⟩
      rw [hrest] at hstop
      have hb : b ≠ 10 := fun hb => hline t (hb ▸ hrest)
      simpa [hb] using hstop

theorem skipBlanks_congr (h : skipBlanks loc s = .ok rest) : skipBlanks loc' s = .ok rest := by
  unfold skipBlanks at h ⊢
  split at h
  · cases h
  · cases h
  · exact h

/-- What is read after the keyword are the parts of a definition. -/
theorem parseDefine_eq_ok (hs : ∀ b ∈ s.head?, isBlankByte b = true)
    (h : parseDefine loc s = .ok (found, after)) :
    ∃ d : Definition, d.WellFormed ∧ d.hash = false ∧ d.textMacro = found ∧
      defineKeyword ++ s = d.bytes ++ after := by
  obtain ⟨named, hnamed, hrest⟩ := bind_eq_ok.1 h
  obtain ⟨nameGap, hnameGap, rfl, c, hc, hcblank⟩ := skipBlanks_eq_ok hnamed
  have hname := List.takeWhile_append_dropWhile (p := fun b => !isBlankByte b) (l := named)
  have hnonblank (b : UInt8) (hb : b ∈ named.takeWhile fun b => !isBlankByte b) :
      isBlankByte b = false := by
    simpa using List.mem_takeWhile_imp hb
  have hstop := List.head?_dropWhile_not (fun b => !isBlankByte b) named
  rw [List.span_eq_takeWhile_dropWhile] at hrest
  dsimp only at hrest
  obtain ⟨valued, hvalued, hrest⟩ := bind_eq_ok.1 hrest
  obtain ⟨valueGap, hvalueGap, hvalue, -⟩ := skipBlanks_eq_ok hvalued
  split at hrest
  · rename_i body
    have hbody := List.takeWhile_append_dropWhile (p := fun b => b != 34 && b != 10) (l := body)
    rw [List.span_eq_takeWhile_dropWhile] at hrest
    split at hrest
    · rename_i value after' hcut
      obtain ⟨rfl, hafter⟩ := Prod.mk.inj hcut
      obtain ⟨rfl, rfl⟩ := Prod.mk.inj (Except.ok.inj hrest)
      refine ⟨⟨false, nameGap, _, valueGap, _⟩,
        ⟨⟨?_, hnameGap⟩, ?_, hnonblank, ⟨?_, hvalueGap⟩, ?_⟩, rfl, rfl, ?_⟩
      · rintro rfl
        exact absurd (hs c hc) (by simp [hcblank])
      · obtain ⟨named, rfl⟩ := List.head?_eq_some_iff.1 hc
        simp [hcblank]
      · rintro rfl
        rw [hvalue] at hstop
        simp [isBlankByte] at hstop
      · intro b hb
        simpa using List.mem_takeWhile_imp hb
      · rw [hafter] at hbody
        conv_lhs => rw [← hname, hvalue, ← hbody]
        simp [Definition.bytes, Definition.body]
    · cases hrest
    · cases hrest
  · cases hrest

theorem parseDefine_congr (h : parseDefine loc s = .ok (found, after)) :
    parseDefine loc' s = .ok (found, after) := by
  obtain ⟨named, hnamed, hrest⟩ := bind_eq_ok.1 h
  refine bind_eq_ok.2 ⟨named, skipBlanks_congr hnamed, ?_⟩
  obtain ⟨valued, hvalued, hrest⟩ := bind_eq_ok.1 hrest
  refine bind_eq_ok.2 ⟨valued, skipBlanks_congr hvalued, ?_⟩
  split at hrest
  · split at hrest
    · exact hrest
    · cases hrest
    · cases hrest
  · cases hrest

theorem after?_eq_some_iff {lead : Bytes} : Bytes.after? lead s = some rest ↔ s = lead ++ rest := by
  induction lead generalizing s with
  | nil => simp [Bytes.after?, eq_comm]
  | cons a lead ih =>
    cases s with
    | nil => simp [Bytes.after?]
    | cons b s =>
      by_cases hab : a = b
      · simp [Bytes.after?, hab, ih]
      · simp [Bytes.after?, hab, Ne.symm hab]

theorem defineHere?_congr {r : Option (TextMacro × Nat)} (h : defineHere? before loc s = .ok r) :
    defineHere? before loc' s = .ok r := by
  unfold defineHere? at h ⊢
  split at h
  · exact h
  · rename_i t _
    split at h
    · rename_i hword
      rwa [if_pos hword]
    · rename_i hword
      cases hparse : parseDefine loc t with
      | ok d =>
        rw [hparse] at h
        rwa [if_neg hword, parseDefine_congr hparse]
      | error e =>
        rw [hparse] at h
        cases h

/-- A definition is looked for where its keyword stands, and found there or refused. -/
theorem defineHere?_eq_none_iff : defineHere? before loc s = .ok none ↔ ¬ KeywordAt before s := by
  refine ⟨?_, fun h => ?_⟩
  · rintro h ⟨hbefore, t, rfl, ht⟩
    have hblank : (t.head?.map isBlankByte).getD true = true := by
      cases t with
      | nil => rfl
      | cons b t => exact ht b rfl
    rw [defineHere?, after?_eq_some_iff.2 rfl] at h
    simp only [hbefore, hblank] at h
    cases hparse : parseDefine loc t with
    | ok d =>
      rw [hparse] at h
      cases h
    | error e =>
      rw [hparse] at h
      cases h
  · unfold defineHere?
    split
    · rfl
    · rename_i t hkeyword
      rw [if_pos]
      obtain rfl := after?_eq_some_iff.1 hkeyword
      by_contra hword
      simp only [Bool.or_eq_true, Bool.not_eq_true', not_or, Bool.not_eq_true,
        Bool.not_eq_false] at hword
      refine h ⟨hword.1, t, rfl, fun b hb => ?_⟩
      simpa [Option.mem_def.1 hb] using hword.2

/-- A definition that is found has its keyword as a word of its own. -/
theorem defineHere?_eq_some {size : Nat} (h : defineHere? before loc s = .ok (some (found, size))) :
    isIdentifierByte before = false ∧ ∃ d : Definition, d.WellFormed ∧ d.hash = false ∧
      d.textMacro = found ∧ d.bytes.length = size ∧ ∃ after, s = d.bytes ++ after := by
  unfold defineHere? at h
  split at h
  · cases h
  · rename_i t hkeyword
    obtain rfl := after?_eq_some_iff.1 hkeyword
    split at h
    · cases h
    · rename_i hword
      simp only [Bool.or_eq_true, Bool.not_eq_true', not_or, Bool.not_eq_true,
        Bool.not_eq_false] at hword
      obtain ⟨hbefore, hblank⟩ := hword
      refine ⟨hbefore, ?_⟩
      cases hparse : parseDefine loc t with
      | error e =>
        rw [hparse] at h
        cases h
      | ok r =>
        rw [hparse] at h
        obtain ⟨m, after⟩ := r
        cases h
        have ht : ∀ b ∈ t.head?, isBlankByte b = true := by
          intro b hb
          simpa [Option.mem_def.1 hb] using hblank
        obtain ⟨d, hd, hhash, hfound, hbytes⟩ := parseDefine_eq_ok ht hparse
        refine ⟨d, hd, hhash, hfound, ?_, after, hbytes⟩
        simp [hbytes]

/-! ### Blanking definitions -/

theorem Definition.WellFormed.not_mem {d : Definition} (hd : d.WellFormed) : 10 ∉ d.bytes := by
  have hblank : isBlankByte 10 = true := by decide
  have hname : 10 ∉ d.name := fun h => by simpa [hblank] using hd.name 10 h
  have hnameGap : 10 ∉ d.nameGap := fun h => (hd.nameGap.blank 10 h).2 rfl
  have hvalueGap : 10 ∉ d.valueGap := fun h => (hd.valueGap.blank 10 h).2 rfl
  have hvalue : 10 ∉ d.value := fun h => (hd.value 10 h).2 rfl
  have hkeyword : 10 ∉ defineKeyword := by decide
  have hbody : 10 ∉ d.body := by
    simp [Definition.body, hkeyword, hname, hnameGap, hvalueGap, hvalue]
  unfold Definition.bytes
  split
  · simpa using hbody
  · exact hbody

/-- A text without newlines that starts a line and what follows it starts the line. -/
theorem exists_eq_append_of_line {t : Bytes} (ht : 10 ∉ t) (htail : ∀ b ∈ tail.head?, b = 10)
    (h : line ++ tail = t ++ after) : ∃ more, line = t ++ more ∧ after = more ++ tail := by
  obtain ⟨more, rfl, rfl⟩ | ⟨more, rfl, rfl⟩ := List.append_eq_append_iff.1 h
  · cases more with
    | nil => exact ⟨[], by simp, by simp⟩
    | cons b more =>
      obtain rfl := htail b rfl
      simp at ht
  · exact ⟨more, rfl, rfl⟩

theorem KeywordAt.append (htail : ∀ b ∈ tail.head?, b = 10) (h : KeywordAt before line) :
    KeywordAt before (line ++ tail) := by
  obtain ⟨hbefore, t, rfl, ht⟩ := h
  refine ⟨hbefore, t ++ tail, List.append_assoc .., ?_⟩
  cases t with
  | nil =>
    intro b hb
    rw [htail b hb]
    decide
  | cons c t => exact ht

/-- The bytes of a definition are passed over. -/
theorem collectDefines_skip {t : Bytes}
    (h : collectDefines 32 t.length loc (t ++ s) = .ok (out, macros)) :
    ∃ loc' out', out = List.replicate t.length 32 ++ out' ∧
      collectDefines 32 0 loc' s = .ok (out', macros) := by
  induction t generalizing loc out with
  | nil => exact ⟨loc, out, rfl, h⟩
  | cons b t ih =>
    obtain ⟨⟨out', macros'⟩, hrest, h⟩ := bind_eq_ok.1 h
    obtain ⟨rfl, rfl⟩ := Prod.mk.inj (Except.ok.inj h)
    obtain ⟨loc', out'', rfl, hs⟩ := ih hrest
    exact ⟨loc', out'', rfl, hs⟩

/-- A step finds a definition, which is passed over, or keeps a byte that is no number sign of a
definition. -/
theorem collectDefines_cons (h : collectDefines before 0 loc (b :: s) = .ok (out, macros)) :
    (∃ found size out' macros', defineHere? before loc (b :: s) = .ok (some (found, size)) ∧
      collectDefines 32 (size - 1) (loc.after b) s = .ok (out', macros') ∧
      out = 32 :: out' ∧ macros = found :: macros') ∨
    ∃ out', defineHere? before loc (b :: s) = .ok none ∧
      collectDefines b 0 (loc.after b) s = .ok (out', macros) ∧
      out = (if b = 35 ∧ definesHere s then 32 else b) :: out' := by
  rw [collectDefines] at h
  obtain ⟨r, hhere, h⟩ := bind_eq_ok.1 h
  cases r with
  | some r =>
    obtain ⟨⟨out', macros'⟩, hrest, h⟩ := bind_eq_ok.1 h
    obtain ⟨rfl, rfl⟩ := Prod.mk.inj (Except.ok.inj h)
    exact Or.inl ⟨r.1, r.2, out', macros', hhere, hrest, rfl, rfl⟩
  | none =>
    obtain ⟨⟨out', macros'⟩, hrest, h⟩ := bind_eq_ok.1 h
    obtain ⟨rfl, rfl⟩ := Prod.mk.inj (Except.ok.inj h)
    exact Or.inr ⟨out', hhere, hrest, rfl⟩

theorem Definition.bytes_ne_nil (d : Definition) : d.bytes ≠ [] := by
  unfold bytes
  split
  · simp
  · simp [body]

theorem Definition.bytes_of_unsigned {d : Definition} (hhash : d.hash = false) :
    d.bytes = d.body := by
  simp [bytes, hhash]

theorem Definition.bytes_of_signed {d : Definition} (hhash : d.hash = true) :
    d.bytes = 35 :: d.body := by
  simp [bytes, hhash]

theorem Definition.WellFormed.keywordAt {d : Definition} (hd : d.WellFormed)
    (hbefore : isIdentifierByte before = false) (s : Bytes) : KeywordAt before (d.body ++ s) := by
  obtain ⟨b, gap, hgap⟩ := List.exists_cons_of_ne_nil hd.nameGap.ne_nil
  refine ⟨hbefore, d.nameGap ++ (d.name ++ (d.valueGap ++ 34 :: (d.value ++ 34 :: s))), ?_, ?_⟩
  · simp [body]
  · simpa [hgap] using (hd.nameGap.blank b (by simp [hgap])).1

/-- A definition at the start of a line is one of its fragments. -/
theorem exists_definition {size : Nat} (hline : 10 ∉ line) (htail : ∀ b ∈ tail.head?, b = 10)
    (hhere : defineHere? before loc' (line ++ tail) = .ok (some (found, size)))
    (h : collectDefines before 0 loc (line ++ tail) = .ok (out, macros)) :
    isIdentifierByte before = false ∧ ∃ (d : Definition) (rest : Bytes) (loc' : Location)
      (out' : Bytes) (macros' : List TextMacro), d.WellFormed ∧ d.hash = false ∧
      line = d.bytes ++ rest ∧ out = List.replicate d.bytes.length 32 ++ out' ∧
      macros = d.textMacro :: macros' ∧
      collectDefines 32 0 loc' (rest ++ tail) = .ok (out', macros') := by
  obtain ⟨hbefore, d, hd, hhash, rfl, rfl, after, hafter⟩ := defineHere?_eq_some hhere
  refine ⟨hbefore, d, ?_⟩
  obtain ⟨rest, rfl, rfl⟩ := exists_eq_append_of_line hd.not_mem htail hafter
  obtain ⟨b, t, hbytes⟩ := List.exists_cons_of_ne_nil d.bytes_ne_nil
  have hfound : defineHere? before loc (b :: (t ++ (rest ++ tail))) =
      .ok (some (d.textMacro, d.bytes.length)) := by
    rw [← List.cons_append, ← hbytes, ← hafter]
    exact defineHere?_congr hhere
  rw [hafter, hbytes, List.cons_append] at h
  obtain ⟨found, size, out', macros', hagain, hrest, rfl, rfl⟩ | ⟨out', hnone, -, -⟩ :=
    collectDefines_cons h
  · rw [hfound, hbytes] at hagain
    cases hagain
    obtain ⟨loc', out', rfl, htail⟩ := collectDefines_skip hrest
    exact ⟨rest, loc', out', macros', hd, hhash, rfl, by rw [hbytes]; rfl, rfl, htail⟩
  · rw [hfound] at hnone
    cases hnone

theorem exists_of_definesHere (h : definesHere s = true) :
    ∃ found size, defineHere? 35 (.start []) s = .ok (some (found, size)) := by
  unfold definesHere at h
  split at h
  · rename_i r hnext
    exact ⟨r.1, r.2, hnext⟩
  · cases h

/-- A number sign that stays is followed by no keyword. -/
theorem not_keywordAt_of_definesHere (hs : definesHere s = false)
    (h : collectDefines 35 0 loc s = .ok (out, macros)) : ¬ KeywordAt 35 s := by
  intro hkeyword
  cases s with
  | nil =>
    obtain ⟨-, t, ht, -⟩ := hkeyword
    exact absurd (List.append_eq_nil_iff.1 ht.symm).1 (by decide)
  | cons b s =>
    obtain ⟨found, size, -, -, hhere, -⟩ | ⟨-, hhere, -⟩ := collectDefines_cons h
    · rw [definesHere, defineHere?_congr hhere] at hs
      cases hs
    · exact defineHere?_eq_none_iff.1 hhere hkeyword

/-- The first fragment of a line. -/
theorem exists_fragment (hne : line ≠ []) (hline : 10 ∉ line) (htail : ∀ b ∈ tail.head?, b = 10)
    (hbefore : before = 35 → ¬ KeywordAt 35 (line ++ tail))
    (h : collectDefines before 0 loc (line ++ tail) = .ok (out, macros)) :
    ∃ (f : Fragment) (rest : Bytes) (loc' : Location) (out' : Bytes) (macros' : List TextMacro),
      f.Stands before rest ∧ line = f.bytes ++ rest ∧ rest.length < line.length ∧
      out = f.blanked ++ out' ∧ macros = f.macros ++ macros' ∧
      (f.last = 35 → ¬ KeywordAt 35 (rest ++ tail)) ∧
      collectDefines f.last 0 loc' (rest ++ tail) = .ok (out', macros') := by
  have hshorter (d : Definition) (rest : Bytes) : rest.length < (d.bytes ++ rest).length := by
    have := List.length_pos_iff.2 d.bytes_ne_nil
    simp only [List.length_append]
    omega
  obtain ⟨b, l, rfl⟩ := List.exists_cons_of_ne_nil hne
  have hcons := h
  rw [List.cons_append] at hcons
  obtain ⟨found, size, -, -, hhere, -⟩ | ⟨out', hhere, hrest, rfl⟩ := collectDefines_cons hcons
  -- a number sign before the keyword would have been cut off with it
  · obtain ⟨hword, d, rest, loc', out', macros', hd, hhash, hbytes, rfl, rfl, hrest⟩ :=
      exists_definition hline htail hhere h
    refine ⟨.definition d, rest, loc', out', macros', ⟨hd, fun _ => ⟨hword, ?_⟩⟩, hbytes,
      hbytes ▸ hshorter d rest, rfl, rfl, by simp [Fragment.last], hrest⟩
    rintro rfl
    refine hbefore rfl ?_
    rw [hbytes, List.append_assoc, Definition.bytes_of_unsigned hhash]
    exact hd.keywordAt hword _
  by_cases hsign : b = 35 ∧ definesHere (l ++ tail) = true
  -- the number sign is blanked here, and its definition in the next step
  · obtain ⟨rfl, hdefines⟩ := hsign
    obtain ⟨found, size, hnext⟩ := exists_of_definesHere hdefines
    obtain ⟨-, d, rest, loc', out', macros', hd, hhash, rfl, rfl, rfl, hafter⟩ :=
      exists_definition (fun h => hline (List.mem_cons_of_mem _ h)) htail hnext hrest
    have hbytes : ({ d with hash := true } : Definition).bytes = 35 :: d.bytes := by
      rw [Definition.bytes_of_signed rfl, Definition.bytes_of_unsigned hhash]
      rfl
    refine ⟨.definition { d with hash := true }, rest, loc', out', macros', ⟨{ hd with }, by simp⟩,
      ?_, ?_, ?_, rfl, by simp [Fragment.last], hafter⟩
    · rw [Fragment.bytes, hbytes, List.cons_append]
    · exact Nat.lt_succ_of_lt (hshorter d rest)
    · rw [Fragment.blanked, hbytes, if_pos ⟨rfl, hdefines⟩]
      rfl
  · have hunsigned (hb : b = 35) : ¬ KeywordAt 35 (l ++ tail) := by
      subst hb
      exact not_keywordAt_of_definesHere (by simpa using hsign) hrest
    have hplain : ¬ KeywordAt before (b :: l) :=
      fun hkeyword => defineHere?_eq_none_iff.1 hhere (hkeyword.append htail)
    refine ⟨.plain b, l, loc.after b, out', macros, ⟨hplain, fun hb hkeyword => ?_⟩, rfl,
      Nat.lt_succ_self _, ?_, rfl, hunsigned, hrest⟩
    · exact hunsigned hb (hkeyword.append htail)
    · rw [if_neg hsign]
      rfl

/-- A line is cut into fragments, whatever follows it. -/
theorem exists_line (hline : 10 ∉ line) (htail : ∀ b ∈ tail.head?, b = 10)
    (hbefore : before = 35 → ¬ KeywordAt 35 (line ++ tail))
    (h : collectDefines before 0 loc (line ++ tail) = .ok (out, macros)) :
    ∃ (fs : List Fragment) (before' : UInt8) (loc' : Location) (out' : Bytes)
      (macros' : List TextMacro), Fragment.Line before fs ∧ line = Fragment.joined fs ∧
      out = Fragment.allBlanked fs ++ out' ∧ macros = Fragment.allMacros fs ++ macros' ∧
      collectDefines before' 0 loc' tail = .ok (out', macros') := by
  induction hn : line.length using Nat.strong_induction_on
    generalizing line before loc out macros with
  | _ n ih =>
  subst hn
  by_cases hne : line = []
  · subst hne
    exact ⟨[], before, loc, out, macros, trivial, rfl, rfl, rfl, h⟩
  · obtain ⟨f, rest, loc', out', macros', hf, rfl, hshorter, rfl, rfl, hlast, hrest⟩ :=
      exists_fragment hne hline htail hbefore h
    have hrestline : 10 ∉ rest := fun h => hline (List.mem_append_right _ h)
    obtain ⟨fs, before', loc', out', macros', hfs, rfl, rfl, rfl, hout⟩ :=
      ih rest.length hshorter hrestline hlast hrest rfl
    refine ⟨f :: fs, before', loc', out', macros', ⟨hf, hfs⟩, rfl, ?_, ?_, hout⟩
    · exact (List.append_assoc ..).symm
    · exact (List.append_assoc ..).symm

theorem collectDefines_newline (h : collectDefines before 0 loc (10 :: s) = .ok (out, macros)) :
    ∃ loc' out', out = 10 :: out' ∧ collectDefines 10 0 loc' s = .ok (out', macros) := by
  obtain ⟨found, size, -, -, hhere, -⟩ | ⟨out', -, hrest, rfl⟩ := collectDefines_cons h
  · obtain ⟨-, d, hd, -, -, -, after, hafter⟩ := defineHere?_eq_some hhere
    obtain ⟨b, t, hbytes⟩ := List.exists_cons_of_ne_nil d.bytes_ne_nil
    rw [hbytes, List.cons_append] at hafter
    have hmem : 10 ∈ d.bytes := by simp [hbytes, (List.cons.inj hafter).1]
    exact absurd hmem hd.not_mem
  · exact ⟨loc.after 10, out', by simp, hrest⟩

/-- Induction on a text by lines, the first one first. -/
@[elab_as_elim]
theorem line_induction {motive : Bytes → Prop} (last : ∀ line, 10 ∉ line → motive line)
    (cons : ∀ line s, 10 ∉ line → motive s → motive (line ++ 10 :: s)) (s : Bytes) : motive s := by
  induction hn : s.length using Nat.strong_induction_on generalizing s with
  | _ n ih =>
  subst hn
  by_cases h : 10 ∈ s
  · obtain ⟨line, rest, rfl, hline⟩ := List.eq_append_cons_of_mem h
    refine cons line rest hline (ih rest.length ?_ rest rfl)
    simp only [List.length_append, List.length_cons]
    omega
  · exact last s h

theorem Fragment.not_mem_allBlanked (h : 10 ∉ joined fs) : 10 ∉ allBlanked fs := by
  intro hmem
  obtain ⟨f, hf, hmem⟩ := List.mem_flatMap.1 hmem
  cases f with
  | plain b => exact h (List.mem_flatMap.2 ⟨_, hf, hmem⟩)
  | definition d =>
    have : (10 : UInt8) = 32 := List.eq_of_mem_replicate hmem
    exact absurd this (by decide)

/-- Every line of a text is cut into fragments, and is blanked on its own. -/
theorem exists_cut (h : collectDefines 10 0 loc s = .ok (out, macros)) :
    ∃ lines, CutInto s lines ∧ Bytes.split 10 out = lines.map Fragment.allBlanked ∧
      macros = lines.flatMap Fragment.allMacros := by
  induction s using line_induction generalizing loc out macros with
  | last line hline =>
    rw [← List.append_nil line] at h
    obtain ⟨fs, before, loc', out', macros', hfs, rfl, rfl, rfl, hend⟩ :=
      exists_line hline (by simp) (by simp) h
    cases hend
    refine ⟨[fs], ⟨by simpa using hfs, Bytes.split_of_not_mem hline⟩, ?_, by simp⟩
    rw [List.append_nil]
    exact Bytes.split_of_not_mem (Fragment.not_mem_allBlanked hline)
  | cons line s hline ih =>
    obtain ⟨fs, before, loc', out', macros', hfs, rfl, rfl, rfl, hend⟩ :=
      exists_line hline (by simp) (by simp) h
    obtain ⟨loc', out', rfl, hrest⟩ := collectDefines_newline hend
    obtain ⟨lines, hlines, hout, rfl⟩ := ih hrest
    refine ⟨fs :: lines, ⟨List.forall_mem_cons.2 ⟨hfs, hlines.line⟩, ?_⟩, ?_, rfl⟩
    · rw [Bytes.split_append_cons hline, hlines.split_eq]
      rfl
    · rw [Bytes.split_append_cons (Fragment.not_mem_allBlanked hline), hout]
      rfl

/-! ### Cutting a line in one way -/

theorem of_head?_append {q : UInt8 → Prop} (hne : s ≠ []) (hs : ∀ b ∈ s, q b) (rest : Bytes) :
    ∀ b, (s ++ rest).head? = some b → q b := by
  obtain ⟨a, s, rfl⟩ := List.exists_cons_of_ne_nil hne
  rintro _ ⟨⟩
  exact hs a List.mem_cons_self

/-- The keyword and what follows it are read in one way. -/
theorem Definition.WellFormed.eq_of_body_append {d d' : Definition}
    (hd : d.WellFormed) (hd' : d'.WellFormed) (hhash : d.hash = d'.hash)
    (h : d.body ++ rest = d'.body ++ rest') : d = d' ∧ rest = rest' := by
  have hnamed {d : Definition} (hd : d.WellFormed) (t : Bytes) :
      ∀ b, (d.name ++ t).head? = some b → isBlankByte b = false :=
    of_head?_append hd.name_ne_nil hd.name t
  have hvalued {d : Definition} (hd : d.WellFormed) (t : Bytes) :
      ∀ b, (d.valueGap ++ t).head? = some b → (!isBlankByte b) = false :=
    of_head?_append hd.valueGap.ne_nil (fun b hb => by simp [(hd.valueGap.blank b hb).1]) t
  have hquoted (t : Bytes) : ∀ b, (34 :: t).head? = some b → isBlankByte b = false := by
    rintro _ ⟨⟩
    decide
  have hended (t : Bytes) : ∀ b, (34 :: t).head? = some b → (b != 34) = false := by
    rintro _ ⟨⟩
    decide
  simp only [body, List.append_assoc, List.append_cancel_left_eq, List.cons_append,
    List.nil_append] at h
  obtain ⟨hnameGap, h⟩ := Bytes.eq_of_append_eq_append (fun b hb => (hd.nameGap.blank b hb).1)
    (hnamed hd _) (fun b hb => (hd'.nameGap.blank b hb).1) (hnamed hd' _) h
  obtain ⟨hname, h⟩ := Bytes.eq_of_append_eq_append (fun b hb => by simp [hd.name b hb])
    (hvalued hd _) (fun b hb => by simp [hd'.name b hb]) (hvalued hd' _) h
  obtain ⟨hvalueGap, h⟩ := Bytes.eq_of_append_eq_append
    (fun b hb => (hd.valueGap.blank b hb).1) (hquoted _)
    (fun b hb => (hd'.valueGap.blank b hb).1) (hquoted _) h
  obtain ⟨hvalue, h⟩ := Bytes.eq_of_append_eq_append
    (fun b hb => by simp [(hd.value b hb).1]) (hended _)
    (fun b hb => by simp [(hd'.value b hb).1]) (hended _) (List.cons.inj h).2
  refine ⟨?_, (List.cons.inj h).2⟩
  cases d
  cases d'
  simp_all

theorem Fragment.Stands.plain_ne_definition {d : Definition}
    (hb : (plain b).Stands before rest) (hd : (definition d).Stands before rest') :
    b :: rest ≠ d.bytes ++ rest' := by
  intro h
  cases hhash : d.hash with
  | false =>
    rw [Definition.bytes_of_unsigned hhash] at h
    exact hb.1 (h ▸ hd.1.keywordAt (hd.2 hhash).1 rest')
  | true =>
    rw [Definition.bytes_of_signed hhash] at h
    obtain ⟨hsign, hrest⟩ := List.cons.inj h
    exact hb.2 hsign (hrest ▸ hd.1.keywordAt (by decide) rest')

theorem Definition.signed_ne_unsigned {d d' : Definition} (hhash : d.hash = true)
    (hhash' : d'.hash = false) : d.bytes ++ rest ≠ d'.bytes ++ rest' := by
  rw [bytes_of_signed hhash, bytes_of_unsigned hhash', body, defineKeyword]
  exact fun h => absurd (List.cons.inj h).1 (by decide)

theorem Fragment.Stands.unique {f f' : Fragment} (hf : f.Stands before rest)
    (hf' : f'.Stands before rest') (h : f.bytes ++ rest = f'.bytes ++ rest') :
    f = f' ∧ rest = rest' := by
  cases f with
  | plain b =>
    cases f' with
    | plain b' => exact ⟨congrArg plain (List.cons.inj h).1, (List.cons.inj h).2⟩
    | definition d' => exact absurd h (hf.plain_ne_definition hf')
  | definition d =>
    cases f' with
    | plain b' => exact absurd h.symm (hf'.plain_ne_definition hf)
    | definition d' =>
      obtain ⟨hd, -⟩ := hf
      obtain ⟨hd', -⟩ := hf'
      have hbody : d.hash = d'.hash ∧ d.body ++ rest = d'.body ++ rest' := by
        simp only [Fragment.bytes] at h
        cases hhash : d.hash <;> cases hhash' : d'.hash
        · rw [Definition.bytes_of_unsigned hhash, Definition.bytes_of_unsigned hhash'] at h
          exact ⟨rfl, h⟩
        · exact absurd h.symm (Definition.signed_ne_unsigned hhash' hhash)
        · exact absurd h (Definition.signed_ne_unsigned hhash hhash')
        · rw [Definition.bytes_of_signed hhash, Definition.bytes_of_signed hhash'] at h
          exact ⟨rfl, (List.cons.inj h).2⟩
      obtain ⟨rfl, hrest⟩ := hd.eq_of_body_append hd' hbody.1 hbody.2
      exact ⟨rfl, hrest⟩

/-- A line is cut into fragments in one way. -/
theorem Fragment.Line.unique {fs' : List Fragment} (hfs : Line before fs) (hfs' : Line before fs')
    (h : joined fs = joined fs') : fs = fs' := by
  have hjoined (f : Fragment) (fs : List Fragment) : joined (f :: fs) ≠ [] := by
    cases f with
    | plain b => exact List.cons_ne_nil _ _
    | definition d => exact List.append_ne_nil_of_left_ne_nil d.bytes_ne_nil _
  induction fs generalizing before fs' with
  | nil =>
    cases fs' with
    | nil => rfl
    | cons f' fs' => exact absurd h.symm (hjoined f' fs')
  | cons f fs ih =>
    cases fs' with
    | nil => exact absurd h (hjoined f fs)
    | cons f' fs' =>
      obtain ⟨rfl, hrest⟩ := hfs.1.unique hfs'.1 h
      rw [ih hfs.2 hfs'.2 hrest]

theorem CutInto.unique {lines lines' : List (List Fragment)} (h : CutInto s lines)
    (h' : CutInto s lines') : lines = lines' := by
  have hjoined : lines.map Fragment.joined = lines'.map Fragment.joined :=
    h.split_eq.symm.trans h'.split_eq
  have hlines := h.line
  have hlines' := h'.line
  clear h h'
  induction lines generalizing lines' with
  | nil => exact (List.map_eq_nil_iff.1 hjoined.symm).symm
  | cons fs lines ih =>
    obtain ⟨fs', lines', rfl⟩ := List.exists_cons_of_length_eq_add_one
      (by simpa using (congrArg List.length hjoined).symm)
    obtain ⟨hfs, hrest⟩ := List.cons.inj hjoined
    obtain ⟨hline, hlines⟩ := List.forall_mem_cons.1 hlines
    obtain ⟨hline', hlines'⟩ := List.forall_mem_cons.1 hlines'
    rw [hline.unique hline' hfs, ih hrest hlines hlines']

/-! ### Texts without definitions -/

/-- No keyword of a definition stands anywhere in a text that comes after a byte. -/
def Undefining (before : UInt8) (s : Bytes) : Prop :=
  ∀ done rest, s = done ++ rest → ¬ KeywordAt (done.getLast?.getD before) rest

theorem Undefining.of_cons (h : Undefining before (b :: s)) : Undefining b s := by
  intro done rest hs
  have := h (b :: done) rest (by rw [hs]; rfl)
  rwa [List.getLast?_cons, Option.getD_some] at this

theorem undefining_of_keywordless (h : ¬ defineKeyword <:+: s) : Undefining before s := by
  rintro done rest rfl ⟨-, t, rfl, -⟩
  exact h ⟨done, t, by simp⟩

theorem Undefining.not_keywordAt (h : Undefining before s) : ¬ KeywordAt before s := h [] s rfl

theorem collectDefines_undefining (h : Undefining before s) :
    collectDefines before 0 loc s = .ok (s, []) := by
  induction s generalizing before loc with
  | nil => rfl
  | cons b s ih =>
    have hunsigned : ¬ (b = 35 ∧ definesHere s = true) := by
      rintro ⟨rfl, hdefines⟩
      rw [definesHere, defineHere?_eq_none_iff.2 h.of_cons.not_keywordAt] at hdefines
      cases hdefines
    rw [collectDefines]
    refine bind_eq_ok.2 ⟨none, defineHere?_eq_none_iff.2 h.not_keywordAt, ?_⟩
    refine bind_eq_ok.2 ⟨(s, []), ih h.of_cons, ?_⟩
    rw [if_neg hunsigned]
    rfl

end ApeScript.Preprocess
