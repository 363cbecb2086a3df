import ApeScript.Localization.Directive
import ApeScript.Proofs.Pieces

/-!
# Texts cut at their conversions

A text has one cut into gaps and matches, where a match is a doubled percent sign or a conversion
and no match starts inside a gap (`CutsInto`). The matches of the scan are those of the cut, so the
conversions of a text are the matches of its cut that are no doubled percent signs.
-/

namespace ApeScript.Localization

/-! ### Matches -/

/-- Nothing, or a point and at least one digit. -/
inductive IsPrecision : Bytes → Prop
  | none : IsPrecision []
  | point {digits : Bytes} (hne : digits ≠ [])
      (hdigits : ∀ b ∈ digits, Bytes.isDigit b = true) : IsPrecision (46 :: digits)

/-- A doubled percent sign, or a percent sign with any flags, any digits, perhaps a precision and a
conversion letter. -/
inductive IsMatch : Bytes → Prop
  | percent : IsMatch (utf8 "%%")
  | conversion {flags width places : Bytes} {letter : UInt8}
      (hflags : ∀ b ∈ flags, b ∈ utf8 "-+ #0") (hwidth : ∀ b ∈ width, Bytes.isDigit b = true)
      (hplaces : IsPrecision places) (hletter : letter ∈ utf8 "diouxXeEfgGcs") :
      IsMatch (37 :: (flags ++ width ++ places ++ [letter]))

variable {s t text gap found flags width places : Bytes} {b letter : UInt8}

theorem isFlag_iff : isFlag b = true ↔ b ∈ utf8 "-+ #0" := by
  simp [isFlag]

theorem isConversion_iff : isConversion b = true ↔ b ∈ utf8 "diouxXeEfgGcs" := by
  simp [isConversion]

theorem not_digit_of_conversion (h : b ∈ utf8 "diouxXeEfgGcs") :
    isFlag b = false ∧ Bytes.isDigit b = false ∧ b ≠ 46 ∧ b ≠ 37 := by
  have hall : ∀ b ∈ utf8 "diouxXeEfgGcs",
      isFlag b = false ∧ Bytes.isDigit b = false ∧ b ≠ 46 ∧ b ≠ 37 := by decide +kernel
  exact hall b h

theorem IsMatch.ne_nil (h : IsMatch found) : found ≠ [] := by
  cases h with
  | percent => decide
  | conversion => exact List.cons_ne_nil _ _

/-- A precision before a letter is the precision of the text. -/
theorem precision_append (h : IsPrecision places) (hletter : letter ∈ utf8 "diouxXeEfgGcs") :
    precision (places ++ letter :: t) = places := by
  obtain ⟨-, hdigit, hpoint, -⟩ := not_digit_of_conversion hletter
  cases h with
  | none => simp [precision, hpoint]
  | point hne hdigits =>
    rw [List.cons_append, precision,
      Bytes.takeWhile_append_of_head? hdigits (by simpa using hdigit)]
    simp [hne]

theorem isPrecision_precision (s : Bytes) : IsPrecision (precision s) := by
  unfold precision
  split
  · rename_i rest
    dsimp only
    split
    · exact .none
    · rename_i hdigits
      exact .point (by simpa using hdigits) fun b hb => List.mem_takeWhile_imp hb
  · exact .none

theorem isPrefix_precision (s : Bytes) : precision s <+: s := by
  unfold precision
  split
  · dsimp only
    split
    · exact List.nil_prefix
    · exact (List.cons_prefix_cons ..).2 ⟨rfl, List.takeWhile_prefix _⟩
  · exact List.nil_prefix

theorem match?_sound (h : match? s = some found) : IsMatch found ∧ found <+: s := by
  unfold match? at h
  split at h
  · cases h
    exact ⟨.percent, _, rfl⟩
  · rename_i rest _
    dsimp only at h
    have hflags := List.prefix_iff_eq_append.1 (List.takeWhile_prefix isFlag (l := rest))
    generalize hrest : rest.drop (rest.takeWhile isFlag).length = rest' at h hflags
    have hwidth := List.prefix_iff_eq_append.1 (List.takeWhile_prefix Bytes.isDigit (l := rest'))
    generalize rest'.drop (rest'.takeWhile Bytes.isDigit).length = rest'' at h hwidth
    have hplaces := List.prefix_iff_eq_append.1 (isPrefix_precision rest'')
    generalize rest''.drop (precision rest'').length = after at h hplaces
    split at h
    · rename_i letter after
      split at h
      · cases h
        refine ⟨.conversion (fun b hb => isFlag_iff.1 (List.mem_takeWhile_imp hb))
          (fun b hb => List.mem_takeWhile_imp hb) (isPrecision_precision _)
          (isConversion_iff.1 ‹_›), after, ?_⟩
        calc 37 :: (rest.takeWhile isFlag ++ rest'.takeWhile Bytes.isDigit ++ precision rest'' ++
                [letter]) ++ after
            = 37 :: (rest.takeWhile isFlag ++ (rest'.takeWhile Bytes.isDigit ++
                (precision rest'' ++ letter :: after))) := by simp
          _ = 37 :: rest := by rw [hplaces, hwidth, hflags]
      · cases h
    · cases h
  · cases h

/-- The first byte of a text in two parts. -/
theorem forall_head?_append {P : UInt8 → Prop} (hs : ∀ b ∈ s, P b) (ht : ∀ b ∈ t.head?, P b) :
    ∀ b ∈ (s ++ t).head?, P b := by
  cases s with
  | nil => exact ht
  | cons a s =>
    intro b hb
    cases hb
    exact hs a List.mem_cons_self

theorem match?_complete (h : IsMatch found) (t : Bytes) : match? (found ++ t) = some found := by
  cases h with
  | percent => rfl
  | @conversion flags width places letter hflags hwidth hplaces hletter =>
    obtain ⟨hflag, hdigit, -, hpercent⟩ := not_digit_of_conversion hletter
    -- zeros at the start of the width are read as flags
    obtain ⟨zeros, digits, rfl, hzeros, hdigits⟩ : ∃ zeros digits, width = zeros ++ digits ∧
        (∀ b ∈ zeros, isFlag b = true) ∧ ∀ b ∈ digits.head?, isFlag b = false := by
      refine ⟨_, _, List.takeWhile_append_dropWhile.symm, fun b => List.mem_takeWhile_imp, ?_⟩
      intro b hb
      have hstop := List.head?_dropWhile_not isFlag width
      rw [hb] at hstop
      exact hstop
    obtain ⟨hwidth, hplain⟩ := List.forall_mem_append.1 hwidth
    have htail : ∀ b ∈ (places ++ letter :: t).head?,
        isFlag b = false ∧ Bytes.isDigit b = false ∧ b ≠ 37 := by
      intro b hb
      cases hplaces with
      | none =>
        cases hb
        exact ⟨hflag, hdigit, hpercent⟩
      | point =>
        cases hb
        decide
    have hlead : (flags ++ zeros ++ (digits ++ (places ++ letter :: t))).takeWhile isFlag =
        flags ++ zeros := by
      apply Bytes.takeWhile_append_of_head?
      · exact List.forall_mem_append.2 ⟨fun b hb => isFlag_iff.2 (hflags b hb), hzeros⟩
      · cases digits with
        | nil => exact fun b hb => (htail b hb).1
        | cons => exact hdigits
    have hwide : (digits ++ (places ++ letter :: t)).takeWhile Bytes.isDigit = digits :=
      Bytes.takeWhile_append_of_head? hplain fun b hb => (htail b hb).2.1
    have hsecond : ∀ b ∈ (flags ++ zeros ++ (digits ++ (places ++ letter :: t))).head?, b ≠ 37 := by
      have hflag (b : UInt8) (hb : isFlag b = true) : b ≠ 37 := by
        rintro rfl
        exact absurd hb (by decide)
      have hdigit (b : UInt8) (hb : Bytes.isDigit b = true) : b ≠ 37 := by
        rintro rfl
        exact absurd hb (by decide)
      apply forall_head?_append
      · intro b hb
        rcases List.mem_append.1 hb with hb | hb
        · exact hflag b (isFlag_iff.2 (hflags b hb))
        · exact hflag b (hzeros b hb)
      · exact forall_head?_append (fun b hb => hdigit b (hplain b hb))
          fun b hb => (htail b hb).2.2
    have htext : 37 :: (flags ++ (zeros ++ digits) ++ places ++ [letter]) ++ t =
        37 :: (flags ++ zeros ++ (digits ++ (places ++ letter :: t))) := by
      simp
    rw [htext, match?.eq_def]
    split
    · rename_i heq
      exact absurd rfl (hsecond 37 (by rw [(List.cons.inj heq).2]; rfl))
    · rename_i rest _ heq
      obtain rfl : flags ++ zeros ++ (digits ++ (places ++ letter :: t)) = rest :=
        (List.cons.inj heq).2
      simp only [hlead, List.drop_left, hwide, precision_append hplaces hletter]
      rw [if_pos (isConversion_iff.2 hletter), List.append_assoc flags]
    · rename_i hnot
      exact absurd rfl (hnot _)

/-- What is matched at the start of a text is the only match there. -/
theorem match?_eq_some_iff : match? s = some found ↔ IsMatch found ∧ found <+: s := by
  constructor
  · exact match?_sound
  · rintro ⟨h, t, rfl⟩
    exact match?_complete h t

/-! ### Cuts -/

/-- No match starts in the first part of a text in two parts. -/
def Clear (gap rest : Bytes) : Prop :=
  ∀ lead tail found, gap = lead ++ tail → tail ≠ [] → IsMatch found → ¬ found <+: tail ++ rest

structure Cut where
  matched : List (Bytes × Bytes)
  last : Bytes

/-- The text consists of the gaps and matches, one after the other. -/
inductive CutsInto : Bytes → Cut → Prop
  | last {gap : Bytes} (hgap : Clear gap []) : CutsInto gap ⟨[], gap⟩
  | next {gap found rest : Bytes} {cut : Cut} (hfound : IsMatch found)
      (hgap : Clear gap (found ++ rest)) (h : CutsInto rest cut) :
      CutsInto (gap ++ (found ++ rest)) ⟨(gap, found) :: cut.matched, cut.last⟩

def Cut.conversions (cut : Cut) : List Bytes :=
  (cut.matched.map Prod.snd).filter (· ≠ utf8 "%%")

variable {cut cut' : Cut} {rest : Bytes}

theorem clear_nil (rest : Bytes) : Clear [] rest := by
  intro lead tail found h hne
  exact absurd (List.append_eq_nil_iff.1 h.symm).2 hne

theorem clear_cons :
    Clear (b :: gap) rest ↔ match? (b :: (gap ++ rest)) = none ∧ Clear gap rest := by
  constructor
  · intro h
    constructor
    · rw [Option.eq_none_iff_forall_ne_some]
      intro found hfound
      obtain ⟨hmatch, hlead⟩ := match?_sound hfound
      exact h [] (b :: gap) found rfl (List.cons_ne_nil _ _) hmatch hlead
    · intro lead tail found hgap
      exact h (b :: lead) tail found (by rw [hgap, List.cons_append])
  · rintro ⟨hnone, hclear⟩ lead tail found hgap hne hmatch hlead
    cases lead with
    | nil =>
      rw [List.nil_append] at hgap
      subst hgap
      have hsome := match?_eq_some_iff.2 ⟨hmatch, hlead⟩
      rw [List.cons_append, hnone] at hsome
      cases hsome
    | cons a lead => exact hclear lead tail found (List.cons.inj hgap).2 hne hmatch hlead

/-! ### The scan -/

theorem matchesFrom_skip (s t : Bytes) : matchesFrom s.length (s ++ t) = matchesFrom 0 t := by
  induction s with
  | nil => rfl
  | cons b s ih => exact ih

theorem matchesFrom_match (h : IsMatch found) (rest : Bytes) :
    matchesFrom 0 (found ++ rest) = found :: matchesFrom 0 rest := by
  have hmatch := match?_complete h rest
  obtain ⟨b, found, rfl⟩ := List.exists_cons_of_ne_nil h.ne_nil
  rw [List.cons_append] at hmatch ⊢
  rw [matchesFrom, hmatch]
  exact congrArg _ (matchesFrom_skip found rest)

theorem matchesFrom_clear (h : Clear gap rest) :
    matchesFrom 0 (gap ++ rest) = matchesFrom 0 rest := by
  induction gap with
  | nil => rfl
  | cons b gap ih =>
    obtain ⟨hnone, hclear⟩ := clear_cons.1 h
    rw [List.cons_append, matchesFrom, hnone]
    exact ih hclear

/-- The scan finds the matches of a cut. -/
theorem CutsInto.matchesFrom_eq (h : CutsInto s cut) :
    matchesFrom 0 s = cut.matched.map Prod.snd := by
  induction h with
  | @last gap hgap =>
    have hscan := matchesFrom_clear hgap
    rwa [List.append_nil] at hscan
  | next hfound hgap _ ih =>
    rw [matchesFrom_clear hgap, matchesFrom_match hfound, ih, List.map_cons]

theorem CutsInto.directives_eq (h : CutsInto s cut) : directives s = cut.conversions := by
  rw [directives, h.matchesFrom_eq]
  rfl

/-- Every text has a cut. -/
theorem exists_cutsInto (s : Bytes) : ∃ cut, CutsInto s cut := by
  induction hsize : s.length using Nat.strong_induction_on generalizing s with
  | _ size ih =>
    subst hsize
    cases hmatch : match? s with
    | some found =>
      obtain ⟨hfound, rest, rfl⟩ := match?_sound hmatch
      have hshorter : rest.length < (found ++ rest).length := by
        rw [List.length_append]
        have := List.length_pos_iff.2 hfound.ne_nil
        omega
      obtain ⟨cut, hcut⟩ := ih _ hshorter rest rfl
      exact ⟨_, .next hfound (clear_nil _) hcut⟩
    | none =>
      cases s with
      | nil => exact ⟨_, .last (clear_nil [])⟩
      | cons b s =>
        obtain ⟨cut, hcut⟩ := ih _ (by simp) s rfl
        -- the byte belongs to the first gap
        cases hcut with
        | last hgap => exact ⟨_, .last (clear_cons.2 ⟨by simpa using hmatch, hgap⟩)⟩
        | next hfound hgap h => exact ⟨_, .next hfound (clear_cons.2 ⟨hmatch, hgap⟩) h⟩

/-! ### Uniqueness -/

/-- A gap ends where the first match starts, or before. -/
theorem Clear.isPrefix_of_match (hgap : Clear gap t) (hfound : IsMatch found)
    (heq : gap ++ t = s ++ (found ++ rest)) : gap <+: s := by
  rcases List.append_eq_append_iff.1 heq with ⟨tail, rfl, -⟩ | ⟨tail, rfl, hrest⟩
  · exact List.prefix_append _ _
  · have htail : tail = [] := by
      by_contra hne
      exact hgap s tail found rfl hne hfound ⟨rest, hrest⟩
    exact ⟨[], by rw [htail, List.append_nil, List.append_nil]⟩

/-- A last gap holds no match. -/
theorem Clear.ne_of_match (hgap : Clear gap []) (hfound : IsMatch found) :
    gap ≠ s ++ (found ++ rest) := by
  intro heq
  apply hgap s (found ++ rest) found heq (by simp [hfound.ne_nil]) hfound
  rw [List.append_nil]
  exact List.prefix_append _ _

theorem CutsInto.unique (h : CutsInto s cut) (h' : CutsInto s cut') : cut = cut' := by
  induction h generalizing cut' with
  | @last gap hgap =>
    cases h' with
    | last => rfl
    | next hfound => exact absurd rfl (hgap.ne_of_match hfound)
  | @next gap found rest cut hfound hgap _ ih =>
    generalize hs : gap ++ (found ++ rest) = s at h'
    cases h' with
    | last hgap' => exact absurd hs.symm (hgap'.ne_of_match hfound)
    | @next gap' found' rest' cut' hfound' hgap' h' =>
      have hle := hgap.isPrefix_of_match hfound' hs
      have hge := hgap'.isPrefix_of_match hfound hs.symm
      obtain rfl : gap = gap' := hle.eq_of_length_le hge.length_le
      have hafter : found ++ rest = found' ++ rest' := List.append_cancel_left hs
      obtain rfl : found = found' := by
        have hmatch := match?_complete hfound rest
        rw [hafter, match?_complete hfound' rest'] at hmatch
        exact (Option.some.inj hmatch).symm
      obtain rfl : rest = rest' := List.append_cancel_left hafter
      rw [ih h']

/-- A text has exactly one cut into gaps and matches. Its conversions are the matches of the cut
that are no doubled percent signs, in order. A localized text passes exactly if it has the same
conversions as its source, and otherwise both lists are reported. -/
theorem directives_of_cut (source translated : Bytes) : ∃ cut cut' : Cut,
    (∀ c, CutsInto source c ↔ c = cut) ∧ (∀ c, CutsInto translated c ↔ c = cut') ∧
    directives source = cut.conversions ∧ directives translated = cut'.conversions ∧
    verify source translated = if cut.conversions = cut'.conversions then .ok ()
      else .error ⟨cut.conversions, cut'.conversions⟩ := by
  obtain ⟨cut, hcut⟩ := exists_cutsInto source
  obtain ⟨cut', hcut'⟩ := exists_cutsInto translated
  have hiff {s : Bytes} {cut : Cut} (h : CutsInto s cut) (c : Cut) : CutsInto s c ↔ c = cut := by
    constructor
    · intro hc
      exact hc.unique h
    · rintro rfl
      exact h
  refine ⟨cut, cut', hiff hcut, hiff hcut', hcut.directives_eq, hcut'.directives_eq, ?_⟩
  rw [verify, hcut.directives_eq, hcut'.directives_eq]

end ApeScript.Localization
