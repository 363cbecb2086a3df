import ApeScript.Proofs.CompilerRun
import ApeScript.Proofs.ScriptLiterals

/-!
# Scripts edited after extraction

The localized texts of a script are put into lines that may have changed since its texts were
found. A text that is `Due` replaces a whole literal at its column (`Replaces`), and no other line
changes; otherwise the first text at `Fault` says what is reported. A line that has become shorter
than the column of its text is a fault of its own, which halts.
-/

namespace ApeScript.Localization

variable {charset : Charset} {file src : Bytes} {g : Glossary} {st : ScriptTexts}
  {lines lines' : List Bytes} {texts : List Extract} {d e : Extract}
  {place line line' source translated before inside rest : Bytes} {column : Nat} {x : RebuildError}

/-! ### One line -/

structure LiteralAt (line : Bytes) (column : Nat) (before inside rest : Bytes) : Prop where
  length_eq : before.length = column
  line_eq : line = before ++ 34 :: (inside ++ 34 :: rest)
  inside_literal : LiteralInside inside

theorem literalAt_iff : LiteralAt line column before inside rest ↔
    column ≤ line.length ∧ before = line.take column ∧
      literal? (line.drop column) = some (inside, rest) := by
  rw [literal?_eq_some_iff]
  constructor
  · rintro ⟨rfl, rfl, hinside⟩
    exact ⟨by simp, by simp, by simp, hinside⟩
  · rintro ⟨hcolumn, rfl, hdrop, hinside⟩
    refine ⟨by simpa using hcolumn, ?_, hinside⟩
    rw [← hdrop, List.take_append_drop]

/-- A line with the literal at the place of a text replaced by its localized text, which has the
same directives. -/
def Replaces (charset : Charset) (e : Extract) (translated line line' : Bytes) : Prop :=
  directives translated = directives e.text ∧
    ∃ before inside rest stored, LiteralAt line e.place.column before inside rest ∧
      charset.encode translated = .ok stored ∧ line' = before ++ (Script.quote stored ++ rest)

def Extract.location (e : Extract) (file : Bytes) : Bytes :=
  file ++ utf8 " line " ++ Bytes.ofNat e.place.lineNumber

/-- Why a localized text cannot be put into its line, the first reason in this order. -/
@[mk_iff]
inductive Fault (charset : Charset) (file : Bytes) (e : Extract) (translated line : Bytes) :
    RebuildError → Prop
  | mismatch (h : directives translated ≠ directives e.text) :
      Fault charset file e translated line
        (.mismatch (e.location file) ⟨directives e.text, directives translated⟩)
  | shortLine (hsame : directives translated = directives e.text)
      (h : line.length < e.place.column) :
      Fault charset file e translated line (.shortLine e.place.column line.length)
  | changedLine (hsame : directives translated = directives e.text)
      (hlong : e.place.column ≤ line.length)
      (h : ¬ ∃ before inside rest, LiteralAt line e.place.column before inside rest) :
      Fault charset file e translated line (.changedLine (e.location file))
  | unencodable (hsame : directives translated = directives e.text)
      (hliteral : ∃ before inside rest, LiteralAt line e.place.column before inside rest)
      {x : CharsetError} (h : charset.encode translated = .error x) :
      Fault charset file e translated line (.unencodable (e.location file) x)

theorem exists_literalAt_iff : (∃ before inside rest, LiteralAt line column before inside rest) ↔
    column ≤ line.length ∧ (literal? (line.drop column)).isSome = true := by
  simp only [literalAt_iff, Option.isSome_iff_exists, Prod.exists]
  exact ⟨fun ⟨_, inside, rest, hlong, _, hliteral⟩ => ⟨hlong, inside, rest, hliteral⟩,
    fun ⟨hlong, inside, rest, hliteral⟩ => ⟨_, inside, rest, hlong, rfl, hliteral⟩⟩

theorem translateLine_eq (charset : Charset) (place : Bytes) (column : Nat)
    (source translated line : Bytes) :
    translateLine charset place column source translated line =
      if directives translated ≠ directives source then
        .error (.mismatch place ⟨directives source, directives translated⟩)
      else if line.length < column then .error (.shortLine column line.length)
      else match literal? (line.drop column), charset.encode translated with
        | none, _ => .error (.changedLine place)
        | some (_, rest), .ok stored => .ok (line.take column ++ (Script.quote stored ++ rest))
        | some _, .error x => .error (.unencodable place x) := by
  by_cases hsame : directives source = directives translated
  · by_cases hshort : line.length < column
    · simp only [translateLine, verify, hsame, hshort, if_true, ne_eq, not_true, if_false]
      rfl
    · simp only [translateLine, verify, hsame, hshort, if_true, ne_eq, not_true, if_false]
      cases literal? (line.drop column) with
      | none => rfl
      | some found =>
        cases charset.encode translated with
        | error x => rfl
        | ok stored => exact congrArg Except.ok (List.append_assoc ..)
  · simp only [translateLine, verify, if_neg hsame, ne_eq, Ne.symm hsame, not_false_eq_true,
      if_true]
    rfl

theorem translateLine_eq_ok_iff :
    translateLine charset place e.place.column e.text translated line = .ok line' ↔
      Replaces charset e translated line line' := by
  rw [translateLine_eq]
  simp only [Replaces, literalAt_iff]
  by_cases hsame : directives translated = directives e.text
  · by_cases hshort : line.length < e.place.column
    · simp [hsame, hshort]
    · cases hliteral : literal? (line.drop e.place.column) with
      | none => simp [hsame, hshort]
      | some found =>
        obtain ⟨inside, rest⟩ := found
        cases charset.encode translated <;> simp [hsame, hshort, Nat.le_of_not_lt, eq_comm]
  · simp [hsame]

theorem translateLine_eq_error_iff :
    translateLine charset (e.location file) e.place.column e.text translated line = .error x ↔
      Fault charset file e translated line x := by
  rw [translateLine_eq, fault_iff]
  simp only [exists_literalAt_iff]
  by_cases hsame : directives translated = directives e.text
  · by_cases hshort : line.length < e.place.column
    · simp [hsame, hshort, Nat.not_le.2 hshort, eq_comm (a := x)]
    · cases hliteral : literal? (line.drop e.place.column) with
      | none => simp [hsame, hshort, Nat.le_of_not_lt, eq_comm (a := x)]
      | some found =>
        cases charset.encode translated <;> simp [hsame, hshort, Nat.le_of_not_lt, eq_comm (a := x)]
  · simp [hsame, eq_comm (a := x)]

/-! ### One text -/

structure Due (g : Glossary) (lines : List Bytes) (e : Extract) (translated line : Bytes) :
    Prop where
  line_eq : lines[e.place.lineNumber - 1]? = some line
  known : g.get? e.text = some translated

/-- The text, where it is due, replaces a literal of its line. -/
def Fits (charset : Charset) (g : Glossary) (lines : List Bytes) (e : Extract) : Prop :=
  ∀ translated line, Due g lines e translated line →
    ∃ line', Replaces charset e translated line line'

theorem Due.unique {translated' line' : Bytes} (h : Due g lines e translated line)
    (h' : Due g lines e translated' line') : translated' = translated ∧ line' = line :=
  ⟨Option.some.inj (h'.known.symm.trans h.known), Option.some.inj (h'.line_eq.symm.trans h.line_eq)⟩

theorem translateText_of_due (h : Due g lines e translated line) :
    translateText charset g file lines e =
      (translateLine charset (e.location file) e.place.column e.text translated line >>=
        fun line' => .ok (lines.set (e.place.lineNumber - 1) line')) := by
  simp only [translateText, h.line_eq, h.known]
  rfl

theorem translateText_of_not_due (h : ∀ translated line, ¬ Due g lines e translated line) :
    translateText charset g file lines e = .ok lines := by
  unfold translateText
  dsimp only
  split
  · rename_i line translated hline hget
    exact absurd ⟨hline, hget⟩ (h translated line)
  · rfl

theorem translateText_eq_ok_iff : translateText charset g file lines e = .ok lines' ↔
    (∃ translated line line', Due g lines e translated line ∧
      Replaces charset e translated line line' ∧
        lines' = lines.set (e.place.lineNumber - 1) line') ∨
      (∀ translated line, ¬ Due g lines e translated line) ∧ lines' = lines := by
  by_cases hdue : ∃ translated line, Due g lines e translated line
  · obtain ⟨translated, line, hdue⟩ := hdue
    simp only [translateText_of_due hdue, bind_eq_ok, translateLine_eq_ok_iff, Except.ok.injEq]
    constructor
    · rintro ⟨line', hreplaces, rfl⟩
      exact Or.inl ⟨translated, line, line', hdue, hreplaces, rfl⟩
    · rintro (⟨translated', line', line'', hdue', hreplaces, rfl⟩ | ⟨hnot, -⟩)
      · obtain ⟨rfl, rfl⟩ := hdue.unique hdue'
        exact ⟨line'', hreplaces, rfl⟩
      · exact absurd hdue (hnot _ _)
  · simp only [not_exists] at hdue
    rw [translateText_of_not_due hdue, Except.ok.injEq]
    constructor
    · rintro rfl
      exact Or.inr ⟨hdue, rfl⟩
    · rintro (⟨translated, line, line', hdue', -⟩ | ⟨-, rfl⟩)
      · exact absurd hdue' (hdue _ _)
      · rfl

theorem translateText_eq_error_iff : translateText charset g file lines e = .error x ↔
    ∃ translated line, Due g lines e translated line ∧ Fault charset file e translated line x := by
  by_cases hdue : ∃ translated line, Due g lines e translated line
  · obtain ⟨translated, line, hdue⟩ := hdue
    rw [translateText_of_due hdue, bind_eq_error, translateLine_eq_error_iff]
    constructor
    · rintro (hfault | ⟨line', -, h⟩)
      · exact ⟨translated, line, hdue, hfault⟩
      · cases h
    · rintro ⟨translated', line', hdue', hfault⟩
      obtain ⟨rfl, rfl⟩ := hdue.unique hdue'
      exact Or.inl hfault
  · simp only [not_exists] at hdue
    rw [translateText_of_not_due hdue]
    simp [hdue]

/-- A text fits exactly if putting it into the lines succeeds. -/
theorem fits_iff : Fits charset g lines e ↔
    ∃ lines', translateText charset g file lines e = .ok lines' := by
  simp only [translateText_eq_ok_iff]
  constructor
  · intro h
    by_cases hdue : ∃ translated line, Due g lines e translated line
    · obtain ⟨translated, line, hdue⟩ := hdue
      obtain ⟨line', hreplaces⟩ := h translated line hdue
      exact ⟨_, Or.inl ⟨translated, line, line', hdue, hreplaces, rfl⟩⟩
    · simp only [not_exists] at hdue
      exact ⟨lines, Or.inr ⟨hdue, rfl⟩⟩
  · rintro ⟨lines', h⟩ translated line hdue
    obtain ⟨translated', line', line'', hdue', hreplaces, -⟩ | ⟨hnot, -⟩ := h
    · obtain ⟨rfl, rfl⟩ := hdue.unique hdue'
      exact ⟨line'', hreplaces⟩
    · exact absurd hdue (hnot _ _)

/-! ### All texts -/

/-- What becomes of a line: its text, if it is known, replaces a literal of it, and a line without
such a text stays. The lines count from zero here. -/
def Rebuilt (charset : Charset) (g : Glossary) (texts : List Extract) (i : Nat)
    (line line' : Bytes) : Prop :=
  (∃ e ∈ texts, e.place.lineNumber = i + 1 ∧ ∃ translated, g.get? e.text = some translated ∧
    Replaces charset e translated line line') ∨
  (∀ e ∈ texts, e.place.lineNumber = i + 1 → g.get? e.text = none) ∧ line' = line

/-- One text changes its own line and no other. -/
theorem getElem?_translateText {i : Nat} (h : translateText charset g file lines e = .ok lines')
    (hi : e.place.lineNumber ≠ i + 1) (hnumber : 1 ≤ e.place.lineNumber) :
    lines'[i]? = lines[i]? := by
  obtain ⟨_, _, _, _, _, rfl⟩ | ⟨-, rfl⟩ := translateText_eq_ok_iff.1 h
  · exact List.getElem?_set_ne (by omega)
  · rfl

theorem length_translateText (h : translateText charset g file lines e = .ok lines') :
    lines'.length = lines.length := by
  obtain ⟨_, _, _, _, _, rfl⟩ | ⟨-, rfl⟩ := translateText_eq_ok_iff.1 h
  · exact List.length_set
  · rfl

/-- A text in another line is due after a change of one line if it was due before. -/
theorem due_iff_of_translateText (h : translateText charset g file lines e = .ok lines')
    (hnumber : 1 ≤ e.place.lineNumber) (hd : 1 ≤ d.place.lineNumber)
    (hne : e.place.lineNumber ≠ d.place.lineNumber) :
    Due g lines' d translated line ↔ Due g lines d translated line := by
  have hsame : lines'[d.place.lineNumber - 1]? = lines[d.place.lineNumber - 1]? :=
    getElem?_translateText h (by omega) hnumber
  exact ⟨fun hdue => ⟨hsame ▸ hdue.line_eq, hdue.known⟩,
    fun hdue => ⟨hsame.symm ▸ hdue.line_eq, hdue.known⟩⟩

theorem rebuilt_of_foldlM (htexts : Separate texts)
    (h : texts.foldlM (translateText charset g file) lines = .ok lines') :
    lines'.length = lines.length ∧ ∀ i line, lines[i]? = some line →
      ∃ line', lines'[i]? = some line' ∧ Rebuilt charset g texts i line line' := by
  induction texts generalizing lines with
  | nil =>
    obtain rfl := Except.ok.inj h
    exact ⟨rfl, fun i line hline => ⟨line, hline, Or.inr ⟨by simp, rfl⟩⟩⟩
  | cons e texts ih =>
    obtain ⟨hnumber, hne, htexts⟩ := separate_cons.1 htexts
    rw [List.foldlM_cons, bind_eq_ok] at h
    obtain ⟨middle, hfirst, h⟩ := h
    obtain ⟨hlength, hlines⟩ := ih htexts h
    refine ⟨hlength.trans (length_translateText hfirst), fun i line hline => ?_⟩
    by_cases hi : e.place.lineNumber = i + 1
    · -- no later text has this line
      have hkept {a b : Bytes} (h : Rebuilt charset g texts i a b) : b = a := by
        obtain ⟨d, hd, hplace, -⟩ | ⟨-, rfl⟩ := h
        · exact absurd (hi.trans hplace.symm) (hne d hd)
        · rfl
      have hline' : lines[e.place.lineNumber - 1]? = some line := by rwa [hi]
      obtain ⟨translated, line₀, line', hdue, hreplaces, rfl⟩ | ⟨hnot, rfl⟩ :=
        translateText_eq_ok_iff.1 hfirst
      · obtain rfl : line = line₀ := Option.some.inj (hline'.symm.trans hdue.line_eq)
        have hset : (lines.set (e.place.lineNumber - 1) line')[i]? = some line' := by
          rw [hi, Nat.add_sub_cancel, List.getElem?_set_self]
          exact (List.getElem?_eq_some_iff.1 hline).1
        obtain ⟨line'', hline'', hrebuilt⟩ := hlines i line' hset
        obtain rfl := hkept hrebuilt
        exact ⟨line'', hline'',
          Or.inl ⟨e, List.mem_cons_self, hi, translated, hdue.known, hreplaces⟩⟩
      · obtain ⟨line'', hline'', hrebuilt⟩ := hlines i line hline
        obtain rfl := hkept hrebuilt
        have hnone : g.get? e.text = none :=
          Option.eq_none_iff_forall_ne_some.2 fun t ht => hnot t _ ⟨hline', ht⟩
        refine ⟨line'', hline'', Or.inr ⟨List.forall_mem_cons.2 ⟨fun _ => hnone, ?_⟩, rfl⟩⟩
        exact fun d hd hplace => absurd (hi.trans hplace.symm) (hne d hd)
    · rw [← getElem?_translateText hfirst hi hnumber] at hline
      obtain ⟨line', hline', hrebuilt⟩ := hlines i line hline
      refine ⟨line', hline', hrebuilt.imp ?_ ?_⟩
      · rintro ⟨d, hd, hplace⟩
        exact ⟨d, List.mem_cons_of_mem _ hd, hplace⟩
      · rintro ⟨hnone, rfl⟩
        exact ⟨List.forall_mem_cons.2 ⟨fun h => absurd h hi, hnone⟩, rfl⟩

/-- Putting the texts into the lines fails for the first text at fault, all texts before it
fitting. -/
theorem foldlM_eq_error_iff (htexts : Separate texts) :
    texts.foldlM (translateText charset g file) lines = .error x ↔
      ∃ before e after translated line, texts = before ++ e :: after ∧
        (∀ d ∈ before, Fits charset g lines d) ∧ Due g lines e translated line ∧
          Fault charset file e translated line x := by
  induction texts generalizing lines with
  | nil => simp [pure, Except.pure]
  | cons e texts ih =>
    obtain ⟨hnumber, hne, htexts⟩ := separate_cons.1 htexts
    have hdue {middle : List Bytes} (hfirst : translateText charset g file lines e = .ok middle)
        {d : Extract} (hd : d ∈ texts) {translated line : Bytes} :
        Due g middle d translated line ↔ Due g lines d translated line :=
      due_iff_of_translateText hfirst hnumber (htexts.2 d hd) (hne d hd)
    rw [List.foldlM_cons, bind_eq_error, translateText_eq_error_iff]
    constructor
    · rintro (⟨translated, line, hdue', hfault⟩ | ⟨middle, hfirst, h⟩)
      · exact ⟨[], e, texts, translated, line, rfl, by simp, hdue', hfault⟩
      · obtain ⟨before, d, after, translated, line, rfl, hfits, hd, hfault⟩ := (ih htexts).1 h
        refine ⟨e :: before, d, after, translated, line, rfl, ?_, (hdue hfirst (by simp)).1 hd,
          hfault⟩
        refine List.forall_mem_cons.2 ⟨fits_iff.2 ⟨middle, hfirst⟩, fun d' hd' t l hdue' => ?_⟩
        exact hfits d' hd' t l ((hdue hfirst (by simp [hd'])).2 hdue')
    · rintro ⟨before, d, after, translated, line, htexts', hfits, hd, hfault⟩
      cases before with
      | nil =>
        obtain ⟨rfl, rfl⟩ := List.cons.inj htexts'
        exact Or.inl ⟨translated, line, hd, hfault⟩
      | cons e' before =>
        obtain ⟨rfl, rfl⟩ := List.cons.inj htexts'
        obtain ⟨hfit, hfits⟩ := List.forall_mem_cons.1 hfits
        obtain ⟨middle, hfirst⟩ := fits_iff.1 hfit
        refine Or.inr ⟨middle, hfirst, (ih htexts).2 ⟨before, d, after, translated, line, rfl,
          fun d' hd' t l hdue' => ?_, (hdue hfirst (by simp)).2 hd, hfault⟩⟩
        exact hfits d' hd' t l ((hdue hfirst (by simp [hd'])).1 hdue')

/-! ### Edited scripts -/

/-- What is put together has a line for every line. -/
theorem rebuilt_of_rebuildScript {out : Bytes} (hs : extractScript charset file src = .ok st)
    (hout : rebuildScript charset { st with lines } g = .ok out) :
    ∃ lines', out = Bytes.joinWith [10] lines' ++ [10] ∧ lines'.length = lines.length ∧
      ∀ i line, lines[i]? = some line →
        ∃ line', lines'[i]? = some line' ∧ Rebuilt charset g st.texts i line line' := by
  obtain ⟨lines', hfold, hout⟩ := bind_eq_ok.1 hout
  obtain ⟨hlength, hlines⟩ := rebuilt_of_foldlM (separate_texts hs) hfold
  exact ⟨lines', (Except.ok.inj hout).symm, hlength, hlines⟩

/-- The localized texts of a script are put into lines that may have changed in any way since the
texts were found. When it succeeds, a line with a known text has a whole literal at the column of
the text replaced, and no other line changes. It fails exactly for the first text at fault: one
whose localized text has other directives, whose line is shorter than its column, which halts, whose
line has no whole literal at its column, which is reported as a change, or whose localized text is
not in the character set. -/
theorem rebuildScript_edited (hs : extractScript charset file src = .ok st) (g : Glossary)
    (lines : List Bytes) :
    (∀ out, rebuildScript charset { st with lines } g = .ok out →
      ∃ lines', out = Bytes.joinWith [10] lines' ++ [10] ∧ lines'.length = lines.length ∧
        ∀ i line, lines[i]? = some line →
          ∃ line', lines'[i]? = some line' ∧ Rebuilt charset g st.texts i line line') ∧
    ∀ x, rebuildScript charset { st with lines } g = .error x ↔
      ∃ before e after translated line, st.texts = before ++ e :: after ∧
        (∀ d ∈ before, Fits charset g lines d) ∧ Due g lines e translated line ∧
          Fault charset st.file e translated line x := by
  refine ⟨fun out hout => rebuilt_of_rebuildScript hs hout, fun x => ?_⟩
  rw [← foldlM_eq_error_iff (separate_texts hs)]
  refine bind_eq_error.trans ⟨fun h => h.resolve_right ?_, Or.inl⟩
  rintro ⟨lines', -, h⟩
  cases h

/-- A line in which another literal, with an escaped quote, stands at the column of the text. -/
theorem rebuildScript_edited_escapedQuote :
    let g := Glossary.ofList [(utf8 "a", utf8 "A\"")]
    let lines := [utf8 "body \"x\\\"\" y", utf8 "z"]
    ∃ st lines',
      extractScript .raw (utf8 "s.txt") (utf8 "body \"a\"\nbody \"b\"\n") = .ok st ∧
      rebuildScript .raw { st with lines } g = .ok (utf8 "body \"A\\\"\" y\nz\n") ∧
      utf8 "body \"A\\\"\" y\nz\n" = Bytes.joinWith [10] lines' ++ [10] ∧
      ∀ i line, lines[i]? = some line →
        ∃ line', lines'[i]? = some line' ∧ Rebuilt .raw g st.texts i line line' := by
  intro g lines
  let st : ScriptTexts := ⟨utf8 "s.txt", [utf8 "body \"a\"", utf8 "body \"b\""],
    [⟨utf8 "a", utf8 "s.txt", .line 1 5 (utf8 "body")⟩,
      ⟨utf8 "b", utf8 "s.txt", .line 2 5 (utf8 "body")⟩]⟩
  have hs : extractScript .raw (utf8 "s.txt") (utf8 "body \"a\"\nbody \"b\"\n") = .ok st := by
    decide +kernel
  have hout : rebuildScript .raw { st with lines } g = .ok (utf8 "body \"A\\\"\" y\nz\n") := by
    decide +kernel
  obtain ⟨lines', hjoin, -, hrebuilt⟩ := (rebuildScript_edited hs g lines).1 _ hout
  exact ⟨st, lines', hs, hout, hjoin, hrebuilt⟩

/-- A line that ends before the column of its text halts; it is not reported as changed. -/
theorem rebuildScript_edited_shortened :
    ∃ st, extractScript .raw (utf8 "s.txt") (utf8 "body \"b\"\n") = .ok st ∧
      rebuildScript .raw { st with lines := [utf8 "z"] } (.ofList [(utf8 "b", utf8 "B")]) =
        .error (.shortLine 5 1) :=
  ⟨_, rfl, by decide +kernel⟩

end ApeScript.Localization
