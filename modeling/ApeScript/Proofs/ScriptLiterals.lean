import ApeScript.Proofs.Characters
import ApeScript.Proofs.RebuiltScript

/-!
# Text literals of scripts

A line outside of comments may have a text literal: `lineLiteral?` finds it, and
`LineLiteral.StandsIn` says how such a line is put together. `literals` lists the texts of all
literals of a script, of which extraction keeps those that hold a letter.
-/

namespace ApeScript.Localization

variable {charset : Charset} {file src line s t rest inside : Bytes}

/-! ### Literals -/

theorem literalFrom_append (h : LiteralInside t) (acc rest : Bytes) :
    literalFrom acc (t ++ 34 :: rest) = some (acc.reverse ++ t, rest) := by
  induction h generalizing acc with
  | nil => simp [literalFrom]
  | @byte b t hquote hback _ ih =>
    rw [List.cons_append, literalFrom.eq_def]
    simp [hback, ih]
  | escape hline _ ih => simp [literalFrom, hline, ih]

/-- A text starts with a literal exactly if it starts with a quote, the inside of a literal and a
quote. -/
theorem literal?_eq_some_iff :
    literal? s = some (inside, rest) ↔ s = 34 :: (inside ++ 34 :: rest) ∧ LiteralInside inside := by
  refine ⟨literal?_eq_some, ?_⟩
  rintro ⟨rfl, h⟩
  exact literalFrom_append h [] rest

/-- A byte is written as itself or as a backslash and a byte that stands for it. -/
theorem escapeByte_cases (b : UInt8) :
    (∃ c, c ≠ 10 ∧ literalEscape c = [b] ∧ Script.escapeByte b = [92, c]) ∨
      b ≠ 34 ∧ b ≠ 92 ∧ Script.escapeByte b = [b] := by
  by_cases hspecial : Script.Special b
  · left
    rcases hspecial with rfl | rfl | rfl
    · exact ⟨110, by decide, by decide, rfl⟩
    · exact ⟨92, by decide, by decide, rfl⟩
    · exact ⟨34, by decide, by decide, rfl⟩
  · right
    have hb := Script.escapeByte_of_not_special hspecial
    simp only [Script.Special, not_or] at hspecial
    exact ⟨hspecial.2.2, hspecial.2.1, hb⟩

/-- What is written between quotes is the inside of a literal. -/
theorem LiteralInside.of_escape (s : Bytes) : LiteralInside (Script.escape s) := by
  induction s with
  | nil => exact .nil
  | cons b s ih =>
    change LiteralInside (Script.escapeByte b ++ Script.escape s)
    obtain ⟨c, hline, -, hb⟩ | ⟨hquote, hback, hb⟩ := escapeByte_cases b
    · rw [hb]
      exact .escape hline ih
    · rw [hb]
      exact .byte hquote hback ih

/-- What is written between quotes is read as the text it was written for. -/
theorem unescapeLiteral_escape (s : Bytes) : unescapeLiteral (Script.escape s) = s := by
  have hfrom (out : Bytes) : unescapeLiteralFrom out (Script.escape s) = out.reverse ++ s := by
    induction s generalizing out with
    | nil => simp [Script.escape, unescapeLiteralFrom]
    | cons b s ih =>
      change unescapeLiteralFrom out (Script.escapeByte b ++ Script.escape s) = _
      obtain ⟨c, -, hc, hb⟩ | ⟨-, hback, hb⟩ := escapeByte_cases b
      · simp [hb, unescapeLiteralFrom, hc, ih]
      · rw [hb, List.singleton_append, unescapeLiteralFrom_cons hback, ih]
        simp
  simpa [unescapeLiteral] using hfrom []

/-! ### The literal of a line -/

/-- The text literal of a line: its directive, the column of its opening quote, what stands between
its quotes, and what follows it. -/
structure LineLiteral where
  directive : Bytes
  column : Nat
  inside : Bytes
  rest : Bytes

def lineLiteral? (line : Bytes) : Option LineLiteral := do
  let (directive, stop, rest) ← textDirective? line
  let between := rest.takeWhile (· ≠ 34)
  let (inside, after) ← literal? (rest.drop between.length)
  return ⟨directive, stop + between.length, inside, after⟩

def LineLiteral.extract (charset : Charset) (file : Bytes) (number : Nat) (l : LineLiteral) :
    Extract :=
  ⟨charset.decode (unescapeLiteral l.inside), file, .line number l.column l.directive⟩

theorem lineText?_eq (charset : Charset) (file : Bytes) (number : Nat) (line : Bytes) :
    lineText? charset file number line =
      ((lineLiteral? line).map (·.extract charset file number)).filter
        (Text.hasLetters ·.text) := by
  unfold lineText? lineLiteral?
  cases textDirective? line with
  | none => rfl
  | some found =>
    obtain ⟨directive, stop, rest⟩ := found
    simp only [Option.bind_eq_bind, Option.bind_some]
    cases literal? (rest.drop (rest.takeWhile (· ≠ 34)).length) with
    | none => rfl
    | some literal => simp [LineLiteral.extract, Option.filter, pure]

/-- A text directive is a word that starts with a letter. -/
theorem textDirectives_spec : ∀ word ∈ textDirectives,
    (∀ b ∈ word, isWordByte b = true) ∧ word.head?.any Bytes.isLower = true := by
  decide +kernel

theorem exists_cons_of_mem_textDirectives {word : Bytes} (h : word ∈ textDirectives) :
    ∃ b t, word = b :: t ∧ 97 ≤ b ∧ b < 128 := by
  have hlower := (textDirectives_spec word h).2
  cases word with
  | nil => simp at hlower
  | cons b t =>
    simp only [List.head?_cons, Option.any_some, Bytes.isLower, Bool.and_eq_true,
      decide_eq_true_eq] at hlower
    exact ⟨b, t, rfl, hlower.1, UInt8.lt_of_le_of_lt hlower.2 (by decide)⟩

theorem isLineBlank_eq_false {b : UInt8} (h : 97 ≤ b) : isLineBlank b = false := by
  have hne (c : UInt8) (hc : c < 97) : b ≠ c := by
    rintro rfl
    exact UInt8.not_lt.2 h hc
  simp [isLineBlank, hne 9 (by decide), hne 10 (by decide), hne 12 (by decide), hne 13 (by decide),
    hne 32 (by decide)]

theorem drop_length_takeWhile (p : UInt8 → Bool) (s : Bytes) :
    s.drop (s.takeWhile p).length = s.dropWhile p :=
  calc s.drop (s.takeWhile p).length
      = (s.takeWhile p ++ s.dropWhile p).drop (s.takeWhile p).length := by
        rw [List.takeWhile_append_dropWhile]
    _ = s.dropWhile p := List.drop_left

theorem eq_false_of_head?_dropWhile {p : UInt8 → Bool} {b : UInt8}
    (h : (s.dropWhile p).head? = some b) : p b = false := by
  have hnot := List.head?_dropWhile_not p s
  simpa [h] using hnot

/-- A line starts with a text directive exactly if it starts with blanks and the word of one, and no
byte of a word follows. -/
theorem textDirective?_eq_some_iff {word : Bytes} {stop : Nat} :
    textDirective? line = some (word, stop, rest) ↔
      ∃ lead, (∀ b ∈ lead, isLineBlank b = true) ∧ word ∈ textDirectives ∧
        (∀ b, rest.head? = some b → isWordByte b = false) ∧ line = lead ++ (word ++ rest) ∧
        stop = lead.length + word.length := by
  simp only [textDirective?, Option.ite_none_right_eq_some, Option.some.injEq, Prod.mk.injEq,
    List.contains_iff_mem]
  constructor
  · rintro ⟨hword, rfl, rfl, rfl⟩
    rw [drop_length_takeWhile] at hword ⊢
    rw [drop_length_takeWhile]
    refine ⟨_, fun b hb => List.mem_takeWhile_imp hb, hword,
      fun b hb => eq_false_of_head?_dropWhile hb, ?_, rfl⟩
    rw [List.takeWhile_append_dropWhile, List.takeWhile_append_dropWhile]
  · rintro ⟨lead, hlead, hword, hrest, rfl, rfl⟩
    obtain ⟨b, t, hcons, hlower, -⟩ := exists_cons_of_mem_textDirectives hword
    have hblanks : (lead ++ (word ++ rest)).takeWhile isLineBlank = lead := by
      apply Bytes.takeWhile_append_of_head? hlead
      intro b' hb'
      obtain rfl : b = b' := by simpa [hcons] using hb'
      exact isLineBlank_eq_false hlower
    have htake : (word ++ rest).takeWhile isWordByte = word :=
      Bytes.takeWhile_append_of_head? (textDirectives_spec word hword).1 hrest
    simp [hblanks, htake, hword]

/-- How a line with a text literal is put together: blanks, a directive that no byte of a word
follows, bytes that are no quotes, and the literal. -/
structure LineLiteral.StandsIn (l : LineLiteral) (line lead between : Bytes) : Prop where
  blanks : ∀ b ∈ lead, isLineBlank b = true
  directive_mem : l.directive ∈ textDirectives
  boundary : ∀ b, between.head? = some b → isWordByte b = false
  no_quote : 34 ∉ between
  inside_literal : LiteralInside l.inside
  line_eq : line = lead ++ (l.directive ++ (between ++ 34 :: (l.inside ++ 34 :: l.rest)))
  column_eq : l.column = lead.length + l.directive.length + between.length

theorem lineLiteral?_eq_some_iff {l : LineLiteral} :
    lineLiteral? line = some l ↔ ∃ lead between, l.StandsIn line lead between := by
  simp only [lineLiteral?, Option.bind_eq_bind, Option.bind_eq_some_iff, Prod.exists,
    textDirective?_eq_some_iff, literal?_eq_some_iff, drop_length_takeWhile]
  constructor
  · rintro ⟨directive, stop, rest, ⟨lead, hlead, hdirective, hrest, rfl, rfl⟩, inside, after,
      ⟨hliteral, hinside⟩, hl⟩
    obtain rfl := Option.some.inj hl
    have hsplit : rest.takeWhile (· ≠ 34) ++ 34 :: (inside ++ 34 :: after) = rest := by
      rw [← hliteral, List.takeWhile_append_dropWhile]
    refine ⟨lead, rest.takeWhile (· ≠ 34), hlead, hdirective, fun b hb => hrest b ?_, fun h => ?_,
      hinside, by rw [hsplit], rfl⟩
    · rw [← hsplit, List.head?_append, hb]
      rfl
    · simpa using List.mem_takeWhile_imp h
  · rintro ⟨lead, between, hlead, hdirective, hboundary, hbetween, hinside, rfl, hcolumn⟩
    have htake : (between ++ 34 :: (l.inside ++ 34 :: l.rest)).takeWhile (· ≠ 34) = between :=
      Bytes.takeWhile_append_of_head? (fun b hb => by simpa using ne_of_mem_of_not_mem hb hbetween)
        (by simp)
    have hdrop : (between ++ 34 :: (l.inside ++ 34 :: l.rest)).dropWhile (· ≠ 34) =
        34 :: (l.inside ++ 34 :: l.rest) := by
      rw [← drop_length_takeWhile, htake, List.drop_left]
    refine ⟨l.directive, _, _, ⟨lead, hlead, hdirective, fun b hb => ?_, rfl, rfl⟩, l.inside,
      l.rest, ⟨hdrop, hinside⟩, ?_⟩
    · cases between with
      | nil =>
        obtain rfl := Option.some.inj hb
        decide
      | cons c between => exact hboundary b hb
    · rw [htake, ← hcolumn]
      rfl

/-- A text literal with something else between its quotes is found in the same place. -/
theorem lineLiteral?_refill {l : LineLiteral} (h : lineLiteral? line = some l) :
    ∃ before, before.length = l.column ∧ line = before ++ 34 :: (l.inside ++ 34 :: l.rest) ∧
      ∀ inside rest, LiteralInside inside →
        lineLiteral? (before ++ 34 :: (inside ++ 34 :: rest)) = some { l with inside, rest } := by
  obtain ⟨lead, between, hstands⟩ := lineLiteral?_eq_some_iff.1 h
  refine ⟨lead ++ (l.directive ++ between), ?_, ?_, fun inside rest hinside => ?_⟩
  · rw [hstands.column_eq]
    simp [Nat.add_assoc]
  · rw [hstands.line_eq]
    simp
  · refine lineLiteral?_eq_some_iff.2 ⟨lead, between, hstands.blanks,
      hstands.directive_mem, hstands.boundary, hstands.no_quote, hinside, by simp,
      hstands.column_eq⟩

/-! ### The literals of a script -/

/-- The lines outside of comments with their numbers, from number `number` on; `inComment` when an
earlier line opened a comment that is still open. -/
def uncommented : (inComment : Bool) → (number : Nat) → List Bytes → List (Nat × Bytes)
  | _, _, [] => []
  | true, number, line :: rest =>
    uncommented (!Bytes.contains (utf8 "*/") line) (number + 1) rest
  | false, number, line :: rest =>
    match Bytes.after? (utf8 "/*") (Text.trim line) with
    | some opened => uncommented (!Bytes.contains (utf8 "*/") opened) (number + 1) rest
    | none => (number, line) :: uncommented false (number + 1) rest

variable {inComment : Bool} {number : Nat} {lines : List Bytes} {p : Nat × Bytes} {e : Extract}
  {st : ScriptTexts}

theorem mem_uncommented (h : p ∈ uncommented inComment number lines) :
    number ≤ p.1 ∧ lines[p.1 - number]? = some p.2 := by
  have hlater {number : Nat} {line : Bytes} {rest : List Bytes}
      (h : number + 1 ≤ p.1 ∧ rest[p.1 - (number + 1)]? = some p.2) :
      number ≤ p.1 ∧ (line :: rest)[p.1 - number]? = some p.2 := by
    obtain ⟨hle, hline⟩ := h
    refine ⟨by omega, ?_⟩
    rw [show p.1 - number = p.1 - (number + 1) + 1 by omega, List.getElem?_cons_succ, hline]
  fun_induction uncommented inComment number lines with
  | case1 => cases h
  | case2 _ _ _ ih => exact hlater (ih h)
  | case3 _ _ _ _ _ ih => exact hlater (ih h)
  | case4 number line rest _ ih =>
    rcases List.mem_cons.1 h with rfl | h
    · simp
    · exact hlater (ih h)

theorem pairwise_uncommented (inComment : Bool) (number : Nat) (lines : List Bytes) :
    (uncommented inComment number lines).Pairwise (·.1 < ·.1) := by
  fun_induction uncommented inComment number lines with
  | case1 => exact .nil
  | case2 _ _ _ ih => exact ih
  | case3 _ _ _ _ _ ih => exact ih
  | case4 number line rest _ ih =>
    refine List.pairwise_cons.2 ⟨fun p hp => ?_, ih⟩
    exact (mem_uncommented hp).1

theorem textsFrom_eq (charset : Charset) (file : Bytes) (found : List Extract) (inComment : Bool)
    (number : Nat) (lines : List Bytes) :
    textsFrom charset file found inComment number lines = found.reverse ++
      (uncommented inComment number lines).filterMap fun p => lineText? charset file p.1 p.2 := by
  fun_induction uncommented inComment number lines generalizing found with
  | case1 => simp [textsFrom]
  | case2 number line rest ih => rw [textsFrom, ih]
  | case3 number line rest opened hopen ih =>
    rw [textsFrom, hopen]
    exact ih found
  | case4 number line rest hopen ih =>
    rw [textsFrom, hopen, ih, List.filterMap_cons]
    cases lineText? charset file number line <;> simp

def literals (charset : Charset) (file : Bytes) (lines : List Bytes) : List Extract :=
  (uncommented false 1 lines).filterMap fun p =>
    (lineLiteral? p.2).map (·.extract charset file p.1)

/-- The texts of a script are those of its literals that hold a letter. -/
theorem texts_eq_filter_literals (hs : extractScript charset file src = .ok st) :
    st.file = file ∧
      st.texts = (literals charset file st.lines).filter (Text.hasLetters ·.text) := by
  obtain ⟨-, rfl⟩ := extractScript_ok hs
  refine ⟨rfl, ?_⟩
  simp only [textsFrom_eq, literals, lineText?_eq, List.filter_filterMap]
  rfl

theorem exists_of_mem_literals (h : e ∈ literals charset file lines) : ∃ p l,
    p ∈ uncommented false 1 lines ∧ lineLiteral? p.2 = some l ∧ e = l.extract charset file p.1 := by
  obtain ⟨p, hp, h⟩ := List.mem_filterMap.1 h
  obtain ⟨l, hl, rfl⟩ := Option.map_eq_some_iff.1 h
  exact ⟨p, l, hp, hl, rfl⟩

def Separate (texts : List Extract) : Prop :=
  texts.Pairwise (·.place.lineNumber ≠ ·.place.lineNumber) ∧ ∀ e ∈ texts, 1 ≤ e.place.lineNumber

theorem separate_cons {texts : List Extract} : Separate (e :: texts) ↔
    1 ≤ e.place.lineNumber ∧ (∀ d ∈ texts, e.place.lineNumber ≠ d.place.lineNumber) ∧
      Separate texts := by
  simp only [Separate, List.pairwise_cons, List.forall_mem_cons]
  tauto

theorem separate_texts (hs : extractScript charset file src = .ok st) : Separate st.texts := by
  rw [(texts_eq_filter_literals hs).2]
  constructor
  · apply List.Pairwise.filter
    refine (pairwise_uncommented false 1 st.lines).filterMap _ ?_
    intro p q hpq d hd e he
    obtain ⟨l, -, rfl⟩ := Option.map_eq_some_iff.1 hd
    obtain ⟨m, -, rfl⟩ := Option.map_eq_some_iff.1 he
    exact Nat.ne_of_lt hpq
  · intro e he
    obtain ⟨p, l, hp, -, rfl⟩ := exists_of_mem_literals (List.mem_of_mem_filter he)
    exact (mem_uncommented hp).1

end ApeScript.Localization
