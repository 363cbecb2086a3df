import ApeScript.Proofs.FilledTable

/-!
# Tables filled in with localized texts

A translator puts a localized text, escaped like every other field, into the last column of some
rows of a table. What is read back takes the text of each row with a localized text to that text;
where several rows have one text, the last of them that has a localized text counts
(`Glossary.get?_withRows`). File names, keys, texts and localized texts may be any byte strings, as
long as no key is blank.
-/

namespace ApeScript.Localization

variable {entries : List (Row × Bytes)}

/-! ### Filling in -/

def translateRow (translated line : Bytes) : Bytes :=
  match Bytes.split 9 line with
  | [file, key, source, _] => Bytes.joinWith [9] [file, key, source, escapeField translated]
  | _ => line

/-- The table with a localized text in each row; the first line is the heading. -/
def translateTable (translations : List Bytes) (table : Bytes) : Bytes :=
  match Text.Lines.rawLines table with
  | [] => []
  | first :: rows => (first :: List.zipWith translateRow translations rows).flatMap (· ++ [10])

theorem translateRow_columns (r : Row) (before translated : Bytes) :
    translateRow translated (Bytes.joinWith [9] (r.columns before)) =
      Bytes.joinWith [9] (r.columns translated) := by
  rw [translateRow, Row.split_columns]
  rfl

/-- Filling in a table that was written gives the lines of its rows with their localized texts. -/
theorem translateTable_writeTable (entries : List (Row × Bytes)) :
    translateTable (entries.map Prod.snd) (writeTable (entries.map Prod.fst)) =
      (heading :: entries.map fun e => Bytes.joinWith [9] (e.1.columns e.2)).flatMap
        (· ++ [10]) := by
  have hraw : Text.Lines.rawLines (writeTable (entries.map Prod.fst)) =
      heading :: entries.map fun e => Bytes.joinWith [9] (e.1.columns []) := by
    rw [writeTable_eq, List.map_map, Text.Lines.rawLines_ended]
    · rfl
    · intro line hline
      rcases List.mem_cons.1 hline with rfl | hline
      · decide
      · obtain ⟨e, -, rfl⟩ := List.mem_map.1 hline
        exact Row.not_mem_columns (Or.inl rfl) e.1 []
  rw [translateTable, hraw]
  simp only [List.zipWith_map, List.zipWith_self, translateRow_columns]

/-! ### What the rows say -/

/-- The localized text of the last row with a text, among the rows that have a localized text. -/
def lastTranslation (entries : List (Row × Bytes)) (source : Bytes) : Option Bytes :=
  ((entries.filter fun e => e.1.text = source ∧ e.2 ≠ []).getLast?).map Prod.snd

theorem lastTranslation_concat (entries : List (Row × Bytes)) (e : Row × Bytes) (source : Bytes) :
    lastTranslation (entries ++ [e]) source =
      if e.1.text = source ∧ e.2 ≠ [] then some e.2 else lastTranslation entries source := by
  by_cases h : e.1.text = source ∧ e.2 ≠ []
  · simp [lastTranslation, List.filter_append, h]
  · simp [lastTranslation, List.filter_append, h]

namespace Glossary

/-- A glossary that is made of the rows one by one has the localized text of the last of them. -/
theorem get?_withRows (entries : List (Row × Bytes)) (source : Bytes) :
    (entries.foldl withRow .empty).get? source = lastTranslation entries source := by
  induction entries using List.reverseRecOn with
  | nil => rfl
  | append_singleton entries e ih =>
    rw [List.foldl_concat, lastTranslation_concat, withRow]
    by_cases hempty : e.2 = []
    · simp [hempty, ih]
    · rw [if_neg hempty, get?_insert, ih]
      simp [hempty, eq_comm]

/-- Each source text has one localized text. -/
def Single (g : Glossary) : Prop := (g.entries.map Prod.fst).Nodup

theorem Single.insert {g : Glossary} (hg : g.Single) (source translated : Bytes) :
    (g.insert source translated).Single := by
  have hrest : ((g.entries.filter (·.1 ≠ source)).map Prod.fst).Nodup :=
    hg.sublist (List.filter_sublist.map Prod.fst)
  have hnew : source ∉ (g.entries.filter (·.1 ≠ source)).map Prod.fst := by
    intro hmem
    obtain ⟨entry, hentry, heq⟩ := List.mem_map.1 hmem
    have hne := (List.mem_filter.1 hentry).2
    simp [heq] at hne
  exact List.nodup_cons.2 ⟨hnew, hrest⟩

theorem single_withRows (entries : List (Row × Bytes)) :
    (entries.foldl withRow .empty).Single := by
  induction entries using List.reverseRecOn with
  | nil => exact List.nodup_nil
  | append_singleton entries e ih =>
    rw [List.foldl_concat, withRow]
    split
    · exact ih
    · exact ih.insert _ _

end Glossary

/-- A written table whose rows are filled in with localized texts is read as the glossary that has,
for each text, the localized text of the last of its rows with one, and nothing else. A field holds
no tab and nothing that ends a line, and stands for the text that it was made of. -/
theorem readTable_translateTable (hkeys : ∀ e ∈ entries, Text.trim e.1.key ≠ [])
    (hlong : ∀ e ∈ entries, (e.1.line e.2).length ≤ Text.Lines.limit) :
    (∃ g, readTable (translateTable (entries.map Prod.snd) (writeTable (entries.map Prod.fst))) =
        .ok g ∧ g.Single ∧ ∀ source, g.get? source = lastTranslation entries source) ∧
      ∀ s, unescapeField (escapeField s) = s ∧
        9 ∉ escapeField s ∧ 10 ∉ escapeField s ∧ 13 ∉ escapeField s := by
  constructor
  · refine ⟨entries.foldl Glossary.withRow .empty, ?_, Glossary.single_withRows entries,
      Glossary.get?_withRows entries⟩
    rw [translateTable_writeTable]
    exact readTable_columns hkeys hlong
  · intro s
    exact ⟨unescapeField_escapeField s, not_mem_escapeField s⟩

/-- Three rows with one text, which holds a tab and ends in a backslash. The second row has the
last localized text, which starts with a backslash before a letter, and the third row has none. -/
def repeatedRows : List (Row × Bytes) :=
  [(⟨[255, 9], utf8 "1:0/Body#0", [9, 92]⟩, utf8 "x"),
    (⟨utf8 "a.ape", utf8 "1:0/Body#1", [9, 92]⟩, [92, 116, 13]),
    (⟨utf8 "a.ape", utf8 "1:0/Body#2", [9, 92]⟩, [])]

theorem readTable_translateTable_repeatedRows :
    ∃ g, readTable (translateTable [utf8 "x", [92, 116, 13], []]
        (writeTable (repeatedRows.map Prod.fst))) = .ok g ∧
      g.get? [9, 92] = some [92, 116, 13] ∧ g.get? [9] = none := by
  have hkeys : ∀ e ∈ repeatedRows, Text.trim e.1.key ≠ [] := by
    have hletter : ∀ e ∈ repeatedRows, 66 ∈ e.1.key := by decide
    intro e he
    exact Text.trim_ne_nil (hletter e he) (by decide) (by decide)
  obtain ⟨⟨g, hread, -, hget⟩, -⟩ := readTable_translateTable hkeys (by decide)
  exact ⟨g, hread, (hget _).trans (by decide), (hget _).trans (by decide)⟩

end ApeScript.Localization
