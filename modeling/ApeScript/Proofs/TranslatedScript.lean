import ApeScript.Proofs.EditedScript

/-!
# Localized scripts that are read again

A script that is put together with localized texts is cut into the same lines, of which the same
stand outside of comments, and every literal is found where it was. What stands between its quotes
reads as the localized text: `Extract.localized` says which. A localized text may hold quotes, line
ends and comment marks, since a line with a literal starts with the word of its directive.
-/

namespace ApeScript

namespace Bytes

variable {part s : Bytes} {b : UInt8}

theorem contains_iff_isInfix : contains part s = true ↔ part <:+: s := by
  induction s with
  | nil => simp [contains]
  | cons b s ih => simp [contains, ih, List.infix_cons_iff]

theorem contains_concat (hb : b ∉ part) (hpart : part ≠ []) (s : Bytes) :
    contains part (s ++ [b]) = contains part s := by
  rw [Bool.eq_iff_iff, contains_iff_isInfix, contains_iff_isInfix, List.infix_concat_iff]
  refine or_iff_right fun hsuffix => hb ?_
  obtain ⟨front, hfront⟩ := hsuffix
  rw [← List.dropLast_concat_getLast hpart, ← List.append_assoc] at hfront
  obtain rfl : part.getLast hpart = b := by simpa using (List.append_inj' hfront rfl).2
  exact List.getLast_mem hpart

end Bytes

/-! ### Lines without a carriage return at their end -/

namespace Text.Lines

theorem trim_dropReturn (line : Bytes) : trim (dropReturn line) = trim line := by
  obtain h | h := dropReturn_cases line
  · rw [h]
  · rw [← trim_concat (b := 13) (by decide) (by decide), ← h]

theorem contains_dropReturn {part : Bytes} (hreturn : 13 ∉ part) (hpart : part ≠ [])
    (line : Bytes) : Bytes.contains part (dropReturn line) = Bytes.contains part line := by
  obtain h | h := dropReturn_cases line
  · rw [h]
  · rw [← Bytes.contains_concat hreturn hpart, ← h]

end Text.Lines

namespace Localization

open Text.Lines (dropReturn rawLines)

variable {charset : Charset} {file src out line line' : Bytes} {g : Glossary} {s : ScriptTexts}
  {l : LineLiteral} {e : Extract} {lines lines' : List Bytes} {inComment : Bool} {number i : Nat}

theorem lineLiteral?_dropReturn (line : Bytes) : lineLiteral? (dropReturn line) =
    (lineLiteral? line).map fun l => { l with rest := dropReturn l.rest } := by
  have hquote : (34 : UInt8) ≠ 13 := by decide
  cases hline : lineLiteral? line with
  | some l =>
    obtain ⟨before, -, rfl, hrefill⟩ := lineLiteral?_refill hline
    obtain ⟨_, _, hstands⟩ := lineLiteral?_eq_some_iff.1 hline
    rw [← List.cons_append, ← List.append_assoc, Text.Lines.dropReturn_append hquote,
      List.append_assoc, List.cons_append, hrefill l.inside _ hstands.inside_literal]
    rfl
  | none =>
    -- a literal of the shorter line would be one of the line
    obtain h | h := Text.Lines.dropReturn_cases line
    · rw [h, hline]
      rfl
    · refine Option.eq_none_iff_forall_ne_some.2 fun l hl => ?_
      obtain ⟨before, -, hdrop, hrefill⟩ := lineLiteral?_refill hl
      obtain ⟨_, _, hstands⟩ := lineLiteral?_eq_some_iff.1 hl
      have hmore := hrefill l.inside (l.rest ++ [13]) hstands.inside_literal
      have hsame : before ++ 34 :: (l.inside ++ 34 :: (l.rest ++ [13])) = line := by
        rw [h, hdrop]
        simp
      rw [hsame, hline] at hmore
      cases hmore

theorem isLineBlank_spec {b : UInt8} (h : isLineBlank b = true) :
    b < 0x80 ∧ Text.isBlankChar b.toNat = true := by
  simp only [isLineBlank, Bool.or_eq_true, decide_eq_true_eq] at h
  obtain (((rfl | rfl) | rfl) | rfl) | rfl := h <;> decide

/-- A line with a text literal does not start with a comment, whatever the literal holds. -/
theorem after?_trim_of_lineLiteral? (h : lineLiteral? line = some l) :
    Bytes.after? (utf8 "/*") (Text.trim line) = none := by
  obtain ⟨lead, between, hstands⟩ := lineLiteral?_eq_some_iff.1 h
  obtain ⟨b, word, hword, hlower, hascii⟩ :=
    exists_cons_of_mem_textDirectives hstands.directive_mem
  have hblank : Text.isBlankChar b.toNat = false := by
    have hleast : 97 ≤ b.toNat := UInt8.le_iff_toNat_le.1 hlower
    have hmost : b.toNat < 128 := UInt8.lt_iff_toNat_lt.1 hascii
    simp only [Text.isBlankChar, Bool.or_eq_false_iff, Bool.and_eq_false_iff,
      decide_eq_false_iff_not, beq_eq_false_iff_ne]
    omega
  have hslash : (47 : UInt8) ≠ b := by
    rintro rfl
    exact absurd hlower (by decide)
  obtain ⟨t, ht⟩ := Text.exists_trim_eq_cons hascii hblank
    (fun c hc => isLineBlank_spec (hstands.blanks c hc))
    (word ++ (between ++ 34 :: (l.inside ++ 34 :: l.rest)))
  rw [hstands.line_eq, hword, List.cons_append, ht]
  change Bytes.after? [47, 42] (b :: t) = none
  rw [Bytes.after?, if_neg hslash]

/-! ### The same lines outside of comments -/

/-- The numbers of the lines outside of comments do not change when lines marked by `U`, which are
outside of comments, are replaced by lines that start with no comment, and all others lose at most a
carriage return. -/
theorem map_fst_uncommented {U : Nat × Bytes → Prop}
    (h : List.Forall₂ (fun p line' => line' = dropReturn p.1 ∨
        U (p.2, p.1) ∧ Bytes.after? (utf8 "/*") (Text.trim line') = none)
      (lines.zipIdx number) lines')
    (hU : ∀ p, U p → number ≤ p.1 → p ∈ uncommented inComment number lines) :
    (uncommented inComment number lines').map Prod.fst =
      (uncommented inComment number lines).map Prod.fst := by
  have hclose : 13 ∉ utf8 "*/" ∧ utf8 "*/" ≠ [] := by decide
  fun_induction uncommented inComment number lines generalizing lines' with
  | case1 =>
    cases h
    rfl
  | case2 number line rest ih =>
    cases h with | @cons _ line' _ rest' hline hrest =>
    obtain rfl : line' = dropReturn line := hline.resolve_right fun hin =>
      absurd (mem_uncommented (hU _ hin.1 Nat.le.refl)).1 (by simp)
    rw [uncommented, Text.Lines.contains_dropReturn hclose.1 hclose.2]
    exact ih hrest fun p hp hle => hU p hp (Nat.le_of_succ_le hle)
  | case3 number line rest opened hopen ih =>
    cases h with | @cons _ line' _ rest' hline hrest =>
    obtain rfl : line' = dropReturn line := hline.resolve_right fun hin =>
      absurd (mem_uncommented (hU _ hin.1 Nat.le.refl)).1 (by simp)
    rw [uncommented, Text.Lines.trim_dropReturn, hopen]
    exact ih hrest fun p hp hle => hU p hp (Nat.le_of_succ_le hle)
  | case4 number line rest hopen ih =>
    cases h with | @cons _ line' _ rest' hline hrest =>
    have hstays : Bytes.after? (utf8 "/*") (Text.trim line') = none := by
      obtain rfl | ⟨-, hnone⟩ := hline
      · rw [Text.Lines.trim_dropReturn, hopen]
      · exact hnone
    rw [uncommented, hstays, List.map_cons, List.map_cons]
    refine congrArg _ (ih hrest fun p hp hle => ?_)
    refine (List.mem_cons.1 (hU p hp (Nat.le_of_succ_le hle))).resolve_left ?_
    rintro rfl
    exact absurd hle (by simp)

/-! ### The literals of a localized script -/

/-- What stands in the place of a text once its script is put together: the localized text, where
the text holds a letter and the glossary knows it. -/
def Extract.localized (g : Glossary) (e : Extract) : Extract :=
  if Text.hasLetters e.text then { e with text := (g.get? e.text).getD e.text } else e

theorem Extract.localized_of_letters (h : Text.hasLetters e.text = true) :
    e.localized g = { e with text := (g.get? e.text).getD e.text } := if_pos h

theorem Extract.localized_of_none (h : Text.hasLetters e.text = true → g.get? e.text = none) :
    e.localized g = e := by
  unfold localized
  split
  · rw [h ‹_›]
    rfl
  · rfl

/-- A text without letters stays, so that it is not listed again. -/
theorem filter_map_localized (texts : List Extract) :
    (texts.map (·.localized g)).filter (Text.hasLetters ·.text) =
      ((texts.filter (Text.hasLetters ·.text)).map (·.localized g)).filter
        (Text.hasLetters ·.text) := by
  rw [List.filter_map, List.filter_map, List.filter_filter]
  refine congrArg _ (List.filter_congr fun e _ => ?_)
  cases hletters : Text.hasLetters e.text with
  | true => rw [Bool.and_true]
  | false =>
    have hsame : e.localized g = e := Extract.localized_of_none fun h => by simp [hletters] at h
    simp [hsame, hletters]

theorem extract_mem_texts (hs : extractScript charset file src = .ok s)
    (hmem : (number, line) ∈ uncommented false 1 s.lines) (hl : lineLiteral? line = some l)
    (hletters : Text.hasLetters (l.extract charset file number).text = true) :
    l.extract charset file number ∈ s.texts := by
  rw [(texts_eq_filter_literals hs).2]
  refine List.mem_filter.2 ⟨List.mem_filterMap.2 ⟨_, hmem, ?_⟩, hletters⟩
  simp only [hl, Option.map_some]

/-- A listed text is the literal of the line that its place names. -/
theorem exists_lineLiteral?_of_mem_texts (hs : extractScript charset file src = .ok s)
    (he : e ∈ s.texts) (hnumber : e.place.lineNumber = i + 1) (hline : s.lines[i]? = some line) :
    (i + 1, line) ∈ uncommented false 1 s.lines ∧
      ∃ l, lineLiteral? line = some l ∧ e = l.extract charset file (i + 1) ∧
        Text.hasLetters e.text = true := by
  rw [(texts_eq_filter_literals hs).2] at he
  obtain ⟨he, hletters⟩ := List.mem_filter.1 he
  obtain ⟨⟨n, line₀⟩, l, hp, hl, rfl⟩ := exists_of_mem_literals he
  obtain rfl : n = i + 1 := hnumber
  obtain rfl : line₀ = line := by
    have hline₀ := (mem_uncommented hp).2
    exact Option.some.inj (hline₀.symm.trans hline)
  exact ⟨hp, l, hl, rfl, hletters⟩

theorem LiteralAt.unique {column : Nat} {before inside rest before' inside' rest' : Bytes}
    (h : LiteralAt line column before inside rest)
    (h' : LiteralAt line column before' inside' rest') :
    before' = before ∧ inside' = inside ∧ rest' = rest := by
  obtain ⟨-, rfl, hliteral⟩ := literalAt_iff.1 h
  obtain ⟨-, rfl, hliteral'⟩ := literalAt_iff.1 h'
  simpa using hliteral'.symm.trans hliteral

/-- The literal of a line that was put together is the literal of the line, localized. -/
theorem lineLiteral?_of_rebuilt (hs : extractScript charset file src = .ok s)
    (hmem : (i + 1, line) ∈ uncommented false 1 s.lines)
    (h : Rebuilt charset g s.texts i line line') :
    (lineLiteral? line').map (·.extract charset file (i + 1)) =
      (lineLiteral? line).map fun l => (l.extract charset file (i + 1)).localized g := by
  obtain ⟨e, he, hnumber, translated, hget, -, before, inside, rest, stored, hat, hencode, rfl⟩ |
    ⟨hnone, rfl⟩ := h
  · have hline : s.lines[i]? = some line := by simpa using (mem_uncommented hmem).2
    obtain ⟨-, l, hl, rfl, hletters⟩ := exists_lineLiteral?_of_mem_texts hs he hnumber hline
    obtain ⟨front, hcolumn, hfront, hrefill⟩ := lineLiteral?_refill hl
    obtain ⟨_, _, hstands⟩ := lineLiteral?_eq_some_iff.1 hl
    obtain ⟨rfl, rfl, rfl⟩ := LiteralAt.unique ⟨hcolumn, hfront, hstands.inside_literal⟩ hat
    have hquote : before ++ (Script.quote stored ++ l.rest) =
        before ++ 34 :: (Script.escape stored ++ 34 :: l.rest) := by
      simp [Script.quote, Script.escape]
    have htext : charset.decode (unescapeLiteral (Script.escape stored)) = translated := by
      rw [unescapeLiteral_escape, Charset.decode_encode hencode]
    rw [hquote, hrefill _ l.rest (.of_escape stored), hl, Option.map_some, Option.map_some,
      Extract.localized_of_letters hletters, hget]
    simp only [LineLiteral.extract, htext, Option.getD_some]
  · cases hl : lineLiteral? line' with
    | none => rfl
    | some l =>
      have hkept : (l.extract charset file (i + 1)).localized g = l.extract charset file (i + 1) :=
        Extract.localized_of_none fun hletters =>
          hnone _ (extract_mem_texts hs hmem hl hletters) rfl
      rw [Option.map_some, Option.map_some, hkept]

/-- The literals of a script by the numbers of their lines. -/
theorem literals_eq_filterMap (charset : Charset) (file : Bytes) (lines : List Bytes) :
    literals charset file lines = ((uncommented false 1 lines).map Prod.fst).filterMap fun n =>
      (lines[n - 1]?.bind lineLiteral?).map (·.extract charset file n) := by
  rw [literals, List.filterMap_map]
  refine List.filterMap_congr fun p hp => ?_
  rw [Function.comp_apply, (mem_uncommented hp).2, Option.bind_some]

/-- Every literal of the lines that were put together is a literal of the script, localized. -/
theorem literals_of_rebuilt (hs : extractScript charset file src = .ok s)
    (hlength : lines'.length = s.lines.length)
    (h : ∀ i line, s.lines[i]? = some line →
      ∃ line', lines'[i]? = some line' ∧ Rebuilt charset g s.texts i line line') :
    literals charset file (lines'.map dropReturn) =
      (literals charset file s.lines).map (·.localized g) := by
  have hnumbers : (uncommented false 1 (lines'.map dropReturn)).map Prod.fst =
      (uncommented false 1 s.lines).map Prod.fst := by
    refine map_fst_uncommented (U := (· ∈ uncommented false 1 s.lines)) ?_ fun p hp _ => hp
    refine List.forall₂_iff_get.2 ⟨by simp [hlength], fun i hi hi' => ?_⟩
    simp only [List.length_zipIdx, List.length_map] at hi hi'
    obtain ⟨line', hline', hrebuilt⟩ := h i _ (List.getElem?_eq_getElem hi)
    obtain rfl : lines'[i] = line' := (List.getElem?_eq_some_iff.1 hline').2
    simp only [List.get_eq_getElem, List.getElem_zipIdx, List.getElem_map, Nat.add_comm 1 i]
    by_cases hsame : lines'[i] = s.lines[i]
    · exact Or.inl (congrArg dropReturn hsame)
    · obtain ⟨e, he, hnumber, -⟩ := hrebuilt.resolve_right fun hkept => hsame hkept.2
      obtain ⟨hmem, l, hl, -, -⟩ :=
        exists_lineLiteral?_of_mem_texts hs he hnumber (List.getElem?_eq_getElem hi)
      have hliteral := lineLiteral?_of_rebuilt hs hmem hrebuilt
      rw [hl, Option.map_some, Option.map_eq_some_iff] at hliteral
      obtain ⟨l', hl', -⟩ := hliteral
      rw [Text.Lines.trim_dropReturn]
      exact Or.inr ⟨hmem, after?_trim_of_lineLiteral? hl'⟩
  rw [literals_eq_filterMap, literals_eq_filterMap, hnumbers, List.map_filterMap]
  refine List.filterMap_congr fun n hn => ?_
  obtain ⟨⟨n, line⟩, hmem, rfl⟩ := List.mem_map.1 hn
  obtain ⟨hn, hline⟩ := mem_uncommented hmem
  obtain ⟨i, rfl⟩ : ∃ i, n = i + 1 := ⟨n - 1, (Nat.sub_add_cancel hn).symm⟩
  obtain ⟨line', hline', hrebuilt⟩ := h i line hline
  have hliteral := lineLiteral?_of_rebuilt hs hmem hrebuilt
  simp only [Nat.add_sub_cancel] at hline ⊢
  rw [hline, List.getElem?_map, hline', Option.map_some, Option.bind_some, Option.bind_some,
    lineLiteral?_dropReturn, Option.map_map, Option.map_map]
  exact hliteral

theorem newline_not_mem_of_mem_lines (hs : extractScript charset file src = .ok s)
    (hline : line ∈ s.lines) : 10 ∉ line := by
  rw [lines_eq_of_extractScript hs] at hline
  obtain ⟨raw, hraw, rfl⟩ := List.mem_map.1 hline
  exact fun hmem =>
    Text.Lines.not_mem_of_mem_rawLines hraw (Text.Lines.mem_of_mem_dropReturn hmem)

/-- Nothing that is put into a line ends it. -/
theorem newline_not_mem_of_rebuilt {texts : List Extract} (hline : 10 ∉ line)
    (h : Rebuilt charset g texts i line line') : 10 ∉ line' := by
  obtain ⟨e, -, -, translated, -, -, before, inside, rest, stored, hat, -, rfl⟩ | ⟨-, rfl⟩ := h
  · rw [hat.line_eq] at hline
    have hstored : 10 ∉ stored.flatMap Script.escapeByte := Script.newline_not_mem_escape stored
    simp only [List.mem_append, List.mem_cons, Script.quote, not_or] at hline ⊢
    exact ⟨hline.1, ⟨by decide, hstored, by decide, List.not_mem_nil⟩, hline.2.2.2.2⟩
  · exact hline

/-- A script is put together with a glossary, and its lines are short enough to be read again. It
has the lines of the script but for the literals of its texts. Read again it has every literal of
the script in the same place and no other, with the localized text where the script listed the text
and the glossary knows it, and with the same text otherwise; those that hold a letter are listed. -/
theorem extractScript_rebuildScript (hsrc : src ≠ []) (hs : extractScript charset file src = .ok s)
    (hout : rebuildScript charset s g = .ok out)
    (hshort : ∀ line ∈ rawLines out, line.length < Text.Lines.limit) :
    ((rawLines out).length = s.lines.length ∧ ∀ i line, s.lines[i]? = some line →
      ∃ line', (rawLines out)[i]? = some line' ∧ Rebuilt charset g s.texts i line line') ∧
    ∃ s', extractScript charset file out = .ok s' ∧
      literals charset file s'.lines = (literals charset file s.lines).map (·.localized g) ∧
      s'.texts = (s.texts.map (·.localized g)).filter (Text.hasLetters ·.text) := by
  obtain ⟨lines', rfl, hlength, hrebuilt⟩ := rebuilt_of_rebuildScript hs hout
  have hlines : s.lines = (rawLines src).map dropReturn := lines_eq_of_extractScript hs
  have hne : lines' ≠ [] := by
    intro hnil
    rw [hnil, hlines, List.length_nil, List.length_map, eq_comm, List.length_eq_zero_iff] at hlength
    exact Text.Lines.rawLines_ne_nil hsrc hlength
  have hnewline : ∀ line' ∈ lines', 10 ∉ line' := by
    intro line' hmem
    obtain ⟨i, hi, rfl⟩ := List.mem_iff_getElem.1 hmem
    have hbound : i < s.lines.length := hlength ▸ hi
    have hline : s.lines[i]? = some s.lines[i] := List.getElem?_eq_getElem hbound
    obtain ⟨line', hline', hreb⟩ := hrebuilt i _ hline
    obtain ⟨_, rfl⟩ := List.getElem?_eq_some_iff.1 hline'
    exact newline_not_mem_of_rebuilt
      (newline_not_mem_of_mem_lines hs (List.mem_of_getElem? hline)) hreb
  rw [Bytes.joinWith_ended [10] hne] at hshort ⊢
  rw [Text.Lines.rawLines_ended hnewline] at hshort ⊢
  refine ⟨⟨hlength, hrebuilt⟩, ?_⟩
  have hread := Text.Lines.ofBytes_ended hnewline hshort
  obtain ⟨s', hs'⟩ : ∃ s', extractScript charset file (lines'.flatMap (· ++ [10])) = .ok s' :=
    ⟨_, by rw [extractScript, hread]; rfl⟩
  have hlines' : s'.lines = lines'.map dropReturn := by
    rw [lines_eq_of_extractScript hs', Text.Lines.rawLines_ended hnewline]
  have hliterals := literals_of_rebuilt hs hlength hrebuilt
  rw [← hlines'] at hliterals
  refine ⟨s', hs', hliterals, ?_⟩
  rw [(texts_eq_filter_literals hs').2, (texts_eq_filter_literals hs).2, hliterals,
    filter_map_localized]

/-- A comment over two lines, lines that end with a carriage return or without, a letter outside
ASCII, a text without letters, and an escaped quote. -/
def cafeScript : Bytes :=
  utf8 "/* body \"x\"\r\n*/\r\n\tbody \"Caf" ++ [233] ++
    utf8 "\" y\r\nchoice \"12\"\ntitle \"a\\\"b\""

theorem extractScript_rebuildScript_cafe :
    let charset := Charset.page .windows1252
    let g := Glossary.ofList [(utf8 "Café", utf8 "\"*/\"\n\\€ x"), (utf8 "12", utf8 "three")]
    ∃ s out s', extractScript charset (utf8 "s.txt") cafeScript = .ok s ∧
      rebuildScript charset s g = .ok out ∧ (rawLines out).length = s.lines.length ∧
      extractScript charset (utf8 "s.txt") out = .ok s' ∧
      s'.texts.map Extract.text = [utf8 "\"*/\"\n\\€ x", utf8 "a\"b"] := by
  intro charset g
  let s : ScriptTexts := ⟨utf8 "s.txt", [utf8 "/* body \"x\"", utf8 "*/",
    utf8 "\tbody \"Caf" ++ [233] ++ utf8 "\" y", utf8 "choice \"12\"", utf8 "title \"a\\\"b\""],
    [⟨utf8 "Café", utf8 "s.txt", .line 3 6 (utf8 "body")⟩,
      ⟨utf8 "a\"b", utf8 "s.txt", .line 5 6 (utf8 "title")⟩]⟩
  let out : Bytes := utf8 "/* body \"x\"\n*/\n\tbody \"\\\"*/\\\"\\n\\\\" ++ [128] ++
    utf8 " x\" y\nchoice \"12\"\ntitle \"a\\\"b\"\n"
  have hs : extractScript charset (utf8 "s.txt") cafeScript = .ok s := by decide +kernel
  have hout : rebuildScript charset s g = .ok out := by decide +kernel
  obtain ⟨⟨hlength, -⟩, s', hs', -, htexts⟩ :=
    extractScript_rebuildScript (by decide) hs hout (by decide +kernel)
  exact ⟨s, out, s', hs, hout, hlength, hs', by rw [htexts]; decide +kernel⟩

end Localization

end ApeScript
