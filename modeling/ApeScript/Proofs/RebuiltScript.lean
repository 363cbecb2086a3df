import ApeScript.Compile.Program
import ApeScript.Localization.ScriptText
import ApeScript.Proofs.Pieces
import ApeScript.Proofs.Respelled

/-!
# Scripts put together again

A script is cut into lines, its literals are taken out, and both are put together with localized
texts. With the texts themselves every literal is spelled as it was, as long as it has no escape
but those that writing uses. What changes is how lines end, and that the last line ends; the
compiler reads the same text unless a line ended in more than one carriage return or the last line
did not end at all.
-/

namespace ApeScript.Localization

/-! ### Literals -/

/-- The inside of a literal: every quote in it, and every backslash at all, belongs to an escape. -/
inductive LiteralInside : Bytes → Prop
  | nil : LiteralInside []
  | byte {b rest} (hquote : b ≠ 34) (hback : b ≠ 92) (h : LiteralInside rest) :
      LiteralInside (b :: rest)
  | escape {b rest} (hline : b ≠ 10) (h : LiteralInside rest) : LiteralInside (92 :: b :: rest)

def hasWrittenEscapes : Bytes → Bool
  | [] => true
  | 92 :: b :: rest => (b = 110 || b = 92 || b = 34) && hasWrittenEscapes rest
  | _ :: rest => hasWrittenEscapes rest

theorem literalFrom_eq_some {acc s inside rest : Bytes}
    (h : literalFrom acc s = some (inside, rest)) :
    ∃ t, inside = acc.reverse ++ t ∧ s = t ++ 34 :: rest ∧ LiteralInside t := by
  fun_induction literalFrom acc s with
  | case1 => cases h
  | case2 acc rest' =>
    simp only [Option.some.injEq, Prod.mk.injEq] at h
    exact ⟨[], by simp [h.1], by simp [h.2], .nil⟩
  | case3 => cases h
  | case4 acc b more hline ih =>
    obtain ⟨t, rfl, rfl, ht⟩ := ih h
    exact ⟨92 :: b :: t, by simp, by simp, .escape hline ht⟩
  | case5 => cases h
  | case6 acc b more hquote hescape hback ih =>
    obtain ⟨t, rfl, rfl, ht⟩ := ih h
    exact ⟨b :: t, by simp, by simp, .byte (by simpa using hquote) hback ht⟩

theorem literal?_eq_some {s inside rest : Bytes} (h : literal? s = some (inside, rest)) :
    s = 34 :: (inside ++ 34 :: rest) ∧ LiteralInside inside := by
  unfold literal? at h
  split at h
  · obtain ⟨t, rfl, rfl, ht⟩ := literalFrom_eq_some h
    exact ⟨rfl, ht⟩
  · cases h

theorem hasWrittenEscapes_cons {b : UInt8} (hb : b ≠ 92) (rest : Bytes) :
    hasWrittenEscapes (b :: rest) = hasWrittenEscapes rest := by
  cases rest <;> simp [hasWrittenEscapes, hb]

theorem unescapeLiteralFrom_cons {b : UInt8} (hb : b ≠ 92) (out rest : Bytes) :
    unescapeLiteralFrom out (b :: rest) = unescapeLiteralFrom (b :: out) rest := by
  cases rest <;> simp [unescapeLiteralFrom, hb]

/-- A literal is written as it was read. -/
theorem escape_unescapeLiteral {inside : Bytes} (h : LiteralInside inside) (hline : 10 ∉ inside)
    (hescapes : hasWrittenEscapes inside = true) :
    Script.escape (unescapeLiteral inside) = inside := by
  have hfrom : ∀ out, ∃ u, unescapeLiteralFrom out inside = out.reverse ++ u ∧
      Script.escape u = inside := by
    induction h with
    | nil => exact fun out => ⟨[], by simp [unescapeLiteralFrom], rfl⟩
    | @byte b rest hquote hback _ ih =>
      simp only [List.mem_cons, not_or] at hline
      rw [hasWrittenEscapes_cons hback] at hescapes
      intro out
      obtain ⟨u, hu, hrest⟩ := ih hline.2 hescapes (b :: out)
      have hplain : ¬ Script.Special b := by simp [Script.Special, hquote, hback, Ne.symm hline.1]
      refine ⟨b :: u, by rw [unescapeLiteralFrom_cons hback, hu]; simp, ?_⟩
      change Script.escapeByte b ++ Script.escape u = b :: rest
      rw [Script.escapeByte_of_not_special hplain, hrest]
      rfl
    | @escape b rest _ _ ih =>
      simp only [List.mem_cons, not_or] at hline
      simp only [hasWrittenEscapes, Bool.and_eq_true] at hescapes
      intro out
      obtain ⟨c, hc, hspelled⟩ : ∃ c, literalEscape b = [c] ∧ Script.escapeByte c = [92, b] := by
        have hb : (b = 110 ∨ b = 92) ∨ b = 34 := by simpa using hescapes.1
        obtain (rfl | rfl) | rfl := hb
        · exact ⟨10, by decide, by decide⟩
        · exact ⟨92, by decide, by decide⟩
        · exact ⟨34, by decide, by decide⟩
      obtain ⟨u, hu, hrest⟩ := ih hline.2.2 hescapes.2 (c :: out)
      refine ⟨c :: u, by simpa [unescapeLiteralFrom, hc] using hu, ?_⟩
      change Script.escapeByte c ++ Script.escape u = 92 :: b :: rest
      rw [hspelled, hrest]
      rfl
  obtain ⟨u, hu, hspelled⟩ := hfrom []
  rw [unescapeLiteral, hu]
  exact hspelled

/-! ### The texts of a script -/

variable {charset : Charset} {file src : Bytes} {s : ScriptTexts} {g : Glossary} {e : Extract}

structure StandsIn (line : Bytes) (e : Extract) (inside rest : Bytes) : Prop where
  column_le : e.place.column ≤ line.length
  literal_eq : literal? (line.drop e.place.column) = some (inside, rest)
  text_eq : e.text = unescapeLiteral inside

theorem exists_of_textDirective? {line directive rest : Bytes} {stop : Nat}
    (h : textDirective? line = some (directive, stop, rest)) :
    stop ≤ line.length ∧ line.drop stop = rest := by
  simp only [textDirective?, Option.ite_none_right_eq_some, Option.some.injEq,
    Prod.mk.injEq] at h
  obtain ⟨-, -, rfl, rfl⟩ := h
  have hblanks : (line.takeWhile isLineBlank).length ≤ line.length :=
    (List.takeWhile_prefix _).length_le
  have hword := (List.takeWhile_prefix isWordByte
    (l := line.drop (line.takeWhile isLineBlank).length)).length_le
  rw [List.length_drop] at hword
  exact ⟨by omega, List.drop_drop.symm⟩

theorem standsIn_of_lineText? {number : Nat} {line : Bytes}
    (h : lineText? .raw file number line = some e) :
    e.place.lineNumber = number ∧ ∃ inside rest, StandsIn line e inside rest := by
  simp only [lineText?, Option.bind_eq_bind, Option.bind_eq_some_iff] at h
  obtain ⟨⟨directive, stop, rest⟩, hdirective, ⟨inside, after⟩, hliteral, h⟩ := h
  obtain ⟨hstop, hrest⟩ := exists_of_textDirective? hdirective
  simp only [Option.ite_none_right_eq_some, Option.some.injEq] at h
  obtain ⟨-, rfl⟩ := h
  have hbetween : (rest.takeWhile (· ≠ 34)).length ≤ rest.length :=
    (List.takeWhile_prefix _).length_le
  rw [← hrest, List.length_drop, hrest] at hbetween
  refine ⟨rfl, inside, after, ?_, ?_, rfl⟩
  · change stop + (rest.takeWhile (· ≠ 34)).length ≤ line.length
    omega
  · change literal? (line.drop (stop + (rest.takeWhile (· ≠ 34)).length)) = some (inside, after)
    rw [← List.drop_drop, hrest]
    exact hliteral

theorem exists_of_mem_textsFrom {found : List Extract} {inComment : Bool} {number : Nat}
    {lines : List Bytes} (h : e ∈ textsFrom charset file found inComment number lines) :
    e ∈ found ∨ ∃ i line, lines[i]? = some line ∧
      lineText? charset file (number + i) line = some e := by
  induction lines generalizing found inComment number with
  | nil =>
    cases inComment <;> exact Or.inl (List.mem_reverse.1 h)
  | cons line lines ih =>
    have hlater {found' : List Extract} {inComment' : Bool}
        (h : e ∈ textsFrom charset file found' inComment' (number + 1) lines) :
        e ∈ found' ∨ ∃ i line', (line :: lines)[i]? = some line' ∧
          lineText? charset file (number + i) line' = some e := by
      refine (ih h).imp_right fun ⟨i, line', hi, hline⟩ => ⟨i + 1, line', by simpa using hi, ?_⟩
      rw [← hline]
      congr 1
      omega
    cases inComment with
    | true => exact hlater h
    | false =>
      rw [textsFrom] at h
      cases hopen : Bytes.after? (utf8 "/*") (Text.trim line) with
      | some opened =>
        rw [hopen] at h
        exact hlater h
      | none =>
        rw [hopen] at h
        refine (hlater h).elim (fun hmem => ?_) Or.inr
        refine (List.mem_append.1 hmem).elim (fun hfound => ?_) Or.inl
        exact Or.inr ⟨0, line, rfl, by simpa using hfound⟩

theorem extractScript_ok (hs : extractScript charset file src = .ok s) :
    (Text.Lines.ofBytes src).overlong = false ∧
      s = ⟨file, (Text.Lines.ofBytes src).lines,
        textsFrom charset file [] false 1 (Text.Lines.ofBytes src).lines⟩ := by
  rw [extractScript] at hs
  by_cases hlong : (Text.Lines.ofBytes src).overlong = true
  · simp [hlong] at hs
  · simp only [hlong, Bool.false_eq_true, if_false, Except.ok.injEq] at hs
    exact ⟨Bool.eq_false_iff.2 hlong, hs.symm⟩

/-- Every text stands in the line that its place names. -/
theorem exists_standsIn (hs : extractScript .raw file src = .ok s) (he : e ∈ s.texts) :
    ∃ line inside rest, s.lines[e.place.lineNumber - 1]? = some line ∧
      StandsIn line e inside rest := by
  obtain ⟨-, rfl⟩ := extractScript_ok hs
  obtain ⟨i, line, hi, hline⟩ := (exists_of_mem_textsFrom he).resolve_left (by simp)
  obtain ⟨hnumber, inside, rest, hstands⟩ := standsIn_of_lineText? hline
  refine ⟨line, inside, rest, ?_, hstands⟩
  rw [hnumber, Nat.add_sub_cancel_left]
  exact hi

/-- Every literal that holds a text has only escapes that writing uses. -/
def ScriptTexts.WrittenEscapes (s : ScriptTexts) : Prop :=
  ∀ e ∈ s.texts, ∀ line inside rest, s.lines[e.place.lineNumber - 1]? = some line →
    StandsIn line e inside rest → hasWrittenEscapes inside = true

/-- A line with its text in the place of its text is the line. -/
theorem translateLine_self (place : Bytes) {line inside rest : Bytes}
    (h : StandsIn line e inside rest) (hline : 10 ∉ line)
    (hescapes : hasWrittenEscapes inside = true) :
    translateLine .raw place e.place.column e.text e.text line = .ok line := by
  obtain ⟨hdrop, hinside⟩ := literal?_eq_some h.literal_eq
  have hend : 10 ∉ inside := by
    intro hmem
    apply hline
    apply List.mem_of_mem_drop
    rw [hdrop]
    simp [hmem]
  have hquote : Script.quote e.text = 34 :: (inside ++ [34]) := by
    have hescape := escape_unescapeLiteral hinside hend hescapes
    rw [Script.escape, ← h.text_eq] at hescape
    rw [Script.quote, hescape]
  have hverify : verify e.text e.text = .ok () := if_pos rfl
  have hsame : line.take e.place.column ++ Script.quote e.text ++ rest = line := by
    rw [hquote]
    conv_rhs => rw [← List.take_append_drop e.place.column line, hdrop]
    simp
  simp only [translateLine, hverify, Nat.not_lt.2 h.column_le, h.literal_eq, Charset.encode]
  exact congrArg Except.ok hsame

theorem foldlM_self {α β ε : Type} {step : β → α → Except ε β} {l : List α} {b : β}
    (h : ∀ a ∈ l, step b a = .ok b) : l.foldlM step b = .ok b := by
  induction l with
  | nil => rfl
  | cons a l ih =>
    rw [List.foldlM_cons, h a List.mem_cons_self]
    exact ih fun x hx => h x (List.mem_cons_of_mem _ hx)

/-- With every text in its own place the lines are put together as they are. -/
theorem rebuildScript_self (hs : extractScript .raw file src = .ok s)
    (hlines : ∀ line ∈ s.lines, 10 ∉ line) (hg : ∀ e ∈ s.texts, g.get? e.text = some e.text)
    (hescapes : s.WrittenEscapes) :
    rebuildScript .raw s g = .ok (Bytes.joinWith [10] s.lines ++ [10]) := by
  have hfold : s.texts.foldlM (translateText .raw g s.file) s.lines = .ok s.lines := by
    apply foldlM_self
    intro e he
    obtain ⟨line, inside, rest, hline, hstands⟩ := exists_standsIn hs he
    have hsame := translateLine_self (s.file ++ utf8 " line " ++ Bytes.ofNat e.place.lineNumber)
      hstands (hlines line (List.mem_of_getElem? hline))
      (hescapes e he line inside rest hline hstands)
    have hset : s.lines.set (e.place.lineNumber - 1) line = s.lines := by
      obtain ⟨hi, rfl⟩ := List.getElem?_eq_some_iff.1 hline
      exact List.set_getElem_self hi
    simp only [translateText, hline, hg e he, hsame]
    exact congrArg Except.ok hset
  rw [rebuildScript, hfold]
  rfl

end ApeScript.Localization

/-! ### Line ends -/

namespace ApeScript

open Preprocess (normalizeNewlines)

theorem normalizeNewlines_cons (b : UInt8) (s : Bytes) : normalizeNewlines (b :: s) =
    if b = 13 then (if s.head? = some 10 then normalizeNewlines s else 10 :: normalizeNewlines s)
    else b :: normalizeNewlines s := by
  cases s with
  | nil => by_cases hb : b = 13 <;> simp [normalizeNewlines, hb]
  | cons c s =>
    by_cases hb : b = 13
    · by_cases hc : c = 10 <;> simp [normalizeNewlines, hb, hc]
    · simp [normalizeNewlines, hb]

/-- What precedes a line end is read on its own. -/
theorem normalizeNewlines_append_newline (l t : Bytes) :
    normalizeNewlines (l ++ 10 :: t) = normalizeNewlines (l ++ [10]) ++ normalizeNewlines t := by
  induction l with
  | nil => rw [List.nil_append, List.nil_append, normalizeNewlines_cons]; rfl
  | cons b l ih =>
    have hhead : (l ++ 10 :: t).head? = (l ++ [10]).head? := by cases l <;> rfl
    rw [List.cons_append, List.cons_append, normalizeNewlines_cons, normalizeNewlines_cons, hhead,
      ih]
    by_cases hb : b = 13
    · by_cases hnext : (l ++ [10]).head? = some 10
      · simp only [if_pos hb, if_pos hnext]
      · simp only [if_pos hb, if_neg hnext, List.cons_append]
    · simp only [if_neg hb, List.cons_append]

/-- Of what follows a text, only its first byte matters for how the text is read. -/
theorem normalizeNewlines_append_congr {t u : Bytes} (hhead : t.head? = u.head?)
    (h : normalizeNewlines t = normalizeNewlines u) (l : Bytes) :
    normalizeNewlines (l ++ t) = normalizeNewlines (l ++ u) := by
  induction l with
  | nil => exact h
  | cons b l ih =>
    have hnext : (l ++ t).head? = (l ++ u).head? := by simp [hhead]
    rw [List.cons_append, List.cons_append, normalizeNewlines_cons, normalizeNewlines_cons, hnext,
      ih]

/-- A text that ends with a carriage return has its last line ended. -/
theorem normalizeNewlines_ended (l : Bytes) :
    normalizeNewlines (l ++ [13, 10]) = normalizeNewlines (l ++ [13]) := by
  apply normalizeNewlines_append_congr
  · rfl
  · rfl

/-- One carriage return at the end of a line does not show. -/
theorem normalizeNewlines_return {l : Bytes} (h : l.getLast? ≠ some 13) :
    normalizeNewlines (l ++ [13, 10]) = normalizeNewlines (l ++ [10]) := by
  cases l using List.reverseRecOn with
  | nil => rfl
  | append_singleton front b =>
    have hb : b ≠ 13 := by simpa using h
    rw [List.append_assoc, List.append_assoc]
    apply normalizeNewlines_append_congr
    · rfl
    · rw [List.singleton_append, List.singleton_append, normalizeNewlines_cons b [13, 10],
        normalizeNewlines_cons b [10], if_neg hb, if_neg hb]
      rfl

theorem normalizeNewlines_dropReturn {l : Bytes}
    (h : (Text.Lines.dropReturn l).getLast? ≠ some 13) :
    normalizeNewlines (Text.Lines.dropReturn l ++ [10]) = normalizeNewlines (l ++ [10]) := by
  unfold Text.Lines.dropReturn at h ⊢
  by_cases hlast : l.getLast? = some 13
  · rw [if_pos hlast] at h ⊢
    obtain ⟨front, rfl⟩ := List.getLast?_eq_some_iff.1 hlast
    rw [List.dropLast_concat] at h ⊢
    rw [List.append_assoc, ← normalizeNewlines_return h]
    rfl
  · rw [if_neg hlast]

theorem normalizeNewlines_lines {lines : List Bytes}
    (h : ∀ line ∈ lines.map Text.Lines.dropReturn, line.getLast? ≠ some 13) :
    normalizeNewlines ((lines.map Text.Lines.dropReturn).flatMap (· ++ [10])) =
      normalizeNewlines (lines.flatMap (· ++ [10])) := by
  induction lines with
  | nil => rfl
  | cons line lines ih =>
    rw [List.map_cons, List.forall_mem_cons] at h
    rw [List.map_cons, List.flatMap_cons, List.flatMap_cons, List.append_assoc, List.append_assoc,
      List.singleton_append, List.singleton_append, normalizeNewlines_append_newline,
      normalizeNewlines_append_newline line, normalizeNewlines_dropReturn h.1, ih h.2]

def endLastLine (src : Bytes) : Bytes :=
  if src.getLast? = some 10 ∨ src.getLast? = some 13 then src else src ++ [10]

theorem normalizeNewlines_joinWith {src : Bytes}
    (h : ∀ line ∈ (Text.Lines.rawLines src).map Text.Lines.dropReturn, line.getLast? ≠ some 13) :
    normalizeNewlines
        (Bytes.joinWith [10] ((Text.Lines.rawLines src).map Text.Lines.dropReturn) ++ [10]) =
      normalizeNewlines (endLastLine src) := by
  by_cases hsrc : src = []
  · subst hsrc
    rfl
  have hraw := Text.Lines.flatMap_rawLines hsrc
  have hne : (Text.Lines.rawLines src).map Text.Lines.dropReturn ≠ [] := by
    intro hnil
    rw [List.map_eq_nil_iff.1 hnil] at hraw
    split at hraw
    · exact hsrc hraw.symm
    · simp at hraw
  rw [Bytes.joinWith_ended [10] hne, normalizeNewlines_lines h, hraw, endLastLine]
  by_cases hnewline : src.getLast? = some 10
  · rw [if_pos hnewline, if_pos (Or.inl hnewline)]
  by_cases hreturn : src.getLast? = some 13
  · obtain ⟨front, rfl⟩ := List.getLast?_eq_some_iff.1 hreturn
    rw [if_neg hnewline, if_pos (Or.inr hreturn), List.append_assoc]
    exact normalizeNewlines_ended front
  · rw [if_neg hnewline, if_neg (not_or.2 ⟨hnewline, hreturn⟩)]

/-- Scripts with the same lines compile to the same outcome, whatever ends their lines. -/
theorem compile_congr {a b : Bytes} (h : normalizeNewlines a = normalizeNewlines b)
    (o : Options) : compile a o = compile b o := by
  simp only [compile, prepareSource, h]

namespace Localization

theorem lines_eq_of_extractScript {charset : Charset} {file src : Bytes} {s : ScriptTexts}
    (hs : extractScript charset file src = .ok s) :
    s.lines = (Text.Lines.rawLines src).map Text.Lines.dropReturn := by
  obtain ⟨hlong, rfl⟩ := extractScript_ok hs
  have hshort : (Text.Lines.rawLines src).takeWhile (fun line => line.length < Text.Lines.limit) =
      Text.Lines.rawLines src := by
    apply (List.takeWhile_prefix _).eq_of_length_le
    simpa [Text.Lines.ofBytes] using hlong
  exact congrArg (List.map Text.Lines.dropReturn) hshort

/-- A script that is put together with its own texts compiles as the script does once its last line
is ended, under any options. The literals with texts have to spell their escapes as writing does,
and no line may end in more than one carriage return. -/
theorem compile_rebuildScript {file src : Bytes} {s : ScriptTexts} {g : Glossary}
    (hs : extractScript .raw file src = .ok s) (hg : ∀ e ∈ s.texts, g.get? e.text = some e.text)
    (hescapes : s.WrittenEscapes) (hreturns : ∀ line ∈ s.lines, line.getLast? ≠ some 13) :
    ∃ out, rebuildScript .raw s g = .ok out ∧
      (∀ o, compile out o = compile (endLastLine src) o) ∧
      (src.getLast? = some 10 ∨ src.getLast? = some 13 → ∀ o, compile out o = compile src o) := by
  have hlines := lines_eq_of_extractScript hs
  have hnewlines : ∀ line ∈ s.lines, 10 ∉ line := by
    intro line hline hmem
    rw [hlines] at hline
    obtain ⟨raw, hraw, rfl⟩ := List.mem_map.1 hline
    exact Text.Lines.not_mem_of_mem_rawLines hraw (Text.Lines.mem_of_mem_dropReturn hmem)
  have hsame : normalizeNewlines (Bytes.joinWith [10] s.lines ++ [10]) =
      normalizeNewlines (endLastLine src) := by
    rw [hlines] at hreturns ⊢
    exact normalizeNewlines_joinWith hreturns
  refine ⟨_, rebuildScript_self hs hnewlines hg hescapes, compile_congr hsame, fun hend o => ?_⟩
  rw [compile_congr hsame, endLastLine, if_pos hend]

def escapedBody : Bytes := utf8 "#window 0:1\r\nbody \"a \\\"b\\\"\\n\\\\\"\r\n"

theorem compile_rebuildScript_escapedBody :
    ∃ s out, extractScript .raw (utf8 "s.txt") escapedBody = .ok s ∧
      s.texts.map Extract.text = [utf8 "a \"b\"\n\\"] ∧
      rebuildScript .raw s (.ofList [(utf8 "a \"b\"\n\\", utf8 "a \"b\"\n\\")]) = .ok out ∧
      ∀ o, compile out o = compile escapedBody o := by
  let line := utf8 "body \"a \\\"b\\\"\\n\\\\\""
  let s : ScriptTexts := ⟨utf8 "s.txt", [utf8 "#window 0:1", line],
    [⟨utf8 "a \"b\"\n\\", utf8 "s.txt", .line 2 5 (utf8 "body")⟩]⟩
  have hs : extractScript .raw (utf8 "s.txt") escapedBody = .ok s := by decide +kernel
  have hescapes : s.WrittenEscapes := by
    intro e he line' inside rest hline hstands
    obtain rfl := List.mem_singleton.1 he
    obtain rfl : line = line' := Option.some.inj hline
    have hliteral : literal? (line.drop 5) = some (utf8 "a \\\"b\\\"\\n\\\\", []) := by decide
    obtain ⟨rfl, -⟩ := Prod.mk.inj (Option.some.inj (hliteral.symm.trans hstands.literal_eq))
    decide
  obtain ⟨out, hout, -, hsame⟩ := compile_rebuildScript
    (g := .ofList [(utf8 "a \"b\"\n\\", utf8 "a \"b\"\n\\")]) hs (by decide) hescapes (by decide)
  exact ⟨s, out, hs, rfl, hout, hsame (Or.inl (by decide))⟩

def bodyFile (text : Bytes) : File where
  windows := [⟨1, [.formattedText CommandCode.body none text [], .flags WindowFlags.noBackground,
    .dimensions ⟨none, none, none, none⟩]⟩]
  switches := []

/-- A tab that is spelled as an escape becomes a backslash and a letter. -/
theorem compile_rebuildScript_tab :
    ∃ s out, extractScript .raw (utf8 "s.txt") (utf8 "#window 0:1\nbody \"a\\tb\"\n") = .ok s ∧
      s.texts.map Extract.text = [utf8 "a\\tb"] ∧
      rebuildScript .raw s (.ofList [(utf8 "a\\tb", utf8 "a\\tb")]) = .ok out ∧
      (compile (utf8 "#window 0:1\nbody \"a\\tb\"\n") {}).result = .ok (bodyFile [97, 9, 98]) ∧
      (compile out {}).result = .ok (bodyFile [97, 92, 116, 98]) :=
  ⟨_, utf8 "#window 0:1\nbody \"a\\\\tb\"\n", rfl, by decide +kernel, by decide +kernel, by cbv,
    by cbv⟩

/-- Of two carriage returns before a newline one is lost, and with it a blank. -/
theorem compile_rebuildScript_returns :
    ∃ s out, extractScript .raw (utf8 "s.txt") (utf8 "#window 0:1\nbody \"a\r\r\nb\"\n") = .ok s ∧
      rebuildScript .raw s .empty = .ok out ∧
      (compile (utf8 "#window 0:1\nbody \"a\r\r\nb\"\n") {}).result =
        .ok (bodyFile [97, 32, 32, 98]) ∧
      (compile out {}).result = .ok (bodyFile [97, 32, 98]) :=
  ⟨_, utf8 "#window 0:1\nbody \"a\r\nb\"\n", rfl, by decide +kernel, by cbv, by cbv⟩

/-- The end of a line is a blank in a body without text; the end of a script is not. -/
theorem compile_rebuildScript_unended :
    ∃ s out, extractScript .raw (utf8 "s.txt") (utf8 "#window 0:1\nbody") = .ok s ∧
      rebuildScript .raw s .empty = .ok out ∧
      (compile (utf8 "#window 0:1\nbody") {}).result = .ok (bodyFile []) ∧
      (compile out {}).result = .ok (bodyFile [32]) :=
  ⟨_, utf8 "#window 0:1\nbody\n", rfl, by decide +kernel, by cbv, by cbv⟩

end Localization

end ApeScript
