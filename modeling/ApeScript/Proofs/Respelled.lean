import ApeScript.Proofs.WindowScript
import ApeScript.Script.Writer

/-!
# Formatting strings in written scripts

String literals are read in two ways: the text of a directive with its escapes decoded, formatting
strings as they stand. Both are written with escapes. So a text comes back as it was, while every
backslash of a formatting string is doubled when the script is written and compiled again.
-/

namespace ApeScript

/-! ### Literals -/

namespace Script

def escape (s : Bytes) : Bytes := s.flatMap escapeByte

def Special (b : UInt8) : Prop := b = 10 ∨ b = 92 ∨ b = 34

instance (b : UInt8) : Decidable (Special b) := inferInstanceAs (Decidable (_ ∨ _))

theorem escapeByte_of_not_special {b : UInt8} (h : ¬ Special b) : escapeByte b = [b] := by
  simp only [Special, not_or] at h
  simp [escapeByte, h]

/-- An escaped byte is written as a backslash and a byte that stands for it. -/
theorem escapeByte_of_special {b : UInt8} (h : Special b) :
    ∃ c, escapeByte b = [92, c] ∧ Escape.resolve? c = some b := by
  rcases h with rfl | rfl | rfl
  · exact ⟨110, rfl, rfl⟩
  · exact ⟨92, rfl, rfl⟩
  · exact ⟨34, rfl, rfl⟩

theorem unescape_escape (newlineToSpace : Bool) (s : Bytes) :
    Escape.unescape true newlineToSpace (escape s) = .ok s := by
  induction s with
  | nil => rfl
  | cons b s ih =>
    change Escape.unescape true newlineToSpace (escapeByte b ++ escape s) = .ok (b :: s)
    by_cases hspecial : Special b
    · obtain ⟨c, hb, hc⟩ := escapeByte_of_special hspecial
      simp [hb, Escape.unescape, hc, ih, Except.map]
    · rw [escapeByte_of_not_special hspecial, List.singleton_append, Escape.unescape.eq_def]
      simp only [Special, not_or] at hspecial
      simp [hspecial, ih, Except.map]

theorem length_le_length_escape (s : Bytes) : s.length ≤ (escape s).length := by
  induction s with
  | nil => rfl
  | cons b s ih =>
    change s.length + 1 ≤ (escapeByte b ++ escape s).length
    by_cases hspecial : Special b
    · obtain ⟨c, hb, -⟩ := escapeByte_of_special hspecial
      simpa [hb] using Nat.le_succ_of_le ih
    · simpa [escapeByte_of_not_special hspecial] using ih

/-- A string is written as it is if no byte has to be escaped, and not otherwise. -/
theorem escape_eq_self_iff (s : Bytes) : escape s = s ↔ ∀ b ∈ s, ¬ Special b := by
  induction s with
  | nil => simp [escape]
  | cons b s ih =>
    change escapeByte b ++ escape s = b :: s ↔ _
    by_cases hspecial : Special b
    · -- an escape makes the string longer, and nothing after it makes up for that
      obtain ⟨c, hb, -⟩ := escapeByte_of_special hspecial
      refine ⟨fun h => ?_, fun h => absurd hspecial (h b List.mem_cons_self)⟩
      have hlength := congrArg List.length h
      have hle := length_le_length_escape s
      simp only [hb, List.length_append, List.length_cons, List.length_nil] at hlength
      omega
    · simp [escapeByte_of_not_special hspecial, ih, hspecial]

/-- Escaping brings no bytes into a string but backslashes and letters. -/
theorem mem_of_mem_escape {b : UInt8} {s : Bytes} (h : b ∈ escape s) (h92 : b ≠ 92)
    (h110 : b ≠ 110) : b ∈ s := by
  obtain ⟨a, ha, hb⟩ := List.mem_flatMap.1 h
  have hab : b = a := by
    unfold escapeByte at hb
    split_ifs at hb with h10 h92' h34
    · simp_all [show utf8 "\\n" = [92, 110] from rfl]
    · simp_all [show utf8 "\\\\" = [92, 92] from rfl]
    · simp_all [show utf8 "\\\"" = [92, 34] from rfl]
    · exact List.mem_singleton.1 hb
  exact hab ▸ ha

/-- A newline is written as an escape. -/
theorem newline_not_mem_escape (s : Bytes) : 10 ∉ escape s := by
  intro h
  obtain ⟨a, -, hmem⟩ := List.mem_flatMap.1 h
  by_cases hspecial : Special a
  · rcases hspecial with rfl | rfl | rfl <;> exact absurd hmem (by decide)
  · rw [escapeByte_of_not_special hspecial, List.mem_singleton] at hmem
    exact hspecial (Or.inl hmem.symm)

/-- A string that can stand between quotes as it is. -/
structure Plain (s : Bytes) : Prop where
  quote : 34 ∉ s
  newline : 10 ∉ s

theorem Plain.escape {s : Bytes} (hs : Plain s) : Plain (escape s) where
  quote h := hs.quote (mem_of_mem_escape h (by decide) (by decide))
  newline := newline_not_mem_escape s

theorem Plain.escape_eq_self_iff {s : Bytes} (hs : Plain s) : Script.escape s = s ↔ 92 ∉ s := by
  rw [Script.escape_eq_self_iff]
  constructor
  · intro h hmem
    exact h 92 hmem (Or.inr (Or.inl rfl))
  · rintro h b hb (rfl | rfl | rfl)
    · exact hs.newline hb
    · exact h hb
    · exact hs.quote hb

end Script

namespace Scan

variable {flags : ReadFlags} {size : Nat} {rest : Bytes}

/-- A literal with escapes ends at its own quote. -/
theorem quotedFrom_escape (hescapes : flags.ignoreEscapes = false) (s : Bytes) :
    quotedFrom flags size (Script.escape s ++ 34 :: rest) =
      .done (size + (Script.escape s).length + 1) := by
  induction s generalizing size with
  | nil => simp [Script.escape, quotedFrom.eq_def]
  | cons b s ih =>
    change quotedFrom flags size ((Script.escapeByte b ++ Script.escape s) ++ 34 :: rest) =
      .done (size + (Script.escapeByte b ++ Script.escape s).length + 1)
    by_cases hspecial : Script.Special b
    · obtain ⟨c, hb, -⟩ := Script.escapeByte_of_special hspecial
      simp [hb, quotedFrom, hescapes, ih]
      omega
    · rw [Script.escapeByte_of_not_special hspecial, List.singleton_append, List.cons_append,
        quotedFrom.eq_def]
      simp only [Script.Special, not_or] at hspecial
      simp [hspecial, ih]
      omega

/-- A string without quotes and newlines ends at the first quote after it. -/
theorem quotedFrom_plain (hescapes : flags.ignoreEscapes = true) {s : Bytes} (h34 : 34 ∉ s)
    (h10 : 10 ∉ s) : quotedFrom flags size (s ++ 34 :: rest) = .done (size + s.length + 1) := by
  induction s generalizing size with
  | nil => simp [quotedFrom.eq_def]
  | cons b s ih =>
    have hb34 : b ≠ 34 := (List.ne_of_not_mem_cons h34).symm
    have hb10 : b ≠ 10 := (List.ne_of_not_mem_cons h10).symm
    rw [List.cons_append, quotedFrom.eq_def]
    simp [hb10, hb34, hescapes, ih (List.not_mem_of_not_mem_cons h34)
      (List.not_mem_of_not_mem_cons h10)]
    omega

end Scan

theorem Token.unquoted_of_text {t : Token} {s : Bytes} (h : t.text = 34 :: (s ++ [34])) :
    t.unquoted = s := by
  simp [Token.unquoted, h]

namespace Lexer

variable {rest : Bytes}

/-- A literal after a blank is one token, if the scan of it ends at its closing quote. -/
theorem first?_literal (mode : ReadMode) (flags : ReadFlags) {body : Bytes} (hmode : mode ≠ .raw)
    (h : Scan.quotedFrom flags 1 (body ++ 34 :: rest) = .done (1 + body.length + 1)) :
    first? mode flags (32 :: 34 :: (body ++ 34 :: rest)) =
      some ((.string, 34 :: (body ++ [34])), rest) := by
  have hcut : cut? .string (34 :: (body ++ 34 :: rest))
      (Scan.quotedFrom flags 1 (body ++ 34 :: rest)) =
        some ((.string, 34 :: (body ++ [34])), rest) := by
    have htext : 34 :: (body ++ 34 :: rest) = (34 :: (body ++ [34])) ++ rest := by simp
    have hsize : 1 + body.length + 1 = (34 :: (body ++ [34])).length := by simp; omega
    rw [h, cut?, htext, hsize, List.take_left, List.drop_left]
  cases mode with
  | raw => exact absurd rfl hmode
  | quoted => exact hcut
  | normal => exact hcut

end Lexer

/-! ### A body with formatting strings -/

def spelled (strings : List Bytes) : Bytes :=
  strings.flatMap fun s => 44 :: 32 :: 34 :: (s ++ [34])

def stringValues (strings : List Bytes) : List FormatValue :=
  strings.map fun s => ⟨FormatType.string.code, .quoted s⟩

def bodyScript (text : Bytes) (strings : List Bytes) : Bytes :=
  utf8 "#window 1:1\nbody " ++ (Script.quote text ++ (spelled strings ++ [10, 10]))

def bodyDraft (text : Bytes) (strings : List Bytes) : WindowDraft :=
  { bodies := [.formattedText CommandCode.body none text (stringValues strings)] }

def bodyWindow (text : Bytes) (strings : List Bytes) : Window where
  id := 10001
  commands := [.formattedText CommandCode.body none text (stringValues strings),
    .flags WindowFlags.noBackground, .dimensions ⟨none, none, none, none⟩]

theorem commands_bodyDraft (text : Bytes) (strings : List Bytes) :
    (bodyDraft text strings).commands = (bodyWindow text strings).commands := by
  have hflags : (bodyDraft text strings).storedFlags = WindowFlags.noBackground := by
    simp [WindowDraft.storedFlags, bodyDraft]
  have hcorners : (bodyDraft text strings).corners = ⟨0, 0, 0, 0⟩ := rfl
  rw [WindowDraft.commands, hflags, if_neg (by decide), if_pos hcorners]
  rfl

namespace Compiler

open Lexer

variable {c : CompileContext} {rest : Bytes}

theorem reads_parseFormatValue {s : Bytes} (hs : Script.Plain s) :
    Reads parseFormatValue c ⟨[], 32 :: 34 :: (s ++ 34 :: rest)⟩ ⟨[], rest⟩
      (· = ⟨FormatType.string.code, .quoted s⟩) := by
  have hscan : Scan.quotedFrom { ignoreEscapes := true } 1 (s ++ 34 :: rest) =
      .done (1 + s.length + 1) := Scan.quotedFrom_plain rfl hs.quote hs.newline
  have hfirst := first?_literal .normal _ nofun hscan
  refine .bind (.lift (succeeds_read hfirst)) fun token ht => ?_
  have htype : token.type = .string := congrArg Prod.fst ht
  have htext : token.text = 34 :: (s ++ [34]) := congrArg Prod.snd ht
  unfold formatValueOfToken
  rw [htype, Token.unquoted_of_text htext]
  exact .pure rfl

def parseFormatRound (values : List FormatValue) :
    Compiler (List FormatValue ⊕ List FormatValue) := do
  let token ← Lexer.peekNormal
  if token.type ≠ .comma then return .inr values
  Lexer.consume
  return .inl (values ++ [← parseFormatValue])

theorem parseFormatList_eq : parseFormatList = repeatFrom [] parseFormatRound := rfl

theorem reads_parseFormatRound_comma {s : Bytes} (hs : Script.Plain s) (values : List FormatValue) :
    Reads (parseFormatRound values) c ⟨[], 44 :: 32 :: 34 :: (s ++ 34 :: rest)⟩ ⟨[], rest⟩
      (· = .inl (values ++ [⟨FormatType.string.code, .quoted s⟩])) := by
  refine .bind (.lift (succeeds_peek rfl)) fun token ht => ?_
  have htype : token.type = .comma := congrArg Prod.fst ht
  rw [if_neg (not_not.2 htype)]
  refine .bind (.lift succeeds_consume) fun _ _ => .bind (reads_parseFormatValue hs) ?_
  rintro _ rfl
  exact .pure rfl

theorem reads_parseFormatRound_line (values : List FormatValue) :
    Reads (parseFormatRound values) c ⟨[], 10 :: rest⟩ ⟨[(.endOfLine, [10])], rest⟩
      (· = .inr values) := by
  refine .bind (.lift (succeeds_peek rfl)) fun token ht => ?_
  have htype : token.type = .endOfLine := congrArg Prod.fst ht
  rw [if_pos (by simp [htype])]
  exact .pure rfl

/-- The formatting strings up to the end of the line. -/
theorem reads_parseFormatList {strings : List Bytes} (h : ∀ s ∈ strings, Script.Plain s) :
    Reads parseFormatList c ⟨[], spelled strings ++ 10 :: rest⟩ ⟨[(.endOfLine, [10])], rest⟩
      (· = stringValues strings) := by
  rw [parseFormatList_eq, ← List.nil_append (stringValues strings)]
  refine .repeatFrom ?_
  generalize ([] : List FormatValue) = values
  induction strings generalizing values with
  | nil =>
    rw [stringValues, List.map_nil, List.append_nil]
    exact .stop (reads_parseFormatRound_line values)
  | cons s strings ih =>
    have hrest := ih (fun s hs => h s (List.mem_cons_of_mem _ hs))
      (values ++ [⟨FormatType.string.code, .quoted s⟩])
    have hspelled : spelled (s :: strings) ++ 10 :: rest =
        44 :: 32 :: 34 :: (s ++ 34 :: (spelled strings ++ 10 :: rest)) := by
      simp [spelled]
    rw [hspelled]
    refine .goOn (reads_parseFormatRound_comma (h s List.mem_cons_self) values) ?_ ?_
    · left
      simp [Spot.remaining]
      omega
    · simpa [stringValues] using hrest

variable {text : Bytes} {strings : List Bytes}

theorem reads_parseText : Reads parseText c ⟨[], 32 :: (Script.quote text ++ rest)⟩ ⟨[], rest⟩
    (· = text) := by
  have hscan : Scan.quotedFrom { allowNewline := true } 1 (Script.escape text ++ 34 :: rest) =
      .done (1 + (Script.escape text).length + 1) := Scan.quotedFrom_escape rfl text
  have hfirst := first?_literal .quoted _ nofun hscan
  have hquote : 32 :: (Script.quote text ++ rest) =
      32 :: 34 :: (Script.escape text ++ 34 :: rest) := by
    simp [Script.quote, Script.escape]
  rw [hquote]
  refine .bind (.lift (succeeds_read hfirst)) fun token ht => ?_
  have htext : token.text = 34 :: (Script.escape text ++ [34]) := congrArg Prod.snd ht
  rw [stringValue, Token.unquoted_of_text htext]
  exact .located (Script.unescape_escape true text)

/-- The command of a body outside all conditions. -/
theorem reads_parseFormattedText (hstrings : ∀ s ∈ strings, Script.Plain s) (code : UInt8) :
    Reads (parseFormattedText {} code) c
      ⟨[], 32 :: (Script.quote text ++ (spelled strings ++ 10 :: rest))⟩
      ⟨[(.endOfLine, [10])], rest⟩
      (· = [.formattedText code none text (stringValues strings)]) := by
  refine .bind (P := (· = (none, true))) (.pure rfl) ?_
  rintro _ rfl
  refine .bind reads_parseText ?_
  rintro _ rfl
  refine .bind (reads_parseFormatList hstrings) ?_
  rintro _ rfl
  exact .pure rfl

theorem rounds_body (hstrings : ∀ s ∈ strings, Script.Plain s) :
    Rounds parseWindowRound c (utf8 "body" ++ 32 :: (Script.quote text ++ spelled strings) ++ [10])
      {} (bodyDraft text strings) := by
  refine rounds_directive ⟨rfl, rfl⟩ ⟨rfl, rfl⟩ rfl
    (fun _ => return { bodies := [] ++ (← parseFormattedText {} CommandCode.body) })
    (fun _ => rfl) (.blank _) fun loc rest => ⟨_, .seen, ?_⟩
  have hargs : 32 :: (Script.quote text ++ spelled strings) ++ 10 :: rest =
      32 :: (Script.quote text ++ (spelled strings ++ 10 :: rest)) := by simp
  rw [hargs]
  refine .bind (reads_parseFormattedText hstrings CommandCode.body) ?_
  rintro _ rfl
  exact .pure rfl

end Compiler

theorem compile_bodyScript {text : Bytes} {strings : List Bytes}
    (hstrings : ∀ s ∈ strings, Script.Plain s) (hreturn : 13 ∉ bodyScript text strings) :
    (compile (bodyScript text strings) Options.defaults).result =
      .ok ⟨[bodyWindow text strings], []⟩ := by
  have hscript : bodyScript text strings = windowScript 10001
      (utf8 "body" ++ 32 :: (Script.quote text ++ spelled strings) ++ [10] ++ [10]) := by
    have hstart : utf8 "#window 1:1\nbody " =
        utf8 "#window " ++ (Label.text 10001 ++ 10 :: (utf8 "body" ++ [32])) := rfl
    simp [bodyScript, windowScript, hstart]
  rw [hscript] at hreturn ⊢
  have hlines : 13 ∉ utf8 "body" ++ 32 :: (Script.quote text ++ spelled strings) ++ [10] ++ [10] :=
    fun h => hreturn (List.mem_append_right _ (List.mem_append_right _ (List.mem_cons_of_mem _ h)))
  refine (compile_windowScript rfl (by decide) rfl
    (.append (Compiler.rounds_body hstrings) Compiler.rounds_line) hlines).trans ?_
  rw [commands_bodyDraft]
  rfl

theorem formatSource_stringValues (strings : List Bytes) :
    Script.formatSource (stringValues strings) = spelled (strings.map Script.escape) := by
  rw [Script.formatSource, stringValues, spelled, List.flatMap_map, List.flatMap_map]
  rfl

theorem writeFile_bodyFile (text : Bytes) (strings : List Bytes) :
    Script.writeFile ⟨[bodyWindow text strings], []⟩ =
      .ok (bodyScript text (strings.map Script.escape)) := by
  have hrefs : Script.switchRefs (bodyWindow text strings) = [] := by
    simp [Script.switchRefs, bodyWindow]
  have hwindow : Script.writeWindow ⟨[bodyWindow text strings], []⟩ (bodyWindow text strings) =
      .ok (utf8 "#window " ++ Label.text 10001 ++ utf8 "\n" ++ [[] ++ utf8 "body " ++
        Script.quote text ++ Script.formatSource (stringValues strings) ++ utf8 "\n", [],
          []].flatten ++ [] ++ [].flatten ++ utf8 "\n") := by
    rw [Script.writeWindow, hrefs]
    rfl
  have hlabel : Label.text 10001 = utf8 "1:1" := rfl
  have hends : utf8 "\n" = [10] := rfl
  have hstarts : utf8 "#window 1:1\nbody " =
      utf8 "#window " ++ utf8 "1:1" ++ [10] ++ utf8 "body " := rfl
  have hwritten : Script.writeFile ⟨[bodyWindow text strings], []⟩ =
      (Script.writeWindow ⟨[bodyWindow text strings], []⟩ (bodyWindow text strings)).map
        fun window => [window].flatten ++ [] := by
    rw [Script.writeFile]
    simp only [List.mapM_cons, List.mapM_nil, List.filter_nil, hwindow]
    rfl
  rw [hwritten, hwindow, formatSource_stringValues, hlabel, hends, bodyScript, hstarts]
  simp [Except.map]

theorem not_mem_quote {b : UInt8} {text : Bytes} (htext : b ∉ text) (h34 : b ≠ 34) (h92 : b ≠ 92)
    (h110 : b ≠ 110) : b ∉ Script.quote text := by
  intro h
  rcases List.mem_cons.1 h with h | h
  · exact h34 h
  rcases List.mem_append.1 h with h | h
  · exact htext (Script.mem_of_mem_escape h h92 h110)
  · exact h34 (List.mem_singleton.1 h)

theorem not_mem_spelled {strings : List Bytes} (hstrings : ∀ s ∈ strings, 13 ∉ s) :
    13 ∉ spelled strings := by
  intro h
  obtain ⟨s, hs, hmem⟩ := List.mem_flatMap.1 h
  have hmem : 13 ∈ s := by simpa using hmem
  exact hstrings s hs hmem

theorem not_mem_bodyScript {text : Bytes} {strings : List Bytes} (htext : 13 ∉ text)
    (hstrings : ∀ s ∈ strings, 13 ∉ s) : 13 ∉ bodyScript text strings := by
  have hquote : 13 ∉ Script.quote text :=
    not_mem_quote htext (by decide) (by decide) (by decide)
  have hstart : 13 ∉ utf8 "#window 1:1\nbody " := by decide
  simp [bodyScript, hquote, not_mem_spelled hstrings, hstart]

/-- A body is written and compiled again with every formatting string escaped once more. So the
file comes back if no formatting string has a backslash, and only then. -/
theorem compile_written_body (text : Bytes) (strings : List Bytes) (htext : 13 ∉ text)
    (hstrings : ∀ s ∈ strings, Script.Plain s ∧ 13 ∉ s) :
    (compile (bodyScript text strings) Options.defaults).result =
        .ok ⟨[bodyWindow text strings], []⟩ ∧
      ∃ script, Script.writeFile ⟨[bodyWindow text strings], []⟩ = .ok script ∧
        (compile script Options.defaults).result =
          .ok ⟨[bodyWindow text (strings.map Script.escape)], []⟩ ∧
        (bodyWindow text (strings.map Script.escape) = bodyWindow text strings ↔
          ∀ s ∈ strings, 92 ∉ s) := by
  have hplain (s : Bytes) (hs : s ∈ strings) : Script.Plain s := (hstrings s hs).1
  have hescaped : ∀ s ∈ strings.map Script.escape, Script.Plain s ∧ 13 ∉ s := by
    intro _ hmem
    obtain ⟨s, hs, rfl⟩ := List.mem_map.1 hmem
    refine ⟨(hplain s hs).escape, fun h => (hstrings s hs).2 ?_⟩
    exact Script.mem_of_mem_escape h (by decide) (by decide)
  refine ⟨?_, _, writeFile_bodyFile text strings, ?_, ?_⟩
  · exact compile_bodyScript hplain (not_mem_bodyScript htext fun s hs => (hstrings s hs).2)
  · exact compile_bodyScript (fun s hs => (hescaped s hs).1)
      (not_mem_bodyScript htext fun s hs => (hescaped s hs).2)
  · have hwindow : bodyWindow text (strings.map Script.escape) = bodyWindow text strings ↔
        stringValues (strings.map Script.escape) = stringValues strings := by
      simp [bodyWindow]
    rw [hwindow, stringValues, stringValues, List.map_map, List.map_inj_left]
    refine forall₂_congr fun s hs => ?_
    rw [← (hplain s hs).escape_eq_self_iff]
    simp

end ApeScript
