import ApeScript.Proofs.CompiledSwitch
import ApeScript.Proofs.LabelText
import ApeScript.Proofs.WrittenBlock

/-!
# Lines of simple statements

The line that is written for a statement which governs no other is read back with its formatting
strings escaped once more, if what stands in it without quotes is one word for the scanner
(`Statement.Worded`). So every statement that a compilation makes is legible
(`Compiler.Legible.of_said`).
-/

namespace ApeScript

namespace Compiler

open Lexer
open Script (RawWord expressionSource formatSource)

variable {c : CompileContext} {p : Placed} {e : Expr} {vs : List FormatValue} {s rest : Bytes}
  {type : StatementType} {loc : Location} {k : Lexeme} {more : Bytes}

/-! ### Raw words -/

def restFlags : ReadFlags :=
  { stopNewline := true, ignoreSpace := true, ignoreEscapes := true, ignoreQuotes := true }

def assignedFlags : ReadFlags :=
  { ignoreEscapes := true, ignoreQuotes := true, stopComma := true }

/-- Formatting values are set off by a comma, or their line ends. -/
theorem formatSource_line (vs : List FormatValue) (rest : Bytes) :
    ∃ b more, formatSource vs ++ 10 :: rest = b :: more ∧ (b = 44 ∨ b = 10) := by
  cases vs with
  | nil => exact ⟨10, rest, rfl, .inr rfl⟩
  | cons v vs => exact ⟨44, _, formatSource_cons, .inl rfl⟩

theorem endsExpr_formats (vs : List FormatValue) (rest : Bytes) :
    ∃ k more, EndsExpr (formatSource vs ++ 10 :: rest) k more := by
  cases vs with
  | nil => exact ⟨_, _, endsExpr_line rest⟩
  | cons v vs =>
    rw [formatSource_cons]
    exact ⟨_, _, endsExpr_comma _⟩

/-- Formatting values after an expression, behind which their first token has been looked at. -/
theorem reads_formats_seen (hvs : ∀ v ∈ vs, v.Stored)
    (hfirst : firstToken? true .normal {} (formatSource vs ++ 10 :: rest) = some (k, more)) :
    Reads parseFormatList c ⟨[k], more⟩ ⟨[(.endOfLine, [10])], rest⟩
      (· = vs.map FormatValue.reread) := by
  refine reads_of_stands (.repeatFrom (fun l hl => hl.remaining_eq) ?_)
  refine readsFrom_formatRounds rfl (fun v hv => (hvs v hv).compiled)
    (fun v hv => (hvs v hv).unquoted) (endsExpr_line rest).operand rfl (by simp) hfirst
    Stands.succeeds_peek_queued ?_
  cases vs with
  | nil =>
    cases hfirst
    exact Nat.le_refl _
  | cons v vs =>
    rw [formatSource_cons] at hfirst ⊢
    cases hfirst
    exact Nat.le_refl _

/-! ### The parts of a line -/

theorem reads_parseOptionalWord_bare :
    Reads (parseOptionalWord type loc) c ⟨[], 10 :: rest⟩ ⟨[(.endOfLine, [10])], rest⟩
      (· = .single ⟨type, none, [], none, loc⟩) := by
  refine .bind (.lift (succeeds_peek rfl)) fun token ht => ?_
  have htype : token.type = .endOfLine := congrArg Prod.fst ht
  rw [htype]
  exact .pure rfl

theorem reads_parseOptionalWord (hs : RawWord wordFlags s) (htrim : trimRight s = s)
    (hvs : ∀ v ∈ vs, v.Stored) :
    Reads (parseOptionalWord type loc) c ⟨[], 32 :: (s ++ (formatSource vs ++ 10 :: rest))⟩
      ⟨[(.endOfLine, [10])], rest⟩
      (· = .single ⟨type, some s, vs.map FormatValue.reread, none, loc⟩) := by
  have hfirst : first? .raw wordFlags (32 :: (s ++ (formatSource vs ++ 10 :: rest))) =
      some ((.raw, s), formatSource vs ++ 10 :: rest) := by
    obtain ⟨b, more, htail, hb⟩ := formatSource_line vs rest
    rw [htail]
    refine first?_blank.trans (first?_raw hs (.inl ?_))
    rcases hb with rfl | rfl <;> rfl
  refine .bind (.lift (succeeds_peek hfirst)) fun token ht => ?_
  obtain ⟨type', text, loc'⟩ := token
  cases ht
  simp only [TokenType.endsLine, reduceCtorEq, decide_false, Bool.or_self, Bool.false_eq_true,
    if_false]
  refine .bind (.lift succeeds_consume) fun _ _ => .bind (reads_formats hvs) ?_
  rintro _ rfl
  exact .pure (by rw [htrim])

theorem reads_quotedLine (hvs : ∀ v ∈ vs, v.Stored) :
    Reads (parseQuotedStatement type loc) c
      ⟨[], 32 :: (Script.quote s ++ (formatSource vs ++ 10 :: rest))⟩
      ⟨[(.endOfLine, [10])], rest⟩
      (· = .single ⟨type, some s, vs.map FormatValue.reread, none, loc⟩) :=
  reads_of_stands (readsFrom_parseQuotedStatement rfl (fun v hv => (hvs v hv).compiled)
    (fun v hv => (hvs v hv).unquoted) (endsExpr_line rest).operand rfl (by simp))

theorem reads_parseRestOfLine {missing : Cause} (hs : RawWord restFlags s) :
    Reads (parseRestOfLine missing) c ⟨[], 32 :: (s ++ 10 :: rest)⟩ ⟨[], 10 :: rest⟩ (· = s) := by
  have hfirst : first? .raw restFlags (32 :: (s ++ 10 :: rest)) = some ((.raw, s), 10 :: rest) :=
    first?_blank.trans (first?_raw hs (.inl rfl))
  refine .bind (.lift (succeeds_read hfirst)) fun token ht => ?_
  obtain ⟨type', text, loc'⟩ := token
  cases ht
  exact .pure rfl

theorem reads_parseDestination (hc : c.Plain) {name : Bytes} (hname : Script.Identifier name)
    (hrest : ∀ b ∈ rest.head?, isIdentifierByte b = false) :
    Reads parseDestination c ⟨[], 32 :: (name ++ rest)⟩ ⟨[], rest⟩
      (·.lexeme = (.identifier, name)) := by
  have hfirst : first? .normal {} (32 :: (name ++ rest)) = some ((.identifier, name), rest) := by
    rw [first?_blank]
    exact first?_identifier hname hrest
  refine .bind .options ?_
  rintro _ rfl
  rw [hc.legacySetNaming]
  exact .lift (succeeds_expect (succeeds_read hfirst))

/-! ### Assignments -/

/-- Only a quote right after blanks makes an assigned text a literal. -/
theorem nextIsQuote_blank {l : Lexer} {b : UInt8} (hb : 32 < b) (hl : l.At ⟨[], 32 :: b :: rest⟩) :
    nextIsQuote l = decide (b = 34) := by
  have hsolid : isBlankByte b = false := by simpa [isBlankByte] using hb
  rw [nextIsQuote, hl.queue_eq_nil, hl.rest]
  simp [show isBlankByte 32 = true from rfl, hsolid]

theorem reads_parseAssigned_quoted : Reads parseAssigned c ⟨[], 32 :: (Script.quote s ++ rest)⟩
    ⟨[], rest⟩ (· = 34 :: (s ++ [34])) := by
  refine .bind .get fun state hstate => ?_
  have hquote : nextIsQuote state.lexer = true := nextIsQuote_blank (by decide) hstate
  rw [if_pos hquote]
  have hassigned : (do
      let token ← Lexer.read .quoted {}
      let text ← stringValue token false
      return 34 :: (text ++ [34]) : Compiler Bytes) = (do
      let text ← (do let token ← Lexer.read .quoted {}; stringValue token false)
      return 34 :: (text ++ [34])) := (bind_assoc ..).symm
  rw [hassigned]
  refine .bind (reads_of_stands (readsFrom_quoted rfl s rest)) ?_
  rintro _ rfl
  exact .pure rfl

/-- What has no blanks has none at its end. -/
theorem trimRight_of_solid (hs : ∀ b ∈ s, 32 < b) : trimRight s = s := by
  have hblank : s.reverse.dropWhile isTrailingBlank = s.reverse := by
    refine List.dropWhile_eq_self_iff.2 fun h => ?_
    have hsolid := hs _ (List.mem_reverse.1 (List.getElem_mem h))
    generalize s.reverse[0] = b at hsolid
    simp only [isTrailingBlank, Bool.or_eq_true, decide_eq_true_eq, not_or]
    constructor
    · rintro rfl
      exact absurd hsolid (by decide)
    · rintro rfl
      exact absurd hsolid (by decide)
  rw [trimRight, hblank, List.reverse_reverse]

theorem reads_parseAssigned_raw (hs : RawWord assignedFlags s) (hopen : s.head? ≠ some 34) :
    Reads parseAssigned c ⟨[], 32 :: (s ++ (formatSource vs ++ 10 :: rest))⟩
      ⟨[], formatSource vs ++ 10 :: rest⟩ (· = s) := by
  have hfirst : first? .raw assignedFlags (32 :: (s ++ (formatSource vs ++ 10 :: rest))) =
      some ((.raw, s), formatSource vs ++ 10 :: rest) := by
    obtain ⟨b, more, htail, hb⟩ := formatSource_line vs rest
    rw [htail]
    refine first?_blank.trans (first?_raw hs (hb.imp ?_ ?_))
    · rintro rfl
      rfl
    · rintro rfl
      exact ⟨rfl, by decide⟩
  refine .bind .get fun state hstate => ?_
  obtain ⟨a, s, rfl⟩ := List.exists_cons_of_ne_nil hs.nonempty
  have ha := hs.start a rfl
  have hquote : nextIsQuote state.lexer = false := by
    rw [nextIsQuote_blank ha hstate]
    simpa using hopen
  rw [hquote]
  refine .bind (.lift (succeeds_read hfirst)) fun token ht => ?_
  obtain ⟨type', text, loc'⟩ := token
  cases ht
  exact .pure (trimRight_of_solid (hs.word rfl rfl).solid)

theorem reads_parseSet_float {name : Bytes} (hkind : isStringName name = false) (he : e.Stored)
    (hvs : ∀ v ∈ vs, v.Stored) :
    Reads (parseSet ⟨.identifier, name, loc⟩) c
      ⟨[], 32 :: 61 :: 32 :: (expressionSource e ++ (formatSource vs ++ 10 :: rest))⟩
      ⟨[(.endOfLine, [10])], rest⟩
      (· = .single ⟨.setFloat, some name, vs.map FormatValue.reread, some e.parsed, loc⟩) := by
  obtain ⟨k, more, htail⟩ := endsExpr_formats vs rest
  rw [parseSet, if_neg (by simp)]
  refine .bind (.lift (succeeds_expect (succeeds_read rfl))) fun _ _ => ?_
  simp only [hkind, Bool.false_eq_true, if_false]
  refine .bind (reads_parseExpr_stored he htail) ?_
  rintro _ rfl
  refine .bind (reads_formats_seen hvs htail.first) ?_
  rintro _ rfl
  exact .pure rfl

theorem reads_parseSet_string {name assigned written : Bytes} (hkind : isStringName name = true)
    (hassigned : Reads parseAssigned c ⟨[], 32 :: (written ++ (formatSource vs ++ 10 :: rest))⟩
      ⟨[], formatSource vs ++ 10 :: rest⟩ (· = assigned))
    (hvs : ∀ v ∈ vs, v.Stored) :
    Reads (parseSet ⟨.identifier, name, loc⟩) c
      ⟨[], 32 :: 61 :: 32 :: (written ++ (formatSource vs ++ 10 :: rest))⟩
      ⟨[(.endOfLine, [10])], rest⟩
      (· = .single ⟨.setString, some (name ++ 61 :: assigned), vs.map FormatValue.reread, none,
        loc⟩) := by
  rw [parseSet, if_neg (by simp)]
  refine .bind (.lift (succeeds_expect (succeeds_read rfl))) fun _ _ => ?_
  simp only [hkind, if_true]
  refine .bind hassigned ?_
  rintro _ rfl
  refine .bind (reads_formats hvs) ?_
  rintro _ rfl
  exact .pure rfl

/-! ### Lines -/

def isStatementWord (word : Bytes) : Bool := isKeyword word && word != utf8 "while"

/-- A line from the keyword of its statement on. -/
theorem simple_line {word args : Bytes} {d : Draft} (hword : isStatementWord word = true)
    (hargs : Spaced args)
    (hreads : ∀ loc rest, ∃ q, Spot.EndsLine rest q ∧
      Reads (parseSimple ⟨.identifier, word, loc⟩) c ⟨[], args ++ 10 :: rest⟩ q (·.Alike d)) :
    Grammar.Simple c .plain .line (word ++ args) d := by
  simp only [isStatementWord, isKeyword, Bool.and_eq_true, bne_iff_ne, and_assoc] at hword
  obtain ⟨hbytes, hstart, helse, hif, hwhile⟩ := hword
  have hidentifier : Script.Identifier word := .of_all (by simp [hbytes, hstart])
  have hapart : ∀ b ∈ args.head?, isIdentifierByte b = false := by
    intro b hb
    rcases hargs with h | h
    · rw [h] at hb
      cases hb
    · rw [h] at hb
      cases hb
      rfl
  refine ⟨word, args, ⟨rfl, hidentifier, hapart, rfl, helse⟩, by simp, hif, hwhile, ?_⟩
  rintro ⟨type, text, loc⟩ tail o ht -
  cases ht
  obtain ⟨q, hq, hreads⟩ := hreads loc tail
  have hline : Reads (do
      let d ← parseSimple ⟨.identifier, text, loc⟩
      let _ ← Lexer.peekNormal
      return d) c ⟨[], args ++ 10 :: tail⟩ ⟨[(.endOfLine, [10])], tail⟩ (·.Alike d) :=
    .bind hreads fun d hd => .bind (.lift (succeeds_peek_endsLine hq)) fun _ _ => .pure hd
  rw [← at_eq_stands, ← at_eq_stands]
  exact hline

theorem alike_single {str : Option Bytes} {format : List FormatValue} {expr : Option Value}
    {loc loc' : Location} : Draft.Alike (.single ⟨type, str, format, expr, loc⟩)
      (.single ⟨type, str, format, expr, loc'⟩) :=
  .single ⟨rfl, trivial⟩

/-! ### Keywords -/

theorem line_of_mem_wordStatements {word : Bytes} (h : (word, type) ∈ wordStatements) :
    Script.statementForm? type = some (word, false) ∧ isStatementWord word = true ∧
      ∀ loc, parseSimple ⟨.identifier, word, loc⟩ = parseOptionalWord type loc := by
  simp only [wordStatements, List.mem_cons, Prod.mk.injEq, List.not_mem_nil, or_false] at h
  rcases h with ⟨rfl, rfl⟩ | ⟨rfl, rfl⟩ | ⟨rfl, rfl⟩ | ⟨rfl, rfl⟩ | ⟨rfl, rfl⟩ | ⟨rfl, rfl⟩ |
    ⟨rfl, rfl⟩ | ⟨rfl, rfl⟩ | ⟨rfl, rfl⟩
  all_goals exact ⟨rfl, rfl, fun _ => rfl⟩

theorem line_of_mem_quotedStatements {word : Bytes} (h : (word, type) ∈ quotedStatements) :
    Script.statementForm? type = some (word, true) ∧ isStatementWord word = true ∧
      ∀ loc, parseSimple ⟨.identifier, word, loc⟩ = parseQuotedStatement type loc := by
  simp only [quotedStatements, List.mem_cons, Prod.mk.injEq, List.not_mem_nil, or_false] at h
  rcases h with ⟨rfl, rfl⟩ | ⟨rfl, rfl⟩ | ⟨rfl, rfl⟩ | ⟨rfl, rfl⟩
  all_goals exact ⟨rfl, rfl, fun _ => rfl⟩

theorem writeSimple_form {word : Bytes} {isQuoted : Bool}
    (h : Script.statementForm? type = some (word, isQuoted)) (str : Option Bytes)
    (format : List FormatValue) (expr : Option Expr) :
    Script.writeSimple ⟨type.code, str, format, expr⟩ = .ok (match str with
      | none => word
      | some s => word ++ utf8 " " ++ (if isQuoted then Script.quote s else s)
          ++ formatSource format) := by
  cases type <;> cases h <;> cases str <;> rfl

end Compiler

open Compiler (wordStatements) in
/-- A statement whose words are read back: what is written without quotes is one word, and no
formatting string has a quote. -/
def Statement.Worded (s : Statement) : Prop :=
  (∀ v ∈ s.format, 34 ∉ v.literal) ∧ ∀ str ∈ s.str, match StatementType.ofCode? s.type with
    | some .externCall => Script.RawWord Compiler.restFlags str
    | some .setString => ∀ name value, Bytes.cut? 61 str = some (name, value) →
        value.head? ≠ some 34 → Script.RawWord Compiler.assignedFlags value
    | some type => (∃ word, (word, type) ∈ wordStatements) →
        Script.RawWord Compiler.wordFlags str
    | none => True

namespace Compiler

open Lexer
open Script (RawWord expressionSource formatSource)

variable {c : CompileContext} {p : Placed} {e : Expr} {vs : List FormatValue} {s line : Bytes}
  {type : StatementType} {label : Label} {name : Bytes}

/-! ### Statements -/

/-- The statement that is read back from a line. -/
def readBack (type : StatementType) (str : Option Bytes) (vs : List FormatValue)
    (expr : Option Expr) : Draft :=
  .single ⟨type, str, vs.map FormatValue.reread, expr.map Expr.parsed, .start []⟩

theorem simple_bare {word : Bytes} (h : (word, type) ∈ wordStatements) :
    Grammar.Simple c .plain .line word (readBack type none [] none) := by
  obtain ⟨-, hword, hparse⟩ := line_of_mem_wordStatements h
  rw [← List.append_nil word]
  refine simple_line hword .nil fun loc rest => ⟨_, .seen, ?_⟩
  rw [hparse]
  refine Reads.mono reads_parseOptionalWord_bare ?_
  rintro _ rfl
  exact alike_single

theorem simple_word {word : Bytes} (h : (word, type) ∈ wordStatements) (hs : RawWord wordFlags s)
    (htrim : trimRight s = s) (hvs : ∀ v ∈ vs, v.Stored) :
    Grammar.Simple c .plain .line (word ++ 32 :: (s ++ formatSource vs))
      (readBack type (some s) vs none) := by
  obtain ⟨-, hword, hparse⟩ := line_of_mem_wordStatements h
  refine simple_line hword (.blank _) fun loc rest => ⟨_, .seen, ?_⟩
  rw [hparse, List.cons_append, List.append_assoc]
  refine Reads.mono (reads_parseOptionalWord hs htrim hvs) ?_
  rintro _ rfl
  exact alike_single

theorem simple_quoted {word : Bytes} (h : (word, type) ∈ quotedStatements)
    (hvs : ∀ v ∈ vs, v.Stored) :
    Grammar.Simple c .plain .line (word ++ 32 :: (Script.quote s ++ formatSource vs))
      (readBack type (some s) vs none) := by
  obtain ⟨-, hword, hparse⟩ := line_of_mem_quotedStatements h
  refine simple_line hword (.blank _) fun loc rest => ⟨_, .seen, ?_⟩
  rw [hparse, List.cons_append, List.append_assoc]
  refine Reads.mono (reads_quotedLine hvs) ?_
  rintro _ rfl
  exact alike_single

/-- An assignment, from what is read after the name of its variable. -/
theorem simple_set {d : Draft} {args : Bytes} (hc : c.Plain) (hname : Script.Identifier name)
    (hset : ∀ loc rest, Reads (parseSet ⟨.identifier, name, loc⟩) c
      ⟨[], 32 :: 61 :: 32 :: (args ++ 10 :: rest)⟩ ⟨[(.endOfLine, [10])], rest⟩ (·.Alike d)) :
    Grammar.Simple c .plain .line (utf8 "set" ++ 32 :: (name ++ 32 :: 61 :: 32 :: args)) d := by
  refine simple_line rfl (.blank _) fun loc rest => ⟨_, .seen, ?_⟩
  have hparse : parseSimple ⟨.identifier, utf8 "set", loc⟩ = parseDestination >>= parseSet := rfl
  have htext : 32 :: (name ++ 32 :: 61 :: 32 :: args) ++ 10 :: rest =
      32 :: (name ++ 32 :: 61 :: 32 :: (args ++ 10 :: rest)) := by simp
  rw [hparse, htext]
  refine .bind (reads_parseDestination hc hname (by rintro _ ⟨⟩; rfl)) fun token ht => ?_
  obtain ⟨type, text, loc'⟩ := token
  cases ht
  exact hset loc' rest

theorem simple_setFloat (hc : c.Plain) (hname : Script.Identifier name)
    (hkind : isStringName name = false) (he : e.Stored) (hvs : ∀ v ∈ vs, v.Stored) :
    Grammar.Simple c .plain .line
      (utf8 "set" ++ 32 :: (name ++ 32 :: 61 :: 32 :: (expressionSource e ++ formatSource vs)))
      (readBack .setFloat (some name) vs (some e)) := by
  refine simple_set hc hname fun loc rest => ?_
  rw [List.append_assoc]
  refine Reads.mono (reads_parseSet_float hkind he hvs) ?_
  rintro _ rfl
  exact alike_single

theorem simple_setString {assigned written : Bytes} (hc : c.Plain)
    (hname : Script.Identifier name) (hkind : isStringName name = true)
    (hassigned : ∀ rest, Reads parseAssigned c
      ⟨[], 32 :: (written ++ (formatSource vs ++ 10 :: rest))⟩
      ⟨[], formatSource vs ++ 10 :: rest⟩ (· = assigned))
    (hvs : ∀ v ∈ vs, v.Stored) :
    Grammar.Simple c .plain .line
      (utf8 "set" ++ 32 :: (name ++ 32 :: 61 :: 32 :: (written ++ formatSource vs)))
      (readBack .setString (some (name ++ 61 :: assigned)) vs none) := by
  refine simple_set hc hname fun loc rest => ?_
  rw [List.append_assoc]
  refine Reads.mono (reads_parseSet_string hkind (hassigned rest) hvs) ?_
  rintro _ rfl
  exact alike_single

theorem simple_unset (hc : c.Plain) (hname : Script.Identifier name) :
    Grammar.Simple c .plain .line (utf8 "unset" ++ 32 :: name)
      (readBack (if isStringName name then .setString else .setFloat) (some name) [] none) := by
  refine simple_line rfl (.blank _) fun loc rest => ⟨_, .unread, ?_⟩
  have hparse : parseSimple ⟨.identifier, utf8 "unset", loc⟩ =
      parseDestination >>= fun token => pure (unset token) := rfl
  rw [hparse, List.cons_append]
  refine .bind (reads_parseDestination hc hname (by rintro _ ⟨⟩; rfl)) fun token ht => ?_
  obtain ⟨type, text, loc'⟩ := token
  cases ht
  exact .pure alike_single

theorem simple_labeled {word : Bytes} (hlabel : label.isInline = false)
    (hword : isStatementWord word = true)
    (hparse : ∀ loc p q P, Reads (parseLabeled type loc) c p q P →
      Reads (parseSimple ⟨.identifier, word, loc⟩) c p q P) :
    Grammar.Simple c .plain .line (word ++ 32 :: label.text)
      (readBack type (some label.text) [] none) := by
  refine simple_line hword (.blank _) fun loc rest => ⟨_, .unread, hparse _ _ _ _ ?_⟩
  refine .bind (reads_parseLabel hlabel (succeeds_read (first?_label label))) ?_
  rintro _ rfl
  exact .pure alike_single

theorem simple_return :
    Grammar.Simple c .plain .line (utf8 "return") (readBack .goto (some (utf8 "0:0")) [] none) := by
  rw [← List.append_nil (utf8 "return")]
  exact simple_line rfl .nil fun loc rest => ⟨_, .unread, .pure alike_single⟩

theorem simple_extern (hs : RawWord restFlags s) :
    Grammar.Simple c .plain .line (utf8 "extern" ++ 32 :: s)
      (readBack .externCall (some s) [] none) := by
  refine simple_line rfl (.blank _) fun loc rest => ⟨_, .unread, ?_⟩
  refine .bind (reads_parseRestOfLine hs) ?_
  rintro _ rfl
  exact .pure alike_single

/-! ### Statements that compilations make -/

theorem word_simple {word : Bytes} (h : (word, type) ∈ wordStatements) :
    type ≠ .noOp ∧ StatementType.isControl type.code = false := by
  revert h
  cases type <;> simp [wordStatements, StatementType.isControl, StatementType.code]

theorem quoted_simple {word : Bytes} (h : (word, type) ∈ quotedStatements) :
    type ≠ .noOp ∧ StatementType.isControl type.code = false := by
  revert h
  cases type <;> simp [quotedStatements, StatementType.isControl, StatementType.code]

theorem Legible.of_simple {cc : UInt64} {str : Option Bytes} {expr : Option Expr}
    (htype : type ≠ .noOp ∧ StatementType.isControl type.code = false)
    (hexpr : ∀ e ∈ expr, e.Stored)
    (h : ∀ line, Script.writeSimple ⟨type.code, str, vs, expr⟩ = .ok line →
      Grammar.Simple c .plain .line line (readBack type str vs expr)) :
    Legible c ⟨cc, type.code, str, vs, expr⟩ where
  known := ⟨type, rfl⟩
  exprs := hexpr
  not_idle hidle := htype.1 (StatementType.code_inj.1 hidle)
  simple _ line hline := by
    have hhead : Placed.head ⟨cc, type.code, str, vs, expr⟩ =
        ⟨type, str, vs.map FormatValue.reread, expr.map Expr.parsed, .start []⟩ := by
      rw [Placed.head, StatementType.ofCode?_code]
      rfl
    rw [hhead]
    exact h line hline
  control hcontrol := by
    rw [htype.2] at hcontrol
    cases hcontrol

theorem not_mem_assign (hname : Script.Identifier name) : 61 ∉ name :=
  fun hmem => absurd (hname.bytes 61 hmem) (by decide)

/-- The line of a string variable that is set to a written value. -/
def setLine (name written : Bytes) (vs : List FormatValue) : Bytes :=
  utf8 "set" ++ 32 :: (name ++ 32 :: 61 :: 32 :: (written ++ formatSource vs))

theorem setLine_eq (written : Bytes) :
    utf8 "set " ++ name ++ utf8 " = " ++ written ++ formatSource vs = setLine name written vs := by
  simp [setLine, show utf8 "set " = utf8 "set" ++ [32] from rfl,
    show utf8 " = " = [32, 61, 32] from rfl]

theorem writeSetString_quoted {value : Bytes} (hname : 61 ∉ name) :
    Script.writeSetString ⟨type.code, some (name ++ 61 :: 34 :: value), vs, none⟩
        (name ++ 61 :: 34 :: value) =
      if value.getLast? = some 34 then .ok (setLine name (Script.quote value.dropLast) vs)
      else .error (.unterminatedAssignment (name ++ 61 :: 34 :: value)) := by
  rw [Script.writeSetString, Bytes.cut?_append hname]
  simp only
  split
  · exact congrArg Except.ok (setLine_eq _)
  · rfl

theorem writeSetString_word {assigned : Bytes} (hname : 61 ∉ name)
    (hopen : assigned.head? ≠ some 34) :
    Script.writeSetString ⟨type.code, some (name ++ 61 :: assigned), vs, none⟩
        (name ++ 61 :: assigned) = .ok (setLine name assigned vs) := by
  rw [Script.writeSetString, Bytes.cut?_append hname]
  simp only
  split
  · exact absurd rfl hopen
  · exact congrArg Except.ok (setLine_eq _)

/-- A string variable that is set to a literal or to a word. -/
theorem simple_stringLine {assigned : Bytes} (hc : c.Plain) (hname : Script.Identifier name)
    (hkind : isStringName name = true) (hvs : ∀ v ∈ vs, v.Stored)
    (hworded : assigned.head? ≠ some 34 → RawWord assignedFlags assigned)
    (hline : Script.writeSimple ⟨StatementType.setString.code, some (name ++ 61 :: assigned), vs,
      none⟩ = .ok line) :
    Grammar.Simple c .plain .line line
      (readBack .setString (some (name ++ 61 :: assigned)) vs none) := by
  have hassign : 61 ∉ name := not_mem_assign hname
  have hwrite : Script.writeSetString ⟨StatementType.setString.code,
      some (name ++ 61 :: assigned), vs, none⟩ (name ++ 61 :: assigned) = .ok line := hline
  by_cases hopen : assigned.head? = some 34
  · obtain ⟨value, rfl⟩ := List.head?_eq_some_iff.1 hopen
    rw [writeSetString_quoted hassign] at hwrite
    split at hwrite
    · rename_i hclosed
      cases hwrite
      obtain ⟨value, rfl⟩ := List.getLast?_eq_some_iff.1 hclosed
      rw [List.dropLast_concat]
      exact simple_setString hc hname hkind (fun _ => reads_parseAssigned_quoted) hvs
    · cases hwrite
  · rw [writeSetString_word hassign hopen] at hwrite
    cases hwrite
    exact simple_setString hc hname hkind (fun _ => reads_parseAssigned_raw (hworded hopen) hopen)
      hvs

/-- The line of a `goto`, which returns when it goes to no window. -/
theorem simple_goto (hc : c.Plain) (hlabel : label.isInline = false)
    (hline : Script.writeSimple ⟨StatementType.goto.code, some label.text, [], none⟩ = .ok line) :
    Grammar.Simple c .plain .line line (readBack .goto (some label.text) [] none) := by
  by_cases hzero : label.text = utf8 "0:0"
  · rw [hzero] at hline ⊢
    cases hline
    exact simple_return
  · have hwrite : line = utf8 "goto " ++ label.text ++ formatSource [] := by
      have hgoto : (if label.text = utf8 "0:0" then (.ok (utf8 "return") : Script.Written)
          else .ok (utf8 "goto " ++ label.text ++ formatSource [])) = .ok line := hline
      rw [if_neg hzero] at hgoto
      exact (Except.ok.inj hgoto).symm
    have htext : line = utf8 "goto" ++ 32 :: label.text := by
      rw [hwrite]
      simp [formatSource, show utf8 "goto " = utf8 "goto" ++ [32] from rfl]
    rw [htext]
    refine simple_labeled hlabel rfl fun loc p q P h => ?_
    have hparse : parseSimple ⟨.identifier, utf8 "goto", loc⟩ = parseGoto loc := rfl
    rw [hparse]
    refine .bind .options ?_
    rintro _ rfl
    rw [hc.legacyLabeledCommands, if_neg Bool.false_ne_true]
    exact h

/-- Every statement that a compilation makes is legible. -/
theorem Legible.of_said {cc : UInt64} {str : Option Bytes} {expr : Option Expr} (hc : c.Plain)
    (hsaid : Said type str vs expr.isSome) (hexpr : ∀ e ∈ expr, e.Stored)
    (hformat : ∀ v ∈ vs, v.Compiled)
    (hworded : Statement.Worded ⟨type.code, str, vs, expr⟩) :
    Legible c ⟨cc, type.code, str, vs, expr⟩ := by
  have hvs : ∀ v ∈ vs, v.Stored := fun v hv => ⟨hformat v hv, hworded.1 v hv⟩
  have hword := hworded.2
  rw [StatementType.ofCode?_code] at hword
  have hnone (h : expr.isSome = false) : expr = none := by simpa using h
  generalize hsome : expr.isSome = isSome at hsaid
  cases hsaid with
  | control h =>
    obtain ⟨e, rfl⟩ := Option.isSome_iff_exists.1 hsome
    have hcontrol : StatementType.isControl type.code = true := by rcases h with rfl | rfl <;> rfl
    refine ⟨⟨type, rfl⟩, hexpr, ?_, by simp [hcontrol], fun _ => ⟨e, hexpr e rfl, rfl⟩⟩
    rcases h with rfl | rfl <;> simp [StatementType.code]
  | bare h =>
    cases hnone hsome
    refine .of_simple (word_simple h) hexpr fun line hline => ?_
    cases (writeSimple_form (line_of_mem_wordStatements h).1 none [] none).symm.trans hline
    exact simple_bare h
  | @word word s _ _ h htrim =>
    cases hnone hsome
    refine .of_simple (word_simple h) hexpr fun line hline => ?_
    have hs : RawWord wordFlags s := by
      have hs := hword s rfl
      revert hs h
      cases type <;> simp [wordStatements]
    cases (writeSimple_form (line_of_mem_wordStatements h).1 (some s) vs none).symm.trans hline
    simpa [show utf8 " " = [32] from rfl] using simple_word h hs htrim hvs
  | @quoted word s _ _ h =>
    cases hnone hsome
    refine .of_simple (quoted_simple h) hexpr fun line hline => ?_
    cases (writeSimple_form (line_of_mem_quotedStatements h).1 (some s) vs none).symm.trans hline
    simpa [show utf8 " " = [32] from rfl] using simple_quoted h hvs
  | @setFloat name _ hname hkind =>
    obtain ⟨e, rfl⟩ := Option.isSome_iff_exists.1 hsome
    refine .of_simple (by decide) hexpr fun line hline => ?_
    have htext : line = utf8 "set" ++ 32 ::
        (name ++ 32 :: 61 :: 32 :: (expressionSource e ++ formatSource vs)) := by
      refine (Except.ok.inj hline).symm.trans ?_
      simp [Script.writeSetFloat, show utf8 "set " = utf8 "set" ++ [32] from rfl,
        show utf8 " = " = [32, 61, 32] from rfl]
    rw [htext]
    exact simple_setFloat hc hname hkind (hexpr e rfl) hvs
  | @setString name assigned _ hname hkind =>
    cases hnone hsome
    refine .of_simple (by decide) hexpr fun line hline => ?_
    refine simple_stringLine hc hname hkind hvs (fun hopen => ?_) hline
    exact hword _ rfl name assigned (Bytes.cut?_append (not_mem_assign hname)) hopen
  | @unset name hname =>
    cases hnone hsome
    refine .of_simple (by split <;> decide) hexpr fun line hline => ?_
    have htext : line = utf8 "unset" ++ 32 :: name := by
      revert hline
      cases isStringName name with
      | true =>
        intro hline
        have hwrite : Script.writeSetString ⟨StatementType.setString.code, some name, [], none⟩
            name = .ok line := hline
        rw [Script.writeSetString, Bytes.cut?_eq_none (not_mem_assign hname)] at hwrite
        exact (Except.ok.inj hwrite).symm
      | false =>
        intro hline
        refine (Except.ok.inj hline).symm.trans ?_
        simp [Script.writeSetFloat, formatSource]
        rfl
    rw [htext]
    exact simple_unset hc hname
  | @labeled _ label h hlabel =>
    cases hnone hsome
    have hword {word : Bytes} (hform : Script.statementForm? type = some (word, false))
        (hstatement : isStatementWord word = true)
        (hparse : ∀ loc, parseSimple ⟨.identifier, word, loc⟩ = parseLabeled type loc) (line : Bytes)
        (hline : Script.writeSimple ⟨type.code, some label.text, [], none⟩ = .ok line) :
        Grammar.Simple c .plain .line line (readBack type (some label.text) [] none) := by
      cases (writeSimple_form hform (some label.text) [] none).symm.trans hline
      simpa [show utf8 " " = [32] from rfl, formatSource] using
        simple_labeled hlabel hstatement fun loc _ _ _ h => hparse loc ▸ h
    rcases h with rfl | rfl | rfl
    · exact .of_simple (by decide) hexpr fun line hline => simple_goto hc hlabel hline
    · exact .of_simple (by decide) hexpr (hword rfl rfl fun _ => rfl)
    · exact .of_simple (by decide) hexpr (hword rfl rfl fun _ => rfl)
  | @rest s =>
    cases hnone hsome
    refine .of_simple (by decide) hexpr fun line hline => ?_
    cases hline
    simpa [show utf8 " " = [32] from rfl, formatSource] using simple_extern (hword s rfl)

end Compiler

end ApeScript
