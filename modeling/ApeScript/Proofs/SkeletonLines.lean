import ApeScript.Proofs.Nesting
import ApeScript.Proofs.VariableLines

/-!
# Skeletons as scripts

A skeleton is a passage in which every directive shows a text, and every branch depends on a
condition that is read as a number. In a script, its directives, braces, `if`s and `else`s stand on
lines of their own. What comes after an `if` or `else` is read past the end of its line, so that a
reader may stand before the end of a line, or before the line after it, of which it may have seen
the first token (`Spot.Reaches`).
-/

namespace ApeScript

/-- A text without carriage returns, which a script cannot hold. -/
abbrev Script.Shown := { s : Bytes // 13 ∉ s }

open Script (Shown)

/-- A condition of a branch: a text that is read up to a closing parenthesis, and gives a number. -/
structure Condition where
  text : Bytes
  value : Value
  isFloat : value.isFloat = true
  not_mem_return : 13 ∉ text
  reads {c : CompileContext} {rest : Bytes} : c.options = Options.defaults →
    Compiler.Reads Compiler.parseExpr c ⟨[], text ++ 41 :: rest⟩ ⟨[(.closeParen, [41])], rest⟩
      (· = value)

/-- A variable that holds a number is a condition, after a blank. -/
def Condition.variable {name : Bytes} (hname : Script.Variable name) : Condition where
  text := 32 :: name
  value := .floatVar name
  isFloat := rfl
  not_mem_return := by simpa using hname.identifier.not_mem_return
  reads _ := Compiler.reads_parseExpr hname (by rintro _ ⟨⟩; rfl) rfl (by decide)

abbrev Skeleton := Passage Condition Shown

def braceLine (braced : Bool) : Bytes := if braced then utf8 "\x7b\n" else []

namespace Sign

/-- The first token of the lines of a sign. Directives have the keyword `word`. -/
def lexeme (word : Bytes) : Sign Condition Shown → Lexeme
  | plain _ => (.identifier, word)
  | opening _ _ => (.identifier, utf8 "if")
  | otherwise _ => (.identifier, utf8 "else")
  | closing => (.closeBrace, utf8 "\x7d")

/-- The lines of a sign after their first token. -/
def after : Sign Condition Shown → Bytes
  | plain text => 32 :: (Script.quote text.1 ++ [10])
  | opening condition braced =>
    utf8 " (" ++ (condition.text ++ 41 :: 10 :: braceLine braced)
  | otherwise braced => 10 :: braceLine braced
  | closing => [10]

def lines (word : Bytes) (sign : Sign Condition Shown) : Bytes :=
  (sign.lexeme word).2 ++ sign.after

end Sign

def signLines (word : Bytes) (l : List (Sign Condition Shown)) : Bytes :=
  l.flatMap (Sign.lines word)

def firstLexeme (word : Bytes) : List (Sign Condition Shown) → Lexeme
  | [] => (.endOfFile, [])
  | sign :: _ => sign.lexeme word

def afterFirst (word : Bytes) : List (Sign Condition Shown) → Bytes
  | [] => []
  | sign :: rest => sign.after ++ signLines word rest

section

variable {word : Bytes} {sign : Sign Condition Shown} {l l' : List (Sign Condition Shown)}

theorem signLines_cons :
    signLines word (sign :: l) = (sign.lexeme word).2 ++ (sign.after ++ signLines word l) := by
  simp [signLines, Sign.lines]

theorem afterFirst_length (hword : word ≠ []) :
    (afterFirst word (sign :: l)).length < (signLines word (sign :: l)).length := by
  have hlexeme : 0 < (sign.lexeme word).2.length := by
    cases sign with
    | plain text => exact List.length_pos_iff.2 hword
    | _ => exact Nat.succ_pos _
  rw [signLines_cons, afterFirst]
  simpa using hlexeme

theorem firstLexeme_ne {type : TokenType} (htype : type = .endOfLine ∨ type = .openBrace) :
    (firstLexeme word l).1 ≠ type := by
  rintro rfl
  cases l with
  | nil => simp [firstLexeme] at htype
  | cons sign rest => cases sign <;> simp [firstLexeme, Sign.lexeme] at htype

/-- Only an `else` starts with the token of one. -/
theorem firstLexeme_eq_else (hword : word ≠ utf8 "else") :
    firstLexeme word l = (.identifier, utf8 "else") ↔ l.head?.any Sign.isOtherwise = true := by
  cases l with
  | nil => simp [firstLexeme]
  | cons sign rest =>
    cases sign with
    | plain text => simp [firstLexeme, Sign.lexeme, Sign.isOtherwise, hword]
    | opening condition braced => simpa [firstLexeme, Sign.lexeme, Sign.isOtherwise] using by decide
    | otherwise braced => simp [firstLexeme, Sign.lexeme, Sign.isOtherwise]
    | closing => simp [firstLexeme, Sign.lexeme, Sign.isOtherwise]

theorem first?_signLines (hword : Script.Identifier word) : Lexer.first? .normal {}
    (signLines word l) = some (firstLexeme word l, afterFirst word l) := by
  cases l with
  | nil => rfl
  | cons sign rest =>
    have hidentifier {name more : Bytes} (hname : Script.Identifier name)
        (hmore : more.head? = some 10 ∨ more.head? = some 32) :
        Lexer.first? .normal {} (name ++ more) = some ((.identifier, name), more) := by
      apply Lexer.first?_identifier hname
      rcases hmore with h | h
      · simp [h, show isIdentifierByte 10 = false from rfl]
      · simp [h, show isIdentifierByte 32 = false from rfl]
    rw [signLines_cons]
    cases sign with
    | plain text => exact hidentifier hword (Or.inr rfl)
    | opening condition braced => exact hidentifier (.of_all rfl) (Or.inr rfl)
    | otherwise braced => exact hidentifier (.of_all rfl) (Or.inl rfl)
    | closing => rfl

/-- The lines hold no carriage returns. -/
theorem not_mem_signLines (hword : 13 ∉ word) : 13 ∉ signLines word l := by
  have hbrace (b : Bool) : 13 ∉ braceLine b := by cases b <;> decide
  intro h
  obtain ⟨sign, -, hsign⟩ := List.mem_flatMap.1 h
  rw [Sign.lines, List.mem_append] at hsign
  cases sign with
  | plain text =>
    have hquote : 13 ∉ Script.quote text.1 := by
      intro hquote
      have hescape : 13 ∈ Script.escape text.1 := by
        simpa [Script.quote, Script.escape] using hquote
      exact text.2 (Script.mem_of_mem_escape hescape (by decide) (by decide))
    simp [Sign.lexeme, Sign.after, hword, hquote] at hsign
  | opening condition braced =>
    have hif : 13 ∉ utf8 "if" := by decide
    have hparen : 13 ∉ utf8 " (" := by decide
    simp [Sign.lexeme, Sign.after, hif, hparen, condition.not_mem_return, hbrace] at hsign
  | otherwise braced =>
    have helse : 13 ∉ utf8 "else" := by decide
    simp [Sign.lexeme, Sign.after, helse, hbrace] at hsign
  | closing =>
    have hclose : 13 ∉ utf8 "\x7d" := by decide
    simp [Sign.lexeme, Sign.after, hclose] at hsign

end

inductive Spot.Before (text : Bytes) : Spot → Prop where
  | unread : Before text ⟨[], text⟩
  | seen {k : Lexeme} {rest : Bytes} (first : Lexer.first? .normal {} text = some (k, rest)) :
    Before text ⟨[k], rest⟩

def Spot.Reaches (text : Bytes) (p : Spot) : Prop := p.Before text ∨ p.Before (10 :: text)

namespace Lexer

variable {p q : Spot} {k : Lexeme} {text rest : Bytes}

theorem first?_line : first? .normal {} (10 :: text) = some ((.endOfLine, [10]), text) := rfl

/-- Less is left after the end of a line. -/
theorem less_of_line (h : p.Before (10 :: text)) :
    (Spot.mk [] text).remaining.Less p.remaining := by
  cases h with
  | unread => simp [Spot.remaining, Remaining.Less]
  | seen first =>
    obtain ⟨rfl, rfl⟩ := Prod.mk.inj (Option.some.inj (first.symm.trans first?_line))
    simp [Spot.remaining, Remaining.Less]

/-- What is less than what is left once the first token of a text has been looked at is less than
what is left before the text. -/
theorem less_of_first (hp : p.Before text) (hfirst : first? .normal {} text = some (k, rest))
    (hlength : rest.length < text.length)
    (h : q.remaining.Less (Spot.mk [k] rest).remaining) : q.remaining.Less p.remaining := by
  cases hp with
  | unread =>
    left
    rcases h with h | ⟨h, -⟩
    · exact lt_trans h hlength
    · exact lt_of_eq_of_lt h hlength
  | seen first =>
    obtain ⟨rfl, rfl⟩ := Prod.mk.inj (Option.some.inj (first.symm.trans hfirst))
    exact h

theorem succeeds_peek_before (h : p.Before text)
    (hfirst : first? .normal {} text = some (k, rest)) :
    Succeeds peekNormal (At p) (At ⟨[k], rest⟩) (·.lexeme = k) := by
  cases h with
  | unread => exact succeeds_peek hfirst
  | seen first =>
    obtain ⟨rfl, rfl⟩ := Prod.mk.inj (Option.some.inj (first.symm.trans hfirst))
    exact succeeds_peek_queued

theorem succeeds_skipLineEndsWithin (h : Succeeds peekNormal (At p) (At q) (·.lexeme = k))
    (hk : k.1 ≠ .endOfLine) (bound : Remaining) :
    Succeeds (skipLineEndsWithin bound) (At p) (At q) fun _ => True := by
  rw [skipLineEndsWithin]
  refine .bind h fun token ht => ?_
  have htype : token.type ≠ .endOfLine := fun h => hk (ht ▸ h)
  rw [if_neg htype]
  exact .pure trivial

/-- The end of a line may be skipped before a token that does not end one. -/
theorem succeeds_skipLineEnds_reaches (h : p.Reaches text)
    (hfirst : first? .normal {} text = some (k, rest)) (hk : k.1 ≠ .endOfLine) :
    Succeeds skipLineEnds (At p) (At ⟨[k], rest⟩) fun _ => True := by
  refine .bind .get fun l hl => ?_
  rcases h with h | h
  · exact succeeds_skipLineEndsWithin (succeeds_peek_before h hfirst) hk _
  · have hless : (Spot.mk [] text).remaining.Less l.remaining := hl.remaining_eq ▸ less_of_line h
    rw [skipLineEndsWithin]
    refine .bind (succeeds_peek_before h first?_line) fun token ht => ?_
    have htype : token.type = .endOfLine := congrArg Prod.fst ht
    rw [if_pos htype]
    refine .bind succeeds_consume fun _ _ => .bind .get fun now hnow => ?_
    rw [dif_pos (hnow.remaining_eq ▸ hless)]
    exact succeeds_skipLineEndsWithin (succeeds_peek hfirst) hk _

end Lexer

namespace Compiler

open Lexer

variable {c : CompileContext} {rest : Bytes}

theorem first?_openParen :
    first? .normal {} (utf8 " (" ++ rest) = some ((.openParen, [40]), rest) := rfl

theorem reads_parseNumeric_paren (hdefault : c.options = Options.defaults)
    (condition : Condition) :
    Reads parseNumeric c ⟨[], condition.text ++ 41 :: rest⟩ ⟨[(.closeParen, [41])], rest⟩
      (· = condition.value) := by
  refine .bind .location fun _ _ => .bind (condition.reads hdefault) ?_
  rintro _ rfl
  rw [condition.isFloat]
  exact .pure rfl

theorem reads_parseFormatList_line : Reads parseFormatList c ⟨[], 10 :: rest⟩
    ⟨[(.endOfLine, [10])], rest⟩ (· = []) :=
  have hnone : ∀ s ∈ ([] : List Bytes), Script.Plain s := by simp
  reads_parseFormatList hnone

end Compiler

end ApeScript
