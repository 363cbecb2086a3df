import ApeScript.Proofs.EmittedSwitch
import ApeScript.Proofs.RestoredLines

/-!
# Blocks that are written

The text of a block is a text of statements, one after the other (`Grammar.Lines`), whatever stands
before the first of them. A statement without an `else` at the end of its alternatives is looked for
past the end of its line, so it is `Block.parted` that tells whether the text is accepted: such a
statement, if it stands after an `else` itself, has to be the last one of its block.
-/

namespace ApeScript

namespace Block

/-- The block is an `if`, and so are all of its alternatives. -/
def lacksElse : Block → Bool
  | step p _ alt done =>
    p.statement.type = StatementType.ifThen.code && (alt.isDone || alt.lacksElse)
  | _ => false

/-- Only the last statement of a block has an `else` before an `if` that lacks one, and that only if
`closes` says that a closing brace or the end of the script comes after the block. -/
def parted : Bool → Block → Bool
  | _, done => true
  | closes, step _ inner alt rest =>
    (!alt.lacksElse || rest.isDone && closes) && inner.parted true && alt.parted true &&
      rest.parted closes

end Block

/-- Where a statement that is written ends. -/
def Placed.ending (p : Placed) (inner alt : Block) : Ending :=
  if inner.parted true && alt.parted true then
    if alt.lacksElse then .last
    else if p.statement.type = StatementType.ifThen.code ∧ alt.isDone then .passed
    else .stop
  else .refused

/-- A statement as it is parsed from its text. -/
def Placed.head (p : Placed) : DraftStatement :=
  ⟨(StatementType.ofCode? p.statement.type).getD .noOp, p.statement.str,
    p.statement.format.map FormatValue.reread, p.statement.expr.map Expr.parsed, .start []⟩

def Block.drafted : Block → Draft
  | done => .done
  | step p inner alt rest => .step p.head inner.drafted alt.drafted rest.drafted

namespace Compiler

open Grammar (Lead Simple Apart Head lead_nil lead_blank trail_nil)
open Lexer (firstToken? firstToken?_blank Setting Stands)
open Script (indentation writeBlock writeHead writeSimple)

variable {c : CompileContext} {e : Setting} {lead text line more body : Bytes} {level outer : ℕ}
  {b inner alt rest : Block} {p : Placed}

/-! ### What stands before a statement -/

theorem firstToken?_blanks {exponents : Bool} (n : ℕ) (text : Bytes) :
    firstToken? exponents .normal {} (List.replicate n 32 ++ text) =
      firstToken? exponents .normal {} text := by
  induction n with
  | zero => rfl
  | succ n ih => exact firstToken?_blank.trans ih

theorem lead_indentation (level : ℕ) : Lead e (indentation level) := fun h hliteral hk l hl =>
  lead_nil ((firstToken?_blanks _ _).trans h) hliteral hk l hl

theorem lead_line_indentation (level : ℕ) : Lead e (10 :: indentation level) :=
  Lead.line (lead_indentation level)

/-! ### Conditions -/

/-- The text of a condition after its keyword. -/
def conditionText (e : Expr) : Bytes := utf8 " (" ++ (Script.expressionSource e ++ [41])

theorem condition_stored {e : Expr} (he : e.Stored) :
    Grammar.Condition c .plain (conditionText e) e.parsed where
  nonempty := List.cons_ne_nil _ _
  apart := by rintro _ ⟨⟩; rfl
  reads tail := by
    have hsource : ReadsFrom parseExpr c
        (Stands .plain ⟨[], Script.expressionSource e ++ 41 :: tail⟩)
        (Stands .plain ⟨[(.closeParen, [41])], tail⟩) (· = e.parsed) := by
      refine readsFrom_parseExpr rfl he ?_ rfl (by simp)
      simp [EndsOperand, isIdentifierByte, Bytes.isDigit, Bytes.isLower, Bytes.isUpper]
    have hnumeric : ReadsFrom parseNumeric c
        (Stands .plain ⟨[], Script.expressionSource e ++ 41 :: tail⟩)
        (Stands .plain ⟨[(.closeParen, [41])], tail⟩) (· = e.parsed) := by
      refine .bind .location fun loc _ => .bind hsource ?_
      rintro _ rfl
      rw [he.isFloat]
      exact .pure rfl
    have htext : conditionText e ++ tail =
        32 :: 40 :: (Script.expressionSource e ++ 41 :: tail) := by
      simp [conditionText, show utf8 " (" = [32, 40] from rfl]
    rw [htext]
    refine .bind (.lift (Lexer.succeeds_expect_from (Stands.succeeds_read rfl
      (by simp [Setting.Literal])))) fun _ _ => .bind hnumeric ?_
    rintro _ rfl
    exact .bind (.lift (Lexer.succeeds_expect_from Stands.succeeds_read_queued)) fun _ _ => .pure rfl

/-! ### The lines of a block -/

/-- A statement whose text is read back. -/
structure Legible (c : CompileContext) (p : Placed) : Prop where
  known : ∃ type : StatementType, p.statement.type = type.code
  exprs : ∀ e ∈ p.statement.expr, e.Stored
  not_idle : p.statement.type ≠ StatementType.noOp.code
  simple : StatementType.isControl p.statement.type = false → ∀ line,
    writeSimple p.statement = .ok line → Simple c .plain .line line (.single p.head)
  control : StatementType.isControl p.statement.type = true →
    ∃ e : Expr, e.Stored ∧ p.statement = ⟨p.statement.type, none, [], some e⟩

/-- The text of a block whose statements start after `lead` and, from the second on, at a level. -/
inductive Lines (c : CompileContext) (level : ℕ) : Bytes → Block → Bytes → Prop
  | done {lead : Bytes} : Lines c level lead .done []
  | step {lead line more : Bytes} {p : Placed} {inner alt rest : Block}
      (h : Grammar.Statement c .plain .line line (.step p.head inner.drafted alt.drafted .done)
        (p.ending inner alt))
      (hmore : Lines c level (indentation level) rest more) :
      Lines c level lead (.step p inner alt rest) (lead ++ (line ++ 10 :: more))

theorem goesOn_ending (closes : Bool) :
    ((p.ending inner alt).goesOn (rest.isDone && closes) && rest.parted closes) =
      (Block.step p inner alt rest).parted closes := by
  rw [Block.parted, Placed.ending]
  by_cases hparted : (inner.parted true && alt.parted true) = true
  · rw [if_pos hparted]
    obtain ⟨hinner, halt⟩ := Bool.and_eq_true_iff.1 hparted
    split_ifs <;> simp [Ending.goesOn, *]
  · rw [if_neg hparted, Bool.and_assoc (!alt.lacksElse || rest.isDone && closes),
      Bool.eq_false_of_not_eq_true hparted]
    simp [Ending.goesOn]

/-- The lines of a block in braces. -/
theorem Lines.block {pre : Bytes} {isEmpty : Bool} (h : Lines c level lead b text)
    (hpre : Lead .plain (pre ++ lead)) (hclose : Lead .plain (pre ++ indentation outer))
    (hempty : isEmpty = true → b ≠ .done) :
    Grammar.Block c .plain isEmpty (pre ++ (text ++ (indentation outer ++ [125]))) b.isDone
      b.drafted (b.parted true) := by
  induction h generalizing pre isEmpty with
  | done =>
    have hclosed : (!isEmpty || c.options.allowEmptyBlocks) = true := by
      cases isEmpty with
      | false => rfl
      | true => exact absurd rfl (hempty rfl)
    have hblock : Grammar.Block c .plain isEmpty _ _ _ _ := .close hclose
    rw [hclosed, List.append_assoc] at hblock
    exact hblock
  | @step lead line more p inner alt rest h hmore ih =>
    have hrest : Grammar.Block c .plain false ([] ++ (more ++ (indentation outer ++ [125]))) _ _ _ :=
      ih (lead_indentation level) (lead_indentation outer) (by simp)
    have hblock : Grammar.Block c .plain isEmpty _ _ _ _ := .line hpre h hrest
    rw [← Bool.and_true rest.isDone, goesOn_ending] at hblock
    have htext : pre ++ (lead ++ (line ++ 10 :: more) ++ (indentation outer ++ [125])) =
        pre ++ lead ++ (line ++ 10 :: ([] ++ (more ++ (indentation outer ++ [125])))) := by simp
    rw [htext]
    exact hblock

/-- The lines of an `if` or a `while`, and of what it governs. -/
def writeControl (lead : Bytes) (level : ℕ) (p : Placed) (inner alt : Block) : Script.Written := do
  let single := inner.isSingleSimple
  let body ← writeBlock (indentation (level + 1)) (level + 1) inner
  let opened := lead ++ writeHead p.statement ++ utf8 (if single then "\n" else " \x7b\n")
    ++ body ++ (if single then [] else indentation level ++ utf8 "\x7d")
  if alt.isDone then return opened ++ if single then [] else utf8 "\n"
  let joined := opened ++ (if single then indentation level ++ utf8 "else" else utf8 " else")
  if alt.isSingleIf then return joined ++ utf8 " " ++ (← writeBlock [] level alt)
  let other ← writeBlock (indentation (level + 1)) (level + 1) alt
  if alt.isSingleSimple then return joined ++ utf8 "\n" ++ other
  return joined ++ utf8 " \x7b\n" ++ other ++ indentation level ++ utf8 "\x7d\n"

theorem writeBlock_control (hidle : p.statement.type ≠ StatementType.noOp.code)
    (hcontrol : StatementType.isControl p.statement.type = true) :
    writeBlock lead level (.step p inner alt rest) = (do
      let here ← writeControl lead level p inner alt
      return here ++ (← writeBlock (indentation level) level rest)) := by
  rw [writeBlock, if_neg hidle, if_pos hcontrol, writeControl]
  dsimp only
  rw [bind_assoc]
  congr 1
  funext body
  split
  · rfl
  split
  · rw [bind_assoc]
  rw [bind_assoc]
  congr 1
  funext other
  split <;> rfl

theorem writeBlock_simple (hidle : p.statement.type ≠ StatementType.noOp.code)
    (hcontrol : StatementType.isControl p.statement.type = false)
    (h : writeBlock lead level (.step p inner alt rest) = .ok text) :
    ∃ line more, writeSimple p.statement = .ok line ∧
      writeBlock (indentation level) level rest = .ok more ∧
      text = lead ++ line ++ utf8 "\n" ++ more := by
  rw [writeBlock, if_neg hidle, if_neg (by simp [hcontrol])] at h
  split at h
  · rename_i line hline
    rw [pure_bind] at h
    obtain ⟨more, hmore, h⟩ := bind_eq_ok.1 h
    cases h
    exact ⟨line, more, hline, hmore, rfl⟩
  · change Except.error _ = Except.ok text at h
    cases h

/-! ### What an `if`, an `else` or a `while` governs -/

theorem eq_of_isSingleSimple (hb : b.Suited) (h : b.isSingleSimple = true) :
    ∃ p, b = .step p .done .done .done ∧ StatementType.isControl p.statement.type = false := by
  match b, hb, h with
  | .step p inner alt .done, hb, h =>
    have hcontrol : StatementType.isControl p.statement.type = false := by
      simpa [Block.isSingleSimple] using h
    obtain ⟨rfl, rfl⟩ := hb.1.simple hcontrol
    exact ⟨p, rfl, hcontrol⟩

theorem ending_simple (hcontrol : StatementType.isControl p.statement.type = false) :
    p.ending .done .done = .stop := by
  have htype : p.statement.type ≠ StatementType.ifThen.code := by
    intro h
    rw [h] at hcontrol
    cases hcontrol
  simp [Placed.ending, Block.parted, Block.lacksElse, htype]

/-- The line of a single statement that governs no other. -/
theorem Lines.single (h : Lines c level lead (.step p .done .done .done) text)
    (hcontrol : StatementType.isControl p.statement.type = false) :
    ∃ line, text = lead ++ (line ++ [10]) ∧
      Grammar.Statement c .plain .line line (Block.drafted (.step p .done .done .done)) .stop := by
  cases h with
  | step hline hmore =>
    cases hmore
    rw [ending_simple hcontrol] at hline
    exact ⟨_, rfl, hline⟩

variable {gov : Bytes} {put : Draft → Draft} {ends : Ending → Ending}

/-- What a text that governs a block is followed by, up to the end of the line after it. -/
def governedText (level : ℕ) (single : Bool) (body : Bytes) : Bytes :=
  if single then 10 :: body else utf8 " \x7b\n" ++ body ++ indentation level ++ utf8 "\x7d\n"

/-- What a condition is followed by, up to the `else` after it. -/
def firstText (level : ℕ) (single : Bool) (body : Bytes) : Bytes :=
  if single then 10 :: (body ++ indentation level)
  else utf8 " \x7b\n" ++ body ++ indentation level ++ utf8 "\x7d "

/-- What is governed without braces or in braces, after what governs it. -/
theorem Lines.governed (h : Lines c (level + 1) (indentation (level + 1)) b body) (hb : b.Suited)
    (hne : b ≠ .done) (hhead : Head c .plain .line gov put ends) :
    ∃ own ok, governedText level b.isSingleSimple body = own ++ [10] ∧
      (ok = Ending.stop ∨ ok = .brace) ∧ Grammar.Statement c .plain .line (gov ++ own)
        (put b.drafted) (ends (if b.parted true then ok else .refused)) := by
  by_cases hsingle : b.isSingleSimple = true
  · obtain ⟨p, rfl, hcontrol⟩ := eq_of_isSingleSimple hb hsingle
    obtain ⟨line, rfl, hline⟩ := h.single hcontrol
    refine ⟨10 :: indentation (level + 1) ++ line, .stop, ?_, .inl rfl, ?_⟩
    · simp [governedText, hsingle]
    · rw [show (Block.step p .done .done .done).parted true = true from rfl, if_pos rfl]
      exact .bare hhead (by simp) (lead_line_indentation _) (by rintro _ _ _ _ ⟨⟩; rfl) hline
  · have hblock : Grammar.Block c .plain true ([10] ++ (body ++ (indentation level ++ [125]))) _ _
        _ :=
      h.block (lead_line_indentation _) (lead_line_indentation _) fun _ => hne
    refine ⟨[32] ++ 123 :: ([10] ++ (body ++ (indentation level ++ [125])) ++ []), .brace, ?_,
      .inr rfl, ?_⟩
    · simp [governedText, hsingle, show utf8 " \x7b\n" = [32, 123, 10] from rfl,
        show utf8 "\x7d\n" = [125, 10] from rfl]
    · exact .braced hhead lead_blank (by rintro _ _ _ _ ⟨⟩; rfl) trail_nil hblock

/-- The first branch of an `if` that has an `else`. -/
theorem Lines.first (h : Lines c (level + 1) (indentation (level + 1)) b body) (hb : b.Suited)
    (hne : b ≠ .done) :
    Grammar.First c .plain (firstText level b.isSingleSimple body) b.drafted (b.parted true) := by
  by_cases hsingle : b.isSingleSimple = true
  · rw [hsingle]
    obtain ⟨p, rfl, hcontrol⟩ := eq_of_isSingleSimple hb hsingle
    obtain ⟨line, rfl, hline⟩ := h.single hcontrol
    have hparted : (Block.step p .done .done .done).parted true = true := rfl
    have htext : firstText level true (indentation (level + 1) ++ (line ++ [10])) =
        10 :: indentation (level + 1) ++ (line ++ 10 :: indentation level) := by simp [firstText]
    rw [htext]
    refine .line (lead_line_indentation _) ?_ (lead_indentation level)
    rw [if_pos hparted]
    exact hline
  · rw [Bool.eq_false_of_not_eq_true hsingle]
    have hblock : Grammar.Block c .plain true ([10] ++ (body ++ (indentation level ++ [125]))) _ _
        _ :=
      h.block (lead_line_indentation _) (lead_line_indentation _) fun _ => hne
    have htext : firstText level false body =
        [32] ++ 123 :: ([10] ++ (body ++ (indentation level ++ [125])) ++ [32]) := by
      simp [firstText, show utf8 " \x7b\n" = [32, 123, 10] from rfl,
        show utf8 "\x7d " = [125, 32] from rfl]
    rw [htext]
    exact .braced lead_blank hblock lead_blank

/-- The lines of an `if` or a `while`, and of what it governs. -/
theorem writeControl_eq : writeControl lead level p inner alt = (do
    let body ← writeBlock (indentation (level + 1)) (level + 1) inner
    if alt.isDone then
      return lead ++ (writeHead p.statement ++ governedText level inner.isSingleSimple body)
    let branch := writeHead p.statement ++ (firstText level inner.isSingleSimple body ++ utf8 "else")
    if alt.isSingleIf then return lead ++ (branch ++ 32 :: (← writeBlock [] level alt))
    let other ← writeBlock (indentation (level + 1)) (level + 1) alt
    return lead ++ (branch ++ governedText level alt.isSingleSimple other)) := by
  have htexts : utf8 "\n" = [10] ∧ utf8 " \x7b\n" = [32, 123, 10] ∧ utf8 "\x7d" = [125] ∧
      utf8 "\x7d\n" = [125, 10] ∧ utf8 " else" = 32 :: utf8 "else" ∧ utf8 "\x7d " = [125, 32] ∧
      utf8 " " = [32] := ⟨rfl, rfl, rfl, rfl, rfl, rfl, rfl⟩
  obtain ⟨h1, h2, h3, h4, h5, h6, h7⟩ := htexts
  rw [writeControl]
  cases inner.isSingleSimple <;> cases alt.isSingleSimple <;>
    simp [governedText, firstText, h1, h2, h3, h4, h5, h6, h7]

theorem control_code {code : UInt8} (h : StatementType.isControl code = true) :
    code = StatementType.ifThen.code ∨ code = StatementType.while.code := by
  simpa [StatementType.isControl] using h

theorem exists_single_if (h : alt.isSingleIf = true) : ∃ q inner' alt',
    alt = .step q inner' alt' .done ∧ q.statement.type = StatementType.ifThen.code := by
  match alt, h with
  | .step q inner' alt' .done, h => exact ⟨q, inner', alt', rfl, of_decide_eq_true h⟩

theorem lacksElse_eq_false (h : alt.isSingleIf = false) : alt.lacksElse = false := by
  match alt, h with
  | .done, _ => rfl
  | .step _ _ _ (.step ..), _ => rfl
  | .step q _ _ .done, h =>
    have htype : q.statement.type ≠ StatementType.ifThen.code := of_decide_eq_false h
    simp [Block.lacksElse, htype]

theorem ending_if {ok : Ending} (hok : ok = .stop ∨ ok = .brace)
    (htype : p.statement.type = StatementType.ifThen.code) :
    (if inner.parted true then ok else .refused).ofIf .line = p.ending inner .done := by
  have hdone : (Block.done).isDone = true := rfl
  rw [Placed.ending, hdone, htype]
  cases inner.parted true <;> rcases hok with rfl | rfl <;> rfl

theorem ending_while {ok : Ending} (hok : ok = .stop ∨ ok = .brace)
    (htype : p.statement.type = StatementType.while.code) :
    (if inner.parted true then ok else .refused).checked = p.ending inner .done := by
  rw [Placed.ending, htype]
  cases inner.parted true <;> rcases hok with rfl | rfl <;> rfl

/-- The ending of an `if` whose alternative is one `if`. -/
theorem ending_else_if {inner' alt' : Block} {q : Placed}
    (hq : q.statement.type = StatementType.ifThen.code) :
    (if inner.parted true then (q.ending inner' alt').checked else .refused) =
      p.ending inner (.step q inner' alt' .done) := by
  have hparted : (Block.step q inner' alt' .done).parted true =
      (inner'.parted true && alt'.parted true) := by
    simp [Block.parted, Block.isDone]
  have hlacks : (Block.step q inner' alt' .done).lacksElse = (alt'.isDone || alt'.lacksElse) := by
    simp [Block.lacksElse, hq]
  have hdone : (Block.step q inner' alt' .done).isDone = false := rfl
  rw [Placed.ending, Placed.ending, hparted, hlacks, hdone]
  generalize inner.parted true = x, (inner'.parted true && alt'.parted true) = y,
    alt'.isDone = z, alt'.lacksElse = w
  cases x <;> cases y <;> cases z <;> cases w <;> simp [Ending.checked, hq]

/-- The ending of an `if` whose alternative stands on lines of its own. -/
theorem ending_else {ok : Ending} (hok : ok = .stop ∨ ok = .brace) (hdone : alt ≠ .done)
    (hif : alt.isSingleIf = false) : (if inner.parted true then
        (if alt.parted true then ok else .refused).checked else .refused) = p.ending inner alt := by
  have hlacks := lacksElse_eq_false hif
  have hdone := Block.isDone_eq_false.2 hdone
  rw [Placed.ending, hlacks, hdone]
  generalize inner.parted true = x, alt.parted true = y
  cases x <;> cases y <;> rcases hok with rfl | rfl <;> simp [Ending.checked]

/-- The lines of an `if` or a `while` are those of one statement. -/
theorem statement_writeControl {here : Bytes} {e : Expr} (he : e.Stored)
    (hstatement : p.statement = ⟨p.statement.type, none, [], some e⟩)
    (hcontrol : StatementType.isControl p.statement.type = true) (hgoverns : p.Governs inner alt)
    (hinner : inner.Suited) (halt : alt.Suited)
    (hlines : ∀ {lead text level}, writeBlock lead level inner = .ok text →
      Lines c level lead inner text)
    (hlines' : ∀ {lead text level}, writeBlock lead level alt = .ok text →
      Lines c level lead alt text)
    (h : writeControl lead level p inner alt = .ok here) : ∃ line, here = lead ++ (line ++ [10]) ∧
      Grammar.Statement c .plain .line line (.step p.head inner.drafted alt.drafted .done)
        (p.ending inner alt) := by
  rw [writeControl_eq] at h
  obtain ⟨body, hbody, h⟩ := bind_eq_ok.1 h
  have hbody := hlines hbody
  obtain ⟨hne, -⟩ := hgoverns.control hcontrol
  have hcond := condition_stored (c := c) he
  rcases control_code hcontrol with htype | htype
  · have hhead : p.head = ⟨.ifThen, none, [], some e.parsed, .start []⟩ := by
      rw [Placed.head, hstatement, htype]
      rfl
    have hwritten : writeHead p.statement = utf8 "if" ++ conditionText e := by
      rw [hstatement, htype]
      rfl
    rw [hhead]
    rw [hwritten] at h
    by_cases hdone : alt = .done
    · subst hdone
      obtain ⟨own, ok, hown, hok, hline⟩ := hbody.governed hinner hne (.ifThen (by simp) hcond)
      rw [hown] at h
      cases h
      refine ⟨utf8 "if" ++ conditionText e ++ own, by simp, ?_⟩
      rw [← ending_if hok htype]
      exact hline
    · have helse := Head.otherwise (s := .line) hcond (hbody.first hinner hne)
      rw [if_neg (by simp [Block.isDone_eq_false.2 hdone])] at h
      by_cases hif : alt.isSingleIf = true
      · rw [if_pos hif] at h
        obtain ⟨other, hother, h⟩ := bind_eq_ok.1 h
        obtain ⟨q, inner', alt', rfl, hq⟩ := exists_single_if hif
        cases hlines' hother with
        | @step _ line more _ _ _ _ hline hmore =>
          cases hmore
          cases h
          have hwhole := Grammar.Statement.bare helse (by simp) lead_blank
            (by rintro _ _ _ _ ⟨⟩; rfl) hline
          rw [ending_else_if hq] at hwhole
          exact ⟨_, by simp, hwhole⟩
      · rw [if_neg hif] at h
        obtain ⟨other, hother, h⟩ := bind_eq_ok.1 h
        obtain ⟨own, ok, hown, hok, hline⟩ := (hlines' hother).governed halt hdone helse
        rw [hown] at h
        cases h
        rw [ending_else hok hdone (Bool.eq_false_of_not_eq_true hif)] at hline
        exact ⟨_, by simp, hline⟩
  · have hhead : p.head = ⟨.while, none, [], some e.parsed, .start []⟩ := by
      rw [Placed.head, hstatement, htype]
      rfl
    have hwritten : writeHead p.statement = utf8 "while" ++ conditionText e := by
      rw [hstatement, htype]
      rfl
    rw [hhead]
    rw [hwritten] at h
    have hdone : alt = .done := hgoverns.loop htype
    subst hdone
    obtain ⟨own, ok, hown, hok, hline⟩ := hbody.governed hinner hne (.loop hcond)
    rw [hown] at h
    cases h
    refine ⟨utf8 "while" ++ conditionText e ++ own, by simp, ?_⟩
    rw [← ending_while hok htype]
    exact hline

theorem lines_writeBlock (hsuited : b.Suited) (hlegible : ∀ p ∈ b.placed, Legible c p)
    (h : writeBlock lead level b = .ok text) : Lines c level lead b text := by
  induction b generalizing lead level text with
  | done =>
    cases h
    exact .done
  | step p inner alt rest ihi iha ihr =>
    obtain ⟨hgoverns, hi, ha, hr⟩ := hsuited
    have hmem {q : Placed} (hq : q ∈ inner.placed ∨ q ∈ alt.placed ∨ q ∈ rest.placed) :
        Legible c q := hlegible q (Block.mem_placed_step.2 (.inr hq))
    have hp := hlegible p (Block.mem_placed_step.2 (.inl rfl))
    have hrest {more : Bytes} (hmore : writeBlock (indentation level) level rest = .ok more) :
        Lines c level (indentation level) rest more :=
      ihr hr (fun q hq => hmem (.inr (.inr hq))) hmore
    cases hcontrol : StatementType.isControl p.statement.type with
    | false =>
      obtain ⟨line, more, hline, hmore, rfl⟩ := writeBlock_simple hp.not_idle hcontrol h
      obtain ⟨rfl, rfl⟩ := hgoverns.simple hcontrol
      have hstatement := Grammar.Statement.simple (hp.simple hcontrol line hline)
      rw [← ending_simple hcontrol] at hstatement
      have hlines : Lines c level lead (.step p .done .done rest) _ :=
        .step hstatement (hrest hmore)
      simpa [show utf8 "\n" = [10] from rfl] using hlines
    | true =>
      rw [writeBlock_control hp.not_idle hcontrol] at h
      obtain ⟨here, hhere, h⟩ := bind_eq_ok.1 h
      obtain ⟨more, hmore, h⟩ := bind_eq_ok.1 h
      cases h
      obtain ⟨e, he, hstatement⟩ := hp.control hcontrol
      obtain ⟨line, rfl, hline⟩ := statement_writeControl he hstatement hcontrol hgoverns hi ha
        (ihi hi fun q hq => hmem (.inl hq)) (iha ha fun q hq => hmem (.inr (.inl hq))) hhere
      have hlines : Lines c level lead (.step p inner alt rest) _ := .step hline (hrest hmore)
      simpa using hlines

end Compiler

end ApeScript
