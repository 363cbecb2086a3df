import ApeScript.Proofs.ExpressionText
import ApeScript.Proofs.LineEnds
import ApeScript.Proofs.NestedSwitch

/-!
# Statements as text

`Grammar.Statement` says which texts are statements of a switch: simple statements, `if`s, `if`s
with an `else` and `while`s, each with or without braces around what it governs. What comes right
after it is a `Stop`. With the text come the draft that it stands for and its `Ending`, that is
where its parser is done. After an `if` without `else` at the end of a line the parser looks for an
`else` past that end. If such a statement is itself governed without braces, the one around it can
no longer see that its line has ended, and accepts nothing after it but a closing brace or the end
of the script.
-/

namespace ApeScript

open Lexer (Setting Stands Remaining Ahead Skips Reaches firstToken? ahead?)

/-- What comes right after a statement: the end of its line, or on the same line the closing brace
of the block around it or the `else` of the `if` around it. -/
inductive Stop where
  | line | brace | otherwise
  deriving DecidableEq

namespace Stop

def lexeme : Stop → Lexeme
  | line => (.endOfLine, [10])
  | brace => (.closeBrace, [125])
  | otherwise => (.identifier, utf8 "else")

abbrev bytes (s : Stop) : Bytes := s.lexeme.2

/-- The text `tail` may come after the stop. Line ends are skipped after the end of a line only. -/
inductive Before (e : Setting) (tail : Bytes) : Stop → Option (Lexeme × (Lexer → Prop)) → Prop
  | line {o : Option (Lexeme × (Lexer → Prop))} (h : Ahead e tail o) : Before e tail line o
  | brace : Before e tail brace none
  | otherwise (h : ∀ b ∈ tail.head?, isIdentifierByte b = false) : Before e tail otherwise none

theorem Before.ahead {e : Setting} {s : Stop} {tail : Bytes} {p : Lexeme × (Lexer → Prop)}
    (h : s.Before e tail (some p)) : s = Stop.line ∧ Ahead e tail (some p) := by
  cases h with
  | line h => exact ⟨rfl, h⟩

end Stop

/-- Where the parser of a statement ends, or of what an `if`, an `else` or a `while` governs: after
a closing brace, at what stops the statement, past the end of the line where an `else` was looked
for, or there but only before a closing brace or the end of the script. A refused one has no end. -/
inductive Ending where
  | brace | stop | passed | last | refused
  deriving DecidableEq

namespace Ending

/-- The ending of an `if` without `else`, from that of what it governs. -/
def ofIf (s : Stop) : Ending → Ending
  | brace | stop => if s = .line then passed else stop
  | passed | last => last
  | refused => refused

/-- The ending of a `while` or of an `if` with `else`, from that of what it governs last. -/
def checked : Ending → Ending
  | brace | stop => stop
  | passed | last => last
  | refused => refused

def isPast : Ending → Bool
  | passed | last => true
  | _ => false

/-- Whether something may follow: a closing brace, if `closes` says so, or another statement. -/
def goesOn (closes : Bool) : Ending → Bool
  | last => closes
  | refused => false
  | _ => true

/-- The condition on the lexer with which a parser stops before `tail`, from what is met there. -/
def out (e : Setting) (s : Stop) (trail tail : Bytes) (o : Option (Lexeme × (Lexer → Prop))) :
    Ending → Option (Lexer → Prop)
  | brace => some (Stands e ⟨[], trail ++ (s.bytes ++ tail)⟩)
  | stop => some (Stands e ⟨[s.lexeme], tail⟩)
  | passed => o.map Prod.snd
  | last => (o.filter (·.1.closes)).map Prod.snd
  | refused => none

end Ending

namespace Grammar

open Compiler

/-- No word goes on from one text into the next. -/
def Apart (s t : Bytes) : Prop :=
  ∀ a ∈ s.getLast?, isIdentifierByte a = true → ∀ b ∈ t.head?, isIdentifierByte b = false

def Keywords (e : Setting) : Prop :=
  ∀ word ∈ [utf8 "if", utf8 "while", utf8 "else"], e.body? word = none

/-- Blanks, comments and line ends that may stand before any token. -/
def Lead (e : Setting) (lead : Bytes) : Prop :=
  ∀ {text rest : Bytes} {k : Lexeme}, firstToken? e.exponents .normal {} text = some (k, rest) →
    e.Literal {} k → k.1 ≠ .endOfLine →
    ∀ l : Lexer, l.Stands e ⟨[], lead ++ text⟩ → l.Skips (Stands e ⟨[k], rest⟩)

def Trail (e : Setting) (s : Stop) (trail : Bytes) : Prop :=
  ∀ tail o, s.Before e tail o →
    firstToken? e.exponents .normal {} (trail ++ (s.bytes ++ tail)) = some (s.lexeme, tail)

/-- The text starts with a word of its own, which is neither a macro nor `else`. -/
structure Opens (e : Setting) (text word after : Bytes) : Prop where
  eq_append : text = word ++ after
  identifier : Script.Identifier word
  apart : ∀ b ∈ after.head?, isIdentifierByte b = false
  not_macro : e.body? word = none
  not_else : word ≠ utf8 "else"

structure Condition (c : CompileContext) (e : Setting) (text : Bytes) (v : Value) : Prop where
  nonempty : text ≠ []
  apart : ∀ b ∈ text.head?, isIdentifierByte b = false
  reads : ∀ tail, ReadsFrom parseCondition c (Stands e ⟨[], text ++ tail⟩) (Stands e ⟨[], tail⟩)
    (· = v)

/-- The text of a statement that governs no other, which is read up to its stop. -/
structure Simple (c : CompileContext) (e : Setting) (s : Stop) (text : Bytes) (d : Draft) :
    Prop where
  reads : ∃ word after, Opens e text word after ∧ (s = .otherwise → after ≠ []) ∧
    word ≠ utf8 "if" ∧ word ≠ utf8 "while" ∧
    ∀ (token : Token) (tail : Bytes) (o : Option (Lexeme × (Lexer → Prop))),
      token.lexeme = (.identifier, word) → s.Before e tail o →
      ReadsFrom (do let d ← parseSimple token; let _ ← Lexer.peekNormal; return d) c
        (Stands e ⟨[], after ++ (s.bytes ++ tail)⟩) (Stands e ⟨[s.lexeme], tail⟩) (·.Alike d)

/-- An `if` or a `while` over two drafts, at no place in particular. -/
def control (type : StatementType) (v : Value) (inner alt : Draft) : Draft :=
  .step ⟨type, none, [], some v, .start []⟩ inner alt .done

section

variable (c : CompileContext) (e : Setting)

mutual

inductive Statement : Stop → Bytes → Draft → Ending → Prop
  | simple {s : Stop} {text : Bytes} {d : Draft} (h : Simple c e s text d) :
    Statement s text d .stop
  | bare {s : Stop} {head lead text : Bytes} {put : Draft → Draft} {ends : Ending → Ending}
    {d : Draft} {k : Ending} (hhead : Head s head put ends) (hs : s ≠ .otherwise)
    (hlead : Lead e lead) (hapart : Apart head (lead ++ text)) (h : Statement s text d k) :
    Statement s (head ++ (lead ++ text)) (put d) (ends k)
  | braced {s : Stop} {head lead text trail : Bytes} {put : Draft → Draft} {ends : Ending → Ending}
    {d : Draft} {closes ok : Bool} (hhead : Head s head put ends) (hlead : Lead e lead)
    (hapart : Apart head (lead ++ [123])) (htrail : Trail e s trail)
    (h : Block true text closes d ok) :
    Statement s (head ++ (lead ++ 123 :: (text ++ trail))) (put d)
      (ends (if ok then .brace else .refused))

/-- A text that governs what follows it, with what it makes of its draft and of its ending. -/
inductive Head : Stop → Bytes → (Draft → Draft) → (Ending → Ending) → Prop
  | ifThen {s : Stop} {cond : Bytes} {v : Value} (hs : s ≠ .otherwise)
    (hcond : Condition c e cond v) :
    Head s (utf8 "if" ++ cond) (control .ifThen v · .done) (.ofIf s)
  | loop {s : Stop} {cond : Bytes} {v : Value} (hcond : Condition c e cond v) :
    Head s (utf8 "while" ++ cond) (control .while v · .done) .checked
  | otherwise {s : Stop} {cond first : Bytes} {v : Value} {d : Draft} {ok : Bool}
    (hcond : Condition c e cond v) (h : First first d ok) :
    Head s (utf8 "if" ++ (cond ++ (first ++ utf8 "else"))) (control .ifThen v d)
      (fun k => if ok then k.checked else .refused)

/-- The text of the first branch of an `if` up to its `else`, its draft, and whether it is
accepted. -/
inductive First : Bytes → Draft → Bool → Prop
  | line {lead text gap : Bytes} {d : Draft} {ok : Bool} (hlead : Lead e lead)
    (h : Statement .line text d (if ok then .stop else .refused)) (hgap : Lead e gap) :
    First (lead ++ (text ++ 10 :: gap)) d ok
  | sameLine {lead text : Bytes} {d : Draft} {ok : Bool} (hlead : Lead e lead)
    (h : Statement .otherwise text d (if ok then .stop else .refused)) : First (lead ++ text) d ok
  | braced {lead text gap : Bytes} {d : Draft} {closes ok : Bool} (hlead : Lead e lead)
    (h : Block true text closes d ok) (hgap : Lead e gap) :
    First (lead ++ 123 :: (text ++ gap)) d ok

/-- The text of a block up to its closing brace, whether that comes first, its draft, and whether
the block is accepted. -/
inductive Block : Bool → Bytes → Bool → Draft → Bool → Prop
  | close {isEmpty : Bool} {lead : Bytes} (hlead : Lead e lead) :
    Block isEmpty (lead ++ [125]) true .done (!isEmpty || c.options.allowEmptyBlocks)
  | line {isEmpty : Bool} {lead text more : Bytes} {d d' : Draft} {k : Ending} {closes ok : Bool}
    (hlead : Lead e lead) (h : Statement .line text d k) (hmore : Block false more closes d' ok) :
    Block isEmpty (lead ++ (text ++ 10 :: more)) false (d ++ d') (k.goesOn closes && ok)
  | last {isEmpty : Bool} {lead text : Bytes} {d : Draft} {ok : Bool} (hlead : Lead e lead)
    (h : Statement .brace text d (if ok then .stop else .refused)) :
    Block isEmpty (lead ++ (text ++ [125])) false d ok

end

end

open Lexer (peekNormal next skipLineEnds)

variable {c : CompileContext} {e : Setting} {s : Stop} {o : Option (Lexeme × (Lexer → Prop))}
  {o₁ o₂ : Option (Lexer → Prop)} {J K : Lexer → Prop} {trail tail text rest : Bytes} {k : Ending}
  {d inner : Draft} {loc : Location} {bound : Remaining} {elseMayFollow : Bool} {v : Value}
  {head : DraftStatement} {Q : Draft → Prop}

/-- No `else` is met. -/
def NoElse (o : Option (Lexeme × (Lexer → Prop))) : Prop :=
  o.map Prod.fst ≠ some (.identifier, utf8 "else")

theorem run_bind_eq_ok {α β : Type} {x : Compiler α} {f : α → Compiler β} {s u : CompileState}
    {b : β} : (x >>= f) c s = .ok b u ↔ ∃ a t, x c s = .ok a t ∧ f a c t = .ok b u :=
  run_bind_ok

/-! ### The end of a statement -/

theorem not_is_else {p : Lexeme} (h : p ≠ (.identifier, utf8 "else")) {token : Token}
    (ht : token.lexeme = p) : token.is (utf8 "else") = false := by
  rw [← Bool.not_eq_true, Token.is_eq_true, ht]
  exact h

theorem NoElse.ne_else {p : Lexeme × (Lexer → Prop)} (h : NoElse (some p)) :
    p.1 ≠ (.identifier, utf8 "else") :=
  fun helse => h (congrArg some helse)

/-- A stop is read after blanks and comments. -/
theorem firstToken?_stop (h : s.Before e tail o) :
    firstToken? e.exponents .normal {} (s.bytes ++ tail) = some (s.lexeme, tail) := by
  cases h with
  | line => rfl
  | brace => rfl
  | otherwise htail => exact Lexer.firstToken?_identifier (.of_all rfl) htail

theorem literal_stop (hkey : Keywords e) : e.Literal {} s.lexeme := by
  cases s with
  | otherwise => exact fun _ => Or.inr (hkey (utf8 "else") (by simp))
  | line | brace => simp [Setting.Literal, Stop.lexeme]

/-- A statement may end at its stop. -/
theorem ends_of_stop {token : Token} (hmay : s = .otherwise → elseMayFollow = true)
    (ht : token.lexeme = s.lexeme) : (token.type.endsLine || token.type = .closeBrace ||
      (elseMayFollow && token.is (utf8 "else"))) = true := by
  have htype : token.type = s.lexeme.1 := congrArg Prod.fst ht
  cases s with
  | otherwise => rw [hmay rfl, Token.is_eq_true.2 ht, Bool.true_and, Bool.or_true]
  | line | brace => rw [htype]; rfl

theorem reads_checkStatementEnd_stop {I : Lexer → Prop}
    (hmay : s = .otherwise → elseMayFollow = true)
    (h : Succeeds peekNormal I (Stands e ⟨[s.lexeme], tail⟩) (·.lexeme = s.lexeme)) :
    ReadsFrom (checkStatementEnd elseMayFollow) c I (Stands e ⟨[s.lexeme], tail⟩)
      fun _ => True := by
  refine .bind (.lift h) fun token ht => ?_
  rw [ends_of_stop hmay ht]
  exact .pure trivial

/-- Past the end of its line, a statement may end only before a closing brace or the end of the
script. -/
theorem runs_checkStatementEnd_past {p : Lexeme × (Lexer → Prop)} (hp : Ahead e tail (some p))
    (helse : NoElse (some p)) :
    Runs (checkStatementEnd elseMayFollow) c p.2 (Ending.last.out e .line [] tail (some p))
      fun _ => True := by
  obtain ⟨k, J⟩ := p
  cases hp with
  | reaches h =>
    refine .after (.lift (Lexer.HeadIs.succeeds_peek h.waits)) fun token ht => ?_
    have hline : token.type ≠ .endOfLine := fun hline => h.not_line (ht ▸ hline)
    have hends : (token.type.endsLine || token.type = .closeBrace) = k.closes := by
      rw [← ht, TokenType.endsLine, decide_eq_false hline, Bool.false_or]
      exact Bool.or_comm _ _
    rw [not_is_else helse.ne_else ht, Bool.and_false, Bool.or_false, hends]
    cases hk : k.closes with
    | true =>
      have hout : Ending.last.out e .line [] tail (some (k, J)) = some J := by
        simp [Ending.out, Option.filter, hk]
      rw [hout]
      exact .of_reads (.pure trivial)
    | false =>
      have hout : Ending.last.out e .line [] tail (some (k, J)) = none := by
        simp [Ending.out, Option.filter, hk]
      rw [hout]
      exact .of_fails .fail

theorem succeeds_peek_trail (hkey : Keywords e) (h : Trail e s trail) (ho : s.Before e tail o) :
    Succeeds peekNormal (Stands e ⟨[], trail ++ (s.bytes ++ tail)⟩) (Stands e ⟨[s.lexeme], tail⟩)
      (·.lexeme = s.lexeme) :=
  Stands.succeeds_peek (h tail o ho) (literal_stop hkey)

/-- The check at the end of a `while`, or of an `if` with `else`. -/
theorem runs_checkStatementEnd (hkey : Keywords e) (htrail : Trail e s trail)
    (ho : s.Before e tail o) (hmay : s = .otherwise → elseMayFollow = true)
    (helse : k.isPast = true → NoElse o) (hJ : k.out e s trail tail o = some J) :
    Runs (checkStatementEnd elseMayFollow) c J (k.checked.out e s [] tail o) fun _ => True := by
  cases k with
  | brace =>
    cases hJ
    exact .of_reads (reads_checkStatementEnd_stop hmay (succeeds_peek_trail hkey htrail ho))
  | stop =>
    cases hJ
    exact .of_reads (reads_checkStatementEnd_stop hmay Stands.succeeds_peek_queued)
  | refused => cases hJ
  | passed =>
    obtain ⟨p, rfl, rfl⟩ := Option.map_eq_some_iff.1 hJ
    obtain ⟨rfl, hp⟩ := ho.ahead
    exact runs_checkStatementEnd_past hp (helse rfl)
  | last =>
    obtain ⟨p, hp, rfl⟩ := Option.map_eq_some_iff.1 hJ
    obtain ⟨rfl, -⟩ := Option.filter_eq_some_iff.1 hp
    obtain ⟨rfl, hp⟩ := ho.ahead
    exact runs_checkStatementEnd_past hp (helse rfl)

/-! ### The alternative of an `if` -/

/-- After a line that has ended, an `else` is looked for, and the end need not be checked. -/
theorem runs_parseAlternative_line {I : Lexer → Prop} (hI : Succeeds peekNormal I
      (Stands e ⟨[(.endOfLine, [10])], tail⟩) (·.lexeme = (.endOfLine, [10])))
    (ho : Ahead e tail o) (helse : NoElse o) :
    Runs (parseAlternative bound loc head inner) c I (o.map Prod.snd)
      (· = (.step head inner .done .done, false)) := by
  refine .after (.lift hI) fun token ht => ?_
  have htype : token.type = .endOfLine := congrArg Prod.fst ht
  cases ho with
  | stuck h =>
    refine .of_fails (.left fun s hs => ?_)
    obtain ⟨err, m, hrun⟩ := h _ hs.dropped
    exact ⟨err, _, by rw [run_lift, hs.skipLineEnds_line, hrun]⟩
  | @reaches k J h =>
    have hskip : Succeeds skipLineEnds (Stands e ⟨[(.endOfLine, [10])], tail⟩) J fun _ => True :=
      fun l hl => Lexer.succeeds_skipLineEnds_skips l (h.skips_line hl)
    refine .after (.lift hskip) fun _ _ => ?_
    refine .after (.lift (Lexer.HeadIs.succeeds_peek h.waits)) fun next hnext => ?_
    rw [not_is_else helse.ne_else hnext, htype]
    exact .of_reads (.pure rfl)

/-- Where another token waits, the end of the statement has to be checked. -/
theorem reads_parseAlternative_waiting {I : Lexer → Prop} {p : Lexeme}
    (hI : Succeeds peekNormal I J (·.lexeme = p)) (hwaits : ∀ l, J l → l.HeadIs p)
    (hline : p.1 ≠ .endOfLine) (helse : p ≠ (.identifier, utf8 "else")) :
    ReadsFrom (parseAlternative bound loc head inner) c I J
      (· = (.step head inner .done .done, true)) := by
  have hskip : Succeeds skipLineEnds J J fun _ => True := fun l hl =>
    Lexer.succeeds_skipLineEnds_skips l (Lexer.skips_of_mem hwaits hline hl)
  refine .bind (.lift hI) fun token ht => ?_
  refine .bind (.lift hskip) fun _ _ => ?_
  refine .bind (.lift (Lexer.HeadIs.succeeds_peek hwaits)) fun next hnext => ?_
  have htype : token.type ≠ .endOfLine := fun htype => hline (ht ▸ htype)
  rw [not_is_else helse hnext, decide_eq_false htype]
  exact .pure rfl

/-- What an `if` does after its first branch, up to its end. -/
def endIf (bound : Remaining) (loc : Location) (head : DraftStatement) (inner : Draft)
    (elseMayFollow : Bool) : Compiler Draft := do
  let (d, needsCheck) ← parseAlternative bound loc head inner
  if needsCheck then checkStatementEnd elseMayFollow
  return d

theorem parseStatement_if : parseStatement bound ⟨.identifier, utf8 "if", loc⟩ elseMayFollow = (do
    let condition ← parseCondition
    let now ← remaining
    if now.Less bound then
      let inner ← parseBody now true
      endIf bound loc ⟨.ifThen, none, [], some condition, loc⟩ inner elseMayFollow
    else fail loc .stalled : Compiler Draft) := by
  have hif : parseStatement bound ⟨.identifier, utf8 "if", loc⟩ elseMayFollow = (do
      let (d, needsCheck) ← parseIf bound loc
      if needsCheck then checkStatementEnd elseMayFollow
      return d : Compiler Draft) := by
    rw [parseStatement]
    rfl
  rw [hif, parseIf_eq, bind_assoc]
  congr 1
  funext condition
  rw [bind_assoc]
  congr 1
  funext now
  split
  · rw [bind_assoc]
    rfl
  · rfl

/-- The end of an `if` without `else` at its stop. -/
theorem runs_endIf_stop {I : Lexer → Prop} (hs : s ≠ .otherwise) (ho : s.Before e tail o)
    (helse : s = .line → NoElse o)
    (hI : Succeeds peekNormal I (Stands e ⟨[s.lexeme], tail⟩) (·.lexeme = s.lexeme)) :
    Runs (endIf bound loc head inner elseMayFollow) c I ((Ending.stop.ofIf s).out e s [] tail o)
      (· = .step head inner .done .done) := by
  cases ho with
  | line ho =>
    refine (runs_parseAlternative_line hI ho (helse rfl)).andThen ?_
    rintro J _ rfl
    exact .pure rfl
  | brace =>
    refine .after (reads_parseAlternative_waiting hI (fun l hl => hl.waits) (by simp [Stop.lexeme])
      (by simp [Stop.lexeme])) ?_
    rintro _ rfl
    refine .of_reads (.bind (reads_checkStatementEnd_stop (s := .brace) (fun h => absurd h hs)
      Stands.succeeds_peek_queued) fun _ _ => .pure rfl)
  | otherwise => exact absurd rfl hs

/-- The end of an `if` without `else` past the end of its line. -/
theorem runs_endIf_past {p : Lexeme × (Lexer → Prop)} (hp : Ahead e tail (some p))
    (helse : NoElse (some p)) : Runs (endIf bound loc head inner elseMayFollow) c p.2
      (Ending.last.out e .line [] tail (some p)) (· = .step head inner .done .done) := by
  have hpast : ReadsFrom (parseAlternative bound loc head inner) c p.2 p.2
      (· = (.step head inner .done .done, true)) := by
    cases hp with
    | reaches h =>
      exact reads_parseAlternative_waiting (Lexer.HeadIs.succeeds_peek h.waits) h.waits h.not_line
        helse.ne_else
  refine .after hpast ?_
  rintro _ rfl
  exact (runs_checkStatementEnd_past hp helse).andThen fun J _ _ => .pure rfl

/-- The end of an `if` without `else`. -/
theorem runs_endIf (hkey : Keywords e) (hs : s ≠ .otherwise) (htrail : Trail e s trail)
    (ho : s.Before e tail o) (helse : (k.ofIf s).isPast = true → NoElse o)
    (hJ : k.out e s trail tail o = some J) :
    Runs (endIf bound loc head inner elseMayFollow) c J ((k.ofIf s).out e s [] tail o)
      (· = .step head inner .done .done) := by
  cases k with
  | brace =>
    cases hJ
    exact runs_endIf_stop hs ho (fun h => helse (by rw [h]; rfl))
      (succeeds_peek_trail hkey htrail ho)
  | stop =>
    cases hJ
    exact runs_endIf_stop hs ho (fun h => helse (by rw [h]; rfl)) Stands.succeeds_peek_queued
  | refused => cases hJ
  | passed =>
    obtain ⟨p, rfl, rfl⟩ := Option.map_eq_some_iff.1 hJ
    obtain ⟨rfl, hp⟩ := ho.ahead
    exact runs_endIf_past hp (helse rfl)
  | last =>
    obtain ⟨p, hp, rfl⟩ := Option.map_eq_some_iff.1 hJ
    obtain ⟨rfl, -⟩ := Option.filter_eq_some_iff.1 hp
    obtain ⟨rfl, hp⟩ := ho.ahead
    exact runs_endIf_past hp (helse rfl)

/-! ### What governs other statements -/

/-- The text is read as what an `if`, an `else` or a `while` governs. -/
def RunsBody (c : CompileContext) (e : Setting) (elseMayFollow : Bool) (text : Bytes)
    (o : Option (Lexer → Prop)) (d : Draft) : Prop :=
  ∀ bound : Remaining, text.length ≤ bound.unread →
    Runs (parseBody bound elseMayFollow) c (Stands e ⟨[], text⟩) o (·.Alike d)

variable {cond body : Bytes}

theorem less_of_length {ks : List Lexeme} (h : text.length < bound.unread) :
    (Spot.mk ks text).remaining.Less bound := Or.inl h

/-- A condition and what it governs, before what is done with both. -/
theorem runs_governed (hcond : Condition c e cond v)
    (hbody : RunsBody c e elseMayFollow body o₁ d)
    {f : Value → Draft → Compiler Draft} (hbound : (cond ++ body).length ≤ bound.unread)
    (hf : ∀ J, o₁ = some J → ∀ inner, inner.Alike d → Runs (f v inner) c J o₂ Q)
    (hnone : o₁ = none → o₂ = none) : Runs (do
      let condition ← parseCondition
      let now ← remaining
      if now.Less bound then
        let inner ← parseBody now elseMayFollow
        f condition inner
      else fail loc .stalled) c (Stands e ⟨[], cond ++ body⟩) o₂ Q := by
  refine .after (hcond.reads body) ?_
  rintro _ rfl
  refine .after (.remaining fun l hl => hl.remaining_eq) ?_
  rintro _ rfl
  have hlength : body.length < bound.unread := by
    have := List.length_pos_iff.2 hcond.nonempty
    rw [List.length_append] at hbound
    omega
  rw [if_pos (less_of_length hlength)]
  exact (hbody _ (Nat.le_refl _)).bind hf hnone

theorem runs_if (hcond : Condition c e cond v) (hbody : RunsBody c e true body o₁ d)
    (hbound : (cond ++ body).length ≤ bound.unread)
    (hend : ∀ J, o₁ = some J → ∀ inner, inner.Alike d →
      Runs (endIf bound loc ⟨.ifThen, none, [], some v, loc⟩ inner elseMayFollow) c J o₂ Q)
    (hnone : o₁ = none → o₂ = none) :
    Runs (parseStatement bound ⟨.identifier, utf8 "if", loc⟩ elseMayFollow) c
      (Stands e ⟨[], cond ++ body⟩) o₂ Q := by
  rw [parseStatement_if]
  exact runs_governed hcond hbody hbound hend hnone

theorem parseStatement_while :
    parseStatement bound ⟨.identifier, utf8 "while", loc⟩ elseMayFollow = (do
      let condition ← parseCondition
      let now ← remaining
      if now.Less bound then
        let inner ← parseBody now false
        checkStatementEnd elseMayFollow
        return .step ⟨.while, none, [], some condition, loc⟩ inner .done .done
      else fail loc .stalled : Compiler Draft) := by
  have hwhile : parseStatement bound ⟨.identifier, utf8 "while", loc⟩ elseMayFollow = (do
      let d ← parseWhile bound loc
      checkStatementEnd elseMayFollow
      return d : Compiler Draft) := by
    rw [parseStatement]
    rfl
  rw [hwhile, parseWhile, bind_assoc]
  congr 1
  funext condition
  rw [bind_assoc]
  congr 1
  funext now
  split
  · rw [bind_assoc]
    rfl
  · rfl

theorem runs_while (hcond : Condition c e cond v) (hbody : RunsBody c e false body o₁ d)
    (hbound : (cond ++ body).length ≤ bound.unread)
    (hend : ∀ J, o₁ = some J → Runs (checkStatementEnd elseMayFollow) c J o₂ fun _ => True)
    (hnone : o₁ = none → o₂ = none) :
    Runs (parseStatement bound ⟨.identifier, utf8 "while", loc⟩ elseMayFollow) c
      (Stands e ⟨[], cond ++ body⟩) o₂ (·.Alike (control .while v d .done)) := by
  rw [parseStatement_while]
  refine runs_governed hcond hbody hbound (fun J hJ inner hinner => ?_) hnone
  exact (hend J hJ).andThen fun K _ _ => .pure (.step ⟨rfl, trivial⟩ hinner .done .done)

/-- An `else` that is met past a first branch, and what it governs. -/
theorem runs_endIf_else (hJ : ∀ l, J l → l.Skips (Stands e ⟨[(.identifier, utf8 "else")], body⟩))
    (hbody : RunsBody c e false body o₁ d) (hbound : body.length < bound.unread)
    (hend : ∀ K, o₁ = some K → Runs (checkStatementEnd elseMayFollow) c K o₂ fun _ => True)
    (hnone : o₁ = none → o₂ = none) : Runs (endIf bound loc head inner elseMayFollow) c J o₂
      fun r => ∃ alt : Draft, alt.Alike d ∧ r = .step head inner alt .done := by
  have hskips : Succeeds peekNormal J
      (Skips (Stands e ⟨[(.identifier, utf8 "else")], body⟩)) fun _ => True :=
    fun l hl => Lexer.succeeds_peek_skips l (hJ l hl)
  have halternative : Runs (parseAlternative bound loc head inner) c J o₁
      fun r => (∃ alt : Draft, alt.Alike d ∧ r.1 = .step head inner alt .done) ∧ r.2 = true := by
    refine .after (.lift hskips) fun _ _ => ?_
    refine .after (.lift Lexer.succeeds_skipLineEnds_skips) fun _ _ => ?_
    refine .after (.lift Stands.succeeds_peek_queued) fun token ht => ?_
    rw [Token.is_eq_true.2 ht]
    refine .after (.lift Stands.succeeds_consume) fun _ _ => ?_
    refine .after (.remaining fun l hl => hl.remaining_eq) ?_
    rintro _ rfl
    rw [if_pos (less_of_length hbound)]
    refine (hbody _ (Nat.le_refl _)).andThen fun K alt halt => ?_
    exact .pure ⟨⟨alt, halt, rfl⟩, rfl⟩
  refine halternative.bind (fun K hK => ?_) hnone
  rintro ⟨_, _⟩ ⟨⟨alt, halt, rfl⟩, rfl⟩
  exact (hend K hK).andThen fun _ _ _ => .pure ⟨alt, halt, rfl⟩

/-! ### Words, bodies and blocks -/

section

variable {word after lead gap : Bytes} {closes ok isEmpty : Bool}

theorem Opens.first (h : Opens e text word after)
    (hrest : after = [] → ∀ b ∈ rest.head?, isIdentifierByte b = false) :
    firstToken? e.exponents .normal {} (text ++ rest) =
      some ((.identifier, word), after ++ rest) := by
  rw [h.eq_append, List.append_assoc]
  apply Lexer.firstToken?_identifier h.identifier
  cases after with
  | nil => exact hrest rfl
  | cons a after => exact h.apart

theorem Opens.literal (h : Opens e text word after) : e.Literal {} (.identifier, word) :=
  fun _ => Or.inr h.not_macro

/-- A stop other than `else` may come right after a word. -/
theorem Opens.first_stop (h : Opens e text word after) (hafter : s = .otherwise → after ≠ []) :
    firstToken? e.exponents .normal {} (text ++ (s.bytes ++ tail)) =
      some ((.identifier, word), after ++ (s.bytes ++ tail)) := by
  refine h.first fun hnil => ?_
  cases s with
  | otherwise => exact absurd hnil (hafter rfl)
  | line | brace => rintro _ ⟨⟩; rfl

structure RunsStatement (c : CompileContext) (e : Setting) (s : Stop) (text : Bytes) (d : Draft)
    (k : Ending) : Prop where
  not_brace : k ≠ .brace
  not_past : s ≠ .line → k.isPast = false
  runs : ∃ word after, Opens e text word after ∧ (s = .otherwise → after ≠ []) ∧
    ∀ {tail : Bytes} {o : Option (Lexeme × (Lexer → Prop))} {token : Token} {bound : Remaining}
      {elseMayFollow : Bool}, s.Before e tail o → (s = .otherwise → elseMayFollow = true) →
      (k.isPast = true → NoElse o) → token.lexeme = (.identifier, word) →
      (after ++ (s.bytes ++ tail)).length ≤ bound.unread →
      Runs (parseStatement bound token elseMayFollow) c
        (Stands e ⟨[], after ++ (s.bytes ++ tail)⟩) (k.out e s [] tail o) (·.Alike d)

def RunsHead (c : CompileContext) (e : Setting) (s : Stop) (head : Bytes) (put : Draft → Draft)
    (ends : Ending → Ending) : Prop :=
  ∃ word after, Opens e head word after ∧ after ≠ [] ∧
    ∀ {body trail tail : Bytes} {d : Draft} {k : Ending} {o : Option (Lexeme × (Lexer → Prop))}
      {token : Token} {bound : Remaining} {elseMayFollow : Bool},
      Trail e s trail → s.Before e tail o → (s = .otherwise → elseMayFollow = true) →
      ((ends k).isPast = true → NoElse o) → Apart head body →
      (ends .stop ≠ .refused → ∀ f, RunsBody c e f body (k.out e s trail tail o) d) →
      token.lexeme = (.identifier, word) →
      (after ++ body).length ≤ bound.unread →
      Runs (parseStatement bound token elseMayFollow) c (Stands e ⟨[], after ++ body⟩)
        ((ends k).out e s [] tail o) (·.Alike (put d))

/-- The text is read as the first branch of an `if`, up to its `else`. -/
def RunsFirst (c : CompileContext) (e : Setting) (first : Bytes) (d : Draft) (ok : Bool) : Prop :=
  ∀ rest : Bytes, (∀ b ∈ rest.head?, isIdentifierByte b = false) →
    ∃ o : Option (Lexer → Prop), RunsBody c e true (first ++ (utf8 "else" ++ rest)) o d ∧
      o.isSome = ok ∧ ∀ J, o = some J → ∀ l, J l →
        l.Skips (Stands e ⟨[(.identifier, utf8 "else")], rest⟩)

def RunsBlock (c : CompileContext) (e : Setting) (isEmpty : Bool) (text : Bytes) (closes : Bool)
    (d : Draft) (ok : Bool) : Prop :=
  ∃ (k : Lexeme) (after : Bytes), k.closes = closes ∧ k ≠ (.identifier, utf8 "else") ∧
    (∀ rest, Reaches e (text ++ rest) k (Stands e ⟨[k], after ++ rest⟩)) ∧
    ∀ {rest : Bytes} {bound : Remaining} {opened : Location},
      Runs (parseBlock bound opened isEmpty) c
        (fun l => l.Skips (Stands e ⟨[k], after ++ rest⟩) ∧ l.remaining.AtMost bound)
        (if ok then some (Stands e ⟨[], rest⟩) else none) (·.Alike d)

/-- A statement without braces. -/
theorem RunsStatement.runsBody (h : RunsStatement c e s text d k) (hlead : Lead e lead)
    (ho : s.Before e tail o) (hmay : s = .otherwise → elseMayFollow = true)
    (helse : k.isPast = true → NoElse o) :
    RunsBody c e elseMayFollow (lead ++ (text ++ (s.bytes ++ tail))) (k.out e s [] tail o) d := by
  intro bound hbound
  obtain ⟨word, after, hopens, hafter, hruns⟩ := h.runs
  have hskip : Succeeds skipLineEnds (Stands e ⟨[], lead ++ (text ++ (s.bytes ++ tail))⟩)
      (Stands e ⟨[(.identifier, word)], after ++ (s.bytes ++ tail)⟩) fun _ => True := fun l hl =>
    Lexer.succeeds_skipLineEnds_skips l
      (hlead (hopens.first_stop hafter) hopens.literal (by simp) l hl)
  rw [parseBody]
  refine .after (.lift hskip) fun _ _ => ?_
  refine .after (.lift Stands.succeeds_read_queued) fun token ht => ?_
  have htype : token.type ≠ .openBrace := by
    have htype : token.type = .identifier := congrArg Prod.fst ht
    simp [htype]
  rw [if_neg htype]
  refine hruns ho hmay helse ht (le_trans ?_ hbound)
  rw [hopens.eq_append]
  simp
  omega

/-- A block in braces. -/
theorem RunsBlock.runsBody (h : RunsBlock c e true text closes d ok) (hlead : Lead e lead) :
    RunsBody c e elseMayFollow (lead ++ 123 :: (text ++ rest))
      (if ok then some (Stands e ⟨[], rest⟩) else none) d := by
  intro bound hbound
  obtain ⟨k, after, -, -, hreaches, hruns⟩ := h
  have hfirst : firstToken? e.exponents .normal {} (123 :: (text ++ rest)) =
      some ((.openBrace, [123]), text ++ rest) := rfl
  rw [parseBody]
  have hskip : Succeeds skipLineEnds (Stands e ⟨[], lead ++ 123 :: (text ++ rest)⟩)
      (Stands e ⟨[(.openBrace, [123])], text ++ rest⟩) fun _ => True := fun l hl =>
    Lexer.succeeds_skipLineEnds_skips l (hlead hfirst (by simp [Setting.Literal]) (by simp) l hl)
  refine .after (.lift hskip) fun _ _ => ?_
  refine .after (.lift Stands.succeeds_read_queued) fun token ht => ?_
  have htype : token.type = .openBrace := congrArg Prod.fst ht
  rw [if_pos htype]
  refine hruns.weaken fun l hl => ⟨(hreaches rest).skips l hl, Or.inl ?_⟩
  rw [hl.remaining_eq]
  refine Or.inl (lt_of_lt_of_le ?_ hbound)
  simp [Spot.remaining]
  omega

/-! ### Heads -/

theorem out_ofIf_eq_none (h : k.out e s trail tail o = none) :
    (k.ofIf s).out e s [] tail o = none := by
  cases k <;> simp_all [Ending.out, Ending.ofIf]

theorem out_checked_eq_none (h : k.out e s trail tail o = none) :
    k.checked.out e s [] tail o = none := by
  cases k <;> simp_all [Ending.out, Ending.checked]

theorem isPast_checked : k.checked.isPast = k.isPast := by
  cases k <;> rfl

/-- A keyword and what comes after it. -/
theorem opens_keyword (hkey : Keywords e) (hword : word ∈ [utf8 "if", utf8 "while"])
    (hcond : ∀ b ∈ rest.head?, isIdentifierByte b = false) : Opens e (word ++ rest) word rest := by
  have hall : word ∈ [utf8 "if", utf8 "while", utf8 "else"] :=
    List.mem_of_mem_take (i := 2) hword
  refine ⟨rfl, ?_, hcond, hkey word hall, ?_⟩
  · obtain rfl | rfl : word = utf8 "if" ∨ word = utf8 "while" := by simpa using hword
    · exact .of_all rfl
    · exact .of_all rfl
  · rintro rfl
    revert hword
    decide

/-- A condition comes right after a keyword. -/
theorem Condition.opens (h : Condition c e cond v) (hkey : Keywords e)
    (hword : word ∈ [utf8 "if", utf8 "while"]) :
    Opens e (word ++ (cond ++ rest)) word (cond ++ rest) := by
  refine opens_keyword hkey hword ?_
  rw [List.head?_append_of_ne_nil _ h.nonempty]
  exact h.apart

theorem Condition.opens_self (h : Condition c e cond v) (hkey : Keywords e)
    (hword : word ∈ [utf8 "if", utf8 "while"]) : Opens e (word ++ cond) word cond :=
  opens_keyword hkey hword h.apart

theorem runsHead_ifThen (hkey : Keywords e) (hs : s ≠ .otherwise) (hcond : Condition c e cond v) :
    RunsHead c e s (utf8 "if" ++ cond) (control .ifThen v · .done) (.ofIf s) := by
  refine ⟨utf8 "if", cond, hcond.opens_self hkey (by simp), hcond.nonempty, ?_⟩
  intro body trail tail d k o token bound elseMayFollow htrail ho _ helse _ hbody ht hbound
  obtain ⟨type, text, loc⟩ := token
  obtain ⟨rfl, rfl⟩ := Prod.mk.inj ht
  have hlive : Ending.stop.ofIf s ≠ .refused := by cases s <;> simp [Ending.ofIf]
  refine runs_if hcond (hbody hlive true) hbound (fun J hJ inner hinner => ?_) out_ofIf_eq_none
  refine (runs_endIf hkey hs htrail ho helse hJ).mono ?_
  rintro _ rfl
  exact .step ⟨rfl, trivial⟩ hinner .done .done

theorem runsHead_loop (hkey : Keywords e) (hcond : Condition c e cond v) :
    RunsHead c e s (utf8 "while" ++ cond) (control .while v · .done) .checked := by
  refine ⟨utf8 "while", cond, hcond.opens_self hkey (by simp), hcond.nonempty, ?_⟩
  intro body trail tail d k o token bound elseMayFollow htrail ho hmay helse _ hbody ht hbound
  obtain ⟨type, text, loc⟩ := token
  obtain ⟨rfl, rfl⟩ := Prod.mk.inj ht
  refine runs_while hcond (hbody (by simp [Ending.checked]) false) hbound (fun J hJ => ?_)
    out_checked_eq_none
  rw [isPast_checked] at helse
  exact runs_checkStatementEnd hkey htrail ho hmay helse hJ

/-- The first token of a text is met past what may stand before it. -/
theorem Lead.reaches {p : Lexeme} (hlead : Lead e lead)
    (h : firstToken? e.exponents .normal {} text = some (p, rest)) (hliteral : e.Literal {} p)
    (hp : p.1 ≠ .endOfLine) (hle : rest.length ≤ text.length) :
    Reaches e (lead ++ text) p (Stands e ⟨[p], rest⟩) where
  skips := hlead h hliteral hp
  waits l hl := hl.waits
  not_line := hp
  unread l hl := by
    rw [hl.unread, List.length_append]
    exact le_add_left hle

/-- An `if` with an `else`. -/
theorem runsHead_otherwise {first : Bytes} (hkey : Keywords e) (hcond : Condition c e cond v)
    (hfirst : RunsFirst c e first d ok) :
    RunsHead c e s (utf8 "if" ++ (cond ++ (first ++ utf8 "else"))) (control .ifThen v d)
      (fun k => if ok then k.checked else .refused) := by
  refine ⟨utf8 "if", _, hcond.opens hkey (by simp), by simp [hcond.nonempty], ?_⟩
  intro body trail tail d' k o token bound elseMayFollow htrail ho hmay helse hapart hbody ht hbound
  obtain ⟨type, text, loc⟩ := token
  obtain ⟨rfl, rfl⟩ := Prod.mk.inj ht
  have hrest : ∀ b ∈ body.head?, isIdentifierByte b = false := by
    refine hapart 101 ?_ rfl
    rw [show utf8 "else" = utf8 "els" ++ [101] from rfl, ← List.append_assoc, ← List.append_assoc,
      ← List.append_assoc, List.getLast?_concat]
    rfl
  obtain ⟨o₁, hbody₁, hok, hskips⟩ := hfirst body hrest
  have htext : cond ++ (first ++ utf8 "else") ++ body =
      cond ++ (first ++ (utf8 "else" ++ body)) := by simp
  rw [htext] at hbound ⊢
  refine runs_if hcond hbody₁ hbound (fun J hJ inner hinner => ?_) fun hnone => ?_
  · have hlive : ok = true := by rw [← hok, hJ]; rfl
    simp only [hlive, if_true, isPast_checked] at helse hbody ⊢
    have hlength : body.length < bound.unread := by
      refine lt_of_lt_of_le ?_ hbound
      simp [show utf8 "else" = [101, 108, 115, 101] from rfl]
      omega
    refine (runs_endIf_else (hskips J hJ) (hbody (by simp [Ending.checked]) false) hlength
      (fun K hK => runs_checkStatementEnd hkey htrail ho hmay helse hK) out_checked_eq_none).mono ?_
    rintro _ ⟨alt, halt, rfl⟩
    exact .step ⟨rfl, trivial⟩ hinner halt .done
  · have hdead : ok = false := by rw [← hok, hnone]; rfl
    simp [hdead, Ending.out]

theorem reaches_else (hkey : Keywords e) (hgap : Lead e gap)
    (hrest : ∀ b ∈ rest.head?, isIdentifierByte b = false) :
    Reaches e (gap ++ (utf8 "else" ++ rest)) (.identifier, utf8 "else")
      (Stands e ⟨[(.identifier, utf8 "else")], rest⟩) :=
  hgap.reaches (Lexer.firstToken?_identifier (.of_all rfl) hrest)
    (fun _ => Or.inr (hkey _ (by simp))) (by simp) (by simp)

/-- A first branch without braces ends at the end of its line. -/
theorem RunsStatement.runsFirst (hkey : Keywords e) (hlead : Lead e lead)
    (h : RunsStatement c e .line text d (if ok then .stop else .refused)) (hgap : Lead e gap) :
    RunsFirst c e (lead ++ (text ++ 10 :: gap)) d ok := by
  intro rest hrest
  have helse := reaches_else hkey hgap hrest
  have htext : lead ++ (text ++ 10 :: gap) ++ (utf8 "else" ++ rest) =
      lead ++ (text ++ (Stop.line.bytes ++ (gap ++ (utf8 "else" ++ rest)))) := by
    simp [Stop.bytes, Stop.lexeme]
  rw [htext]
  refine ⟨_, h.runsBody hlead (.line (.reaches helse)) (by simp) ?_, ?_, fun J hJ l hl => ?_⟩
  · cases ok <;> simp [Ending.isPast]
  · cases ok <;> rfl
  · cases ok with
    | false => cases hJ
    | true =>
      cases hJ
      exact helse.skips_line hl

/-- Or it is followed by the `else` on the same line. -/
theorem RunsStatement.runsFirst_sameLine (hlead : Lead e lead)
    (h : RunsStatement c e .otherwise text d (if ok then .stop else .refused)) :
    RunsFirst c e (lead ++ text) d ok := by
  intro rest hrest
  rw [List.append_assoc]
  refine ⟨_, h.runsBody hlead (.otherwise hrest) (fun _ => rfl) ?_, ?_, fun J hJ l hl => ?_⟩
  · cases ok <;> simp [Ending.isPast]
  · cases ok <;> rfl
  · cases ok with
    | false => cases hJ
    | true =>
      cases hJ
      exact Lexer.skips_of_mem (fun l hl => hl.waits) (by simp) hl

/-- A first branch in braces ends after its closing brace. -/
theorem RunsBlock.runsFirst (hkey : Keywords e) (hlead : Lead e lead)
    (h : RunsBlock c e true text closes d ok) (hgap : Lead e gap) :
    RunsFirst c e (lead ++ 123 :: (text ++ gap)) d ok := by
  intro rest hrest
  have helse := reaches_else hkey hgap hrest
  have htext : lead ++ 123 :: (text ++ gap) ++ (utf8 "else" ++ rest) =
      lead ++ 123 :: (text ++ (gap ++ (utf8 "else" ++ rest))) := by simp
  rw [htext]
  refine ⟨_, h.runsBody hlead, ?_, fun J hJ l hl => ?_⟩
  · cases ok <;> rfl
  · cases ok with
    | false => cases hJ
    | true =>
      cases hJ
      exact helse.skips l hl

/-! ### Statements and blocks -/

variable {put : Draft → Draft} {ends : Ending → Ending} {gov : Bytes}

theorem Head.ends_ne_brace (h : Head c e s gov put ends) : ends k ≠ .brace := by
  cases h with
  | ifThen => cases k <;> cases s <;> simp [Ending.ofIf]
  | loop => cases k <;> simp [Ending.checked]
  | @otherwise _ _ _ _ _ ok => cases ok <;> cases k <;> simp [Ending.checked]

/-- Only the end of a line is passed. -/
theorem Head.not_past (h : Head c e s gov put ends) (hs : s ≠ .line) (hk : k.isPast = false) :
    (ends k).isPast = false := by
  cases h with
  | ifThen => cases k <;> simp_all [Ending.ofIf, Ending.isPast]
  | loop => exact isPast_checked.trans hk
  | @otherwise _ _ _ _ _ ok =>
    cases ok with
    | false => rfl
    | true => exact isPast_checked.trans hk

/-- What comes after the end of a line leaves its governing statement there, too. -/
theorem Head.isPast_ends (h : Head c e s gov put ends) (hlive : ends .stop ≠ .refused)
    (hk : k.isPast = true) : (ends k).isPast = true := by
  cases h with
  | ifThen => cases k <;> simp_all [Ending.ofIf, Ending.isPast]
  | loop => exact isPast_checked.trans hk
  | @otherwise _ _ _ _ _ ok =>
    cases ok with
    | false => exact absurd rfl hlive
    | true => exact isPast_checked.trans hk

theorem Apart.append {s t t' : Bytes} (h : Apart s t) (ht : t ≠ []) : Apart s (t ++ t') := by
  intro a ha hword b hb
  rw [List.head?_append_of_ne_nil _ ht] at hb
  exact h a ha hword b hb

theorem Apart.of_head? {s t t' : Bytes} (h : Apart s t) (ht : t'.head? = t.head?) :
    Apart s t' := by
  rwa [Apart, ht]

theorem Opens.append (h : Opens e text word after) (hafter : after ≠ []) :
    Opens e (text ++ rest) word (after ++ rest) where
  eq_append := by rw [h.eq_append, List.append_assoc]
  identifier := h.identifier
  apart := by
    rw [List.head?_append_of_ne_nil _ hafter]
    exact h.apart
  not_macro := h.not_macro
  not_else := h.not_else

theorem trail_nil : Trail e s [] := fun _ _ h => firstToken?_stop h

/-- What governs is read with what it governs. -/
theorem RunsHead.runsStatement {body : Bytes} (h : RunsHead c e s gov put ends)
    (hends : ends k ≠ .brace) (hpast : s ≠ .line → (ends k).isPast = false)
    (htrail : Trail e s trail) (hne : body ≠ []) (hapart : Apart gov body)
    (hbody : ∀ {tail : Bytes} {o : Option (Lexeme × (Lexer → Prop))}, s.Before e tail o →
      ((ends k).isPast = true → NoElse o) → ends .stop ≠ .refused →
      ∀ f, RunsBody c e f (body ++ (s.bytes ++ tail)) (k.out e s trail tail o) d) :
    RunsStatement c e s (gov ++ body) (put d) (ends k) := by
  obtain ⟨word, after, hopens, hafter, hruns⟩ := h
  refine ⟨hends, hpast, word, after ++ body, hopens.append hafter, by simp [hafter], ?_⟩
  intro tail o token bound elseMayFollow ho hmay helse ht hbound
  rw [List.append_assoc] at hbound ⊢
  exact hruns htrail ho hmay helse (hapart.append hne) (hbody ho helse) ht hbound

/-- A statement that governs no other is read up to its stop. -/
theorem reads_simple {token : Token} {I : Lexer → Prop}
    (hmay : s = .otherwise → elseMayFollow = true)
    (h : ReadsFrom (do let d ← parseSimple token; let _ ← Lexer.peekNormal; return d) c I
      (Stands e ⟨[s.lexeme], tail⟩) (·.Alike d)) :
    ReadsFrom (do let d ← parseSimple token; checkStatementEnd elseMayFollow; return d) c I
      (Stands e ⟨[s.lexeme], tail⟩) (·.Alike d) := by
  intro base u hu
  obtain ⟨d', t, hrun, hd, ht⟩ := h base u hu
  obtain ⟨d', t₁, hsimple, hrun⟩ := run_bind_eq_ok.1 hrun
  obtain ⟨next, t₂, hpeek, hrun⟩ := run_bind_eq_ok.1 hrun
  cases hrun
  -- the token that is looked at is the one that waits afterwards
  have hnext : next.lexeme = s.lexeme := by
    obtain ⟨l, hl, rfl⟩ := Gives.lift _ _ hpeek
    obtain ⟨queue, hqueue⟩ := Lexer.queue_of_peek hl
    have hwaits := ht.1.queue
    rw [hqueue] at hwaits
    exact (List.cons.inj hwaits).1
  have hcheck : checkStatementEnd elseMayFollow c t₁ = .ok () t := by
    rw [checkStatementEnd, bind_run hpeek, ends_of_stop hmay hnext]
    rfl
  refine ⟨d', t, ?_, hd, ht⟩
  rw [bind_run hsimple, bind_run hcheck]
  rfl

theorem Simple.runsStatement (h : Simple c e s text d) : RunsStatement c e s text d .stop := by
  obtain ⟨word, after, hopens, hafter, hif, hwhile, hreads⟩ := h.reads
  refine ⟨by simp, fun _ => rfl, word, after, hopens, hafter, ?_⟩
  intro tail o token bound elseMayFollow ho hmay _ ht _
  have htype : token.type = .identifier := congrArg Prod.fst ht
  have htext : token.text = word := congrArg Prod.snd ht
  rw [parseStatement, if_neg (by simp [htype]), if_neg (by rwa [htext]), if_neg (by rwa [htext])]
  exact .of_reads (reads_simple hmay (hreads token tail o ht ho))

/-- A closing brace ends a block. -/
theorem runs_parseBlock_close : Runs (parseBlock bound loc isEmpty) c
    (fun l => l.Skips (Stands e ⟨[(.closeBrace, [125])], rest⟩) ∧ l.remaining.AtMost bound)
    (if !isEmpty || c.options.allowEmptyBlocks then some (Stands e ⟨[], rest⟩) else none)
    (·.Alike .done) := by
  refine passesLineEnds_parseBlock.runs (fun _ _ => Nat.zero_le _) fun bound' _ => ?_
  rw [parseBlock]
  refine .after (.lift Stands.succeeds_peek_queued) fun token ht => ?_
  have htype : token.type = .closeBrace := congrArg Prod.fst ht
  rw [htype]
  refine .after (.lift Stands.succeeds_consume) fun _ _ => .after .options ?_
  rintro _ rfl
  cases hclosed : isEmpty && !c.options.allowEmptyBlocks with
  | true =>
    have hok : (!isEmpty || c.options.allowEmptyBlocks) = false := by
      revert hclosed
      cases isEmpty <;> cases c.options.allowEmptyBlocks <;> decide
    rw [hok]
    exact .of_fails (.left .fail)
  | false =>
    have hok : (!isEmpty || c.options.allowEmptyBlocks) = true := by
      revert hclosed
      cases isEmpty <;> cases c.options.allowEmptyBlocks <;> decide
    rw [hok]
    exact .of_reads (.pure .done)

theorem runsBlock_close (hlead : Lead e lead) :
    RunsBlock c e isEmpty (lead ++ [125]) true .done (!isEmpty || c.options.allowEmptyBlocks) := by
  refine ⟨(.closeBrace, [125]), [], rfl, by simp, fun rest => ?_, runs_parseBlock_close⟩
  have hfirst : firstToken? e.exponents .normal {} (125 :: rest) =
      some ((.closeBrace, [125]), rest) := rfl
  rw [List.append_assoc]
  exact hlead.reaches hfirst (by simp [Setting.Literal]) (by simp) (by simp)

theorem isSome_out {p : Lexeme} (hk : k ≠ .brace) :
    (k.out e .line [] tail (some (p, J))).isSome = k.goesOn p.closes := by
  cases k with
  | brace => exact absurd rfl hk
  | last => cases h : p.closes <;> simp [Ending.out, Ending.goesOn, Option.filter, h]
  | _ => rfl

/-- Where a statement ends, what comes next is met. -/
theorem skips_of_out {p : Lexeme} (hk : k ≠ .brace) (h : Reaches e tail p J)
    (hout : k.out e .line [] tail (some (p, J)) = some K) {l : Lexer} (hl : K l) :
    l.Skips J ∧ l.cursor.unread ≤ tail.length := by
  have hmet (hJ : J = K) : l.Skips J ∧ l.cursor.unread ≤ tail.length := by
    subst hJ
    exact ⟨h.skips_self hl, h.unread l hl⟩
  cases k with
  | brace => exact absurd rfl hk
  | stop =>
    cases hout
    exact ⟨h.skips_line hl, Nat.le_of_eq hl.unread⟩
  | passed => exact hmet (Option.some.inj hout)
  | last =>
    obtain ⟨q, hq, rfl⟩ := Option.map_eq_some_iff.1 hout
    obtain ⟨hq, -⟩ := Option.filter_eq_some_iff.1 hq
    exact hmet (by rw [← Option.some.inj hq])
  | refused => cases hout

/-- A statement of a block, and what follows it there up to the closing brace. -/
theorem runsBlock_statement {follow more : Bytes} {p : Lexeme} {d' : Draft} {goes : Bool}
    (hs : s ≠ .otherwise) (hlead : Lead e lead) (h : RunsStatement c e s text d k)
    (hnext : ∀ rest, ∃ tail o, follow ++ rest = s.bytes ++ tail ∧ s.Before e tail o ∧ NoElse o ∧
      (k.out e s [] tail o).isSome = goes ∧ ∀ K, k.out e s [] tail o = some K → ∀ l, K l →
        l.Skips (Stands e ⟨[p], more ++ rest⟩) ∧ l.cursor.unread ≤ tail.length)
    (hmore : ∀ {rest : Bytes} {bound : Remaining} {opened : Location},
      Runs (parseBlock bound opened false) c
        (fun l => l.Skips (Stands e ⟨[p], more ++ rest⟩) ∧ l.remaining.AtMost bound)
        (if ok then some (Stands e ⟨[], rest⟩) else none) (·.Alike d')) :
    RunsBlock c e isEmpty (lead ++ (text ++ follow)) false (d ++ d') (goes && ok) := by
  obtain ⟨-, -, word, after, hopens, hafter, hruns⟩ := h
  refine ⟨(.identifier, word), after ++ follow, rfl, ?_, fun rest => ?_, ?_⟩
  · simpa using hopens.not_else
  · obtain ⟨tail, o, hfollow, -⟩ := hnext rest
    have hle : (after ++ (s.bytes ++ tail)).length ≤ (text ++ (s.bytes ++ tail)).length := by
      simp [hopens.eq_append]
    have hreaches := hlead.reaches (hopens.first_stop hafter) hopens.literal (by simp) hle
    rw [← hfollow] at hreaches
    simpa using hreaches
  · intro rest bound opened
    obtain ⟨tail, o, hfollow, ho, helse, hgoes, hskips⟩ := hnext rest
    have htext : after ++ follow ++ rest = after ++ (s.bytes ++ tail) := by simp [hfollow]
    rw [htext]
    refine passesLineEnds_parseBlock.runs (fun l hl => Nat.le_of_eq hl.unread.symm)
      fun bound' hbound => ?_
    rw [parseBlock]
    refine .after (.lift Stands.succeeds_peek_queued) fun token ht => ?_
    have htype : token.type = .identifier := congrArg Prod.fst ht
    rw [htype]
    refine .after (.lift (Lexer.succeeds_expect_from Stands.succeeds_read_queued))
      fun first hfirst => ?_
    refine (hruns ho (fun h => absurd h hs) (fun _ => helse) hfirst hbound).bind
      (fun K hK d₁ hd₁ => .remaining_bind fun now => ?_) fun hnone => ?_
    · rw [hK] at hgoes
      rw [← hgoes, Option.isSome_some, Bool.true_and]
      by_cases less : now.Less bound'
      · rw [dif_pos less]
        have hblock : Runs (parseBlock now opened false) c (fun l => K l ∧ l.remaining = now)
            (if ok then some (Stands e ⟨[], rest⟩) else none) (·.Alike d') :=
          hmore.weaken fun l hl => ⟨(hskips K hK l hl.1).1, Or.inr hl.2⟩
        exact hblock.andThen fun _ d₂ hd₂ => .pure (hd₁.append hd₂)
      · -- less is left, so this does not happen
        refine .of_empty fun l hl => less ?_
        obtain ⟨-, hle⟩ := hskips K hK l hl.1
        rw [← hl.2]
        refine Or.inl (Nat.lt_of_le_of_lt hle (Nat.lt_of_lt_of_le ?_ hbound))
        have hpos : 0 < s.bytes.length := by cases s <;> decide
        rw [List.length_append, List.length_append]
        omega
    · rw [hnone] at hgoes
      rw [← hgoes]
      rfl

/-- A statement on a line of its own, and the rest of the block. -/
theorem runsBlock_line {more : Bytes} {d' : Draft} (hlead : Lead e lead)
    (h : RunsStatement c e .line text d k) (hmore : RunsBlock c e false more closes d' ok) :
    RunsBlock c e isEmpty (lead ++ (text ++ 10 :: more)) false (d ++ d')
      (k.goesOn closes && ok) := by
  obtain ⟨p, after, rfl, helse, hreaches, hrest⟩ := hmore
  refine runsBlock_statement (by simp) hlead h (fun rest => ⟨more ++ rest, _, rfl,
    .line (.reaches (hreaches rest)), ?_, isSome_out h.not_brace, fun K hK l hl => ?_⟩) hrest
  · simpa [NoElse] using helse
  · exact skips_of_out h.not_brace (hreaches rest) hK hl

/-- A statement before the closing brace of the block. -/
theorem runsBlock_last (hlead : Lead e lead)
    (h : RunsStatement c e .brace text d (if ok then .stop else .refused)) :
    RunsBlock c e isEmpty (lead ++ (text ++ [125])) false d ok := by
  have hblock : RunsBlock c e isEmpty (lead ++ (text ++ [125])) false (d ++ .done)
      (ok && (!false || c.options.allowEmptyBlocks)) := by
    have hclose {rest : Bytes} {bound : Remaining} {opened : Location} :
        Runs (parseBlock bound opened false) c
          (fun l => l.Skips (Stands e ⟨[(.closeBrace, [125])], [] ++ rest⟩) ∧
            l.remaining.AtMost bound)
          (if !false || c.options.allowEmptyBlocks then some (Stands e ⟨[], rest⟩) else none)
          (·.Alike .done) := runs_parseBlock_close
    refine runsBlock_statement (by simp) hlead h (fun rest => ⟨rest, none, rfl, .brace, ?_, ?_,
      fun K hK l hl => ?_⟩) hclose
    · simp [NoElse]
    · cases ok <;> rfl
    · cases ok with
      | false => cases hK
      | true =>
        cases hK
        exact ⟨Lexer.skips_of_mem (fun l hl => hl.waits) (by simp) hl,
          Nat.le_of_eq hl.unread⟩
  rwa [Draft.append_done, Bool.not_false, Bool.true_or, Bool.and_true] at hblock

/-- Every statement is read, up to its ending. -/
theorem Statement.runs (hkey : Keywords e) (h : Statement c e s text d k) :
    RunsStatement c e s text d k := by
  -- on the statements, on what governs them, on first branches and on blocks at once
  refine @Statement.rec c e (fun s text d k _ => RunsStatement c e s text d k)
    (fun s gov put ends _ => RunsHead c e s gov put ends)
    (fun first d ok _ => RunsFirst c e first d ok)
    (fun isEmpty text closes d ok _ => RunsBlock c e isEmpty text closes d ok)
    ?simple ?bare ?braced ?ifThen ?loop ?otherwise ?firstLine ?firstSameLine ?firstBraced
    ?close ?line ?last s text d k h
  case simple => exact fun h => h.runsStatement
  case bare =>
    intro s gov lead text put ends d k hhead hs hlead hapart _ hruns hstatement
    have hne : lead ++ text ≠ [] := by
      obtain ⟨word, after, hopens, -⟩ := hstatement.runs
      have hword := hopens.identifier.nonempty
      simp [hopens.eq_append, hword]
    refine hruns.runsStatement hhead.ends_ne_brace
      (fun h => hhead.not_past h (hstatement.not_past h)) trail_nil hne hapart
      fun ho helse hlive f => ?_
    rw [List.append_assoc]
    exact hstatement.runsBody hlead ho (fun h => absurd h hs) fun hpast =>
      helse (hhead.isPast_ends hlive hpast)
  case braced =>
    intro s gov lead text trail put ends d closes ok hhead hlead hapart htrail _ hruns hblock
    refine hruns.runsStatement hhead.ends_ne_brace (fun h => hhead.not_past h (by cases ok <;> rfl))
      htrail (by simp) (hapart.of_head? ?_) fun {tail o} ho helse hlive f => ?_
    · cases lead <;> rfl
    · have htext : lead ++ 123 :: (text ++ trail) ++ (s.bytes ++ tail) =
          lead ++ 123 :: (text ++ (trail ++ (s.bytes ++ tail))) := by simp
      rw [htext]
      have hbody : RunsBody c e f (lead ++ 123 :: (text ++ (trail ++ (s.bytes ++ tail))))
          (if ok then some (Stands e ⟨[], trail ++ (s.bytes ++ tail)⟩) else none) d :=
        hblock.runsBody hlead
      cases ok <;> exact hbody
  case ifThen => exact fun hs hcond => runsHead_ifThen hkey hs hcond
  case loop => exact fun hcond => runsHead_loop hkey hcond
  case otherwise => exact fun hcond _ hfirst => runsHead_otherwise hkey hcond hfirst
  case firstLine => exact fun hlead _ hgap hstatement => hstatement.runsFirst hkey hlead hgap
  case firstSameLine => exact fun hlead _ hstatement => hstatement.runsFirst_sameLine hlead
  case firstBraced => exact fun hlead _ hgap hblock => hblock.runsFirst hkey hlead hgap
  case close => exact fun hlead => runsBlock_close hlead
  case line => exact fun hlead _ _ hstatement hmore => runsBlock_line hlead hstatement hmore
  case last => exact fun hlead _ hstatement => runsBlock_last hlead hstatement

end

end Grammar

end ApeScript
