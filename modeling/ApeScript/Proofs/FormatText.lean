import ApeScript.Proofs.ExpressionText

/-!
# Formatting values as text

Formatting values are written like operands, but their strings are read as they stand. So a list of
values whose strings hold no quote is read with every string escaped once more, up to the end of the
line (`readsFrom_parseFormatList`) or up to the label of a choice
(`readsFrom_parseChoiceArguments`). No list that is read has a quote in a string
(`gives_parseFormatList`, `gives_parseChoiceArguments`), so a list that has one never comes back.
-/

namespace ApeScript

open Lexer (firstToken?)

def FormatValue.reread (v : FormatValue) : FormatValue :=
  match v.value with
  | .quoted s => { v with value := .quoted (Script.escape s) }
  | _ => v

namespace FormatValue

variable {v : FormatValue}

/-- What stands between the quotes of a string; nothing for any other value. -/
def literal (v : FormatValue) : Bytes :=
  match v.value with
  | .quoted s => s
  | _ => []

def lexeme (v : FormatValue) : Lexeme :=
  match v.value with
  | .float x => (.number, x.shortest.trim.positional)
  | .name s => (.identifier, s)
  | .quoted s => (.string, Script.quote s)
  | _ => (.endOfFile, [])

/-- A value comes back if no byte of it has to be escaped, and only then. -/
theorem reread_eq_self_iff : v.reread = v ↔ ∀ b ∈ v.literal, ¬ Script.Special b := by
  obtain ⟨type, value⟩ := v
  cases value with
  | quoted s => simpa [reread, literal] using Script.escape_eq_self_iff s
  | _ => simp [reread, literal]

theorem map_reread_eq_self_iff {values : List FormatValue} :
    values.map reread = values ↔ ∀ v ∈ values, ∀ b ∈ v.literal, ¬ Script.Special b := by
  induction values with
  | nil => simp
  | cons v values ih => simp [reread_eq_self_iff, ih]

theorem Compiled.source_eq (hv : v.Compiled) : Script.formatValueSource v = v.lexeme.2 := by
  cases hv with
  | number hfinite hunsigned =>
    have hsign : Binary32.sourceText _ = _ := Binary32.sourceText_eq hfinite
    simp only [Binary32.signText, hunsigned, Bool.false_eq_true, if_false, List.nil_append] at hsign
    exact hsign
  | _ => rfl

/-- The token of a value is cut off before whatever ends it. -/
theorem Compiled.firstToken? (hv : v.Compiled) (hquote : 34 ∉ v.literal) {rest : Bytes}
    (hrest : Compiler.EndsOperand rest) (exponents : Bool) :
    Lexer.firstToken? exponents .normal { ignoreEscapes := true }
      (Script.formatValueSource v ++ rest) = some (v.lexeme, rest) := by
  rw [hv.source_eq]
  cases hv with
  | @number x =>
    obtain ⟨whole, places, -, hspells, -⟩ := x.shortest.trim.exists_spells
    exact hspells.firstToken? hrest exponents _
  | numberVariable hname | stringVariable hname =>
    exact Lexer.firstToken?_identifier hname fun b hb => (hrest b hb).1
  | text s =>
    have h34 : 34 ∉ Script.escape s :=
      fun h => hquote (Script.mem_of_mem_escape h (by decide) (by decide))
    exact Lexer.firstToken?_quote (Scan.quotedFrom_plain rfl h34 (Script.newline_not_mem_escape s))

end FormatValue

namespace Compiler

variable {e : Lexer.Setting} {c : CompileContext} {I : Lexer → Prop} {v : FormatValue}
  {values vs : List FormatValue} {rest tail more : Bytes} {k : Lexeme}

theorem readsFrom_formatValueOfToken (hv : v.Compiled) {token : Token}
    (ht : token.lexeme = v.lexeme) :
    ReadsFrom (formatValueOfToken token) c I I (· = v.reread) := by
  unfold formatValueOfToken
  cases hv with
  | @number x hfinite hunsigned =>
    have hsize : x.size = x := if_neg (by simp [hunsigned])
    have htype : token.type = .number := congrArg Prod.fst ht
    have hvalue := Binary32.toBinary32_ofText hfinite
    rw [hsize] at hvalue
    rw [htype]
    refine .bind (readsFrom_floatOfToken ht hvalue hfinite) ?_
    rintro _ rfl
    exact .pure rfl
  | @numberVariable name _ hkind =>
    have htype : token.type = .identifier := congrArg Prod.fst ht
    have htext : token.text = name := congrArg Prod.snd ht
    rw [htype, htext]
    simp only [hkind, if_false]
    exact .pure rfl
  | @stringVariable name _ hkind =>
    have htype : token.type = .identifier := congrArg Prod.fst ht
    have htext : token.text = name := congrArg Prod.snd ht
    rw [htype, htext]
    simp only [hkind, if_true]
    exact .pure rfl
  | text s =>
    have htype : token.type = .string := congrArg Prod.fst ht
    have htext : token.text = 34 :: (Script.escape s ++ [34]) := congrArg Prod.snd ht
    rw [htype, Token.unquoted_of_text htext]
    exact .pure rfl

/-! ### Lists -/

theorem formatSource_cons : Script.formatSource (v :: vs) ++ rest =
    44 :: 32 :: (Script.formatValueSource v ++ (Script.formatSource vs ++ rest)) := by
  simp [Script.formatSource, show utf8 ", " = [44, 32] from rfl]

theorem endsOperand_comma (rest : Bytes) : EndsOperand (44 :: rest) := by
  intro b hb
  cases hb
  decide

theorem endsOperand_formatSource (htail : EndsOperand tail) :
    EndsOperand (Script.formatSource vs ++ tail) := by
  cases vs with
  | nil => exact htail
  | cons v vs =>
    rw [formatSource_cons]
    exact endsOperand_comma _

theorem exists_firstToken?_formatSource {exponents : Bool} (vs : List FormatValue)
    (hnext : firstToken? exponents .normal {} tail = some (k, more)) :
    ∃ k' more', firstToken? exponents .normal {} (Script.formatSource vs ++ tail) =
      some (k', more') := by
  cases vs with
  | nil => exact ⟨k, more, hnext⟩
  | cons v vs => exact ⟨_, _, by rw [formatSource_cons]; rfl⟩

theorem readsFrom_parseFormatRound (hmacros : e.macros = []) (hv : v.Compiled)
    (hquote : 34 ∉ v.literal) (hrest : EndsOperand rest)
    (hpeek : Succeeds Lexer.peekNormal I
      (Lexer.Stands e ⟨[(.comma, [44])], 32 :: (Script.formatValueSource v ++ rest)⟩)
      (·.lexeme = (.comma, [44]))) :
    ReadsFrom (parseFormatRound values) c I (Lexer.Stands e ⟨[], rest⟩)
      (· = .inl (values ++ [v.reread])) := by
  have hliteral := Lexer.Setting.literal_of_macros_nil hmacros
  have hvalue := Lexer.firstToken?_blank.trans (hv.firstToken? hquote hrest e.exponents)
  refine .bind (.lift hpeek) fun token ht => ?_
  have htype : token.type = .comma := congrArg Prod.fst ht
  rw [if_neg (not_not.2 htype)]
  refine .bind (.lift Lexer.Stands.succeeds_consume) fun _ _ => ?_
  refine .bind (.bind (.lift (Lexer.Stands.succeeds_read hvalue (hliteral _ _)))
    fun token ht => readsFrom_formatValueOfToken hv ht) ?_
  rintro _ rfl
  exact .pure rfl

/-- The rounds of a list from where its first token is met, which may have been looked at. -/
theorem readsFrom_formatRounds {k' : Lexeme} {more' : Bytes} {bound : Lexer.Remaining}
    (hmacros : e.macros = []) (hvs : ∀ v ∈ vs, v.Compiled) (hquotes : ∀ v ∈ vs, 34 ∉ v.literal)
    (htail : EndsOperand tail)
    (hnext : firstToken? e.exponents .normal {} tail = some (k, more)) (hk : k.1 ≠ .comma)
    (hfirst : firstToken? e.exponents .normal {} (Script.formatSource vs ++ tail) =
      some (k', more'))
    (hpeek : Succeeds Lexer.peekNormal I (Lexer.Stands e ⟨[k'], more'⟩) (·.lexeme = k'))
    (hbound : (Script.formatSource vs ++ tail).length ≤ bound.unread + 1) :
    ReadsFrom (repeatWithin parseFormatRound bound values) c I (Lexer.Stands e ⟨[k], more⟩)
      (· = values ++ vs.map FormatValue.reread) := by
  have hliteral := Lexer.Setting.literal_of_macros_nil hmacros
  induction vs generalizing values I k' more' bound with
  | nil =>
    cases hnext.symm.trans hfirst
    rw [List.map_nil, List.append_nil]
    refine .stop (.bind (.lift hpeek) fun token ht => ?_)
    have htype : token.type ≠ .comma := fun h => hk (ht ▸ h)
    rw [if_pos htype]
    exact .pure rfl
  | cons v vs ih =>
    obtain ⟨hv, hvs⟩ := List.forall_mem_cons.1 hvs
    obtain ⟨hquote, hquotes⟩ := List.forall_mem_cons.1 hquotes
    obtain ⟨_, _, hrest⟩ := exists_firstToken?_formatSource vs hnext
    rw [formatSource_cons] at hfirst hbound
    cases hfirst
    refine .goOn (readsFrom_parseFormatRound hmacros hv hquote (endsOperand_formatSource htail)
      hpeek) (fun l hl => hl.remaining_eq) ?_ ?_
    · left
      simp only [Spot.remaining, List.length_cons, List.length_append] at hbound ⊢
      omega
    · rw [List.map_cons, List.append_cons values _ (vs.map _)]
      refine ih hvs hquotes hrest (Lexer.Stands.succeeds_peek hrest (hliteral _ _)) ?_
      exact Nat.le_succ _

/-- The values are read with their strings escaped once more, up to what ends the list. -/
theorem readsFrom_parseFormatList (hmacros : e.macros = []) (hvs : ∀ v ∈ vs, v.Compiled)
    (hquotes : ∀ v ∈ vs, 34 ∉ v.literal) (htail : EndsOperand tail)
    (hnext : firstToken? e.exponents .normal {} tail = some (k, more)) (hk : k.1 ≠ .comma) :
    ReadsFrom parseFormatList c (Lexer.Stands e ⟨[], Script.formatSource vs ++ tail⟩)
      (Lexer.Stands e ⟨[k], more⟩) (· = vs.map FormatValue.reread) := by
  obtain ⟨_, _, hfirst⟩ := exists_firstToken?_formatSource vs hnext
  exact .repeatFrom (fun l hl => hl.remaining_eq) (readsFrom_formatRounds hmacros hvs hquotes htail
    hnext hk hfirst (Lexer.Stands.succeeds_peek hfirst
      (Lexer.Setting.literal_of_macros_nil hmacros _ _)) (Nat.le_succ _))

/-- A quoted text is read back in one line. -/
theorem readsFrom_quoted (hmacros : e.macros = []) (shown rest : Bytes) :
    ReadsFrom (do let token ← Lexer.read .quoted {}; stringValue token false) c
      (Lexer.Stands e ⟨[], 32 :: (Script.quote shown ++ rest)⟩) (Lexer.Stands e ⟨[], rest⟩)
      (· = shown) := by
  have hscan : Scan.quotedFrom {} 1 (Script.escape shown ++ 34 :: rest) =
      .done (1 + (Script.escape shown).length + 1) := Scan.quotedFrom_escape rfl shown
  have hfirst : firstToken? e.exponents .quoted {} (32 :: (Script.quote shown ++ rest)) =
      some ((.string, 34 :: (Script.escape shown ++ [34])), rest) := by
    have hquote : 32 :: (Script.quote shown ++ rest) =
        32 :: 34 :: (Script.escape shown ++ 34 :: rest) := by
      simp [Script.quote, Script.escape]
    rw [hquote]
    exact Lexer.firstToken?_of_first? (Lexer.first?_literal .quoted _ (by simp) hscan) (by simp)
  refine .bind (.lift (Lexer.Stands.succeeds_read hfirst
    (Lexer.Setting.literal_of_macros_nil hmacros _ _))) fun token ht => ?_
  rw [stringValue, Token.unquoted_of_text (congrArg Prod.snd ht)]
  exact .located (Script.unescape_escape false shown)

/-- A quoted text and a formatting list are read up to what ends the list. -/
theorem readsFrom_parseQuotedStatement {type : StatementType} {shown : Bytes} {loc : Location}
    (hmacros : e.macros = []) (hvs : ∀ v ∈ vs, v.Compiled) (hquotes : ∀ v ∈ vs, 34 ∉ v.literal)
    (htail : EndsOperand tail)
    (hnext : firstToken? e.exponents .normal {} tail = some (k, more)) (hk : k.1 ≠ .comma) :
    ReadsFrom (parseQuotedStatement type loc) c
      (Lexer.Stands e ⟨[], 32 :: (Script.quote shown ++ (Script.formatSource vs ++ tail))⟩)
      (Lexer.Stands e ⟨[k], more⟩)
      (· = .single ⟨type, some shown, vs.map FormatValue.reread, none, loc⟩) := by
  have hquoted : parseQuotedStatement type loc = (do
      let text ← (do let token ← Lexer.read .quoted {}; stringValue token false)
      let format ← parseFormatList
      return .single ⟨type, some text, format, none, loc⟩) := (bind_assoc ..).symm
  rw [hquoted]
  refine .bind (readsFrom_quoted hmacros shown _) ?_
  rintro _ rfl
  refine .bind (readsFrom_parseFormatList hmacros hvs hquotes htail hnext hk) ?_
  rintro _ rfl
  exact .pure rfl

/-! ### Arguments of a choice -/

def parseChoiceRound (values : List FormatValue) :
    Compiler (List FormatValue ⊕ (List FormatValue × Label)) := do
  let token ← Lexer.peek .normal { ignoreEscapes := true }
  if token.type ≠ .number then
    let v ← parseFormatValue
    let _ ← Lexer.expect .comma
    return .inl (values ++ [v])
  Lexer.consume
  if (← Lexer.peekNormal).type = .colon then
    Lexer.consume
    let low ← Lexer.expect .number
    return .inr (values, ← labelOfTokens token low)
  let v ← formatValueOfToken token
  let _ ← Lexer.expect .comma
  return .inl (values ++ [v])

theorem parseChoiceArguments_eq : parseChoiceArguments = repeatFrom [] parseChoiceRound := rfl

theorem readsFrom_parseChoiceRound (hmacros : e.macros = []) (hv : v.Compiled)
    (hquote : 34 ∉ v.literal) :
    ReadsFrom (parseChoiceRound values) c
      (Lexer.Stands e ⟨[], 32 :: (Script.formatValueSource v ++ 44 :: rest)⟩)
      (Lexer.Stands e ⟨[], rest⟩) (· = .inl (values ++ [v.reread])) := by
  have hliteral := Lexer.Setting.literal_of_macros_nil hmacros
  have hvalue := Lexer.firstToken?_blank.trans
    (hv.firstToken? hquote (endsOperand_comma rest) e.exponents)
  have hcomma : firstToken? e.exponents .normal {} (44 :: rest) = some ((.comma, [44]), rest) := rfl
  refine .bind (.lift (Lexer.Stands.succeeds_peek hvalue (hliteral _ _))) fun token ht => ?_
  have htype : token.type = v.lexeme.1 := congrArg Prod.fst ht
  by_cases hnumber : v.lexeme.1 = .number
  · -- the token after a number has to be looked at: a colon would make it a label
    rw [if_neg (not_not.2 (htype.trans hnumber))]
    refine .bind (.lift Lexer.Stands.succeeds_consume) fun _ _ => ?_
    refine .bind (.lift (Lexer.Stands.succeeds_peek hcomma (hliteral _ _))) fun next hnext => ?_
    have hcolon : next.type ≠ .colon := by
      rw [show next.type = .comma from congrArg Prod.fst hnext]
      decide
    rw [if_neg hcolon]
    refine .bind (readsFrom_formatValueOfToken hv ht) ?_
    rintro _ rfl
    exact .bind (.lift (Lexer.succeeds_expect_from Lexer.Stands.succeeds_read_queued))
      fun _ _ => .pure rfl
  · rw [if_pos (htype ▸ hnumber)]
    refine .bind (.bind (.lift Lexer.Stands.succeeds_read_queued)
      fun token ht => readsFrom_formatValueOfToken hv ht) ?_
    rintro _ rfl
    exact .bind (.lift (Lexer.succeeds_expect_from (Lexer.Stands.succeeds_read hcomma
      (hliteral _ _)))) fun _ _ => .pure rfl

theorem firstToken?_ofNat {exponents : Bool} {flags : ReadFlags} (n : Nat)
    (hrest : EndsOperand rest) :
    firstToken? exponents .normal flags (Bytes.ofNat n ++ rest) =
      some ((.number, Bytes.ofNat n), rest) := by
  have hspells : Decimal.Spells (Bytes.ofNat n) (Bytes.ofNat n) [] :=
    ⟨by simp, Bytes.ofNat_ne_nil n, fun _ => Bytes.isDigit_of_mem_ofNat, by simp⟩
  exact hspells.firstToken? hrest exponents flags

theorem readsFrom_parseChoiceRound_label (hmacros : e.macros = []) {label : Label}
    (hlabel : label.isInline = false) (htail : EndsOperand tail) :
    ReadsFrom (parseChoiceRound values) c (Lexer.Stands e ⟨[], 32 :: (label.text ++ tail)⟩)
      (Lexer.Stands e ⟨[], tail⟩) (· = .inr (values, label)) := by
  have hliteral := Lexer.Setting.literal_of_macros_nil hmacros
  have htext : label.text ++ tail = Bytes.ofNat (label.toNat / Label.lowLimit) ++
      58 :: (Bytes.ofNat (label.toNat % Label.lowLimit) ++ tail) := by
    simp [Label.text, show utf8 ":" = [58] from rfl]
  have hcolon : EndsOperand (58 :: (Bytes.ofNat (label.toNat % Label.lowLimit) ++ tail)) := by
    intro b hb
    cases hb
    decide
  rw [htext]
  refine .bind (.lift (Lexer.Stands.succeeds_peek (Lexer.firstToken?_blank.trans
    (firstToken?_ofNat _ hcolon)) (hliteral _ _))) fun high hhigh => ?_
  have htype : high.type = .number := congrArg Prod.fst hhigh
  rw [if_neg (not_not.2 htype)]
  refine .bind (.lift Lexer.Stands.succeeds_consume) fun _ _ => ?_
  refine .bind (.lift (Lexer.Stands.succeeds_peek rfl (hliteral _ _))) fun colon hcolon => ?_
  rw [if_pos (show colon.type = .colon from congrArg Prod.fst hcolon)]
  refine .bind (.lift Lexer.Stands.succeeds_consume) fun _ _ => ?_
  refine .bind (.lift (Lexer.succeeds_expect_from (Lexer.Stands.succeeds_read
    (firstToken?_ofNat _ htail) (hliteral _ _)))) fun low hlow => ?_
  refine .bind (readsFrom_labelOfTokens hlabel (congrArg Prod.snd hhigh)
    (congrArg Prod.snd hlow)) ?_
  rintro _ rfl
  exact .pure rfl

/-- The values are read with their strings escaped once more, and the label after them as it is. -/
theorem readsFrom_parseChoiceArguments (hmacros : e.macros = []) (hvs : ∀ v ∈ vs, v.Compiled)
    (hquotes : ∀ v ∈ vs, 34 ∉ v.literal) {label : Label} (hlabel : label.isInline = false)
    (htail : EndsOperand tail) {text : Bytes}
    (htext : 44 :: text = Script.formatSource vs ++ 44 :: 32 :: (label.text ++ tail)) :
    ReadsFrom parseChoiceArguments c (Lexer.Stands e ⟨[], text⟩) (Lexer.Stands e ⟨[], tail⟩)
      (· = (vs.map FormatValue.reread, label)) := by
  rw [parseChoiceArguments_eq, ← List.nil_append (vs.map _)]
  refine .repeatFrom (fun l hl => hl.remaining_eq) ?_
  generalize ([] : List FormatValue) = values
  induction vs generalizing values text with
  | nil =>
    obtain ⟨-, rfl⟩ := List.cons.inj htext
    rw [List.map_nil, List.append_nil]
    exact .stop (readsFrom_parseChoiceRound_label hmacros hlabel htail)
  | cons v vs ih =>
    obtain ⟨hv, hvs⟩ := List.forall_mem_cons.1 hvs
    obtain ⟨hquote, hquotes⟩ := List.forall_mem_cons.1 hquotes
    -- whether another value or the label follows, a comma comes first
    obtain ⟨rest, hrest⟩ : ∃ rest,
        Script.formatSource vs ++ 44 :: 32 :: (label.text ++ tail) = 44 :: rest := by
      cases vs with
      | nil => exact ⟨_, rfl⟩
      | cons => exact ⟨_, formatSource_cons⟩
    rw [formatSource_cons, hrest] at htext
    obtain ⟨-, rfl⟩ := List.cons.inj htext
    refine .goOn (readsFrom_parseChoiceRound hmacros hv hquote) (fun l hl => hl.remaining_eq) ?_ ?_
    · left
      simp only [Spot.remaining, List.length_cons, List.length_append]
      omega
    · simpa using ih hvs hquotes hrest.symm (values ++ [v.reread])

end Compiler

/-! ### Strings with quotes -/

def Token.Unbroken (t : Token) : Prop := t.type = .string → 34 ∉ t.unquoted

/-- A literal without escapes ends at its first quote. -/
theorem Scan.quotedFrom_done {flags : ReadFlags} (hescapes : flags.ignoreEscapes = true)
    (hstop : flags.stopNewline = false) {s : Bytes} {size n : Nat}
    (h : quotedFrom flags size s = .done n) :
    ∃ body rest : Bytes, s = body ++ 34 :: rest ∧ 34 ∉ body ∧ n = size + body.length + 1 := by
  induction s generalizing size with
  | nil => cases h
  | cons b s ih =>
    rw [quotedFrom.eq_def] at h
    simp only [hescapes, hstop, Bool.and_false, Bool.not_true, Bool.false_eq_true, if_false] at h
    split_ifs at h with hnewline hquote
    · cases h
      exact ⟨[], s, by rw [hquote]; rfl, by simp, by simp⟩
    · obtain ⟨body, rest, rfl, hbody, rfl⟩ := ih h
      refine ⟨b :: body, rest, rfl, ?_, ?_⟩
      · exact List.not_mem_cons_of_ne_of_not_mem (Ne.symm hquote) hbody
      · simp only [List.length_cons]
        omega

namespace Lexer

structure Waits (ts : List Token) (l : Lexer) : Prop where
  queue : l.queue = ts
  macros : l.macros = []

/-- From a lexer without macros in which nothing waits, `x` leaves one, with a result that
satisfies `P`. -/
def Grants {α : Type} (x : Lex α) (P : α → Prop) : Prop :=
  ∀ l a m, l.Waits [] → x l = .ok a m → m.Waits [] ∧ P a

namespace Grants

variable {α β : Type} {x y : Lex α} {f : α → Lex β} {P : α → Prop} {Q : β → Prop}

theorem pure {a : α} (h : P a) : Grants (pure a) P := by
  rintro l _ _ hl ⟨⟩
  exact ⟨hl, h⟩

theorem fail {loc : Location} {cause : Cause} : Grants (fail loc cause : Lex α) P := by
  rintro _ _ _ _ ⟨⟩

theorem get {f : Lexer → Lex β} (hf : ∀ l : Lexer, l.Waits [] → Grants (f l) Q) :
    Grants (get >>= f) Q :=
  fun l a m hl h => hf l hl l a m hl h

theorem bind (hx : Grants x P) (hf : ∀ a, P a → Grants (f a) Q) : Grants (x >>= f) Q := by
  intro l b m hl h
  change EStateM.bind x f l = .ok b m at h
  rw [EStateM.bind] at h
  cases hxl : x l with
  | ok a n =>
    rw [hxl] at h
    obtain ⟨hn, ha⟩ := hx l a n hl hxl
    exact hf a ha n b m hn h
  | error err n =>
    rw [hxl] at h
    cases h

theorem ite {p : Prop} [Decidable p] (hx : p → Grants x P) (hy : ¬ p → Grants y P) :
    Grants (if p then x else y) P := by
  split
  · exact hx ‹p›
  · exact hy ‹¬ p›

end Grants

variable {flags : ReadFlags}

theorem grants_advance {size : Nat} : Grants (advance size) fun _ => True := by
  rintro l _ _ hl ⟨⟩
  exact ⟨⟨hl.queue, hl.macros⟩, trivial⟩

theorem grants_take {type : TokenType} {outcome : Scan.Outcome} :
    Grants (take type outcome) (·.type = type) := by
  refine .get fun l _ => ?_
  cases outcome with
  | done size => exact .bind grants_advance fun _ _ => .pure rfl
  | failed size cause atStart =>
    refine .bind grants_advance fun _ _ => .ite (fun _ => .fail) fun _ => ?_
    exact .get fun _ _ => .fail

def Sharp (flags : ReadFlags) (t : Token) : Prop :=
  flags.ignoreEscapes = true → flags.stopNewline = false → t.Unbroken

theorem sharp_of_ne {t : Token} (h : t.type ≠ .string) : Sharp flags t :=
  fun _ _ hstring => absurd hstring h

theorem grants_take_sharp {type : TokenType} {outcome : Scan.Outcome} (h : type ≠ .string) :
    Grants (take type outcome) (Sharp flags) := by
  intro l t m hl hrun
  obtain ⟨hm, rfl⟩ := grants_take l t m hl hrun
  exact ⟨hm, sharp_of_ne h⟩

theorem grants_lexQuoted : Grants (lexQuoted flags) (Sharp flags) := by
  intro l t m hl hrun
  change take .string (Scan.quoted flags l.cursor.rest) l = .ok t m at hrun
  refine ⟨(grants_take l t m hl hrun).1, fun hescapes hstop _ => ?_⟩
  cases hscan : Scan.quoted flags l.cursor.rest with
  | failed size cause atStart =>
    rw [hscan] at hrun
    cases atStart <;> cases hrun
  | done size =>
    rw [hscan] at hrun
    cases hrun
    unfold Scan.quoted at hscan
    split at hscan
    · rename_i s hrest
      obtain ⟨body, rest, rfl, hbody, rfl⟩ := Scan.quotedFrom_done hescapes hstop hscan
      have hsplit : 34 :: (body ++ 34 :: rest) = 34 :: (body ++ [34]) ++ rest := by simp
      have hsize : 1 + body.length + 1 = (34 :: (body ++ [34])).length := by
        simp only [List.length_cons, List.length_append, List.length_nil]
        omega
      have htext : l.cursor.rest.take (1 + body.length + 1) = 34 :: (body ++ [34]) := by
        rw [hrest, hsplit, hsize, List.take_left]
      rw [Token.unquoted_of_text htext]
      exact hbody
    · cases hscan

theorem grants_lexNormal :
    Grants (lexNormal flags) fun r => Sharp flags r.1 ∧ r.2 = none := by
  have hlone {token : Lex Token} (h : Grants token (Sharp flags)) :
      Grants (token >>= fun t => pure (t, none)) fun r : Token × Option (List Token) =>
        Sharp flags r.1 ∧ r.2 = none := h.bind fun t ht => .pure ⟨ht, rfl⟩
  refine .get fun l hl => ?_
  have hbody (name : Bytes) : l.body? name = none := by simp [body?, hl.macros]
  split
  · exact .pure ⟨sharp_of_ne (by simp), rfl⟩
  · rename_i b rest _
    refine .ite (fun _ => hlone (grants_take_sharp (by decide))) fun _ => ?_
    refine .ite (fun _ => ?_) fun _ => ?_
    · refine .bind (grants_take_sharp (by decide)) fun t ht => .pure ⟨ht, ?_⟩
      simp [hbody]
    · refine .ite (fun _ => hlone grants_lexQuoted) fun _ => ?_
      exact hlone (grants_take_sharp (symbol_type b rest).2.1)

theorem grants_lex : Grants (lex .normal flags) (Sharp flags) := by
  refine .get fun l _ => ?_
  rw [lexWithin]
  refine .get fun l _ => .bind grants_advance fun _ _ => .get fun l _ => ?_
  split
  · refine .ite (fun _ => ?_) fun _ => .pure (sharp_of_ne (by simp))
    exact .bind (P := fun _ => False) .fail fun _ h => h.elim
  · exact grants_take_sharp (by decide)
  · refine .bind grants_lexNormal ?_
    rintro ⟨t, _⟩ ⟨ht, rfl⟩
    exact .pure ht

variable {l m : Lexer} {t : Token}

theorem peek_waits (hl : l.Waits []) (h : peek .normal flags l = .ok t m) :
    m.Waits [t] ∧ Sharp flags t := by
  simp only [peek, bind, EStateM.bind, get, getThe, MonadStateOf.get, EStateM.get, hl.queue] at h
  cases hlex : lex .normal flags l with
  | ok a n =>
    rw [hlex] at h
    cases h
    obtain ⟨hn, ha⟩ := grants_lex l t n hl hlex
    exact ⟨⟨congrArg (t :: ·) hn.queue, hn.macros⟩, ha⟩
  | error err n =>
    rw [hlex] at h
    cases h

theorem read_waits (hl : l.Waits []) (h : read .normal flags l = .ok t m) :
    m.Waits [] ∧ Sharp flags t := by
  simp only [read, bind, EStateM.bind, get, getThe, MonadStateOf.get, EStateM.get, hl.queue] at h
  exact grants_lex l t m hl h

theorem read_waits_queued {u : Token} (hl : l.Waits [u]) (h : read .normal flags l = .ok t m) :
    m.Waits [] ∧ t = u := by
  simp only [read, bind, EStateM.bind, get, getThe, MonadStateOf.get, EStateM.get, hl.queue] at h
  cases h
  exact ⟨⟨rfl, hl.macros⟩, rfl⟩

/-- What is expected is what is read. -/
theorem next_of_expect {type : TokenType} (h : expect type l = .ok t m) : next l = .ok t m := by
  simp only [expect, expectNamed, bind, EStateM.bind] at h
  cases hnext : next l with
  | ok a n =>
    rw [hnext] at h
    dsimp only at h
    split at h
    · exact h
    · cases h
  | error err n =>
    rw [hnext] at h
    cases h

end Lexer

namespace Compiler

variable {c : CompileContext} {s : CompileState} {values : List FormatValue} {token : Token}

theorem gives_lift {α : Type} {x : Lex α} {Q : α → Lexer → Prop}
    (h : ∀ a m, x s.lexer = .ok a m → Q a m) :
    Gives (liftM x) c s fun a t => Q a t.lexer := by
  refine .mono .lift ?_
  rintro a _ ⟨m, hm, rfl⟩
  exact h a m hm

theorem gives_peek {flags : ReadFlags} (hs : s.lexer.Waits []) :
    Gives (liftM (Lexer.peek .normal flags) : Compiler Token) c s fun token t =>
      t.lexer.Waits [token] ∧ Lexer.Sharp flags token :=
  gives_lift fun _ _ => Lexer.peek_waits hs

theorem gives_consume (hs : s.lexer.Waits [token]) :
    Gives (liftM Lexer.consume : Compiler Unit) c s fun _ t => t.lexer.Waits [] := by
  rintro _ _ ⟨⟩
  exact ⟨by simp [hs.queue], hs.macros⟩

theorem gives_formatValueOfToken (htoken : token.Unbroken) :
    Gives (formatValueOfToken token) c s fun v t => 34 ∉ v.literal ∧ t = s := by
  unfold formatValueOfToken
  split
  · refine .bind gives_floatOfToken ?_
    rintro x _ ⟨-, rfl⟩
    exact .pure ⟨by simp [FormatValue.literal], rfl⟩
  · exact .pure ⟨by simp [FormatValue.literal], rfl⟩
  · exact .pure ⟨htoken ‹_›, rfl⟩
  · exact .fail

/-- A value is read from the text or, if its token has been looked at, from the queue. -/
theorem gives_parseFormatValue (token : Token)
    (hs : s.lexer.Waits [] ∨ s.lexer.Waits [token] ∧ token.Unbroken) :
    Gives parseFormatValue c s fun v t => t.lexer.Waits [] ∧ 34 ∉ v.literal := by
  refine .bind (P := fun (u : Token) t => t.lexer.Waits [] ∧ u.Unbroken) ?_ ?_
  · refine gives_lift (Q := fun (u : Token) l => l.Waits [] ∧ u.Unbroken) fun u m h => ?_
    rcases hs with hs | ⟨hs, htoken⟩
    · obtain ⟨hm, hsharp⟩ := Lexer.read_waits hs h
      exact ⟨hm, hsharp rfl rfl⟩
    · obtain ⟨hm, rfl⟩ := Lexer.read_waits_queued hs h
      exact ⟨hm, htoken⟩
  · rintro u t ⟨ht, hu⟩
    refine (gives_formatValueOfToken hu).mono ?_
    rintro v _ ⟨hv, rfl⟩
    exact ⟨ht, hv⟩

theorem gives_expect (token : Token) {type : TokenType}
    (hs : s.lexer.Waits [] ∨ s.lexer.Waits [token]) :
    Gives (liftM (Lexer.expect type) : Compiler Token) c s fun _ t => t.lexer.Waits [] := by
  refine gives_lift (Q := fun _ l => l.Waits []) fun t m h => ?_
  rcases hs with hs | hs
  · exact (Lexer.read_waits hs (Lexer.next_of_expect h)).1
  · exact (Lexer.read_waits_queued hs (Lexer.next_of_expect h)).1

/-- Between two rounds nothing waits, and no value read so far has a quote in its string. -/
structure Gathered (values : List FormatValue) (s : CompileState) : Prop where
  waits : s.lexer.Waits []
  unbroken : ∀ v ∈ values, 34 ∉ v.literal

theorem Gathered.concat {t : CompileState} (h : Gathered values s) {v : FormatValue}
    (hv : 34 ∉ v.literal) (ht : t.lexer.Waits []) : Gathered (values ++ [v]) t :=
  ⟨ht, Contract.forall_mem_concat h.unbroken hv⟩

theorem gives_parseFormatRound (h : Gathered values s) :
    Gives (parseFormatRound values) c s fun r t =>
      Sum.elim (Gathered · t) (fun vs => ∀ v ∈ vs, 34 ∉ v.literal) r := by
  refine .bind (gives_peek h.waits) ?_
  rintro token t ⟨ht, -⟩
  refine .ite (fun _ => .pure h.unbroken) fun _ => .bind (gives_consume ht) fun _ t ht => ?_
  refine .bind (gives_parseFormatValue token (Or.inl ht)) ?_
  rintro v t ⟨ht, hv⟩
  exact .pure (h.concat hv ht)

/-- No value of a list that has been read has a quote in its string. -/
theorem gives_parseFormatList (hs : s.lexer.Waits []) :
    Gives parseFormatList c s fun vs _ => ∀ v ∈ vs, 34 ∉ v.literal :=
  .repeatFrom (I := Gathered) ⟨hs, by simp⟩ fun _ _ => gives_parseFormatRound

theorem gives_parseChoiceRound (h : Gathered values s) :
    Gives (parseChoiceRound values) c s fun r t =>
      Sum.elim (Gathered · t) (fun r => ∀ v ∈ r.1, 34 ∉ v.literal) r := by
  refine .bind (gives_peek h.waits) ?_
  rintro token t ⟨ht, hsharp⟩
  have htoken : token.Unbroken := hsharp rfl rfl
  refine .ite (fun _ => ?_) fun _ => .bind (gives_consume ht) fun _ t ht => ?_
  · refine .bind (gives_parseFormatValue _ (Or.inr ⟨ht, htoken⟩)) ?_
    rintro v t ⟨ht, hv⟩
    exact .bind (gives_expect token (Or.inl ht)) fun _ t ht => .pure (h.concat hv ht)
  · refine .bind (gives_peek ht) ?_
    rintro next t ⟨ht, -⟩
    refine .ite (fun _ => ?_) fun _ => .bind (gives_formatValueOfToken htoken) ?_
    · refine .bind (gives_consume ht) fun _ t ht => ?_
      refine .bind (gives_expect token (Or.inl ht)) fun low t _ => ?_
      exact .bind (P := fun _ _ => True) (fun _ _ _ => trivial) fun _ _ _ => .pure h.unbroken
    · rintro v _ ⟨hv, rfl⟩
      exact .bind (gives_expect _ (Or.inr ht)) fun _ t ht => .pure (h.concat hv ht)

theorem gives_parseChoiceArguments (hs : s.lexer.Waits []) :
    Gives parseChoiceArguments c s fun r _ => ∀ v ∈ r.1, 34 ∉ v.literal :=
  .repeatFrom (I := Gathered) ⟨hs, by simp⟩ fun _ _ => gives_parseChoiceRound

end Compiler

end ApeScript
