import ApeScript.Proofs.CompiledExpr
import ApeScript.Proofs.DecimalText
import ApeScript.Proofs.Evaluation
import ApeScript.Proofs.Respelled

/-!
# Expressions as text

The text of a compiled expression is read as an expression that is laid out alike. An operand is
read up to what follows it, as long as that does not continue its last token (`Parses`), and an
operator between two operands is found in its tier, whichever table of tiers is in force
(`Parses.join`). A lone number or variable is stored under an addition to zero, which is not
written, so a negative zero there comes back as zero; everything else comes back as it was.
-/

namespace ApeScript

open Lexer (Remaining firstToken?)

/-! ### Tokens of expressions -/

namespace Lexer

variable {e : Bool} {mode : ReadMode} {flags : ReadFlags} {s rest : Bytes}

theorem firstToken?_blank :
    firstToken? e mode flags (32 :: s) = firstToken? e mode flags s := by
  have hgap : Scan.gap (32 :: s) = ((Scan.gap s).1 + 1, (Scan.gap s).2) :=
    Scan.gapFrom_succ 0 .plain s
  simp [firstToken?, hgap]

theorem firstToken?_identifier (hs : Script.Identifier s)
    (hrest : ∀ b ∈ rest.head?, isIdentifierByte b = false) :
    firstToken? e .normal flags (s ++ rest) = some ((.identifier, s), rest) :=
  firstToken?_of_first? (first?_identifier hs hrest) (by simp)

theorem firstToken?_quote (hscan : Scan.quotedFrom flags 1 (Script.escape s ++ 34 :: rest) =
    .done (1 + (Script.escape s).length + 1)) :
    firstToken? e .normal flags (Script.quote s ++ rest) =
      some ((.string, Script.quote s), rest) := by
  have hquote : Script.quote s = 34 :: (Script.escape s ++ [34]) := rfl
  have hfirst := first?_literal .normal flags (by simp) hscan
  rw [first?_blank] at hfirst
  have htext : Script.quote s ++ rest = 34 :: (Script.escape s ++ 34 :: rest) := by
    simp [hquote]
  rw [htext, hquote]
  exact firstToken?_of_first? hfirst (by simp)

theorem firstToken?_operator (op : Operator) :
    firstToken? e .normal flags (op.symbol ++ 32 :: rest) =
      some ((.operator, op.symbol), 32 :: rest) := by
  cases op <;> rfl

end Lexer

theorem Operator.ofSymbol?_symbol (op : Operator) : Operator.ofSymbol? op.symbol = some op := by
  cases op <;> rfl

theorem Operator.symbolOfCode_code (op : Operator) :
    Operator.symbolOfCode op.code = op.symbol := by
  cases op <;> rfl

namespace Compiler

variable {e : Lexer.Setting} {c : CompileContext} {tiers : List (List Operator)}
  {bound : Remaining} {text start rest more : Bytes} {k : Lexeme} {v : Value} {I J : Lexer → Prop}

def EndsOperand (rest : Bytes) : Prop := ∀ b ∈ rest.head?, isIdentifierByte b = false ∧ b ≠ 46

def Tiered (tiers : List (List Operator)) : Prop :=
  ∀ op : Operator, ∃ i, i < tiers.length ∧ op ∈ tiers.getD i [] ∧ ∀ j < i, op ∉ tiers.getD j []

theorem tiered_tiers : Tiered Operator.tiers := by
  intro op
  cases op <;> decide

theorem tiered_legacyTiers : Tiered Operator.legacyTiers := by
  intro op
  cases op <;> decide

def Passes (tier : List Operator) (k : Lexeme) : Prop :=
  ∀ token : Token, token.lexeme = k → operatorOf? tier token = none

theorem passes_of_ne_operator (hk : k.1 ≠ .operator) (tier : List Operator) : Passes tier k := by
  rintro token rfl
  exact if_neg hk

theorem operatorOf?_symbol {tier : List Operator} {token : Token} {op : Operator}
    (h : token.lexeme = (.operator, op.symbol)) :
    operatorOf? tier token = if op ∈ tier then some op else none := by
  have htype : token.type = .operator := congrArg Prod.fst h
  have htext : token.text = op.symbol := congrArg Prod.snd h
  simp [operatorOf?, htype, htext, Operator.ofSymbol?_symbol, Option.filter]

/-! ### Operands -/

/-- An operand that does not start with a minus sign. -/
theorem readsFrom_parseNegation (hk : k.1 ≠ .operator)
    (hfirst : firstToken? e.exponents .normal {} start = some (k, rest)) (hmacros : e.macros = [])
    (h : ReadsFrom (parseOperand tiers bound) c (Lexer.Stands e ⟨[k], rest⟩) J (· = v)) :
    ReadsFrom (parseNegation tiers bound) c (Lexer.Stands e ⟨[], start⟩) J (· = v) := by
  rw [parseNegation]
  refine .bind (.lift (Lexer.Stands.succeeds_peek hfirst
    (Lexer.Setting.literal_of_macros_nil hmacros _ _))) fun token ht => ?_
  have htype : token.type ≠ .operator := fun h => hk (ht ▸ h)
  rw [if_neg fun h => htype h.1]
  exact h

/-- A text is parsed as a value: as an operand before anything that does not continue it. -/
def Parses (e : Lexer.Setting) (text : Bytes) (v : Value) : Prop :=
  ∀ (c : CompileContext) (tiers : List (List Operator)) (bound : Remaining) (start rest : Bytes),
    Tiered tiers → EndsOperand rest →
    firstToken? e.exponents .normal {} start = firstToken? e.exponents .normal {} (text ++ rest) →
    (text ++ rest).length ≤ bound.unread →
    ReadsFrom (parseNegation tiers bound) c (Lexer.Stands e ⟨[], start⟩)
      (Lexer.Stands e ⟨[], rest⟩) (· = v)

/-- What is left after a text that is not empty is less. -/
theorem less_of_consumed {ks : List Lexeme} (htext : text ≠ [])
    (hbound : (text ++ rest).length ≤ bound.unread) : (Spot.remaining ⟨ks, rest⟩).Less bound := by
  have hpos := List.length_pos_of_ne_nil htext
  rw [List.length_append] at hbound
  exact Or.inl (show rest.length < bound.unread by omega)

theorem readsFrom_floatOfToken {x : Binary32} {token : Token}
    (ht : token.lexeme = (.number, text))
    (htext : (Decimal.ofText text).map Decimal.toBinary32 = some x)
    (hx : x.isFinite = true) : ReadsFrom (floatOfToken token) c I I (· = x) := by
  have htype : token.type = .number := congrArg Prod.fst ht
  have htoken : token.text = text := congrArg Prod.snd ht
  obtain ⟨d, hd, rfl⟩ := Option.map_eq_some_iff.1 htext
  have hrun : floatOfToken token = pure d.toBinary32 := by
    simp [floatOfToken, htype, htoken, hd, hx]
  rw [hrun]
  exact .pure rfl

/-- An operand of one token. -/
theorem Parses.of_token (type : TokenType) (hmacros : e.macros = []) (htype : type ≠ .operator)
    (hfirst : ∀ rest, EndsOperand rest →
      firstToken? e.exponents .normal {} (text ++ rest) = some ((type, text), rest))
    (h : ∀ {c tiers bound rest}, ReadsFrom (parseOperand tiers bound) c
      (Lexer.Stands e ⟨[(type, text)], rest⟩) (Lexer.Stands e ⟨[], rest⟩) (· = v)) :
    Parses e text v :=
  fun _ _ _ _ rest _ hrest hstart _ =>
    readsFrom_parseNegation htype (hstart.trans (hfirst rest hrest)) hmacros h

theorem parses_name (hmacros : e.macros = []) {name : Bytes} (hname : Script.Identifier name) :
    Parses e name (.ofName name) := by
  refine .of_token .identifier hmacros (by simp)
    (fun rest hrest => Lexer.firstToken?_identifier hname fun b hb => (hrest b hb).1) ?_
  intro c tiers bound rest
  rw [parseOperand]
  refine .bind (.lift Lexer.Stands.succeeds_peek_queued) fun token ht => ?_
  have htype : token.type = .identifier := congrArg Prod.fst ht
  have htext : token.text = name := congrArg Prod.snd ht
  rw [htype, htext]
  exact .bind (.lift Lexer.Stands.succeeds_consume) fun _ _ => .pure rfl

theorem parses_quote (hmacros : e.macros = []) (s : Bytes) :
    Parses e (Script.quote s) (.stringConst (Script.escape s)) := by
  refine .of_token .string hmacros (by simp)
    (fun rest _ => Lexer.firstToken?_quote (Scan.quotedFrom_escape rfl s)) ?_
  intro c tiers bound rest
  rw [parseOperand]
  refine .bind (.lift Lexer.Stands.succeeds_peek_queued) fun token ht => ?_
  have htype : token.type = .string := congrArg Prod.fst ht
  have htext : token.text = 34 :: (Script.escape s ++ [34]) := congrArg Prod.snd ht
  rw [htype, Token.unquoted_of_text htext]
  exact .bind (.lift Lexer.Stands.succeeds_consume) fun _ _ => .pure rfl

theorem parses_digits (hmacros : e.macros = []) {x : Binary32} (hx : x.isFinite = true) :
    Parses e x.shortest.trim.positional (.const x.size) := by
  obtain ⟨whole, places, -, hspells, -⟩ := x.shortest.trim.exists_spells
  refine .of_token .number hmacros (by simp)
    (fun rest hrest => hspells.firstToken? hrest e.exponents {}) ?_
  intro c tiers bound rest
  rw [parseOperand]
  refine .bind (.lift Lexer.Stands.succeeds_peek_queued) fun token ht => ?_
  have htype : token.type = .number := congrArg Prod.fst ht
  rw [htype]
  refine .bind (.lift Lexer.Stands.succeeds_consume) fun _ _ => ?_
  refine .bind (readsFrom_floatOfToken ht (Binary32.toBinary32_ofText hx) ?_) ?_
  · rw [Binary32.isFinite_size]
    exact hx
  · rintro _ rfl
    exact .pure rfl

/-- A number is read with its sign. -/
theorem parses_number (hmacros : e.macros = []) {x : Binary32} (hx : x.isFinite = true) :
    Parses e x.sourceText (.const x) := by
  have hdigits := parses_digits (e := e) hmacros hx
  rw [Binary32.sourceText_eq hx, Binary32.signText]
  unfold Binary32.size at hdigits
  split
  · rename_i hnegative
    rw [if_pos hnegative] at hdigits
    intro c tiers bound start rest htiers hrest hstart hbound
    have hminus : firstToken? e.exponents .normal {} start = some
        ((.operator, Operator.sub.symbol), x.shortest.trim.positional ++ rest) := hstart.trans rfl
    rw [List.append_assoc] at hbound
    have hless : (Spot.remaining ⟨[], x.shortest.trim.positional ++ rest⟩).Less bound :=
      less_of_consumed (by decide) hbound
    rw [parseNegation]
    refine .bind (.lift (Lexer.Stands.succeeds_peek hminus
      (Lexer.Setting.literal_of_macros_nil hmacros _ _))) fun token ht => ?_
    have htype : token.type = .operator := congrArg Prod.fst ht
    have htext : token.text = Operator.sub.symbol := congrArg Prod.snd ht
    rw [if_pos ⟨htype, htext⟩]
    refine .bind (.lift Lexer.Stands.succeeds_consume) fun _ _ => ?_
    refine .bind (.remaining fun l hl => hl.remaining_eq) ?_
    rintro _ rfl
    rw [dif_pos hless]
    refine .bind (hdigits c tiers _ _ rest htiers hrest rfl (Nat.le_refl _)) ?_
    rintro _ rfl
    change ReadsFrom (pure (Value.const x.neg.neg)) c _ _ _
    rw [Binary32.neg_neg]
    exact .pure rfl
  · rename_i hpositive
    rw [if_neg hpositive] at hdigits
    exact hdigits

/-! ### Operators -/

/-- Where a reader stands after an operand of the tightest tiers: what follows has been looked at,
unless no tier was tried. -/
def seam (level : Nat) (rest : Bytes) (k : Lexeme) (more : Bytes) : Spot :=
  if level = 0 then ⟨[], rest⟩ else ⟨[k], more⟩

theorem succeeds_peek_seam (hmacros : e.macros = [])
    (hnext : firstToken? e.exponents .normal {} rest = some (k, more)) (level : Nat) :
    Succeeds Lexer.peekNormal (Lexer.Stands e (seam level rest k more))
      (Lexer.Stands e ⟨[k], more⟩) (·.lexeme = k) := by
  unfold seam
  split
  · exact Lexer.Stands.succeeds_peek hnext (Lexer.Setting.literal_of_macros_nil hmacros _ _)
  · exact Lexer.Stands.succeeds_peek_queued

/-- A tier ends before a token that is none of its operators. -/
theorem readsFrom_parseTierRest_end {level : Nat}
    (hpeek : Succeeds Lexer.peekNormal I J (·.lexeme = k)) (hk : Passes (tiers.getD level []) k) :
    ReadsFrom (parseTierRest tiers bound level v) c I J (· = v) := by
  rw [parseTierRest]
  refine .bind (.lift hpeek) fun token ht => ?_
  rw [hk token ht]
  exact .pure rfl

/-- An operand before a token that is no operator of the tiers tried. -/
theorem Parses.parseTier (h : Parses e text v) (hmacros : e.macros = []) (htiers : Tiered tiers)
    (hrest : EndsOperand rest) (hnext : firstToken? e.exponents .normal {} rest = some (k, more))
    (hstart : firstToken? e.exponents .normal {} start =
      firstToken? e.exponents .normal {} (text ++ rest))
    (hbound : (text ++ rest).length ≤ bound.unread) {level : Nat}
    (hk : ∀ j < level, Passes (tiers.getD j []) k) :
    ReadsFrom (parseTier tiers bound level) c (Lexer.Stands e ⟨[], start⟩)
      (Lexer.Stands e (seam level rest k more)) (· = v) := by
  induction level with
  | zero =>
    rw [Compiler.parseTier]
    exact h c tiers bound start rest htiers hrest hstart hbound
  | succ level ih =>
    rw [Compiler.parseTier]
    refine .bind (ih fun j hj => hk j (Nat.lt_succ_of_lt hj)) ?_
    rintro _ rfl
    exact readsFrom_parseTierRest_end (succeeds_peek_seam hmacros hnext level)
      (hk level (Nat.lt_succ_self level))

theorem joinSides_code (op : Operator) (left right : Bytes) :
    Script.joinSides op.code left right ++ rest =
      left ++ 32 :: (op.symbol ++ 32 :: (right ++ rest)) := by
  simp [Script.joinSides, Operator.symbolOfCode_code, show utf8 " " = [32] from rfl]

/-- An operator between two operands, before a token that is no operator of the tiers tried. The
operator is found in its own tier, and looser tiers find nothing more. -/
theorem Parses.parseTier_join {left right : Bytes} {l r : Value} {op : Operator}
    (hl : Parses e left l) (hr : Parses e right r) (hmacros : e.macros = [])
    (htiers : Tiered tiers) (hrest : EndsOperand rest)
    (hnext : firstToken? e.exponents .normal {} rest = some (k, more))
    (hstart : firstToken? e.exponents .normal {} start =
      firstToken? e.exponents .normal {} (Script.joinSides op.code left right ++ rest))
    (hbound : (Script.joinSides op.code left right ++ rest).length ≤ bound.unread)
    (hk : ∀ j < tiers.length, Passes (tiers.getD j []) k) :
    ReadsFrom (Compiler.parseTier tiers bound tiers.length) c (Lexer.Stands e ⟨[], start⟩)
      (Lexer.Stands e ⟨[k], more⟩) (· = .binary op l r) := by
  obtain ⟨i, hi, hop, htighter⟩ := htiers op
  rw [joinSides_code] at hstart hbound
  have hends : EndsOperand (32 :: (op.symbol ++ 32 :: (right ++ rest))) := by
    simp [EndsOperand, isIdentifierByte, Bytes.isDigit, Bytes.isLower, Bytes.isUpper]
  have hoperator : firstToken? e.exponents .normal {} (32 :: (op.symbol ++ 32 :: (right ++ rest))) =
      some ((.operator, op.symbol), 32 :: (right ++ rest)) :=
    Lexer.firstToken?_blank.trans (Lexer.firstToken?_operator op)
  have hpasses : ∀ j < i, Passes (tiers.getD j []) (.operator, op.symbol) := by
    intro j hj token ht
    rw [operatorOf?_symbol ht, if_neg (htighter j hj)]
  -- the tier of the operator reads both sides
  have hown : ReadsFrom (Compiler.parseTier tiers bound (i + 1)) c (Lexer.Stands e ⟨[], start⟩)
      (Lexer.Stands e ⟨[k], more⟩) (· = .binary op l r) := by
    rw [Compiler.parseTier]
    refine .bind (hl.parseTier hmacros htiers hends hoperator hstart hbound hpasses) ?_
    rintro _ rfl
    rw [parseTierRest]
    refine .bind (.lift (succeeds_peek_seam hmacros hoperator i)) fun token ht => ?_
    rw [operatorOf?_symbol ht, if_pos hop]
    refine .bind (.lift Lexer.Stands.succeeds_consume) fun _ _ => ?_
    refine .bind (.remaining fun l hl => hl.remaining_eq) ?_
    rintro _ rfl
    have hconsumed : left ++ 32 :: op.symbol ≠ [] := by simp
    have hless : (Spot.remaining ⟨[], 32 :: (right ++ rest)⟩).Less bound :=
      less_of_consumed hconsumed (by simpa using hbound)
    rw [dif_pos hless]
    refine .bind (hr.parseTier hmacros htiers hrest hnext Lexer.firstToken?_blank
      (Nat.le_succ _) fun j hj => hk j (Nat.lt_trans hj hi)) ?_
    rintro _ rfl
    exact readsFrom_parseTierRest_end (succeeds_peek_seam hmacros hnext i) (hk i hi)
  -- looser tiers look at the token after the right side and leave it
  have hlooser : ∀ level, i + 1 ≤ level → level ≤ tiers.length →
      ReadsFrom (Compiler.parseTier tiers bound level) c (Lexer.Stands e ⟨[], start⟩)
        (Lexer.Stands e ⟨[k], more⟩) (· = .binary op l r) := by
    intro level hlevel
    induction level, hlevel using Nat.le_induction with
    | base => exact fun _ => hown
    | succ level _ ih =>
      intro hle
      rw [Compiler.parseTier]
      refine .bind (ih (Nat.le_of_succ_le hle)) ?_
      rintro _ rfl
      exact readsFrom_parseTierRest_end Lexer.Stands.succeeds_peek_queued (hk level hle)
  exact hlooser tiers.length hi (Nat.le_refl _)

/-- An operator between two operands in parentheses is an operand again. -/
theorem Parses.nested {left right : Bytes} {l r : Value} {op : Operator} (hl : Parses e left l)
    (hr : Parses e right r) (hmacros : e.macros = []) :
    Parses e (utf8 "(" ++ Script.joinSides op.code left right ++ utf8 ")") (.binary op l r) := by
  intro c tiers bound start rest htiers hrest hstart hbound
  have htext : utf8 "(" ++ Script.joinSides op.code left right ++ utf8 ")" ++ rest =
      40 :: (Script.joinSides op.code left right ++ 41 :: rest) := by
    simp [show utf8 "(" = [40] from rfl, show utf8 ")" = [41] from rfl]
  rw [htext] at hstart hbound
  have hless : (Spot.remaining ⟨[], Script.joinSides op.code left right ++ 41 :: rest⟩).Less
      bound := less_of_consumed (List.cons_ne_nil 40 []) hbound
  have hopen : firstToken? e.exponents .normal {} start =
      some ((.openParen, [40]), Script.joinSides op.code left right ++ 41 :: rest) :=
    hstart.trans rfl
  refine readsFrom_parseNegation (by simp) hopen hmacros ?_
  rw [parseOperand]
  refine .bind (.lift Lexer.Stands.succeeds_peek_queued) fun token ht => ?_
  have htype : token.type = .openParen := congrArg Prod.fst ht
  rw [htype]
  refine .bind (.lift Lexer.Stands.succeeds_consume) fun _ _ => ?_
  refine .bind (.remaining fun l hl => hl.remaining_eq) ?_
  rintro _ rfl
  rw [dif_pos hless]
  have hends : EndsOperand (41 :: rest) := by
    simp [EndsOperand, isIdentifierByte, Bytes.isDigit, Bytes.isLower, Bytes.isUpper]
  have hclose : firstToken? e.exponents .normal {} (41 :: rest) =
      some ((.closeParen, [41]), rest) := rfl
  refine .bind (hl.parseTier_join hr hmacros htiers hends hclose rfl (Nat.le_refl _)
    fun j _ => passes_of_ne_operator (by simp) _) ?_
  rintro _ rfl
  refine .bind (.lift Lexer.Stands.succeeds_read_queued) fun closing hclosing => ?_
  have hclosed : closing.type = .closeParen := congrArg Prod.fst hclosing
  rw [hclosed]
  exact .pure rfl

end Compiler

/-! ### Compiled expressions -/

def Operand.parsed : Operand → Value
  | .float x => .const x
  | .name s => .ofName s
  | .quoted s => .stringConst (Script.escape s)
  | .nested op _ _ l _ _ r => .binary ((Operator.ofCode? op).getD .add) l.parsed r.parsed
  | .missing | .invalid | .hollow => .invalid

def Expr.parsed (e : Expr) : Value :=
  if Script.isLoneOperand e then e.right.value.parsed
  else .binary ((Operator.ofCode? e.op).getD .add) e.left.value.parsed e.right.value.parsed

theorem Operator.getD_ofCode?_code (op : Operator) : (Operator.ofCode? op.code).getD .add = op := by
  cases op <;> rfl

namespace Value

variable {escapes : Bool} {v : Value} {pos : UInt64} {side : Side} {e : Expr}

inductive LaidAs (escapes : Bool) : Value → UInt64 → Side → Prop
  | number {x : Binary32} {pos : UInt64} (finite : x.isFinite = true) :
      LaidAs escapes (const x) pos ⟨OperandType.floatConst.code, pos, .float x⟩
  | floatVar {name : Bytes} {pos : UInt64} (identifier : Script.Identifier name)
      (kind : ofName name = .floatVar name) :
      LaidAs escapes (.floatVar name) pos ⟨OperandType.floatVar.code, pos, .name name⟩
  | stringVar {name : Bytes} {pos : UInt64} (identifier : Script.Identifier name)
      (kind : ofName name = .stringVar name) :
      LaidAs escapes (.stringVar name) pos ⟨OperandType.stringVar.code, pos, .name name⟩
  | text {raw text : Bytes} {pos : UInt64}
      (unescaped : Escape.unescape escapes true raw = .ok text) :
      LaidAs escapes (stringConst raw) pos ⟨OperandType.stringConst.code, pos, .quoted text⟩
  | binary {op : Operator} {l r : Value} {pos : UInt64} {left right : Side} (room : pos >>> 62 = 0)
      (left_laid : LaidAs escapes l (pos <<< 2 + 1) left)
      (right_laid : LaidAs escapes r (pos <<< 2 + 2) right) :
      LaidAs escapes (.binary op l r) pos
        ⟨OperandType.expression.code, pos, (Expr.mk op.code left right).toOperand⟩

theorem room_of_node {op : Operator} {left right : UInt64 → Except Cause Side}
    (h : node op pos left right = .ok e) : pos >>> 62 = 0 := by
  unfold node at h
  split at h
  · cases h
  · exact not_not.1 ‹_›

theorem node_eq {op : Operator} {left right : UInt64 → Except Cause Side} {l r : Side}
    (hroom : pos >>> 62 = 0) (hl : left (pos <<< 2 + 1) = .ok l)
    (hr : right (pos <<< 2 + 2) = .ok r) : node op pos left right = .ok ⟨op.code, l, r⟩ := by
  rw [node, if_neg (not_not.2 hroom), hl, hr]
  rfl

theorem laidAs_of_toSide (hv : v.Sound) (h : v.toSide escapes pos = .ok side) :
    LaidAs escapes v pos side := by
  induction v generalizing pos side with
  | const x => cases h; exact .number hv
  | floatVar name => cases h; exact .floatVar hv.1 hv.2
  | stringVar name => cases h; exact .stringVar hv.1 hv.2
  | stringConst raw =>
    obtain ⟨text, htext, hside⟩ := bind_eq_ok.1 h
    cases hside
    exact .text htext
  | binary op l r ihl ihr =>
    obtain ⟨e, he, hside⟩ := bind_eq_ok.1 h
    obtain ⟨left, right, hl, hr, rfl⟩ := node_ok he
    cases hside
    exact .binary (room_of_node he) (ihl hv.1 hl) (ihr hv.2 hr)
  | invalid => exact hv.elim

theorem LaidAs.toSide (h : LaidAs escapes v pos side) : v.toSide escapes pos = .ok side := by
  induction h with
  | number | floatVar | stringVar => rfl
  | text hraw => rw [Value.toSide, hraw]; rfl
  | binary hroom _ _ ihl ihr => rw [Value.toSide, node_eq hroom ihl ihr]; rfl

/-- The parsed text of a side is laid out as the side. -/
theorem LaidAs.parsed (h : LaidAs escapes v pos side) : LaidAs true side.value.parsed pos side := by
  induction h with
  | number hx => exact .number hx
  | floatVar hname hkind =>
    rw [Operand.parsed, hkind]
    exact .floatVar hname hkind
  | stringVar hname hkind =>
    rw [Operand.parsed, hkind]
    exact .stringVar hname hkind
  | text => exact .text (Script.unescape_escape true _)
  | binary hroom _ _ ihl ihr =>
    simp only [Expr.toOperand, Operand.parsed, Operator.getD_ofCode?_code]
    exact .binary hroom ihl ihr

/-- The parsed text of a side has the type of the value that was laid out. -/
theorem LaidAs.result_parsed (h : LaidAs escapes v pos side) :
    side.value.parsed.result = v.result := by
  induction h with
  | number | text => rfl
  | floatVar _ hkind | stringVar _ hkind => exact congrArg result hkind
  | binary _ _ _ ihl ihr =>
    simp only [Expr.toOperand, Operand.parsed, result, ihl, ihr, Operator.getD_ofCode?_code]

theorem LaidAs.parses {setting : Lexer.Setting} (hmacros : setting.macros = [])
    (h : LaidAs escapes v pos side) : Compiler.Parses setting
      (Script.operandSource side.type side.value) side.value.parsed := by
  induction h with
  | number hx => exact Compiler.parses_number hmacros hx
  | floatVar hname hkind | stringVar hname hkind => exact Compiler.parses_name hmacros hname
  | text => exact Compiler.parses_quote hmacros _
  | binary _ _ _ ihl ihr =>
    simp only [Expr.toOperand, Operand.parsed, Operator.getD_ofCode?_code]
    exact ihl.nested ihr hmacros

/-- The root stands at place one. A value that is no operator is laid out under an addition to
zero, which is not written if the value is a number. -/
theorem exists_laidAs (hv : v.Sound) (h : v.layout escapes = .ok e) :
    ∃ op l r left right, e = ⟨Operator.code op, left, right⟩ ∧ LaidAs escapes l 5 left ∧
      LaidAs escapes r 6 right ∧
        (v = .binary op l r ∨ (v.isFloat = true → Script.isLoneOperand e = true)) := by
  have hleaf (hleaf : node .add 1 ((const .zero).toSide escapes) (v.toSide escapes) = .ok e)
      (hlone : ∀ right, v.toSide escapes 6 = .ok right → v.isFloat = true →
        right.type = OperandType.floatConst.code ∨ right.type = OperandType.floatVar.code) :
      ∃ op l r left right, e = ⟨Operator.code op, left, right⟩ ∧ LaidAs escapes l 5 left ∧
        LaidAs escapes r 6 right ∧
          (v = .binary op l r ∨ (v.isFloat = true → Script.isLoneOperand e = true)) := by
    obtain ⟨left, right, hl, hr, rfl⟩ := node_ok hleaf
    cases hl
    refine ⟨.add, const .zero, v, _, right, rfl, .number Binary32.isFinite_zero,
      laidAs_of_toSide hv hr, Or.inr fun hfloat => ?_⟩
    have hzero : Binary32.zero.isZero = true := Binary32.isZero_zero
    simpa [Script.isLoneOperand, hzero] using hlone right hr hfloat
  cases v with
  | binary op l r =>
    have hnode : node op 1 (l.toSide escapes) (r.toSide escapes) = .ok e := h
    obtain ⟨left, right, hl, hr, rfl⟩ := node_ok hnode
    exact ⟨op, l, r, left, right, rfl, laidAs_of_toSide hv.1 hl, laidAs_of_toSide hv.2 hr,
      Or.inl rfl⟩
  | const x => exact hleaf h fun right hr _ => by cases hr; exact Or.inl rfl
  | floatVar name => exact hleaf h fun right hr _ => by cases hr; exact Or.inr rfl
  | stringConst | stringVar => exact hleaf h fun _ _ hfloat => by simp [isFloat, result] at hfloat
  | invalid => exact hv.elim

end Value

/-- Reading an expression from a text that starts like its own, apart from blanks and comments. -/
theorem Compiler.readsFrom_parseExpr_from {setting : Lexer.Setting} {o : Options} {e : Expr}
    {c : CompileContext} {start tail more : Bytes} {k : Lexeme} (hmacros : setting.macros = [])
    (he : e.Compiled o) (htail : EndsOperand tail)
    (hnext : firstToken? setting.exponents .normal {} tail = some (k, more))
    (hk : k.1 ≠ .operator) (hstart : firstToken? setting.exponents .normal {} start =
      firstToken? setting.exponents .normal {} (Script.expressionSource e ++ tail))
    (hlength : (Script.expressionSource e ++ tail).length ≤ start.length) :
    ReadsFrom parseExpr c (Lexer.Stands setting ⟨[], start⟩) (Lexer.Stands setting ⟨[k], more⟩)
      (· = e.parsed) := by
  obtain ⟨v, hv, -, hlayout⟩ := he
  obtain ⟨op, l, r, left, right, rfl, hl, hr, -⟩ := Value.exists_laidAs hv hlayout
  have hpasses (tiers : List (List Operator)) (level : Nat) :
      ∀ j < level, Passes (tiers.getD j []) k := fun j _ => passes_of_ne_operator hk _
  have hread (tiers : List (List Operator)) (htiers : Tiered tiers) (hne : tiers.length ≠ 0)
      (bound : Remaining) (hbound : (Script.expressionSource ⟨op.code, left, right⟩ ++ tail).length ≤
        bound.unread) : ReadsFrom (parseTier tiers bound tiers.length) c
        (Lexer.Stands setting ⟨[], start⟩)
        (Lexer.Stands setting ⟨[k], more⟩) (· = Expr.parsed ⟨op.code, left, right⟩) := by
    unfold Script.expressionSource at hbound hstart
    unfold Expr.parsed
    split
    · rename_i hlone
      rw [if_pos hlone] at hbound hstart
      have h := (hr.parses hmacros).parseTier (c := c) hmacros htiers htail hnext hstart hbound
        (hpasses tiers tiers.length)
      rw [seam, if_neg hne] at h
      exact h
    · rename_i hlone
      rw [if_neg hlone] at hbound hstart
      rw [Operator.getD_ofCode?_code]
      exact (hl.parses hmacros).parseTier_join (hr.parses hmacros) hmacros htiers htail hnext hstart
        hbound (hpasses tiers tiers.length)
  refine .bind .options ?_
  rintro _ rfl
  refine .bind (.remaining fun l hl => hl.remaining_eq) ?_
  rintro _ rfl
  split
  · exact hread _ tiered_legacyTiers (by decide) _ hlength
  · exact hread _ tiered_tiers (by decide) _ hlength

theorem Compiler.readsFrom_parseExpr {setting : Lexer.Setting} {o : Options} {e : Expr}
    {c : CompileContext} {tail more : Bytes} {k : Lexeme} (hmacros : setting.macros = [])
    (he : e.Compiled o) (htail : EndsOperand tail)
    (hnext : firstToken? setting.exponents .normal {} tail = some (k, more))
    (hk : k.1 ≠ .operator) :
    ReadsFrom parseExpr c (Lexer.Stands setting ⟨[], Script.expressionSource e ++ tail⟩)
      (Lexer.Stands setting ⟨[k], more⟩) (· = e.parsed) :=
  readsFrom_parseExpr_from hmacros he htail hnext hk rfl (Nat.le_refl _)

end ApeScript
