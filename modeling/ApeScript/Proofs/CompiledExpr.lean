import ApeScript.Compile.Expression
import ApeScript.Proofs.Contract
import ApeScript.Proofs.Rounding
import ApeScript.Proofs.WellFormed

/-!
# Compiled expressions

A parsed value is sound when no part of it is `invalid`, its numbers are finite and its variables
are identifiers of the right kind. The parser gives sound values, folding and joining keep them
sound, and inverting a condition does so whenever the inverse is a number. A sound value is laid out
as a well-formed expression or is too deep for its positions; it never fails for want of an operand.
-/

namespace ApeScript

namespace Value

/-- No part of the value is `invalid`, every number is finite, and every variable is an identifier
whose kind follows from its name. -/
def Sound : Value → Prop
  | const x => x.isFinite = true
  | v@(floatVar name) | v@(stringVar name) => Script.Identifier name ∧ ofName name = v
  | stringConst _ => True
  | binary _ l r => l.Sound ∧ r.Sound
  | invalid => False

theorem sound_ofName {name : Bytes} (h : Script.Identifier name) : (ofName name).Sound := by
  unfold ofName
  split
  · exact ⟨h, if_pos ‹_›⟩
  · exact ⟨h, if_neg ‹_›⟩

/-- Inverting gives up as a whole or not at all. -/
theorem invert_eq_invalid_or_sound {v : Value} (hv : v.Sound) :
    v.invert = .invalid ∨ v.invert.Sound := by
  induction v with
  | const x => exact Or.inr (Binary32.isFinite_truth _)
  | floatVar name => exact Or.inr ⟨hv, Binary32.isFinite_zero⟩
  | stringConst | stringVar => exact Or.inl rfl
  | invalid => exact hv.elim
  | binary op l r ihl ihr =>
    cases op with
    | or | and =>
      simp only [invert]
      split
      · exact Or.inl rfl
      · rename_i hvalid
        obtain ⟨hl, hr⟩ := not_or.1 hvalid
        refine Or.inr ⟨(ihl hv.1).resolve_left ?_, (ihr hv.2).resolve_left ?_⟩
        · exact fun h => hl (by rw [h]; rfl)
        · exact fun h => hr (by rw [h]; rfl)
    | gt | lt | ge | le | eq => exact Or.inr hv
    | xor | add | sub | mul | div | neq => exact Or.inr ⟨hv, Binary32.isFinite_zero⟩

theorem invert_sound {v : Value} (hv : v.Sound) (h : v.invert.isFloat = true) :
    v.invert.Sound := by
  refine (invert_eq_invalid_or_sound hv).resolve_left fun hinvalid => ?_
  simp [hinvalid, isFloat, result] at h

/-- The value of an operator is finite. -/
theorem evaluate_yields (op : Operator) (x y : Binary32) :
    Yields Cause.Reachable (·.isFinite = true) (op.evaluate x y) := by
  have hfinite (z : Binary32) : Yields Cause.Reachable (·.isFinite = true)
      (if z.isFinite then Except.ok z else Except.error Cause.nonFinite) := by
    split
    · exact ‹z.isFinite = true›
    · trivial
  cases op with
  | add | sub | mul => exact hfinite _
  | div =>
    simp only [Operator.evaluate]
    split
    · trivial
    · exact hfinite _
  | _ => exact Binary32.isFinite_truth _

theorem fold_yields {v : Value} (hv : v.Sound) : Yields Cause.Reachable Sound v.fold := by
  induction v with
  | binary op l r ihl ihr =>
    refine (ihl hv.1).bind fun l' hl => (ihr hv.2).bind fun r' hr => ?_
    split
    · exact (evaluate_yields ..).bind fun _ hx => hx
    · exact ⟨hl, hr⟩
  | invalid => exact hv.elim
  | _ => exact hv

theorem conjoin_sound {vs : List Value} (hvs : ∀ v ∈ vs, v.Sound) {v : Value}
    (h : conjoin vs = some v) : v.Sound := by
  cases vs with
  | nil => cases h
  | cons first rest =>
    obtain rfl := Option.some.inj h
    obtain ⟨hfirst, hrest⟩ := List.forall_mem_cons.1 hvs
    clear h hvs
    induction rest generalizing first with
    | nil => exact hfirst
    | cons v rest ih =>
      obtain ⟨hv, hrest⟩ := List.forall_mem_cons.1 hrest
      exact ih (binary .and first v) ⟨hfirst, hv⟩ hrest

/-! ### Layout -/

/-- The positions below one that passes the check do not wrap around. -/
theorem toNat_below {pos : UInt64} (h : ¬ pos >>> 62 ≠ 0) (i : Nat) (hi : i < 4) :
    (pos <<< 2 + UInt64.ofNat i).toNat = 4 * pos.toNat + i := by
  have hsmall : pos.toNat / 2 ^ 62 = 0 := by
    have h' := congrArg UInt64.toNat (not_not.1 h)
    simpa [Nat.shiftRight_eq_div_pow] using h'
  have hlt : pos.toNat < 2 ^ 62 := by
    have := Nat.div_eq_zero_iff.1 hsmall
    omega
  have hshift : UInt64.toNat 2 % 64 = 2 := rfl
  simp only [UInt64.toNat_add, UInt64.toNat_shiftLeft, UInt64.toNat_ofNat', Nat.shiftLeft_eq,
    hshift]
  omega

/-- The side stands at a position, fits its type and is laid out from there on. -/
structure Laid (pos : UInt64) (s : Side) : Prop where
  pos_eq : s.pos = pos
  fits : s.value.Fits s.type
  typed : s.value.WellTyped
  placed : s.value.PlacedAt pos.toNat

theorem node_yields {op : Operator} {pos : UInt64} {left right : UInt64 → Except Cause Side}
    (hl : ∀ pos, Yields Cause.Reachable (Laid pos) (left pos))
    (hr : ∀ pos, Yields Cause.Reachable (Laid pos) (right pos)) :
    Yields Cause.Reachable
      (fun e : Expr => e.toOperand.WellTyped ∧ e.toOperand.PlacedAt pos.toNat)
      (node op pos left right) := by
  unfold node
  split
  · trivial
  · rename_i hpos
    refine (hl (pos <<< 2 + 1)).bind fun l hl => (hr (pos <<< 2 + 2)).bind fun r hr => ?_
    have hl1 : (pos <<< 2 + 1).toNat = 4 * pos.toNat + 1 := toNat_below hpos 1 (by decide)
    have hr2 : (pos <<< 2 + 2).toNat = 4 * pos.toNat + 2 := toNat_below hpos 2 (by decide)
    refine ⟨⟨⟨op, rfl⟩, ⟨hl.fits, hl.typed⟩, hr.fits, hr.typed⟩, ⟨?_, ?_⟩, ?_, ?_⟩
    · rw [hl.pos_eq, hl1]
    · exact hl1 ▸ hl.placed
    · rw [hr.pos_eq, hr2]
    · exact hr2 ▸ hr.placed

theorem unescape_yields (escapes newlineToSpace : Bool) (s : Bytes) :
    Yields Cause.Reachable (fun _ => True) (Escape.unescape escapes newlineToSpace s) := by
  fun_induction Escape.unescape escapes newlineToSpace s
  case case1 | case2 | case3 => trivial
  case case4 ih | case5 ih => exact ih.map fun _ _ => trivial

theorem toSide_yields {escapes : Bool} {v : Value} (hv : v.Sound) (pos : UInt64) :
    Yields Cause.Reachable (Laid pos) (v.toSide escapes pos) := by
  induction v generalizing pos with
  | const x => exact ⟨rfl, ⟨.floatConst, rfl, rfl⟩, trivial, trivial⟩
  | floatVar name => exact ⟨rfl, ⟨.floatVar, rfl, rfl⟩, trivial, trivial⟩
  | stringVar name => exact ⟨rfl, ⟨.stringVar, rfl, rfl⟩, trivial, trivial⟩
  | stringConst raw =>
    refine (unescape_yields escapes true raw).bind fun text _ => ?_
    exact ⟨rfl, ⟨.stringConst, rfl, rfl⟩, trivial, trivial⟩
  | binary op l r ihl ihr =>
    refine (node_yields (ihl hv.1) (ihr hv.2)).bind fun e he => ?_
    exact ⟨rfl, ⟨.expression, rfl, rfl⟩, he.1, he.2⟩
  | invalid => exact hv.elim

theorem layout_yields {escapes : Bool} {v : Value} (hv : v.Sound) :
    Yields Cause.Reachable Expr.WellFormed (v.layout escapes) := by
  have hnode {op : Operator} {l r : Value} (hl : l.Sound) (hr : r.Sound) :
      Yields Cause.Reachable Expr.WellFormed
        (node op 1 (l.toSide escapes) (r.toSide escapes)) :=
    (node_yields (toSide_yields hl) (toSide_yields hr)).mono fun e he => ⟨he.1, he.2⟩
  cases v with
  | binary op l r => exact hnode hv.1 hv.2
  | _ => exact hnode Binary32.isFinite_zero hv

end Value

/-- An expression that a sound value is laid out as, which is a number unless the options allow
malformed expressions. -/
def Expr.Compiled (o : Options) (e : Expr) : Prop :=
  ∃ v : Value, v.Sound ∧ (o.allowMalformedExprs = false → v.isFloat = true) ∧
    v.layout o.allowExprEscapes = .ok e

theorem Expr.Compiled.wellFormed {o : Options} {e : Expr} (he : e.Compiled o) :
    e.WellFormed := by
  obtain ⟨v, hv, -, he⟩ := he
  have h : Yields Cause.Reachable Expr.WellFormed (v.layout o.allowExprEscapes) :=
    Value.layout_yields hv
  rwa [he] at h

/-- A constant is laid out like any other expression. -/
theorem Expr.constant_compiled {x : Binary32} (h : x.isFinite = true) (o : Options) :
    (Expr.constant x).Compiled o :=
  ⟨.const x, h, fun _ => rfl, rfl⟩

/-- A formatting value as it is read from a token: a number without a sign, a variable or a string
of any bytes. -/
inductive FormatValue.Compiled : FormatValue → Prop
  | number {x : Binary32} (finite : x.isFinite = true) (unsigned : x.isNegative = false) :
      Compiled ⟨FormatType.float.code, .float x⟩
  | numberVariable {name : Bytes} (identifier : Script.Identifier name)
      (number : name.getLast? ≠ some 36) : Compiled ⟨FormatType.variableName.code, .name name⟩
  | stringVariable {name : Bytes} (identifier : Script.Identifier name)
      (string : name.getLast? = some 36) :
      Compiled ⟨FormatType.stringVariableName.code, .name name⟩
  | text (s : Bytes) : Compiled ⟨FormatType.string.code, .quoted s⟩

theorem FormatValue.Compiled.wellTyped {v : FormatValue} (hv : v.Compiled) : v.WellTyped := by
  cases hv with
  | number => exact ⟨.float, rfl, rfl⟩
  | numberVariable => exact ⟨.variableName, rfl, rfl⟩
  | stringVariable => exact ⟨.stringVariableName, rfl, rfl⟩
  | text => exact ⟨.string, rfl, rfl⟩

/-- A number that a decimal is rounded to has no sign. -/
theorem Decimal.isNegative_toBinary32 (d : Decimal) : d.toBinary32.isNegative = false := by
  have hword : d.toWord ≤ Number.Format.binary32.infinityWord := by
    unfold toWord
    simp only
    split
    · exact Nat.zero_le _
    · split
      · exact Nat.le_refl _
      · exact Nat.min_le_right _ _
  have hsmall : d.toWord < 2 ^ 31 := Nat.lt_of_le_of_lt hword (by decide)
  change decide (2 ^ 31 ≤ (UInt32.ofNat d.toWord).toNat) = false
  rw [UInt32.toNat_ofNat_of_lt' (Nat.lt_trans hsmall (by decide)), decide_eq_false_iff_not]
  exact Nat.not_le.2 hsmall

/-! ### Parsing -/

/-- The labels that scripts can write come before those of the inline switches. -/
theorem Label.ofHalves_lt {high low : Nat} {l : Label} (h : ofHalves high low = .ok l) :
    l.toNat < inlineBase := by
  unfold ofHalves at h
  split at h
  · cases h
  · cases h
    simp only [highLimit, lowLimit, not_or, not_le] at *
    rw [UInt32.toNat_ofNat_of_lt']
    · unfold inlineBase
      omega
    · unfold UInt32.size
      omega

theorem Label.isInline_ofHalves {high low : Nat} {l : Label} (h : ofHalves high low = .ok l) :
    l.isInline = false := by
  simpa [isInline] using ofHalves_lt h

namespace Contract

open Compiler

variable {K : Contract} {loc : Location} {token : Token}

theorem keeps_stringValue {newlineToSpace : Bool} : K.Keeps (stringValue token newlineToSpace) :=
  .located (Value.unescape_yields ..)

theorem ensures_floatOfToken :
    K.Ensures (floatOfToken token) fun x => x.isFinite = true ∧ x.isNegative = false := by
  refine .guard trivial fun _ => ?_
  split
  · exact .fail trivial
  · exact .ite (fun h => .pure ⟨h, Decimal.isNegative_toBinary32 _⟩) fun _ => .fail trivial

/-- The parser of expressions, by the tiers, the tails of tiers, the negations and the operands that
call one another. -/
theorem ensures_parseTier {tiers : List (List Operator)} {bound : Lexer.Remaining} {level : Nat} :
    K.Ensures (parseTier tiers bound level) Value.Sound := by
  -- only the tail of a tier is given a value; it is sound if what it is given is
  refine parseTier.induct tiers
    (fun bound level => K.Ensures (parseTier tiers bound level) Value.Sound)
    (fun bound level left =>
      left.Sound → K.Ensures (parseTierRest tiers bound level left) Value.Sound)
    (fun bound => K.Ensures (parseNegation tiers bound) Value.Sound)
    (fun bound => K.Ensures (parseOperand tiers bound) Value.Sound)
    ?zero ?succ ?rest ?negation ?operand bound level
  case zero =>
    intro bound hnegation
    rw [parseTier]
    exact hnegation
  case succ =>
    intro bound level hleft hrest
    rw [parseTier]
    exact hleft.bind fun left hsound => hrest left hsound
  case rest =>
    intro bound level left hright hrest hleft
    rw [parseTierRest]
    refine .bind (.lift Lexer.peek_ensures) fun token _ => ?_
    split
    · exact .pure hleft
    · rename_i op _
      refine .bind (.lift Lexer.consume_ensures) fun _ _ => .bind keeps_remaining fun now _ => ?_
      refine .dite (fun less => ?_) fun _ => .fail trivial
      exact (hright now less).bind fun right hsound => hrest op now less right ⟨hleft, hsound⟩
  case negation =>
    intro bound hnegation hoperand
    rw [parseNegation]
    refine .bind (.lift Lexer.peek_ensures) fun token _ => ?_
    refine .ite (fun _ => ?_) fun _ => hoperand
    refine .bind (.lift Lexer.consume_ensures) fun _ _ => .bind keeps_remaining fun now _ => ?_
    refine .dite (fun less => ?_) fun _ => .fail trivial
    refine (hnegation now less).bind fun v hv => .guard trivial fun _ => ?_
    cases v with
    | const x => exact .pure (Binary32.isFinite_neg.trans hv)
    | _ => exact .pure ⟨Binary32.isFinite_zero, hv⟩
  case operand =>
    intro bound hinner
    rw [parseOperand]
    refine .bind (.lift Lexer.peek_ensures) fun token htoken => ?_
    split
    · refine .bind (.lift Lexer.consume_ensures) fun _ _ => .bind keeps_remaining fun now _ => ?_
      refine .dite (fun less => ?_) fun _ => .fail trivial
      refine (hinner now less).bind fun v hv => ?_
      exact .bind (.lift Lexer.read_ensures) fun closing _ => .guard trivial fun _ => .pure hv
    · exact .bind (.lift Lexer.consume_ensures) fun _ _ => .pure trivial
    · refine .bind (.lift Lexer.consume_ensures) fun _ _ => ?_
      exact ensures_floatOfToken.bind fun _ hx => .pure hx.1
    · exact .bind (.lift Lexer.consume_ensures) fun _ _ => .pure (Value.sound_ofName (htoken ‹_›))
    · exact .fail trivial

theorem ensures_parseExpr : K.Ensures parseExpr Value.Sound :=
  .bind ensures_options fun _ _ => .bind keeps_remaining fun _ _ => ensures_parseTier

theorem ensures_parseNumeric : K.Ensures parseNumeric Value.Sound := by
  refine .bind keeps_location fun loc _ => .bind ensures_parseExpr fun v hv => ?_
  refine .ite (fun _ => ?_) fun _ => .pure hv
  refine .bind ensures_options fun o _ => .guard trivial fun _ => ?_
  exact .bind keeps_warn fun _ _ => .pure hv

theorem ensures_toExpr {v : Value} (hv : v.Sound) :
    K.Ensures (toExpr v loc) (Expr.Compiled K.options) := by
  refine .bind ensures_options ?_
  rintro o rfl
  extract_lets store
  have hlayout {v : Value} (hv : v.Sound)
      (hfloat : K.options.allowMalformedExprs = false → v.isFloat = true) :
      K.Ensures (located loc (v.layout K.options.allowExprEscapes))
        (Expr.Compiled K.options) := by
    have h : Yields Cause.Reachable Expr.WellFormed (v.layout K.options.allowExprEscapes) :=
      Value.layout_yields hv
    refine .located ?_
    cases he : v.layout K.options.allowExprEscapes with
    | ok e => exact ⟨v, hv, hfloat, he⟩
    | error cause => rwa [he] at h
  have hstore (v : Value) (hv : v.Sound) : K.Ensures (store v) (Expr.Compiled K.options) := by
    refine .ite (fun _ => ?_) fun hfloat => hlayout hv fun _ => by simpa using hfloat
    split
    · have hallow : K.options.allowMalformedExprs = true := ‹_›
      exact .bind keeps_warn fun _ _ => hlayout hv fun h => absurd (hallow.symm.trans h) (by simp)
    · exact .fail_bind trivial
  exact .ite_bind (fun _ => .located (Value.fold_yields hv)) (fun _ => .pure hv) hstore

theorem ensures_toExpr? {o : Option Value} (ho : ∀ v ∈ o, v.Sound) :
    K.Ensures (toExpr? o loc) fun r =>
      (∀ e ∈ r.toList, e.Compiled K.options) ∧ r.isSome = o.isSome := by
  cases o with
  | none => exact .pure (by simp)
  | some v => exact (ensures_toExpr (ho v rfl)).bind fun e he => .pure (by simpa using he)

theorem ensures_toCondition {o : Option Value} (ho : ∀ v ∈ o, v.Sound) :
    K.Ensures (toCondition o loc) fun r => ∀ e ∈ r.1.toList, e.Compiled K.options := by
  have hsome {v : Value} (hv : v.Sound) :
      K.Ensures (toExpr v loc >>= fun e => pure (some e, true)) fun r : Option Expr × Bool =>
        ∀ e ∈ r.1.toList, e.Compiled K.options :=
    (ensures_toExpr hv).bind fun e he => .pure (by simpa using he)
  cases o with
  | none => exact .pure (by simp)
  | some v =>
    refine .bind ensures_options fun o _ => .ite (fun _ => ?_) fun _ => hsome (ho v rfl)
    refine .bind (.located (Value.fold_yields (ho v rfl))) fun folded hfolded => ?_
    split
    · exact .pure (by simp)
    · exact hsome hfolded

/-! ### Labels and arguments -/

theorem labelHalf_yields (limit value : Nat) (s : Bytes) :
    Yields Cause.Reachable (fun _ => True) (labelHalf limit value s) := by
  fun_induction labelHalf limit value s
  case case1 | case2 | case3 => trivial
  case case4 ih => exact ih

theorem ensures_labelOfTokens {high low : Token} :
    K.Ensures (labelOfTokens high low) (·.isInline = false) := by
  refine .bind (.located (labelHalf_yields ..)) fun h _ => ?_
  refine .bind (.located (labelHalf_yields ..)) fun l _ => ?_
  split
  · exact .pure (Label.isInline_ofHalves ‹_›)
  · exact .fail trivial

theorem ensures_parseLabel : K.Ensures parseLabel (·.isInline = false) := by
  refine .bind (.lift Lexer.expect_ensures) fun high _ => ?_
  refine .bind (.lift Lexer.expect_ensures) fun _ _ => ?_
  exact .bind (.lift Lexer.expect_ensures) fun low _ => ensures_labelOfTokens

theorem ensures_parseDefinitionLabel : K.Ensures parseDefinitionLabel (· ≠ 0) := by
  refine .bind (.lift Lexer.peek_ensures) fun _ _ => .bind ensures_parseLabel fun label _ => ?_
  exact .guard trivial fun h => .pure h

theorem ensures_formatValueOfToken (htoken : token.Lettered) :
    K.Ensures (formatValueOfToken token) FormatValue.Compiled := by
  unfold formatValueOfToken
  split
  · exact .bind ensures_floatOfToken fun x hx => .pure (.number hx.1 hx.2)
  · refine .pure ?_
    split
    · exact .stringVariable (htoken ‹_›) ‹_›
    · exact .numberVariable (htoken ‹_›) ‹_›
  · exact .pure (.text _)
  · exact .fail trivial

theorem ensures_parseFormatValue : K.Ensures parseFormatValue FormatValue.Compiled :=
  .bind (.lift Lexer.read_ensures) fun _ htoken => ensures_formatValueOfToken htoken

theorem forall_mem_concat {α : Type} {P : α → Prop} {as : List α} {a : α} (has : ∀ b ∈ as, P b)
    (ha : P a) : ∀ b ∈ as ++ [a], P b :=
  List.forall_mem_append.2 ⟨has, List.forall_mem_singleton.2 ha⟩

theorem ensures_parseFormatList :
    K.Ensures parseFormatList fun vs => ∀ v ∈ vs, v.Compiled := by
  refine ensures_repeatFrom (I := fun vs => ∀ v ∈ vs, v.Compiled) (by simp) fun vs hvs => ?_
  refine .bind (.lift Lexer.peek_ensures) fun token _ => .ite (fun _ => .pure hvs) fun _ => ?_
  refine .bind (.lift Lexer.consume_ensures) fun _ _ => ?_
  refine .bind ensures_parseFormatValue fun v hv => ?_
  exact .pure (forall_mem_concat hvs hv)

theorem keeps_parseName : K.Keeps parseName := by
  refine .bind ensures_state fun s _ => .ite (fun _ => ?_) fun _ => ?_
  · exact .bind (.lift Lexer.read_ensures) fun _ _ => .pure trivial
  · refine .bind (.lift Lexer.read_ensures) fun token _ => ?_
    split
    · exact .fail trivial
    · exact .fail trivial
    · exact .pure trivial
    · exact .pure trivial

theorem keeps_parseWord {stopComma : Bool} : K.Keeps (parseWord stopComma) := by
  refine .bind (.lift Lexer.read_ensures) fun token _ => .guard trivial fun _ => ?_
  extract_lets text rest rest'
  have hrest (u : Unit) : K.Keeps (rest u) := .pure trivial
  have hrest' (u : Unit) : K.Keeps (rest' u) :=
    .ite (fun _ => .bind keeps_warn fun u _ => hrest u) fun _ => hrest ()
  exact .ite (fun _ => .bind keeps_warn fun u _ => hrest' u) fun _ => hrest' ()

theorem keeps_parseDefine : K.Keeps parseDefine := by
  refine .bind (.lift Lexer.peek_ensures) fun token _ => .ite (fun _ => .pure trivial) fun _ => ?_
  refine .bind (.lift Lexer.consume_ensures) fun _ _ => ?_
  exact .bind (.lift Lexer.defineMacro_ensures) fun _ _ => .pure trivial

end Contract

end ApeScript
