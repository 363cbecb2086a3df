import ApeScript.Proofs.CompiledFile
import ApeScript.Proofs.ExpressionText

/-!
# Expressions that are read again

The text of an expression is written without the zero that a lone number or variable is added to.
Reading it gives the expression back, its numbers equal in value: this holds of every expression
that a compilation without malformed expressions makes, whichever tiers the operators are read in.
-/

namespace ApeScript

/-! ### Expressions of equal numbers -/

def Operand.Alike : Operand → Operand → Prop
  | .float x, .float y => x.eq y = true
  | .nested op lt lp l rt rp r, .nested op' lt' lp' l' rt' rp' r' =>
      (op = op' ∧ lt = lt' ∧ lp = lp' ∧ rt = rt' ∧ rp = rp') ∧ l.Alike l' ∧ r.Alike r'
  | v, w => v = w

/-- The same operators, kinds, names, texts and positions, and numbers of equal value. -/
def Expr.Alike (e e' : Expr) : Prop := e.toOperand.Alike e'.toOperand

theorem Binary32.eq_self {x : Binary32} (h : x.isFinite = true) : x.eq x = true := by
  obtain ⟨n, size, hdatum, -, -⟩ := datum_of_isFinite h
  simp [eq, compare?, hdatum, Number.Datum.compare?]

theorem Binary32.eq_of_isZero {x y : Binary32} (hx : x.isZero = true) (hy : y.isZero = true) :
    x.eq y = true := by
  have hunits (z : Binary32) (hz : z.isZero = true) : ∃ n, z.datum = .finite n 0 := by
    unfold isZero at hz
    cases hdatum : z.datum with
    | finite n units =>
      rw [hdatum, isZero_finite, decide_eq_true_eq] at hz
      exact ⟨n, by rw [hz]⟩
    | _ => rw [hdatum] at hz; cases hz
  obtain ⟨n, hn⟩ := hunits x hx
  obtain ⟨m, hm⟩ := hunits y hy
  simp [eq, compare?, hn, hm, Number.Datum.compare?, Number.Datum.signedUnits]

namespace Value

variable {escapes : Bool} {v : Value} {pos : UInt64} {side : Side}

theorem LaidAs.alike (h : LaidAs escapes v pos side) : side.value.Alike side.value := by
  induction h with
  | number hx => exact Binary32.eq_self hx
  | floatVar | stringVar | text => rfl
  | binary _ _ _ ihl ihr => exact ⟨⟨rfl, rfl, rfl, rfl, rfl⟩, ihl, ihr⟩

end Value

/-- What is added to zero without being written is a number or a variable, and the operator is
addition. -/
theorem Script.isLoneOperand_eq_true {op : Operator} {left right : Side} {escapes : Bool}
    {l r : Value} (hl : l.LaidAs escapes 5 left) (hr : r.LaidAs escapes 6 right)
    (h : Script.isLoneOperand ⟨op.code, left, right⟩ = true) :
    op = .add ∧ (∃ x : Binary32, x.isZero = true ∧
      left = ⟨OperandType.floatConst.code, 5, .float x⟩) ∧
        right.value.parsed.isFloat = true ∧ right.value.parsed.layout true =
          Value.node .add 1 ((Value.const .zero).toSide true) (right.value.parsed.toSide true) := by
  simp only [Script.isLoneOperand, Bool.and_eq_true, Bool.or_eq_true, decide_eq_true_eq] at h
  obtain ⟨⟨⟨hop, -⟩, hzero⟩, hright⟩ := h
  have hadd : op = .add := by cases op <;> first | rfl | cases hop
  refine ⟨hadd, ?_, ?_⟩
  · cases hl with
    | number => exact ⟨_, hzero, rfl⟩
    | _ => cases hzero
  · cases hr with
    | number => exact ⟨rfl, rfl⟩
    | floatVar _ hkind =>
      simp only [Operand.parsed, hkind]
      exact ⟨rfl, rfl⟩
    | _ => rcases hright with hright | hright <;> cases hright

/-- What the text of a compiled expression is parsed as is a number, and it is laid out as an
expression alike. -/
theorem Expr.Compiled.layout_parsed {o : Options} {e : Expr} (he : e.Compiled o)
    (ho : o.allowMalformedExprs = false) :
    e.parsed.isFloat = true ∧ ∃ e', e.parsed.layout true = .ok e' ∧ e.Alike e' := by
  obtain ⟨v, hv, hfloat, hlayout⟩ := he
  obtain ⟨op, l, r, left, right, rfl, hl, hr, hform⟩ := Value.exists_laidAs hv hlayout
  have hroom : (1 : UInt64) >>> 62 = 0 := by decide
  unfold Expr.parsed
  split
  · -- the zero that is put back need not be the zero that was left out
    rename_i hlone
    obtain ⟨rfl, ⟨x, hx, rfl⟩, hnumber, hnode⟩ := Script.isLoneOperand_eq_true hl hr hlone
    refine ⟨hnumber, _, hnode.trans (Value.node_eq hroom rfl hr.parsed.toSide), ?_⟩
    exact ⟨⟨rfl, rfl, rfl, rfl, rfl⟩, Binary32.eq_of_isZero hx Binary32.isZero_zero, hr.alike⟩
  · rename_i hlone
    have hbinary : v = .binary op l r := hform.resolve_right fun h => hlone (h (hfloat ho))
    rw [Operator.getD_ofCode?_code]
    refine ⟨?_, _, Value.node_eq hroom hl.parsed.toSide hr.parsed.toSide, ?_⟩
    · have hresult : (Value.binary op left.value.parsed right.value.parsed).result = v.result := by
        rw [hbinary, Value.result, Value.result, hl.result_parsed, hr.result_parsed]
      rw [Value.isFloat, hresult]
      exact hfloat ho
    · exact ⟨⟨rfl, rfl, rfl, rfl, rfl⟩, hl.alike, hr.alike⟩

/-! ### Reading an expression -/

def Lexer.Left (setting : Lexer.Setting) (text : Bytes) (l : Lexer) : Prop :=
  ∃ k more, k.2 ++ more = text ∧ l.Stands setting ⟨[k], more⟩

/-- The text of the expression is read up to what may follow it, and stored as an expression alike,
in every context without optimization in which strings have escapes and there are no macros. -/
def Expr.Rereads (e : Expr) : Prop :=
  ∀ (c : CompileContext) (setting : Lexer.Setting) (s : CompileState) (loc : Location)
    (tail : Bytes), c.options.allowExprEscapes = true → c.options.optimize = false →
    setting.macros = [] → (∀ b ∈ tail.head?, b = 41 ∨ b = 44 ∨ b = 10) →
    s.lexer.Stands setting ⟨[], Script.expressionSource e ++ tail⟩ →
    ∃ v t e', Compiler.parseExpr c s = .ok v t ∧ t.lexer.Left setting tail ∧
      Compiler.toExpr v loc c t = .ok e' t ∧ e.Alike e'

theorem Compiler.toExpr_run {c : CompileContext} {t : CompileState} {v : Value} {e : Expr}
    {loc : Location} (hoptimize : c.options.optimize = false) (hfloat : v.isFloat = true)
    (hlayout : v.layout c.options.allowExprEscapes = .ok e) : toExpr v loc c t = .ok e t := by
  have hlocated : located loc (v.layout c.options.allowExprEscapes) = pure e := by rw [hlayout]; rfl
  have hrun : toExpr v loc c t = (if c.options.optimize then _ else
      (if !v.isFloat then _ else located loc (v.layout c.options.allowExprEscapes)) :
        Compiler Expr) c t := rfl
  rw [hrun, hoptimize, hfloat, hlocated]
  rfl

theorem Expr.Compiled.rereads {o : Options} {e : Expr} (he : e.Compiled o)
    (ho : o.allowMalformedExprs = false) : e.Rereads := by
  intro c setting s loc tail hescapes hoptimize hmacros htail hs
  obtain ⟨hfloat, e', hlayout, halike⟩ := he.layout_parsed ho
  have hends : Compiler.EndsOperand tail := by
    intro b hb
    rcases htail b hb with rfl | rfl | rfl <;> decide
  obtain ⟨k, more, hnext, hk, htext⟩ : ∃ k more,
      Lexer.firstToken? setting.exponents .normal {} tail = some (k, more) ∧ k.1 ≠ .operator ∧
        k.2 ++ more = tail := by
    cases tail with
    | nil => exact ⟨(.endOfFile, []), [], rfl, by simp, rfl⟩
    | cons b rest =>
      rcases htail b rfl with rfl | rfl | rfl
      · exact ⟨(.closeParen, [41]), rest, rfl, by simp, rfl⟩
      · exact ⟨(.comma, [44]), rest, rfl, by simp, rfl⟩
      · exact ⟨(.endOfLine, [10]), rest, rfl, by simp, rfl⟩
  obtain ⟨v, t, hrun, hv, ht, -⟩ := Compiler.readsFrom_parseExpr (c := c) hmacros he hends hnext
    hk s s ⟨hs, rfl⟩
  subst hv
  rw [← hescapes] at hlayout
  exact ⟨_, t, e', hrun, ⟨k, more, htext, ht⟩, Compiler.toExpr_run hoptimize hfloat hlayout, halike⟩

/-- Without malformed expressions, every expression of a compiled file is read again from its text,
and so is everything else that a sound value is stored as along the way. -/
theorem compile_expressions_reread :
    (∀ (src : Bytes) (o : Options) (f : File), o.allowMalformedExprs = false →
      (compile src o).result = .ok f → ∀ e ∈ f.exprs, e.Rereads) ∧
    ∀ (c : CompileContext) (s t : CompileState) (v : Value) (loc : Location) (e : Expr),
      c.options.allowMalformedExprs = false → s.lexer.Lettered → v.Sound →
      Compiler.toExpr v loc c s = .ok e t → e.Rereads := by
  constructor
  · intro src o f ho h e he
    have hf : f.Compiled o.effective := by
      have hcompile := compile_yields_compiled src o
      rwa [h] at hcompile
    have hcompiled : e.Compiled o.effective := by
      rcases List.mem_append.1 he with he | he
      · obtain ⟨w, hw, he⟩ := List.mem_flatMap.1 he
        obtain ⟨command, hcommand, he⟩ := List.mem_flatMap.1 he
        exact ((hf.windows w hw).commands command hcommand).exprs e he
      · obtain ⟨switch, hswitch, he⟩ := List.mem_flatMap.1 he
        obtain ⟨p, hp, he⟩ := List.mem_flatMap.1 he
        exact ((hf.switches switch hswitch).commands p hp).exprs e he
    exact hcompiled.rereads ho
  · intro c s t v loc e ho hs hv h
    let K : Contract := ⟨c.options, fun _ _ => True, fun h _ _ => h⟩
    have hsound : K.Ensures (Compiler.toExpr v loc) (Expr.Compiled K.options) :=
      Contract.ensures_toExpr hv
    have hrun := hsound c s ⟨rfl, hs, trivial⟩
    rw [h] at hrun
    exact hrun.2.rereads ho

def differenceScript : Bytes := utf8 "#switch 1:1\nx = (s$ == \"\\\"\") - -a\n"

def difference : Expr where
  op := Operator.sub.code
  left := ⟨OperandType.expression.code, 5, .nested Operator.eq.code
    OperandType.stringVar.code 21 (.name (utf8 "s$"))
    OperandType.stringConst.code 22 (.quoted [34])⟩
  right := ⟨OperandType.expression.code, 6, .nested Operator.sub.code
    OperandType.floatConst.code 25 (.float .zero)
    OperandType.floatVar.code 26 (.name (utf8 "a"))⟩

def differenceFile : File where
  windows := []
  switches := [⟨10001, [⟨1, ⟨StatementType.setFloat.code, some (utf8 "x"), [], some difference⟩⟩]⟩]

theorem compile_expressions_reread_difference :
    (compile differenceScript Options.defaults).result = .ok differenceFile ∧
      difference.Rereads ∧ (Expr.constant .zero).Rereads := by
  have h : (compile differenceScript Options.defaults).result = .ok differenceFile := by cbv
  have hmem : difference ∈ differenceFile.exprs := List.mem_singleton_self _
  refine ⟨h, compile_expressions_reread.1 _ _ _ rfl h _ hmem, ?_⟩
  exact compile_expressions_reread.2 ⟨Options.defaults, 0⟩ ⟨.ofSource [] [] true, [], 0, []⟩ _
    (.const .zero) (.start []) _ rfl (Lexer.lettered_ofSource [] [] true) Binary32.isFinite_zero rfl

end ApeScript
