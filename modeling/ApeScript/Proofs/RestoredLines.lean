import ApeScript.Proofs.GovernedLine
import ApeScript.Proofs.VariableLines

/-!
# Lines of commands with expressions

The lines of the commands that have conditions, positions, sizes or formatting values. Each of them
is read with its expressions restored and its formatting strings escaped once more.
`Compiler.Conveys` says of a command that lines are written for it, and how far they take a window.
-/

namespace ApeScript

/-- A formatting value whose text is read to its end: one that a compilation makes, without quotes. -/
structure FormatValue.Stored (v : FormatValue) : Prop where
  compiled : v.Compiled
  unquoted : 34 ∉ v.literal

namespace Compiler

open Lexer
open Script (conditionLine expressionSource formatSource)

variable {c : CompileContext} {w w' : WindowDraft} {cond : Option Expr} {e : Expr}
  {vs : List FormatValue} {text tail more rest : Bytes} {k : Lexeme} {p q : Spot}
  {blocks : List ConditionBlock}

/-! ### Expressions -/

/-- What may follow an expression, with its first token. -/
structure EndsExpr (tail : Bytes) (k : Lexeme) (more : Bytes) : Prop where
  operand : EndsOperand tail
  first : firstToken? true .normal {} tail = some (k, more)
  not_operator : k.1 ≠ .operator

theorem endsExpr_comma (rest : Bytes) : EndsExpr (44 :: rest) (.comma, [44]) rest :=
  ⟨endsOperand_comma rest, rfl, by simp⟩

theorem endsExpr_line (rest : Bytes) : EndsExpr (10 :: rest) (.endOfLine, [10]) rest :=
  ⟨by simp [EndsOperand, isIdentifierByte, Bytes.isDigit, Bytes.isLower, Bytes.isUpper], rfl,
    by simp⟩

theorem reads_parseExpr_stored (he : e.Stored) (htail : EndsExpr tail k more) :
    Reads parseExpr c ⟨[], 32 :: (expressionSource e ++ tail)⟩ ⟨[k], more⟩ (· = e.parsed) :=
  reads_of_stands (readsFrom_parseExpr_from rfl he htail.operand htail.first htail.not_operator
    firstToken?_blank (Nat.le_succ _))

theorem reads_parseNumeric_stored (he : e.Stored) (htail : EndsExpr tail k more) :
    Reads parseNumeric c ⟨[], 32 :: (expressionSource e ++ tail)⟩ ⟨[k], more⟩ (· = e.parsed) := by
  refine .bind .location fun loc _ => .bind (reads_parseExpr_stored he htail) ?_
  rintro _ rfl
  rw [he.isFloat]
  exact .pure rfl

theorem reads_argument (hc : c.Plain) (he : e.Stored) (htail : EndsExpr tail k more)
    (comma : Bool) : Reads (parseArgument comma) c (argumentSpot comma (expressionSource e ++ tail))
      ⟨[k], more⟩ (· = some e.restored) := by
  have hargument : Reads (do
      let loc ← location
      let v ← parseNumeric
      return some (← toExpr v loc)) c ⟨[], 32 :: (expressionSource e ++ tail)⟩ ⟨[k], more⟩
        (· = some e.restored) := by
    refine .bind .location fun loc _ => .bind (reads_parseNumeric_stored he htail) ?_
    rintro _ rfl
    refine .bind (reads_toExpr_restored hc he loc) ?_
    rintro _ rfl
    exact .pure rfl
  cases comma with
  | false => exact hargument
  | true => exact .bind (.lift (succeeds_expect succeeds_read_queued)) fun _ _ => hargument

/-- An argument before another one. -/
theorem reads_argument_comma (hc : c.Plain) (he : e.Stored) (comma : Bool) :
    Reads (parseArgument comma) c (argumentSpot comma (expressionSource e ++ 44 :: 32 :: rest))
      (argumentSpot true rest) (· = some e.restored) :=
  reads_argument hc he (endsExpr_comma _) comma

theorem reads_argument_line (hc : c.Plain) (he : e.Stored) (comma : Bool) :
    Reads (parseArgument comma) c (argumentSpot comma (expressionSource e ++ 10 :: rest))
      ⟨[(.endOfLine, [10])], rest⟩ (· = some e.restored) :=
  reads_argument hc he (endsExpr_line _) comma

/-! ### Messages -/

theorem reads_formats (hvs : ∀ v ∈ vs, v.Stored) :
    Reads parseFormatList c ⟨[], formatSource vs ++ 10 :: rest⟩ ⟨[(.endOfLine, [10])], rest⟩
      (· = vs.map FormatValue.reread) :=
  reads_of_stands (readsFrom_parseFormatList rfl (fun v hv => (hvs v hv).compiled)
    (fun v hv => (hvs v hv).unquoted) (endsExpr_line rest).operand rfl (by simp))

/-- A text and its formatting values, up to the end of the line. -/
theorem reads_formatted (hvs : ∀ v ∈ vs, v.Stored) {α : Type} {P : α → Prop}
    {f : Bytes → List FormatValue → Compiler α}
    (hf : ∀ q, Reads (f text (vs.map FormatValue.reread)) c q q P) :
    Reads (do
      let message ← parseText
      let format ← parseFormatList
      f message format) c ⟨[], 32 :: (Script.quote text ++ (formatSource vs ++ 10 :: rest))⟩
        ⟨[(.endOfLine, [10])], rest⟩ P := by
  refine .bind reads_parseText ?_
  rintro _ rfl
  refine .bind (reads_formats hvs) ?_
  rintro _ rfl
  exact hf _

/-! ### What a command conveys -/

/-- Lines are written for a command, and they take a window from what `w` says to what `w'` does. -/
def Conveys (c : CompileContext) (asBackground : Bool) (command : Command) (w w' : WindowDraft) :
    Prop :=
  ∃ lines, Script.writeCommand asBackground command = .ok lines ∧
    ∀ m, Crosses parseWindowRound c lines w.Over m w'.Over m

/-- A command whose lines are that of a directive and of the condition before it. -/
theorem conveys_directive {asBackground : Bool} {command : Command} (word args : Bytes)
    (cond : Option Expr) (hw : w.blocks = []) (hw' : w'.blocks = []) (hcond : ∀ e ∈ cond, e.Stored)
    (hword : isKeyword word = true) (hargs : Spaced args)
    (hwritten : Script.writeCommand asBackground command =
      .ok (conditionLine cond ++ (word ++ args ++ [10])))
    (directive : WindowDraft → Location → Compiler WindowDraft)
    (hparse : ∀ v loc, parseCommand v ⟨.identifier, word, loc⟩ = directive v loc)
    (hreads : ∀ blocks, Governs cond blocks → ∀ loc rest, ∃ q, Spot.EndsLine rest q ∧
      Reads (directive { w with blocks := blocks, closed := [] } loc) c ⟨[], args ++ 10 :: rest⟩ q
        (· = { w' with blocks := blocks, closed := [] })) : Conveys c asBackground command w w' := by
  refine ⟨_, hwritten, fun m => ?_⟩
  refine crosses_line cond hw hw' hcond hword hargs directive hparse fun blocks hblocks loc rest => ?_
  obtain ⟨q, hq, hreads⟩ := hreads blocks hblocks loc rest
  exact ⟨q, hq, hreads.standing m⟩

/-- A command without a condition. -/
theorem conveys_plain {asBackground : Bool} {command : Command} (word args : Bytes)
    (hw : w.blocks = []) (hw' : w'.blocks = []) (hword : isKeyword word = true)
    (hargs : Spaced args)
    (hwritten : Script.writeCommand asBackground command = .ok (word ++ args ++ [10]))
    (directive : WindowDraft → Location → Compiler WindowDraft)
    (hparse : ∀ v loc, parseCommand v ⟨.identifier, word, loc⟩ = directive v loc)
    (hreads : ∀ loc rest, ∃ q, Spot.EndsLine rest q ∧
      Reads (directive { w with blocks := [], closed := [] } loc) c ⟨[], args ++ 10 :: rest⟩ q
        (· = { w' with blocks := [], closed := [] })) : Conveys c asBackground command w w' := by
  refine conveys_directive word args none hw hw' (by simp) hword hargs hwritten directive hparse ?_
  intro blocks hblocks
  cases hblocks
  exact hreads

/-! ### Titles and bodies -/

theorem reads_formattedText (hc : c.Plain) (hcond : ∀ e ∈ cond, e.Stored)
    (hvs : ∀ v ∈ vs, v.Stored) (hblocks : Governs cond w.blocks) (code : UInt8) :
    Reads (parseFormattedText w code) c
      ⟨[], 32 :: (Script.quote text ++ (formatSource vs ++ 10 :: rest))⟩
      ⟨[(.endOfLine, [10])], rest⟩
      (· = [.formattedText code (cond.map Expr.restored) text (vs.map FormatValue.reread)]) := by
  refine .bind (reads_activeCondition_governed hc hcond hblocks) ?_
  rintro _ rfl
  exact reads_formatted hvs fun q => .pure rfl

theorem conveys_title (hc : c.Plain) (hw : w.blocks = []) (hcond : ∀ e ∈ cond, e.Stored)
    (hvs : ∀ v ∈ vs, v.Stored) (asBackground : Bool) :
    Conveys c asBackground (.formattedText CommandCode.title cond text vs) w
      { w with titles := w.titles ++ [.formattedText CommandCode.title (cond.map Expr.restored) text
        (vs.map FormatValue.reread)] } := by
  refine conveys_directive (utf8 "title") (32 :: (Script.quote text ++ formatSource vs)) cond
    hw hw hcond rfl (.blank _) ?_ _ (fun _ _ => rfl) fun blocks hblocks loc rest => ⟨_, .seen, ?_⟩
  · have hword : utf8 "title " = utf8 "title" ++ [32] := rfl
    simp [Script.writeCommand, hword, utf8_newline]
  · simp only [List.cons_append, List.append_assoc]
    refine .bind (reads_formattedText hc hcond hvs hblocks _) ?_
    rintro _ rfl
    exact .pure rfl

theorem conveys_body (hc : c.Plain) (hw : w.blocks = []) (hcond : ∀ e ∈ cond, e.Stored)
    (hvs : ∀ v ∈ vs, v.Stored) (asBackground : Bool) :
    Conveys c asBackground (.formattedText CommandCode.body cond text vs) w
      { w with bodies := w.bodies ++ [.formattedText CommandCode.body (cond.map Expr.restored) text
        (vs.map FormatValue.reread)] } := by
  refine conveys_directive (utf8 "body") (32 :: (Script.quote text ++ formatSource vs)) cond
    hw hw hcond rfl (.blank _) ?_ _ (fun _ _ => rfl) fun blocks hblocks loc rest => ⟨_, .seen, ?_⟩
  · have hword : utf8 "body " = utf8 "body" ++ [32] := rfl
    have hcode : CommandCode.body ≠ CommandCode.title := by decide
    simp [Script.writeCommand, hword, hcode, utf8_newline]
  · simp only [List.cons_append, List.append_assoc]
    refine .bind (reads_formattedText hc hcond hvs hblocks _) ?_
    rintro _ rfl
    exact .pure rfl

end Compiler

/-! ### Printed text -/

/-- A printed text that has a place, and whose font is one word if it is written. -/
structure Print.Stored (p : Print) : Prop where
  x : ∃ e, p.x = some e
  y : ∃ e, p.y = some e
  alpha : ∃ e, p.alpha = some e
  exprs : ∀ e ∈ (Command.print p).exprs, e.Stored
  font : p.isFull = true → ∀ s ∈ p.font, Script.RawWord (Scan.bareFlags true) s
  format : ∀ v ∈ p.format, v.Stored

namespace Compiler

open Lexer
open Script (conditionLine expressionSource formatSource)

variable {c : CompileContext} {w : WindowDraft} {cond : Option Expr} {vs : List FormatValue}
  {text rest font : Bytes} {x y alpha red green blue : Expr}

theorem reads_print (text rest : Bytes) (hc : c.Plain) (hcond : ∀ e ∈ cond, e.Stored)
    (hx : x.Stored) (hy : y.Stored) (halpha : alpha.Stored) (hvs : ∀ v ∈ vs, v.Stored)
    (hblocks : Governs cond w.blocks) :
    Reads (parsePrint w false) c
      (argumentSpot false (expressionSource x ++ 44 :: 32 :: (expressionSource y ++ 44 :: 32 ::
        (expressionSource alpha ++ 44 :: 32 :: (Script.quote text ++
          (formatSource vs ++ 10 :: rest))))))
      ⟨[(.endOfLine, [10])], rest⟩
      (· = { w with prints := w.prints ++ [.print ⟨some x.restored, some y.restored,
        some alpha.restored, none, none, none, none, text, cond.map Expr.restored,
        vs.map FormatValue.reread⟩] }) := by
  refine .bind (reads_activeCondition_governed hc hcond hblocks) ?_
  rintro _ rfl
  refine .bind (reads_argument_comma hc hx false) ?_
  rintro _ rfl
  refine .bind (reads_argument_comma hc hy true) ?_
  rintro _ rfl
  refine .bind (reads_argument_comma hc halpha true) ?_
  rintro _ rfl
  refine .bind (.pure rfl) ?_
  rintro _ rfl
  refine .bind (.lift (succeeds_expect succeeds_read_queued)) fun _ _ => ?_
  exact reads_formatted hvs fun _ => .pure rfl

theorem reads_print_font (text rest : Bytes) (hc : c.Plain) (hcond : ∀ e ∈ cond, e.Stored)
    (hx : x.Stored) (hy : y.Stored) (halpha : alpha.Stored) (hred : red.Stored)
    (hgreen : green.Stored) (hblue : blue.Stored)
    (hfont : Script.RawWord (Scan.bareFlags true) font) (hvs : ∀ v ∈ vs, v.Stored)
    (hblocks : Governs cond w.blocks) :
    Reads (parsePrint w true) c
      (argumentSpot false (expressionSource x ++ 44 :: 32 :: (expressionSource y ++ 44 :: 32 ::
        (expressionSource alpha ++ 44 :: 32 :: (expressionSource red ++ 44 :: 32 ::
          (expressionSource green ++ 44 :: 32 :: (expressionSource blue ++ 44 :: 32 ::
            (font ++ 44 :: 32 :: (Script.quote text ++ (formatSource vs ++ 10 :: rest))))))))))
      ⟨[(.endOfLine, [10])], rest⟩
      (· = { w with prints := w.prints ++ [.print ⟨some x.restored, some y.restored,
        some alpha.restored, some red.restored, some green.restored, some blue.restored, some font,
        text, cond.map Expr.restored, vs.map FormatValue.reread⟩] }) := by
  refine .bind (reads_activeCondition_governed hc hcond hblocks) ?_
  rintro _ rfl
  refine .bind (reads_argument_comma hc hx false) ?_
  rintro _ rfl
  refine .bind (reads_argument_comma hc hy true) ?_
  rintro _ rfl
  refine .bind (reads_argument_comma hc halpha true) ?_
  rintro _ rfl
  refine .bind (reads_argument_comma hc hred true) ?_
  rintro _ rfl
  refine .bind (reads_argument_comma hc hgreen true) ?_
  rintro _ rfl
  refine .bind (reads_argument_comma hc hblue true) ?_
  rintro _ rfl
  refine .bind (.lift (succeeds_expect succeeds_read_queued)) fun _ _ => ?_
  refine .bind (reads_parseWord hfont (.inl ⟨rfl, rfl⟩)) ?_
  rintro _ rfl
  refine .bind (.pure rfl) ?_
  rintro _ rfl
  refine .bind (.lift (succeeds_expect (succeeds_read rfl))) fun _ _ => ?_
  exact reads_formatted hvs fun _ => .pure rfl

/-- A printed text, without its colours and its font where one of them is missing. -/
theorem conveys_print {p : Print} (hc : c.Plain) (hw : w.blocks = []) (hp : p.Stored)
    (asBackground : Bool) :
    Conveys c asBackground (.print p) w
      { w with prints := w.prints ++ [.print (p.reread.mapExpr Expr.restored)] } := by
  obtain ⟨⟨x, hx⟩, ⟨y, hy⟩, ⟨alpha, halpha⟩, hexprs, hfont, hformat⟩ := hp
  obtain ⟨_, _, _, red, green, blue, font, message, cond, format⟩ := p
  cases hx
  cases hy
  cases halpha
  simp only [Command.exprs, List.forall_mem_append, Option.toList_some, List.forall_mem_singleton,
    Option.mem_toList] at hexprs
  obtain ⟨hx, hy, halpha, hred, hgreen, hblue, hcond⟩ := hexprs
  have hcomma : utf8 ", " = [44, 32] := rfl
  by_cases hfull : Print.isFull
      ⟨some x, some y, some alpha, red, green, blue, font, message, cond, format⟩ = true
  · rw [Print.reread, if_pos hfull]
    simp only [Print.isFull, Bool.and_eq_true, Option.isSome_iff_exists] at hfull
    obtain ⟨⟨⟨⟨red, rfl⟩, ⟨green, rfl⟩⟩, ⟨blue, rfl⟩⟩, ⟨font, rfl⟩⟩ := hfull
    refine conveys_directive (utf8 "xyprintfx") (32 :: (expressionSource x ++ 44 :: 32 ::
      (expressionSource y ++ 44 :: 32 :: (expressionSource alpha ++ 44 :: 32 ::
        (expressionSource red ++ 44 :: 32 :: (expressionSource green ++ 44 :: 32 ::
          (expressionSource blue ++ 44 :: 32 :: (font ++ 44 :: 32 :: (Script.quote message ++
            formatSource format))))))))) cond
      hw hw hcond rfl (.blank _) ?_ (fun v _ => parsePrint v true) (fun _ _ => rfl)
      fun blocks hblocks loc rest => ⟨_, .seen, ?_⟩
    · have hword : utf8 "xyprintfx " = utf8 "xyprintfx" ++ [32] := rfl
      simp [Script.writeCommand, Script.writePrint, hword, hcomma, utf8_newline, pure, Except.pure]
    · simpa [argumentSpot, Print.mapExpr] using reads_print_font message rest hc hcond hx hy halpha
        (hred red rfl) (hgreen green rfl) (hblue blue rfl) (hfont rfl font rfl) hformat
        (w := { w with blocks := blocks, closed := [] }) hblocks
  · rw [Print.reread, if_neg hfull]
    refine conveys_directive (utf8 "xyprint") (32 :: (expressionSource x ++ 44 :: 32 ::
      (expressionSource y ++ 44 :: 32 :: (expressionSource alpha ++ 44 :: 32 ::
        (Script.quote message ++ formatSource format))))) cond
      hw hw hcond rfl (.blank _) ?_ (fun v _ => parsePrint v false) (fun _ _ => rfl)
      fun blocks hblocks loc rest => ⟨_, .seen, ?_⟩
    · have hword : utf8 "xyprint " = utf8 "xyprint" ++ [32] := rfl
      cases red <;> cases green <;> cases blue <;> cases font <;>
        first
        | exact absurd rfl hfull
        | simp [Script.writeCommand, Script.writePrint, hword, hcomma, utf8_newline, pure,
            Except.pure]
    · simpa [argumentSpot, Print.mapExpr] using reads_print message rest hc hcond hx hy halpha
        hformat (w := { w with blocks := blocks, closed := [] }) hblocks

end Compiler

end ApeScript
