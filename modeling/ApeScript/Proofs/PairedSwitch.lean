import ApeScript.Proofs.CompiledSwitch
import ApeScript.Proofs.PairedRun

/-!
# Switches of two compilations

Two compilations that differ in whether they optimize parse the same expressions and the same
statements. So each of their switches is emitted for the same draft, in which only `if` and `while`
govern other statements and every number is finite. A compilation is its own twin: so each place it
gives is the exact position of its statement, however deep the blocks are, and reading the places
back gives the statements that were emitted.
-/

namespace ApeScript.Twins

open Compiler

variable {T : Twins} {loc : Location} {token : Token} {type : StatementType}

/-! ### Expressions -/

theorem same_stringValue {newlineToSpace : Bool} : T.Same (stringValue token newlineToSpace) :=
  .mono .located fun _ _ h => ⟨h.1, trivial⟩

theorem agrees_floatOfToken : T.Agrees (floatOfToken token) (·.isFinite = true) := by
  refine .guard fun _ => ?_
  split
  · exact .fail
  · exact .ite (fun h => .pure ⟨rfl, h⟩) fun _ => .fail

theorem finite_ofName (name : Bytes) : (Value.ofName name).Finite := by
  unfold Value.ofName
  split <;> trivial

theorem agrees_parseTier {tiers : List (List Operator)} {bound : Lexer.Remaining} {level : Nat} :
    T.Agrees (parseTier tiers bound level) Value.Finite := by
  refine parseTier.induct tiers
    (fun bound level => T.Agrees (parseTier tiers bound level) Value.Finite)
    (fun bound level left =>
      left.Finite → T.Agrees (parseTierRest tiers bound level left) Value.Finite)
    (fun bound => T.Agrees (parseNegation tiers bound) Value.Finite)
    (fun bound => T.Agrees (parseOperand tiers bound) Value.Finite)
    ?zero ?succ ?rest ?negation ?operand bound level
  case zero =>
    intro bound hnegation
    rw [parseTier]
    exact hnegation
  case succ =>
    intro bound level hleft hrest
    rw [parseTier]
    exact .bind hleft fun left hfinite => hrest left hfinite
  case rest =>
    intro bound level left hright hrest hleft
    rw [parseTierRest]
    refine .bind .lift fun token _ => ?_
    split
    · exact .pure ⟨rfl, hleft⟩
    · rename_i op _
      refine .bind .lift fun _ _ => .bind .remaining fun now _ => ?_
      refine .dite (fun less => ?_) fun _ => .fail
      exact .bind (hright now less) fun right hfinite => hrest op now less right ⟨hleft, hfinite⟩
  case negation =>
    intro bound hnegation hoperand
    rw [parseNegation]
    refine .bind .lift fun token _ => .ite (fun _ => ?_) fun _ => hoperand
    refine .bind .lift fun _ _ => .bind .remaining fun now _ => ?_
    refine .dite (fun less => ?_) fun _ => .fail
    refine .bind (hnegation now less) fun v hv => .guard fun _ => ?_
    cases v with
    | const x => exact .pure ⟨rfl, Binary32.isFinite_neg.trans hv⟩
    | _ => exact .pure ⟨rfl, Binary32.isFinite_zero, hv⟩
  case operand =>
    intro bound hinner
    rw [parseOperand]
    refine .bind .lift fun token _ => ?_
    split
    · refine .bind .lift fun _ _ => .bind .remaining fun now _ => ?_
      refine .dite (fun less => ?_) fun _ => .fail
      refine .bind (hinner now less) fun v hv => ?_
      exact .bind .lift fun closing _ => .guard fun _ => .pure ⟨rfl, hv⟩
    · exact .bind .lift fun _ _ => .pure ⟨rfl, trivial⟩
    · exact .bind .lift fun _ _ => .bind agrees_floatOfToken fun _ h => .pure ⟨rfl, h⟩
    · exact .bind .lift fun _ _ => .pure ⟨rfl, finite_ofName _⟩
    · exact .fail

theorem agrees_parseExpr : T.Agrees parseExpr Value.Finite :=
  .options (.bind .remaining fun _ _ => agrees_parseTier)

theorem agrees_parseNumeric : T.Agrees parseNumeric Value.Finite := by
  refine .bind .location fun loc _ => .bind agrees_parseExpr fun v hv => ?_
  refine .ite (fun _ => ?_) fun _ => .pure ⟨rfl, hv⟩
  refine .options (.guard fun _ => ?_)
  exact .join .warn fun _ _ _ => .pure ⟨rfl, hv⟩

/-! ### Labels and arguments -/

theorem same_labelOfTokens {high low : Token} : T.Same (labelOfTokens high low) := by
  refine .bind .located fun h _ => .bind .located fun l _ => ?_
  split
  · exact .pure ⟨rfl, trivial⟩
  · exact .fail

theorem same_parseLabel : T.Same parseLabel :=
  .bind .lift fun _ _ => .bind .lift fun _ _ => .bind .lift fun _ _ => same_labelOfTokens

theorem same_parseDefinitionLabel : T.Same parseDefinitionLabel :=
  .bind .lift fun _ _ => .bind same_parseLabel fun _ _ => .guard fun _ => .pure ⟨rfl, trivial⟩

theorem same_formatValueOfToken : T.Same (formatValueOfToken token) := by
  unfold formatValueOfToken
  split
  · exact .bind agrees_floatOfToken fun x _ => .pure ⟨rfl, trivial⟩
  · exact .pure ⟨rfl, trivial⟩
  · exact .pure ⟨rfl, trivial⟩
  · exact .fail

theorem same_parseFormatValue : T.Same parseFormatValue :=
  .bind .lift fun _ _ => same_formatValueOfToken

theorem same_parseFormatList : T.Same parseFormatList := by
  refine .repeatSame (I := fun _ => True) trivial fun values _ => ?_
  refine .bind .lift fun token _ => .ite (fun _ => .pure ⟨rfl, trivial⟩) fun _ => ?_
  exact .bind .lift fun _ _ => .bind same_parseFormatValue fun v _ => .pure ⟨rfl, trivial⟩

/-- Whether a quote comes next is the same in both. -/
theorem nextIsQuote_bind {α β : Type} {x x' : Compiler α} {y y' : Compiler β} {R : α → β → Prop}
    (hx : T.Pairs x y R) (hx' : T.Pairs x' y' R) :
    T.Pairs (getThe CompileState >>= fun s => if Lexer.nextIsQuote s.lexer then x else x')
      (getThe CompileState >>= fun s => if Lexer.nextIsQuote s.lexer then y else y') R := by
  refine .join .state fun s s' hs => ?_
  rw [hs.lexer]
  exact .ite (fun _ => hx) fun _ => hx'

theorem same_parseName : T.Same parseName := by
  refine nextIsQuote_bind (.bind .lift fun _ _ => .pure ⟨rfl, trivial⟩) ?_
  refine .bind .lift fun token _ => ?_
  split
  · exact .fail
  · exact .fail
  · exact .pure ⟨rfl, trivial⟩
  · exact .pure ⟨rfl, trivial⟩

theorem same_parseWord {stopComma : Bool} : T.Same (parseWord stopComma) := by
  refine .bind .lift fun token _ => .guard fun _ => ?_
  extract_lets text rest rest'
  have hrest (u : Unit) : T.Same (rest u) := .pure ⟨rfl, trivial⟩
  have hrest' (u : Unit) : T.Same (rest' u) :=
    .ite (fun _ => .join .warn fun u _ _ => hrest u) fun _ => hrest ()
  exact .ite (fun _ => .join .warn fun u _ _ => hrest' u) fun _ => hrest' ()

theorem same_parseDefine : T.Same parseDefine := by
  refine .bind .lift fun token _ => .ite (fun _ => .pure ⟨rfl, trivial⟩) fun _ => ?_
  exact .bind .lift fun _ _ => .bind .lift fun _ _ => .pure ⟨rfl, trivial⟩

/-! ### Statements -/

theorem parsed_single {str : Option Bytes} {format : List FormatValue} {expr : Option Value}
    (hif : type ≠ .ifThen) (hloop : type ≠ .while) (hexpr : ∀ v ∈ expr, v.Finite) :
    (Draft.single ⟨type, str, format, expr, loc⟩).Parsed :=
  ⟨⟨⟨fun h => absurd h (not_or.2 ⟨hif, hloop⟩), fun _ _ => ⟨rfl, rfl⟩⟩, trivial, trivial, trivial⟩,
    hexpr, trivial, trivial, trivial⟩

/-- A statement with a text and formatting values. -/
theorem parsed_plain {str : Option Bytes} {format : List FormatValue} (hif : type ≠ .ifThen)
    (hloop : type ≠ .while) : (Draft.single ⟨type, str, format, none, loc⟩).Parsed :=
  parsed_single hif hloop (by simp)

theorem agrees_parseOptionalWord (hif : type ≠ .ifThen) (hloop : type ≠ .while) :
    T.Agrees (parseOptionalWord type loc) Draft.Parsed := by
  refine .bind .lift fun token _ => .ite (fun _ => .pure ⟨rfl, parsed_plain hif hloop⟩) fun _ => ?_
  refine .bind .lift fun _ _ => .bind same_parseFormatList fun format _ => ?_
  exact .pure ⟨rfl, parsed_plain hif hloop⟩

theorem agrees_parseQuotedStatement (hif : type ≠ .ifThen) (hloop : type ≠ .while) :
    T.Agrees (parseQuotedStatement type loc) Draft.Parsed := by
  refine .bind .lift fun token _ => .bind same_stringValue fun text _ => ?_
  exact .bind same_parseFormatList fun format _ => .pure ⟨rfl, parsed_plain hif hloop⟩

theorem same_parseRestOfLine {missing : Cause} : T.Same (parseRestOfLine missing) :=
  .bind .lift fun _ _ => .guard fun _ => .pure ⟨rfl, trivial⟩

theorem agrees_parseLabeled (hif : type ≠ .ifThen) (hloop : type ≠ .while) :
    T.Agrees (parseLabeled type loc) Draft.Parsed :=
  .bind same_parseLabel fun _ _ => .pure ⟨rfl, parsed_plain hif hloop⟩

theorem agrees_parseGoto : T.Agrees (parseGoto loc) Draft.Parsed := by
  refine .options (.ite (fun _ => ?_) fun _ => agrees_parseLabeled (by decide) (by decide))
  exact .bind same_parseRestOfLine fun _ _ => .pure ⟨rfl, parsed_plain (by decide) (by decide)⟩

theorem same_parseDestination : T.Same parseDestination := by
  refine .options (.ite (fun _ => .lift) fun _ => ?_)
  exact .bind .lift fun token _ => .guard fun _ => .pure ⟨rfl, trivial⟩

theorem same_parseAssigned : T.Same parseAssigned := by
  refine nextIsQuote_bind ?_ ?_
  · exact .bind .lift fun _ _ => .bind same_stringValue fun _ _ => .pure ⟨rfl, trivial⟩
  · exact .bind .lift fun _ _ => .guard fun _ => .pure ⟨rfl, trivial⟩

theorem agrees_parseSet : T.Agrees (parseSet token) Draft.Parsed := by
  refine .guard fun _ => .bind .lift fun _ _ => .ite (fun _ => ?_) fun _ => ?_
  · refine .bind same_parseAssigned fun _ _ => .bind same_parseFormatList fun format _ => ?_
    exact .pure ⟨rfl, parsed_plain (by decide) (by decide)⟩
  · refine .bind agrees_parseExpr fun v hv => .bind same_parseFormatList fun format _ => ?_
    exact .pure ⟨rfl, parsed_single (by decide) (by decide) (by simpa using hv)⟩

theorem not_control_of_find? {table : List (Bytes × StatementType)} {name text : Bytes}
    (h : table.find? (·.1 = text) = some (name, type))
    (htable : ∀ entry ∈ table, entry.2 ≠ .ifThen ∧ entry.2 ≠ .while) :
    type ≠ .ifThen ∧ type ≠ .while :=
  htable (name, type) (List.mem_of_find?_eq_some h)

theorem parsed_unset : (unset token).Parsed := by
  unfold unset
  split
  · exact parsed_plain (by decide) (by decide)
  · exact parsed_plain (by decide) (by decide)

theorem agrees_parseSimple : T.Agrees (parseSimple token) Draft.Parsed := by
  unfold parseSimple
  split
  · obtain ⟨hif, hloop⟩ := not_control_of_find? ‹_ = some _› (by decide)
    exact agrees_parseOptionalWord hif hloop
  · obtain ⟨hif, hloop⟩ := not_control_of_find? ‹_ = some _› (by decide)
    exact agrees_parseQuotedStatement hif hloop
  · refine .ite (fun _ => .bind same_parseDestination fun _ _ => agrees_parseSet) fun _ => ?_
    refine .ite (fun _ => .bind same_parseDestination fun _ _ => .pure ⟨rfl, parsed_unset⟩)
      fun _ => ?_
    refine .ite (fun _ => agrees_parseGoto) fun _ => ?_
    refine .ite (fun _ => .pure ⟨rfl, parsed_plain (by decide) (by decide)⟩) fun _ => ?_
    refine .ite (fun _ => agrees_parseLabeled (by decide) (by decide)) fun _ => ?_
    refine .ite (fun _ => agrees_parseLabeled (by decide) (by decide)) fun _ => ?_
    refine .ite (fun _ => ?_) fun _ => agrees_parseSet
    exact .bind same_parseRestOfLine fun _ _ => .pure ⟨rfl, parsed_plain (by decide) (by decide)⟩

theorem agrees_parseCondition : T.Agrees parseCondition Value.Finite := by
  refine .bind .lift fun _ _ => .bind agrees_parseNumeric fun v hv => ?_
  exact .bind .lift fun _ _ => .pure ⟨rfl, hv⟩

theorem same_checkStatementEnd {elseMayFollow : Bool} :
    T.Same (checkStatementEnd elseMayFollow) :=
  .bind .lift fun _ _ => .ite (fun _ => .fail) fun _ => .pure ⟨rfl, trivial⟩

/-- An `if` or a `while` over parsed blocks. -/
theorem parsed_control {v : Value} {inner alt : Draft} (htype : type = .ifThen ∨ type = .while)
    (hv : v.Finite) (hi : inner.Parsed) (ha : alt.Parsed) :
    (Draft.step ⟨type, none, [], some v, loc⟩ inner alt .done).Parsed := by
  have hgoverns : (⟨type, none, [], some v, loc⟩ : DraftStatement).Governs inner alt :=
    ⟨fun _ => rfl, fun hif hloop => absurd htype (not_or.2 ⟨hif, hloop⟩)⟩
  exact ⟨⟨hgoverns, hi.shaped, ha.shaped, trivial⟩, by simpa [DraftStatement.Finite] using hv,
    hi.finite, ha.finite, trivial⟩

theorem parsed_done : Draft.done.Parsed := ⟨trivial, trivial⟩

theorem agrees_parseStatement {bound : Lexer.Remaining} {elseMayFollow : Bool} :
    T.Agrees (parseStatement bound token elseMayFollow) Draft.Parsed := by
  have hstatement (bound : Lexer.Remaining) (token : Token) (elseMayFollow : Bool)
      (hif : T.Agrees (parseIf bound token.loc) (·.1.Parsed))
      (hwhile : T.Agrees (parseWhile bound token.loc) Draft.Parsed) :
      T.Agrees (parseStatement bound token elseMayFollow) Draft.Parsed := by
    rw [parseStatement]
    refine .guard fun _ => .ite (fun _ => ?_) fun _ => ?_
    · refine .bind hif ?_
      rintro ⟨d, needsCheck⟩ hd
      refine .ite (fun _ => ?_) fun _ => .pure ⟨rfl, hd⟩
      exact .bind same_checkStatementEnd fun _ _ => .pure ⟨rfl, hd⟩
    · extract_lets finish
      have hfinish (d : Draft) (hd : d.Parsed) : T.Agrees (finish d) Draft.Parsed :=
        .bind same_checkStatementEnd fun _ _ => .pure ⟨rfl, hd⟩
      refine .ite (fun _ => .bind hwhile hfinish) fun _ => .bind agrees_parseSimple hfinish
  -- the parsers of statements and blocks call one another on less of the text
  refine parseStatement.induct
    (fun bound token elseMayFollow =>
      T.Agrees (parseStatement bound token elseMayFollow) Draft.Parsed)
    (fun bound loc => T.Agrees (parseWhile bound loc) Draft.Parsed)
    (fun bound elseMayFollow => T.Agrees (parseBody bound elseMayFollow) Draft.Parsed)
    (fun bound opened isEmpty => T.Agrees (parseBlock bound opened isEmpty) Draft.Parsed)
    (fun bound loc => T.Agrees (parseIf bound loc) (·.1.Parsed))
    ?other ?statement ?loop ?body ?block ?branch bound token elseMayFollow
  case other | statement =>
    intro bound token elseMayFollow _ hif hwhile
    exact hstatement bound token elseMayFollow hif hwhile
  case loop =>
    intro bound loc hbody
    rw [parseWhile]
    refine .bind agrees_parseCondition fun condition hc => .bind .remaining fun now _ => ?_
    refine .dite (fun less => .bind (hbody now less) fun inner hi => ?_) fun _ => .fail
    exact .pure ⟨rfl, parsed_control (Or.inr rfl) hc hi parsed_done⟩
  case body =>
    intro bound elseMayFollow hblock hstatement
    rw [parseBody]
    refine .bind .lift fun _ _ => .bind .lift fun token _ => ?_
    exact .ite (fun _ => hblock token) fun _ => hstatement token
  case block =>
    intro bound opened isEmpty hskip hstatement hrest
    rw [parseBlock]
    refine .bind .lift fun token _ => ?_
    split
    · refine .bind .lift fun _ _ => .options (.guard fun _ => .pure ⟨rfl, parsed_done⟩)
    · exact .fail
    · refine .bind .lift fun _ _ => .bind .remaining fun now _ => ?_
      exact .dite (fun less => hskip now less) fun _ => .fail
    · refine .bind .lift fun first _ => .bind (hstatement first) fun d hd => ?_
      refine .bind .remaining fun now _ => .dite (fun less => ?_) fun _ => .fail
      exact .bind (hrest now less) fun rest hr => .pure ⟨rfl, hd.append hr⟩
  case branch =>
    intro bound loc hinner halt
    rw [parseIf]
    refine .bind agrees_parseCondition fun condition hc => .bind .remaining fun now _ => ?_
    refine .dite (fun less => .bind (hinner now less) fun inner hi => ?_) fun _ => .fail
    refine .bind .lift fun _ _ => .bind .lift fun _ _ => ?_
    refine .bind .lift fun next _ => .ite (fun _ => ?_) fun _ => ?_
    · exact .pure ⟨rfl, parsed_control (Or.inl rfl) hc hi parsed_done⟩
    · refine .bind .lift fun _ _ => .bind .remaining fun later _ => ?_
      refine .dite (fun less => .bind (halt later less) fun alt ha => ?_) fun _ => .fail
      exact .pure ⟨rfl, parsed_control (Or.inl rfl) hc hi ha⟩

/-- The statements of a switch are emitted for one draft in both. -/
theorem pairs_compileSwitch {label : Label} {inline : Bool} :
    T.Pairs (compileSwitch label inline) (compileSwitch label inline) fun r r' =>
      Switch.Paired T.context.options T.other.options r.1 r'.1 ∧ r.1.label = label ∧
        r.2 = r'.2 := by
  refine .bind .location fun loc _ => ?_
  refine .bind (P := fun r => r.1.Parsed) ?_ fun (draft, afterHash) hdraft => ?_
  · refine .repeatSame (I := Draft.Parsed) parsed_done fun d hd => ?_
    refine .bind .lift fun token _ => ?_
    split
    · refine .bind .lift fun _ _ => .bind same_parseDefine fun defined _ => ?_
      exact .ite (fun _ => .pure ⟨rfl, hd⟩) fun _ => .pure ⟨rfl, hd⟩
    · exact .guard fun _ => .pure ⟨rfl, hd⟩
    · exact .bind .lift fun _ _ => .pure ⟨rfl, hd⟩
    · refine .ite (fun _ => .pure ⟨rfl, hd⟩) fun _ => .bind .remaining fun bound _ => ?_
      refine .bind .lift fun first _ => ?_
      exact .bind agrees_parseStatement fun d' hd' => .pure ⟨rfl, hd.append hd'⟩
  · have hemitted : T.Pairs (emitAll draft) (emitAll draft) fun ps ps' =>
        draft.Compiles T.context.options ps ∧ draft.Compiles T.other.options ps' :=
      .of_gives (fun _ => gives_emitAll hdraft.shaped) (fun _ => gives_emitAll hdraft.shaped)
        fun _ _ h h' => ⟨h, h'⟩
    exact hemitted.join fun ps ps' h => .pure ⟨⟨rfl, draft, hdraft, h.1, h.2⟩, rfl, rfl⟩

end ApeScript.Twins

/-! ### Places -/

namespace ApeScript

variable {o : Options} {d : Draft} {ps : List Placed}

/-- Placed statements from which the simplified draft can be read back: no place is zero or occurs
twice, each is the position of its statement in a block, and the places alone give that block. -/
structure Draft.DescribedBy (o : Options) (d : Draft) (ps : List Placed) : Prop where
  ne_zero : ∀ p ∈ ps, p.cc ≠ 0
  nodup : (ps.map (·.cc)).Nodup
  block : ∃ (d' : Draft) (b : Block), d.simplify o.optimize = .ok d' ∧ Block.ofPlaced ps = .ok b ∧
    b.placed = ps ∧ b.LaidFrom 1 ∧ d'.EmittedAs o b

theorem Draft.Compiles.describedBy (h : d.Compiles o ps) : d.DescribedBy o ps := by
  obtain ⟨d', b, hsimple, rfl, hlaid, hsuited, hemitted⟩ := h
  refine ⟨fun p hp => hlaid.ne_zero one_ne_zero hp, hlaid.nodup, d', b, hsimple, ?_⟩
  exact ⟨Block.ofPlaced_placed hlaid hsuited, rfl, hlaid, hemitted⟩

namespace Compiler

/-- A compilation is its own twin, so the statements of a switch are emitted for a draft that the
parser gave. -/
theorem compiles_compileSwitch {label : Label} {inline : Bool} {c : CompileContext}
    {s t : CompileState} {r : Switch × Bool} (h : compileSwitch label inline c s = .ok r t) :
    ∃ d : Draft, d.Shaped ∧ d.Compiles c.options r.1.commands := by
  -- nothing relates the inline switches here, which the emitted places do not depend on
  let T : Twins := ⟨c, c.options.optimize, fun _ _ => True, fun _ => trivial⟩
  have hstart : T.States s s := ⟨rfl, rfl, List.forall₂_same.2 fun _ _ => trivial⟩
  obtain ⟨-, hpaired, -, -⟩ := T.pairs_compileSwitch s s r r t t hstart h h
  obtain ⟨d, hd, hcompiles, -⟩ := hpaired.commands
  exact ⟨d, hd.shaped, hcompiles⟩

/-- The places of a switch describe its statements. A place is refused exactly when it would not fit
into 64 bits; whatever is emitted for parsed statements can be read back from its places; and all
that a switch is compiled to is emitted for parsed statements. -/
theorem describedBy_emitAll :
    (∀ cc step : UInt64, ∀ loc, step.toNat < 4 →
      nextPlace cc step loc = if 4 * cc.toNat + step.toNat < 2 ^ 64 then
        .ok (UInt64.ofNat (4 * cc.toNat + step.toNat)) else .error ⟨loc, .tooManyStatements⟩) ∧
    (∀ (d : Draft) (c : CompileContext) (s t : CompileState) (ps : List Placed), d.Shaped →
      emitAll d c s = .ok ps t → d.DescribedBy c.options ps) ∧
    ∀ (label : Label) (inline : Bool) (c : CompileContext) (s t : CompileState) (r : Switch × Bool),
      compileSwitch label inline c s = .ok r t →
        ∃ d : Draft, d.Shaped ∧ d.DescribedBy c.options r.1.commands := by
  refine ⟨fun cc step loc hstep => nextPlace_eq hstep, ?_, ?_⟩
  · intro d c s t ps hd h
    obtain ⟨hcompiles, -⟩ := gives_emitAll hd ps t h
    exact hcompiles.describedBy
  · intro label inline c s t r h
    obtain ⟨d, hd, hcompiles⟩ := compiles_compileSwitch h
    exact ⟨d, hd, hcompiles.describedBy⟩

/-- An `if` in front of a loop and with a loop as its alternative. -/
def loops : Draft :=
  let say (b : UInt8) : Draft := .single ⟨.echo, some [b], [], none, .start []⟩
  let repeated (b : UInt8) : Draft :=
    .step ⟨.while, none, [], some (.floatVar [b]), .start []⟩ (say b) .done .done
  .step ⟨.ifThen, none, [], some (.floatVar [97]), .start []⟩ (say 97) (repeated 98) (repeated 99)

def loopsPlaced : List Placed :=
  let asks (name : UInt8) : Option Expr := some ⟨9, ⟨4, 5, .float .zero⟩, ⟨5, 6, .name [name]⟩⟩
  [⟨1, 1, none, [], asks 97⟩, ⟨5, 7, some [97], [], none⟩, ⟨6, 11, none, [], asks 98⟩,
   ⟨25, 7, some [98], [], none⟩, ⟨7, 11, none, [], asks 99⟩, ⟨29, 7, some [99], [], none⟩]

/-- The script of `loops`. -/
def loopsText : Bytes :=
  utf8 "if (a)\necho \"a\"\nelse\nwhile (b)\necho \"b\"\nwhile (c)\necho \"c\""

def reading (text : Bytes) : CompileState := ⟨.ofSource text [] true, [], 0, []⟩

theorem describedBy_emitAll_loops :
    loops.Shaped ∧ emitAll loops ⟨.defaults, 0⟩ (reading []) = .ok loopsPlaced (reading []) ∧
      loops.DescribedBy .defaults loopsPlaced ∧
      (compileSwitch 10001 false ⟨.defaults, 0⟩ (reading loopsText) =
        .ok (⟨10001, loopsPlaced⟩, false)
          ⟨⟨⟨[], 0, ⟨[], 6, 8⟩⟩, true, [⟨.endOfFile, [], ⟨[], 6, 8⟩⟩], []⟩, [], 0, []⟩) ∧
      (∃ d : Draft, d.Shaped ∧ d.DescribedBy .defaults loopsPlaced) ∧
      nextPlace 0x3fffffffffffffff 3 (.start []) = .ok 0xffffffffffffffff ∧
      nextPlace 0x4000000000000000 1 (.start []) = .error ⟨.start [], .tooManyStatements⟩ := by
  have hshaped : loops.Shaped := by
    simp [loops, Draft.Shaped, Draft.single, DraftStatement.governs_iff]
  have hemitted : emitAll loops ⟨.defaults, 0⟩ (reading []) = .ok loopsPlaced (reading []) := rfl
  have hcompiled : compileSwitch 10001 false ⟨.defaults, 0⟩ (reading loopsText) =
      .ok (⟨10001, loopsPlaced⟩, false)
        ⟨⟨⟨[], 0, ⟨[], 6, 8⟩⟩, true, [⟨.endOfFile, [], ⟨[], 6, 8⟩⟩], []⟩, [], 0, []⟩ := by cbv
  obtain ⟨hplace, hdrafts, hswitches⟩ := describedBy_emitAll
  refine ⟨hshaped, hemitted, hdrafts _ _ _ _ _ hshaped hemitted, hcompiled,
    hswitches _ _ _ _ _ _ hcompiled, ?_, ?_⟩
  · rw [hplace _ _ _ (by decide)]
    decide
  · rw [hplace _ _ _ (by decide)]
    decide

end Compiler

end ApeScript
