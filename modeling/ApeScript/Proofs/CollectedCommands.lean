import ApeScript.Proofs.InlineLabels
import ApeScript.Proofs.Nesting
import ApeScript.Proofs.WindowScript

/-!
# What the directives of a window add

What a window's body says is read as signs (`readSigns`), without regard to the blocks that the
draft keeps; these blocks are a nest. A directive leaves them as they are and adds at most one
command, under the conjunction of the conditions of all open blocks, if it can have a condition. The
other directives stand outside all blocks (`Obeys`).
-/

namespace ApeScript

/-- A directive of a window, as it is read: its keyword, and whether it is a background that shows
an image. -/
structure Directive where
  keyword : Bytes
  showsImage : Bool
  deriving DecidableEq, Repr

namespace Directive

/-- The code of the command that the directive adds to those that the window collects. -/
def code? (d : Directive) : Option UInt8 :=
  if d.keyword = utf8 "title" then some CommandCode.title
  else if d.keyword = utf8 "body" then some CommandCode.body
  else if d.keyword = utf8 "image" then some CommandCode.image
  else if d.keyword = utf8 "choice" then some CommandCode.choice
  else if d.keyword = utf8 "xyprint" ∨ d.keyword = utf8 "xyprintfx" then some CommandCode.xyPrint
  else if d.keyword = utf8 "subwindow" then some CommandCode.subWindow
  else if d.keyword = utf8 "background" ∧ d.showsImage then some CommandCode.image
  else none

def isConditional (d : Directive) : Bool :=
  d.keyword ∈ [utf8 "title", utf8 "body", utf8 "image", utf8 "choice", utf8 "xyprint",
    utf8 "xyprintfx", utf8 "background"]

end Directive

def CommandCode.collected : List UInt8 := [title, body, xyPrint, subWindow, image, choice]

def Laid (o : Options) (conditions : List Value) (e : Option Expr) : Prop :=
  Option.Rel (fun v e => v.layout o.allowExprEscapes = .ok e) (Value.conjoin conditions) e

/-- What a directive inside the given conditions adds: one command under their conjunction, if it
adds any. Only some directives may stand inside of conditions. -/
structure Emits (o : Options) (x : Directive × List Value) (command? : Option Command) : Prop where
  allowed : x.1.isConditional = true ∨ x.2 = []
  command : Option.Rel (fun code c => c.code = code ∧ Laid o x.2 c.condition?) x.1.code? command?

namespace ConditionBlock

def guard (b : ConditionBlock) : Guard Value := ⟨b.condition, b.braced, b.isElse⟩

end ConditionBlock

namespace WindowDraft

def nest (w : WindowDraft) : Nest Value :=
  ⟨w.blocks.map ConditionBlock.guard, w.closed.map ConditionBlock.guard⟩

def collected (w : WindowDraft) (code : UInt8) : List Command :=
  if code = CommandCode.title then w.titles
  else if code = CommandCode.body then w.bodies
  else if code = CommandCode.xyPrint then w.prints
  else if code = CommandCode.subWindow then w.subWindows
  else if code = CommandCode.image then w.images
  else if code = CommandCode.choice then w.choices
  else []

def Gains (w : WindowDraft) (cs : List Command) (w' : WindowDraft) : Prop :=
  ∀ code ∈ CommandCode.collected,
    w'.collected code = w.collected code ++ cs.filter (·.code = code)

variable {w w' w'' : WindowDraft} {cs cs' : List Command} {c : Command}

theorem nest_conditions : w.nest.conditions = w.blocks.reverse.map (·.condition) := by
  simp [nest, Nest.conditions, ConditionBlock.guard, Function.comp_def]

theorem nest_closeUnbraced : w.closeUnbraced.nest = w.nest.leave := by
  simp [nest, closeUnbraced, Nest.leave, List.takeWhile_map, List.dropWhile_map, Function.comp_def,
    ConditionBlock.guard]

theorem nest_markUsed : w.markUsed.nest = w.nest := by
  simp [nest, markUsed, ConditionBlock.guard, Function.comp_def]

theorem gains_nil (h : w'.collected = w.collected) : w.Gains [] w' := by
  intro code _
  simp [h]

theorem Gains.trans (h : w.Gains cs w') (h' : w'.Gains cs' w'') : w.Gains (cs ++ cs') w'' := by
  intro code hcode
  rw [h' code hcode, h code hcode, List.filter_append, List.append_assoc]

/-- One more command among those with its code. -/
theorem gains_single (hcode : w'.collected c.code = w.collected c.code ++ [c])
    (hother : ∀ code, code ≠ c.code → w'.collected code = w.collected code) : w.Gains [c] w' := by
  intro code _
  by_cases h : c.code = code
  · subst h
    simp [hcode]
  · simp [hother code (Ne.symm h), h]

theorem gains_title (hc : c.code = CommandCode.title) :
    w.Gains [c] { w with titles := w.titles ++ [c] } := by
  apply gains_single
  · rw [hc]
    rfl
  · intro code hcode
    rw [hc] at hcode
    simp [collected, hcode]

theorem gains_body (hc : c.code = CommandCode.body) :
    w.Gains [c] { w with bodies := w.bodies ++ [c] } := by
  apply gains_single
  · rw [hc]
    rfl
  · intro code hcode
    rw [hc] at hcode
    simp [collected, hcode]

theorem gains_print (p : Print) :
    w.Gains [.print p] { w with prints := w.prints ++ [.print p] } := by
  apply gains_single rfl
  intro code hcode
  simp [collected, show code ≠ CommandCode.xyPrint from hcode]

theorem gains_subWindow (l : Label) :
    w.Gains [.subWindow l] { w with subWindows := w.subWindows ++ [.subWindow l] } := by
  apply gains_single rfl
  intro code hcode
  simp [collected, show code ≠ CommandCode.subWindow from hcode]

theorem gains_image (i : Image) :
    w.Gains [.image i] { w with images := w.images ++ [.image i] } := by
  apply gains_single rfl
  intro code hcode
  simp [collected, show code ≠ CommandCode.image from hcode]

theorem gains_choice (condition : Option Expr) (text : Bytes) (format : List FormatValue)
    (l : Label) : w.Gains [.choice condition text format l]
      { w with choices := w.choices ++ [.choice condition text format l] } := by
  apply gains_single rfl
  intro code hcode
  simp [collected, show code ≠ CommandCode.choice from hcode]

theorem filter_made {code made : UInt8} (h : ∀ c ∈ cs, c.code = made) :
    cs.filter (·.code = code) = if made = code then cs else [] := by
  split
  · rename_i heq
    exact List.filter_eq_self.2 fun c hc => by simp [h c hc, heq]
  · rename_i hne
    exact List.filter_eq_nil_iff.2 fun c hc => by simp [h c hc, hne]

theorem filter_slot {α : Type} {code made : UInt8} (make : α → Command) (o : Option α)
    (hmake : ∀ a, (make a).code = made) (hne : made ≠ code) :
    (o.map make).toList.filter (·.code = code) = [] := by
  cases o with
  | none => rfl
  | some a => simp [hmake a, hne]

/-- Of the commands of a window, those with one of these codes are the ones collected. -/
theorem filter_commands (h : Gains {} cs w) {code : UInt8} (hcode : code ∈ CommandCode.collected) :
    w.commands.filter (·.code = code) = cs.filter (·.code = code) := by
  have hmade (made : UInt8) (hmember : made ∈ CommandCode.collected) :
      ∀ c ∈ w.collected made, c.code = made := by
    intro c hc
    rw [h made hmember] at hc
    exact (show c ∈ cs ∧ c.code = made by simpa [collected] using hc).2
  have htitles : ∀ c ∈ w.titles, c.code = CommandCode.title := hmade CommandCode.title (by decide)
  have hbodies : ∀ c ∈ w.bodies, c.code = CommandCode.body := hmade CommandCode.body (by decide)
  have hprints : ∀ c ∈ w.prints, c.code = CommandCode.xyPrint :=
    hmade CommandCode.xyPrint (by decide)
  have hsubs : ∀ c ∈ w.subWindows, c.code = CommandCode.subWindow :=
    hmade CommandCode.subWindow (by decide)
  have himages : ∀ c ∈ w.images, c.code = CommandCode.image := hmade CommandCode.image (by decide)
  have hchoices : ∀ c ∈ w.choices, c.code = CommandCode.choice :=
    hmade CommandCode.choice (by decide)
  have hcollected : w.collected code = cs.filter (·.code = code) := by
    rw [h code hcode]
    simp [collected]
  rw [← hcollected]
  simp only [commands, simple, ref, List.filter_flatten, List.map_cons, List.map_nil,
    filter_made htitles, filter_made hbodies, filter_made hprints, filter_made hsubs,
    filter_made himages, filter_made hchoices]
  simp only [CommandCode.collected, List.mem_cons, List.not_mem_nil, or_false] at hcode
  rcases hcode with rfl | rfl | rfl | rfl | rfl | rfl
  all_goals
    rw [filter_slot Command.cam w.cam (fun _ => rfl) (by decide),
      filter_slot Command.talk w.talk (fun _ => rfl) (by decide),
      filter_slot (Command.simpleText _) w.startConsole (fun _ => rfl) (by decide),
      filter_slot (Command.simpleText _) w.finishConsole (fun _ => rfl) (by decide),
      filter_slot (Command.switchRef _) w.startSwitch (fun _ => rfl) (by decide),
      filter_slot (Command.switchRef _) w.thinkSwitch (fun _ => rfl) (by decide),
      filter_slot (Command.switchRef _) w.finishSwitch (fun _ => rfl) (by decide),
      filter_slot (Command.simpleText _) w.style (fun _ => rfl) (by decide),
      filter_slot (Command.simpleText _) w.font (fun _ => rfl) (by decide),
      filter_slot (Command.simpleText _) w.nextWindow (fun _ => rfl) (by decide)]
    simp +decide [collected, Command.code, apply_ite (List.filter _)]

end WindowDraft

namespace Compiler

variable {c : CompileContext} {s t : CompileState} {w : WindowDraft} {token : Token}
  {loc : Location} {α β : Type}

/-! ### Reading what a body says -/

/-- Whether an opening brace follows, on this line or a later one. -/
def readBrace : Compiler Bool := do
  Lexer.skipLineEnds
  let token ← Lexer.peekNormal
  if token.type = .openBrace then
    Lexer.consume
    return true
  return false

/-- An `if`, after its keyword. -/
def readIf : Compiler (Sign Value Directive) := do
  let _ ← Lexer.expect .openParen
  let condition ← parseExpr
  let _ ← Lexer.expect .closeParen
  return .opening condition (← readBrace)

/-- A directive, after its keyword. A background shows an image if it names or implies one and does
not say that there is none. -/
def readPlain (w : WindowDraft) (token : Token) : Compiler (Sign Value Directive) := do
  if token.text = utf8 "background" then
    let _ ← activeCondition w
    let b ← parseBackdrop w.corners
    return .plain ⟨token.text, (b.name.isSome || b.stretch || b.tile) && !b.off⟩
  let _ ← parseCommand w token
  return .plain ⟨token.text, false⟩

/-- A directive, brace or line end of a body, after its first token. -/
def readSigns (w : WindowDraft) (token : Token) : Compiler (List (Sign Value Directive)) := do
  if token.type = .endOfLine then return []
  if token.type = .closeBrace then return [.closing]
  if token.is (utf8 "else") then return [.otherwise (← readBrace)]
  if token.text = utf8 "if" then return [← readIf]
  let sign ← readPlain { w with closed := [] } token
  let _ ← Lexer.peekNormal
  return [sign]

/-- What one round of reading a body finds, from its first token; a definition says nothing. -/
def readFrom (w : WindowDraft) (token : Token) : Compiler (List (Sign Value Directive)) := do
  match token.type with
  | .hash =>
    Lexer.consume
    let _ ← parseDefine
    return []
  | .endOfFile => return []
  | _ =>
    Lexer.consume
    readSigns w token

def readRound (w : WindowDraft) : Compiler (List (Sign Value Directive)) := do
  readFrom w (← Lexer.peekNormal)

/-! ### Conditions -/

theorem gives_run {x : Compiler α} : Gives x c s fun a t => x c s = .ok a t := fun _ _ h => h

theorem gives_activeCondition (ho : c.options.optimize = false) :
    Gives (activeCondition w) c s fun r _ =>
      r.2 = true ∧ Laid c.options w.nest.conditions r.1 := by
  rw [WindowDraft.nest_conditions]
  unfold activeCondition
  cases w.blocks.reverse with
  | nil => exact .pure ⟨rfl, .none⟩
  | cons outermost rest =>
    refine .bind .options ?_
    rintro _ t ⟨rfl, rfl⟩
    rw [ho]
    refine .bind gives_toExpr fun e t ⟨⟨v, hv, he⟩, _⟩ => .pure ⟨rfl, ?_⟩
    rw [ho] at hv
    cases hv
    exact .some he

theorem gives_checkUnconditional :
    Gives (checkUnconditional w loc) c s fun _ _ => w.blocks = [] :=
  .ite (fun h => .pure (List.isEmpty_iff.1 h)) fun _ => .fail

/-- Whatever comes first, what follows it gives a result. -/
theorem Gives.after {x : Compiler α} {f : α → Compiler β} {Q : β → CompileState → Prop}
    (h : ∀ a t, Gives (f a) c t Q) : Gives (x >>= f) c s Q :=
  .bind (P := fun _ _ => True) (fun _ _ _ => trivial) fun a t _ => h a t

/-- What follows either of two computations. -/
theorem Gives.either {p : Prop} [Decidable p] {x y : Compiler α} {f : α → Compiler β}
    {Q : β → CompileState → Prop} (h : ∀ a t, Gives (f a) c t Q) :
    Gives (if p then x >>= f else y >>= f) c s Q :=
  .ite (fun _ => .after h) fun _ => .after h

/-! ### What a directive does -/

/-- A directive leaves the blocks as they are and adds what it says under their conditions. -/
structure Obeys (o : Options) (w : WindowDraft) (d : Directive) (w' : WindowDraft) : Prop where
  nest : w'.nest = w.nest
  emits : ∃ command?, Emits o (d, w.nest.conditions) command? ∧ w.Gains command?.toList w'

theorem obeys_command {o : Options} {w w' : WindowDraft} {d : Directive} {command : Command}
    (hgains : w.Gains [command] w') (hcode : d.code? = some command.code)
    (hallowed : d.isConditional = true ∨ w.blocks = [])
    (hcondition : Laid o w.nest.conditions command.condition?) (hnest : w'.nest = w.nest) :
    Obeys o w d w' := by
  refine ⟨hnest, some command, ⟨?_, ?_⟩, hgains⟩
  · apply hallowed.imp_right
    intro hblocks
    simp [WindowDraft.nest_conditions, hblocks]
  · rw [hcode]
    exact .some ⟨rfl, hcondition⟩

theorem obeys_nothing {o : Options} {w w' : WindowDraft} {d : Directive} (hcode : d.code? = none)
    (hallowed : d.isConditional = true ∨ w.blocks = []) (hnest : w'.nest = w.nest)
    (hcollected : w'.collected = w.collected) : Obeys o w d w' := by
  refine ⟨hnest, none, ⟨?_, ?_⟩, WindowDraft.gains_nil hcollected⟩
  · apply hallowed.imp_right
    intro hblocks
    simp [WindowDraft.nest_conditions, hblocks]
  · rw [hcode]
    exact .none

/-! ### Directives that may stand in a block -/

theorem gives_parseFormattedText (ho : c.options.optimize = false) {code : UInt8} :
    Gives (parseFormattedText w code) c s fun cs _ =>
      ∃ condition text format, cs = [.formattedText code condition text format] ∧
        Laid c.options w.nest.conditions condition := by
  refine .bind (gives_activeCondition ho) ?_
  rintro ⟨condition, emits⟩ t ⟨rfl, hcondition⟩
  exact .after fun text t => .after fun format t =>
    .pure ⟨condition, text, format, rfl, hcondition⟩

theorem gives_parsePrint (ho : c.options.optimize = false) {withFont : Bool} :
    Gives (parsePrint w withFont) c s fun w' _ =>
      ∃ p, w' = { w with prints := w.prints ++ [.print p] } ∧
        Laid c.options w.nest.conditions p.condition := by
  refine .bind (gives_activeCondition ho) ?_
  rintro ⟨condition, emits⟩ t ⟨rfl, hcondition⟩
  refine .after fun x t => .after fun y t => .after fun alpha t => ?_
  extract_lets message
  have hmessage (r : Option Expr × Option Expr × Option Expr × Option Bytes) (t : CompileState) :
      Gives (message r) c t fun w' _ =>
        ∃ p, w' = { w with prints := w.prints ++ [.print p] } ∧
          Laid c.options w.nest.conditions p.condition :=
    .after fun _ _ => .after fun _ _ => .after fun _ _ => .pure ⟨_, rfl, hcondition⟩
  refine .ite (fun _ => ?_) fun _ => .after hmessage
  refine .after fun red t => .after fun green t => .after fun blue t => .after fun _ t => ?_
  exact .after fun font t => .after hmessage

theorem gives_parseImage (ho : c.options.optimize = false) :
    Gives (parseImage w) c s fun w' _ =>
      ∃ i, w' = { w with images := w.images ++ [.image i] } ∧
        Laid c.options w.nest.conditions i.condition := by
  refine .bind (gives_activeCondition ho) ?_
  rintro ⟨condition, emits⟩ t ⟨rfl, hcondition⟩
  refine .after fun file t => .after fun x t => .after fun y t => .after fun width t => ?_
  exact .either fun height t => .either fun flags t => .pure ⟨_, rfl, hcondition⟩

theorem gives_parseChoice (ho : c.options.optimize = false) :
    Gives (parseChoice w) c s fun w' _ =>
      ∃ condition text format l,
        w' = { w with choices := w.choices ++ [.choice condition text format l] } ∧
          Laid c.options w.nest.conditions condition := by
  refine .bind (gives_activeCondition ho) ?_
  rintro ⟨condition, emits⟩ t ⟨rfl, hcondition⟩
  refine .after fun token t => .after fun text t => .after fun next t => ?_
  extract_lets add
  have hadd (r : List FormatValue × Label) (t : CompileState) : Gives (add r) c t fun w' _ =>
      ∃ condition text format l,
        w' = { w with choices := w.choices ++ [.choice condition text format l] } ∧
          Laid c.options w.nest.conditions condition :=
    .pure ⟨condition, text, r.1, r.2, rfl, hcondition⟩
  refine .ite (fun _ => ?_) fun _ => .after fun l t => .after hadd
  exact .after fun _ t => .after hadd

/-! ### Directives that stand outside all blocks -/

/-- A directive outside all blocks that adds nothing to the collected commands. -/
structure Aside (w w' : WindowDraft) : Prop where
  outside : w.blocks = []
  nest : w'.nest = w.nest
  collected : w'.collected = w.collected

theorem gives_unconditional {f : Unit → Compiler α} :
    Gives (checkUnconditional w loc >>= f) c s fun _ _ => w.blocks = [] :=
  .bind gives_checkUnconditional fun _ _ h _ _ _ => h

theorem gives_parseTalk : Gives (parseTalk w loc) c s fun w' _ => Aside w w' := by
  refine .bind gives_checkUnconditional fun _ t hw => .after fun _ t => .after fun target t => ?_
  extract_lets animate
  have hanimate (names : Bytes × Bytes) (t : CompileState) :
      Gives (animate names) c t fun w' _ => Aside w w' :=
    .after fun _ _ => .after fun _ _ => .pure ⟨hw, rfl, rfl⟩
  refine .ite (fun _ => .after hanimate) fun _ => ?_
  exact .ite (fun _ => .after hanimate) fun _ => .fail_bind

theorem gives_parseTalkEx : Gives (parseTalkEx w loc) c s fun w' _ => Aside w w' := by
  refine .bind gives_checkUnconditional fun _ t hw => .after fun _ t => .after fun _ t => ?_
  refine .after fun _ t => .after fun _ t => .after fun _ t => .after fun _ t => ?_
  refine .ite (fun _ => .pure ⟨hw, rfl, rfl⟩) fun _ => .after fun _ t => ?_
  exact .after fun _ t => .pure ⟨hw, rfl, rfl⟩

theorem gives_parseNextWindow {isReturn : Bool} :
    Gives (parseNextWindow w loc isReturn) c s fun w' _ => Aside w w' := by
  refine .bind gives_checkUnconditional fun _ t hw => .after fun _ t => ?_
  refine .ite (fun _ => .pure ⟨hw, rfl, rfl⟩) fun _ => .after fun token t => ?_
  exact .guard fun _ => .pure ⟨hw, rfl, rfl⟩

theorem gives_parseFlags : Gives (parseFlags w loc) c s fun w' _ => Aside w w' :=
  .bind gives_checkUnconditional fun _ _ hw => .after fun _ _ => .pure ⟨hw, rfl, rfl⟩

theorem gives_parseCam : Gives (parseCam w loc) c s fun w' _ => Aside w w' :=
  .after fun _ _ => .bind gives_checkUnconditional fun _ _ hw => .after fun _ _ => .after fun _ _ =>
    .pure ⟨hw, rfl, rfl⟩

theorem gives_parseSubWindow : Gives (parseSubWindow w loc) c s fun w' _ => w.blocks = [] ∧
    ∃ l, w' = { w with subWindows := w.subWindows ++ [.subWindow l] } :=
  .bind gives_checkUnconditional fun _ _ hw => .after fun l _ => .pure ⟨hw, l, rfl⟩

/-! ### Backgrounds -/

/-- A background, as it is read as a sign. -/
theorem gives_parseBackground (ho : c.options.optimize = false)
    (htoken : token.text = utf8 "background") :
    Gives (parseBackground w) c s fun w' t => ∃ d, readPlain w token c s = .ok (.plain d) t ∧
      Obeys c.options w d w' := by
  refine .bind (P := fun r t => (r.2 = true ∧ Laid c.options w.nest.conditions r.1) ∧
    activeCondition w c s = .ok r t) ?_ ?_
  · exact fun r t h => ⟨gives_activeCondition ho r t h, h⟩
  rintro ⟨condition, emits⟩ t ⟨⟨rfl, hcondition⟩, hactive⟩
  refine .bind gives_run fun b t' hbackdrop => ?_
  have hread : readPlain w token c s =
      .ok (.plain ⟨token.text, (b.name.isSome || b.stretch || b.tile) && !b.off⟩) t' := by
    rw [readPlain, if_pos htoken, bind_run hactive, bind_run hbackdrop]
    rfl
  refine .ite (fun _ => .after fun _ _ => .fail_bind) fun _ => ?_
  extract_lets w' name
  have hname : name.isSome = (b.name.isSome || b.stretch || b.tile) := by
    change (b.name.orElse _).isSome = _
    cases b.name <;> cases b.stretch <;> cases b.tile <;> rfl
  rw [← hname] at hread
  have hconditional (shows : Bool) : (Directive.mk token.text shows).isConditional = true := by
    rw [htoken]
    cases shows <;> decide
  split
  · rename_i hnone
    have hshows : (name.isSome && !b.off) = false := by
      cases hoff : b.off <;> simp_all
    rw [hshows] at hread
    refine .pure ⟨_, hread, obeys_nothing ?_ (Or.inl (hconditional _)) rfl rfl⟩
    rw [htoken]
    decide
  · rename_i file hsome
    have hshows : (name.isSome && !b.off) = true := by
      cases hoff : b.off <;> simp_all
    rw [hshows] at hread
    have hgains {i : Image} : w.Gains [.image i] { w' with images := w'.images ++ [.image i] } :=
      (WindowDraft.gains_nil rfl).trans (WindowDraft.gains_image i)
    refine .pure ⟨_, hread, obeys_command hgains ?_ (Or.inl (hconditional _)) hcondition rfl⟩
    rw [htoken]
    rfl

/-! ### Directives -/

theorem gives_parseCommand_plain (ho : c.options.optimize = false)
    (htoken : token.text ≠ utf8 "background") :
    Gives (parseCommand w token) c s fun w' _ => Obeys c.options w ⟨token.text, false⟩ w' := by
  have haside {word : Bytes} (hword : decide (token.text = word) = true)
      (hcode : (Directive.mk word false).code? = none) {w' : WindowDraft} (h : Aside w w') :
      Obeys c.options w ⟨token.text, false⟩ w' := by
    rw [of_decide_eq_true hword]
    exact obeys_nothing hcode (Or.inr h.outside) h.nest h.collected
  have hput {α : Type} {word : Bytes} (hword : decide (token.text = word) = true)
      (hcode : (Directive.mk word false).code? = none) {x : Compiler α} {put : α → WindowDraft}
      (hx : Gives x c s fun _ _ => w.blocks = []) (hnest : ∀ a, (put a).nest = w.nest)
      (hcollected : ∀ a, (put a).collected = w.collected) :
      Gives (x >>= fun a => pure (put a)) c s fun w' _ =>
        Obeys c.options w ⟨token.text, false⟩ w' :=
    .bind hx fun a t h => .pure (haside hword hcode ⟨h, hnest a, hcollected a⟩)
  have hcommand {word : Bytes} (hword : decide (token.text = word) = true) {command : Command}
      {w' : WindowDraft} (hgains : w.Gains [command] w')
      (hcode : (Directive.mk word false).code? = some command.code)
      (hallowed : (Directive.mk word false).isConditional = true ∨ w.blocks = [])
      (hcondition : Laid c.options w.nest.conditions command.condition?)
      (hnest : w'.nest = w.nest) : Obeys c.options w ⟨token.text, false⟩ w' := by
    rw [of_decide_eq_true hword]
    exact obeys_command hgains hcode hallowed hcondition hnest
  refine .ite (fun h => hput h rfl gives_unconditional (fun _ => rfl) fun _ => rfl) fun _ => ?_
  refine .ite (fun h => hput h rfl gives_unconditional (fun _ => rfl) fun _ => rfl) fun _ => ?_
  refine .ite (fun h => hput h rfl gives_unconditional (fun _ => rfl) fun _ => rfl) fun _ => ?_
  refine .ite (fun h => hput h rfl gives_unconditional (fun _ => rfl) fun _ => rfl) fun _ => ?_
  refine .ite (fun h => .bind (gives_parseFormattedText ho) ?_) fun _ => ?_
  · rintro _ t ⟨condition, text, format, rfl, hcondition⟩
    exact .pure (hcommand h (WindowDraft.gains_title rfl) rfl (Or.inl rfl) hcondition rfl)
  refine .ite (fun h => .bind (gives_parseFormattedText ho) ?_) fun _ => ?_
  · rintro _ t ⟨condition, text, format, rfl, hcondition⟩
    exact .pure (hcommand h (WindowDraft.gains_body rfl) rfl (Or.inl rfl) hcondition rfl)
  refine .ite (fun h => gives_parseTalk.mono fun w' t => haside h rfl) fun _ => ?_
  refine .ite (fun h => gives_parseTalkEx.mono fun w' t => haside h rfl) fun _ => ?_
  refine .ite (fun h => (gives_parseImage ho).mono ?_) fun _ => ?_
  · rintro _ t ⟨i, rfl, hcondition⟩
    exact hcommand h (WindowDraft.gains_image i) rfl (Or.inl rfl) hcondition rfl
  refine .ite (fun h => gives_parseFlags.mono fun w' t => haside h rfl) fun _ => ?_
  refine .ite (fun h => gives_parseSubWindow.mono ?_) fun _ => ?_
  · rintro _ t ⟨hw, l, rfl⟩
    have hcondition : Laid c.options w.nest.conditions none := by
      simp [WindowDraft.nest_conditions, hw, Laid, Value.conjoin]
    exact hcommand h (WindowDraft.gains_subWindow l) rfl (Or.inr hw) hcondition rfl
  refine .ite (fun h => (gives_parseChoice ho).mono ?_) fun _ => ?_
  · rintro _ t ⟨condition, text, format, l, rfl, hcondition⟩
    exact hcommand h (WindowDraft.gains_choice condition text format l) rfl (Or.inl rfl) hcondition
      rfl
  refine .ite (fun h => hput h rfl gives_unconditional (fun _ => rfl) fun _ => rfl) fun _ => ?_
  refine .ite (fun h => hput h rfl gives_unconditional (fun _ => rfl) fun _ => rfl) fun _ => ?_
  refine .ite (fun h => hput h rfl gives_unconditional (fun _ => rfl) fun _ => rfl) fun _ => ?_
  refine .ite (fun h => hput h rfl gives_unconditional (fun _ => rfl) fun _ => rfl) fun _ => ?_
  refine .ite (fun h => gives_parseNextWindow.mono fun w' t hw' => ?_) fun _ => ?_
  · rcases Bool.or_eq_true_iff.1 h with h | h
    · exact haside h rfl hw'
    · exact haside h rfl hw'
  refine .ite (fun h => gives_parseNextWindow.mono fun w' t => haside h rfl) fun _ => ?_
  refine .ite (fun h => (gives_parsePrint ho).mono ?_) fun _ => ?_
  · rintro _ t ⟨p, rfl, hcondition⟩
    exact hcommand h (WindowDraft.gains_print p) rfl (Or.inl rfl) hcondition rfl
  refine .ite (fun h => (gives_parsePrint ho).mono ?_) fun _ => ?_
  · rintro _ t ⟨p, rfl, hcondition⟩
    exact hcommand h (WindowDraft.gains_print p) rfl (Or.inl rfl) hcondition rfl
  refine .ite (fun h => hput h rfl gives_unconditional (fun _ => rfl) fun _ => rfl) fun _ => ?_
  refine .ite (fun h => hput h rfl gives_unconditional (fun _ => rfl) fun _ => rfl) fun _ => ?_
  refine .ite (fun h => hput h rfl gives_unconditional (fun _ => rfl) fun _ => rfl) fun _ => ?_
  refine .ite (fun h => absurd (of_decide_eq_true h) htoken) fun _ => ?_
  exact .ite (fun h => gives_parseCam.mono fun w' t => haside h rfl) fun _ => .fail

theorem gives_parseCommand_read (ho : c.options.optimize = false) :
    Gives (parseCommand w token) c s fun w' t => ∃ d, readPlain w token c s = .ok (.plain d) t ∧
      Obeys c.options w d w' := by
  by_cases htoken : token.text = utf8 "background"
  · have hparse : parseCommand w token = parseBackground w := by
      obtain ⟨type, text, loc⟩ := token
      cases htoken
      rfl
    rw [hparse]
    exact gives_parseBackground ho htoken
  · intro w' t h
    have hread : readPlain w token c s = .ok (.plain ⟨token.text, false⟩) t := by
      rw [readPlain, if_neg htoken, bind_run h]
      rfl
    exact ⟨_, hread, gives_parseCommand_plain ho htoken w' t h⟩

end Compiler

end ApeScript
