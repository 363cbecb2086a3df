import ApeScript.Compile.Program
import ApeScript.Proofs.PairedSwitch
import ApeScript.Proofs.ShownWindow

/-!
# Windows and files of two compilations

Two compilations that differ in whether they optimize collect window drafts of which the same shows.
Every directive keeps it so: both read the same conditions, and a command that is dropped because
its condition can never hold would not have shown. So a script that compiles with and without
optimizing gives the same windows and the same switches, in the same order: the windows show the
same, and each switch is emitted for one draft in both.
-/

namespace ApeScript

/-- Two drafts of which the same shows, and whose conditions have finite numbers only. -/
structure WindowDraft.Paired (A : Arithmetic) (ρ : Assignment) (w w' : WindowDraft) : Prop where
  seen : w.seen A ρ = w'.seen A ρ
  blocks : ∀ b ∈ w.blocks, b.condition.Finite
  closed : ∀ b ∈ w.closed, b.condition.Finite

namespace WindowDraft.Paired

variable {A : Arithmetic} {ρ : Assignment} {w w' : WindowDraft}

theorem blocks_eq (h : w.Paired A ρ w') : w.blocks = w'.blocks :=
  (congrArg WindowDraft.blocks h.seen :)

theorem closed_eq (h : w.Paired A ρ w') : w.closed = w'.closed :=
  (congrArg WindowDraft.closed h.seen :)

theorem clearClosed (h : w.Paired A ρ w') :
    Paired A ρ { w with closed := [] } { w' with closed := [] } where
  seen := congrArg (fun v : WindowDraft => { v with closed := [] }) h.seen
  blocks := h.blocks
  closed := by simp

theorem closeUnbraced (h : w.Paired A ρ w') : Paired A ρ w.closeUnbraced w'.closeUnbraced where
  seen := congrArg WindowDraft.closeUnbraced h.seen
  blocks := fun b hb => h.blocks b ((List.dropWhile_sublist _).mem hb)
  closed := List.forall_mem_append.2
    ⟨h.closed, fun b hb => h.blocks b ((List.takeWhile_sublist _).mem hb)⟩

theorem markUsed (h : w.Paired A ρ w') : Paired A ρ w.markUsed w'.markUsed where
  seen := congrArg WindowDraft.markUsed h.seen
  blocks := by simpa [WindowDraft.markUsed] using h.blocks
  closed := h.closed

/-- A change of both drafts that has nothing to do with conditions. -/
theorem put {f : WindowDraft → WindowDraft} (h : w.Paired A ρ w')
    (hseen : ∀ v, (f v).seen A ρ = f (v.seen A ρ)) (hblocks : (f w).blocks = w.blocks)
    (hclosed : (f w).closed = w.closed) : Paired A ρ (f w) (f w') where
  seen := by rw [hseen, hseen, h.seen]
  blocks := hblocks ▸ h.blocks
  closed := hclosed ▸ h.closed

end WindowDraft.Paired

/-- A function that adds commands to one of the lists of a draft. -/
structure WindowDraft.Adds (A : Arithmetic) (ρ : Assignment)
    (add : WindowDraft → List Command → WindowDraft) : Prop where
  nil : ∀ w, add w [] = w
  seen : ∀ w cs, (add w cs).seen A ρ = add (w.seen A ρ) (Command.shown A ρ cs)
  blocks : ∀ w cs, (add w cs).blocks = w.blocks
  closed : ∀ w cs, (add w cs).closed = w.closed

namespace WindowDraft

variable {A : Arithmetic} {ρ : Assignment} {w w' : WindowDraft}

theorem adds_titles : Adds A ρ fun w cs => { w with titles := w.titles ++ cs } := by
  constructor <;> simp [WindowDraft.seen]

theorem adds_bodies : Adds A ρ fun w cs => { w with bodies := w.bodies ++ cs } := by
  constructor <;> simp [WindowDraft.seen]

theorem adds_prints : Adds A ρ fun w cs => { w with prints := w.prints ++ cs } := by
  constructor <;> simp [WindowDraft.seen]

theorem adds_images : Adds A ρ fun w cs => { w with images := w.images ++ cs } := by
  constructor <;> simp [WindowDraft.seen]

theorem adds_choices : Adds A ρ fun w cs => { w with choices := w.choices ++ cs } := by
  constructor <;> simp [WindowDraft.seen]

theorem adds_subWindows : Adds A ρ fun w cs => { w with subWindows := w.subWindows ++ cs } := by
  constructor <;> simp [WindowDraft.seen]

theorem Paired.add {add : WindowDraft → List Command → WindowDraft} (hadd : Adds A ρ add)
    (h : w.Paired A ρ w') {cs cs' : List Command}
    (hcs : Command.shown A ρ cs = Command.shown A ρ cs') : (add w cs).Paired A ρ (add w' cs') where
  seen := by rw [hadd.seen, hadd.seen, h.seen, hcs]
  blocks := hadd.blocks w cs ▸ h.blocks
  closed := hadd.closed w cs ▸ h.closed

end WindowDraft

namespace Twins

open Compiler

variable {T : Twins} {A : Arithmetic} {ρ : Assignment} {w w' : WindowDraft} {loc : Location}
  {token : Token}

/-! ### Conditions -/

theorem pairs_toExpr {v : Value} (hv : v.Finite) :
    T.Pairs (toExpr v loc) (toExpr v loc) fun e e' => e.value A ρ = e'.value A ρ :=
  .of_gives (fun _ => gives_toExpr) (fun _ => gives_toExpr) fun _ _ h h' =>
    (h.value_eq hv).trans (h'.value_eq hv).symm

theorem finite_conjoin {vs : List Value} (hvs : ∀ v ∈ vs, v.Finite) {v : Value}
    (h : Value.conjoin vs = some v) : v.Finite := by
  cases vs with
  | nil => cases h
  | cons first rest =>
    obtain rfl := Option.some.inj h
    obtain ⟨hfirst, hrest⟩ := List.forall_mem_cons.1 hvs
    clear h hvs
    induction rest generalizing first with
    | nil => exact hfirst
    | cons v rest ih =>
      obtain ⟨hv, hrest⟩ := List.forall_mem_cons.1 hrest
      exact ih (.binary .and first v) ⟨hfirst, hv⟩ hrest

/-- A condition, and whether the command it is for is made at all. -/
def Decides (A : Arithmetic) (ρ : Assignment) (r r' : Option Expr × Bool) : Prop :=
  (r.2 && Expr.allows A ρ r.1) = (r'.2 && Expr.allows A ρ r'.1)

theorem pairs_activeCondition (h : w.Paired A ρ w') :
    T.Pairs (activeCondition w) (activeCondition w') (Decides A ρ) := by
  have hconditions : ∀ v ∈ w.blocks.reverse.map (·.condition), v.Finite := by
    simpa using h.blocks
  unfold activeCondition
  rw [← h.blocks_eq]
  generalize w.blocks.reverse = outermostFirst at hconditions ⊢
  cases outermostFirst with
  | nil => exact .pure rfl
  | cons outermost rest =>
    refine .of_gives (fun _ => gives_toCondition fun v hv => finite_conjoin hconditions hv)
      (fun _ => gives_toCondition fun v hv => finite_conjoin hconditions hv) fun r r' hr hr' => ?_
    exact (hr A ρ).trans (hr' A ρ).symm

theorem pairs_checkUnconditional (h : w.Paired A ρ w') :
    T.Pairs (checkUnconditional w loc) (checkUnconditional w' loc) fun _ _ => True := by
  unfold checkUnconditional
  rw [h.blocks_eq]
  exact .ite (fun _ => .pure trivial) fun _ => .fail

theorem pairs_checkUnset {α β : Type} {slot : Option α} {slot' : Option β} {cause : Cause}
    (h : slot.isSome = slot'.isSome) :
    T.Pairs (checkUnset slot loc cause) (checkUnset slot' loc cause) fun _ _ => True := by
  unfold checkUnset
  rw [h]
  exact .ite (fun _ => .fail) fun _ => .pure trivial

/-- The checks of a directive that stands at most once, and outside conditions. -/
theorem Pairs.once {α β : Type} {slot slot' : Option α} {cause : Cause} {next next' : Compiler β}
    {R : β → β → Prop} (h : w.Paired A ρ w') (hslot : slot.isSome = slot'.isSome)
    (hnext : T.Pairs next next' R) :
    T.Pairs (checkUnconditional w loc >>= fun _ => checkUnset slot loc cause >>= fun _ => next)
      (checkUnconditional w' loc >>= fun _ => checkUnset slot' loc cause >>= fun _ => next') R :=
  .join (pairs_checkUnconditional h) fun _ _ _ => .join (pairs_checkUnset hslot) fun _ _ _ => hnext

/-- A value that both compilations read alike is stored alike. -/
theorem Pairs.store {α : Type} {c c' : Compiler α} {put put' : α → WindowDraft}
    (hc : T.Pairs c c' Eq) (hput : ∀ a, (put a).Paired A ρ (put' a)) :
    T.Pairs (c >>= fun a => Pure.pure (put a)) (c' >>= fun a => Pure.pure (put' a))
      (WindowDraft.Paired A ρ) := by
  refine .join hc ?_
  rintro a _ rfl
  exact .pure (hput a)

theorem pairs_openBlock {b : ConditionBlock} (h : w.Paired A ρ w') (hb : b.condition.Finite) :
    T.Pairs (openBlock w b) (openBlock w' b) (WindowDraft.Paired A ρ) := by
  have hopen (c : ConditionBlock) (hc : c.condition.Finite) : WindowDraft.Paired A ρ
      { w with blocks := c :: w.blocks } { w' with blocks := c :: w'.blocks } :=
    { seen := congrArg (fun v : WindowDraft => { v with blocks := c :: v.blocks }) h.seen
      blocks := List.forall_mem_cons.2 ⟨hc, h.blocks⟩
      closed := h.closed }
  refine .bind .lift fun _ _ => .bind .lift fun token _ => .ite (fun _ => ?_) fun _ => ?_
  · exact .bind .lift fun _ _ => .pure (hopen { b with braced := true } hb)
  · exact .pure (hopen b hb)

theorem pairs_openIf (h : w.Paired A ρ w') :
    T.Pairs (openIf w loc) (openIf w' loc) (WindowDraft.Paired A ρ) := by
  refine .bind .lift fun _ _ => .bind agrees_parseExpr fun condition hc => ?_
  exact .bind .lift fun _ _ => .guard fun _ => pairs_openBlock h hc

theorem pairs_openElse (h : w.Paired A ρ w') :
    T.Pairs (openElse w loc) (openElse w' loc) (WindowDraft.Paired A ρ) := by
  unfold openElse
  rw [← h.closed_eq]
  split
  · exact .fail
  · rename_i inner outer hclosed
    obtain ⟨hinner, houter⟩ := List.forall_mem_cons.1 (hclosed ▸ h.closed)
    refine .guard fun _ => .guard fun _ => pairs_openBlock ?_ hinner.invert
    exact
      { seen := congrArg (fun v : WindowDraft =>
          { v with blocks := outer ++ v.blocks, closed := [] }) h.seen
        blocks := List.forall_mem_append.2 ⟨houter, h.blocks⟩
        closed := by simp }

theorem pairs_closeBrace (h : w.Paired A ρ w') :
    T.Pairs (closeBrace w loc) (closeBrace w' loc) (WindowDraft.Paired A ρ) := by
  unfold closeBrace
  rw [← h.blocks_eq]
  split
  · exact .fail
  · rename_i top rest hblocks
    obtain ⟨htop, hrest⟩ := List.forall_mem_cons.1 (hblocks ▸ h.blocks)
    refine .guard fun _ => .options (.guard fun _ => .pure ?_)
    have hclosed : WindowDraft.Paired A ρ { w with blocks := rest, closed := [top] }
        { w' with blocks := rest, closed := [top] } :=
      { seen := congrArg (fun v : WindowDraft => { v with blocks := rest, closed := [top] }) h.seen
        blocks := hrest
        closed := List.forall_mem_singleton.2 htop }
    exact hclosed.closeUnbraced

/-! ### Text -/

theorem same_atLineEnd : T.Same atLineEnd := .bind .lift fun _ _ => .pure ⟨rfl, trivial⟩

theorem same_parseText : T.Same parseText := .bind .lift fun _ _ => same_stringValue

/-- Commands that are made unless they can never show, and show the same if they do. -/
theorem shown_emitted_eq {c c' : Command} {emits emits' : Bool}
    (hdecides : Decides A ρ (c.condition?, emits) (c'.condition?, emits'))
    (hsettle : c.settle A ρ = c'.settle A ρ) :
    Command.shown A ρ (if emits then [c] else []) =
      Command.shown A ρ (if emits' then [c'] else []) := by
  unfold Decides at hdecides
  rw [Command.shown_emitted, Command.shown_emitted, hdecides, hsettle]

theorem pairs_parseFormattedText {code : UInt8} (h : w.Paired A ρ w') :
    T.Pairs (parseFormattedText w code) (parseFormattedText w' code) fun cs cs' =>
      Command.shown A ρ cs = Command.shown A ρ cs' := by
  refine .join (pairs_activeCondition h) fun r r' hr => ?_
  refine .bind same_parseText fun text _ => .bind same_parseFormatList fun format _ => .pure ?_
  exact shown_emitted_eq hr rfl

/-- Two expressions that may be left out are left out together or come to the same number. -/
def Settles (A : Arithmetic) (ρ : Assignment) (e e' : Option Expr) : Prop :=
  Expr.settle A ρ e = Expr.settle A ρ e'

theorem Settles.isSome_eq {e e' : Option Expr} (h : Settles A ρ e e') : e.isSome = e'.isSome := by
  simpa [Expr.settle] using congrArg Option.isSome h

theorem settle_eq {x x' y y' width width' height height' : Option Expr} (hx : Settles A ρ x x')
    (hy : Settles A ρ y y') (hwidth : Settles A ρ width width')
    (hheight : Settles A ρ height height') :
    Area.settle A ρ ⟨x, y, width, height⟩ = Area.settle A ρ ⟨x', y', width', height'⟩ := by
  unfold Settles at hx hy hwidth hheight
  simp only [Area.settle, hx, hy, hwidth, hheight]

variable (A ρ) in
theorem pairs_parseArgument {comma : Bool} :
    T.Pairs (parseArgument comma) (parseArgument comma) (Settles A ρ) := by
  unfold parseArgument
  extract_lets argument
  have hargument : T.Pairs (argument ()) (argument ()) (Settles A ρ) := by
    refine .bind .location fun loc _ => .bind agrees_parseNumeric fun v hv => ?_
    refine .join (pairs_toExpr (A := A) (ρ := ρ) hv) fun e e' he => .pure ?_
    exact congrArg (fun x => some (Expr.constant x)) he
  exact .ite (fun _ => .bind .lift fun _ _ => hargument) fun _ => hargument

/-- A command is added unless it can never show. -/
theorem pairs_add {add : WindowDraft → List Command → WindowDraft} (hadd : WindowDraft.Adds A ρ add)
    (h : w.Paired A ρ w') {c c' : Command} {emits emits' : Bool}
    (hsettle : c.settle A ρ = c'.settle A ρ)
    (hdecides : Decides A ρ (c.condition?, emits) (c'.condition?, emits')) :
    T.Pairs (if !emits then pure w else pure (add w [c]))
      (if !emits' then pure w' else pure (add w' [c'])) (WindowDraft.Paired A ρ) := by
  have hpure (v : WindowDraft) (b : Bool) (d : Command) :
      (if !b then pure v else pure (add v [d]) : Compiler WindowDraft) =
        pure (add v (if b then [d] else [])) := by
    cases b <;> simp [hadd.nil]
  rw [hpure, hpure]
  exact .pure (h.add hadd (shown_emitted_eq hdecides hsettle))

theorem pairs_parsePrint {withFont : Bool} (h : w.Paired A ρ w') :
    T.Pairs (parsePrint w withFont) (parsePrint w' withFont) (WindowDraft.Paired A ρ) := by
  refine .join (pairs_activeCondition h) fun (condition, emits) (condition', emits') hr => ?_
  refine .join (pairs_parseArgument A ρ) fun x x' hx => ?_
  refine .join (pairs_parseArgument A ρ) fun y y' hy => ?_
  refine .join (pairs_parseArgument A ρ) fun alpha alpha' halpha => ?_
  extract_lets message message'
  have hmessage {red red' green green' blue blue' : Option Expr} {font : Option Bytes}
      (hred : Settles A ρ red red') (hgreen : Settles A ρ green green')
      (hblue : Settles A ρ blue blue') :
      T.Pairs (message (red, green, blue, font)) (message' (red', green', blue', font))
        (WindowDraft.Paired A ρ) := by
    refine .bind .lift fun _ _ => .bind same_parseText fun text _ => ?_
    refine .bind same_parseFormatList fun format _ => pairs_add WindowDraft.adds_prints h ?_ hr
    unfold Settles at *
    simp only [Command.settle, hx, hy, halpha, hred, hgreen, hblue]
  refine .ite (fun _ => ?_) fun _ => hmessage rfl rfl rfl
  refine .join (pairs_parseArgument A ρ) fun red red' hred => ?_
  refine .join (pairs_parseArgument A ρ) fun green green' hgreen => ?_
  refine .join (pairs_parseArgument A ρ) fun blue blue' hblue => ?_
  refine .bind .lift fun _ _ => .bind same_parseWord fun font _ => ?_
  exact hmessage hred hgreen hblue

theorem pairs_parseConsole {slot slot' : Option Bytes} (h : w.Paired A ρ w')
    (hslot : slot = slot') : T.Pairs (parseConsole w loc slot) (parseConsole w' loc slot') Eq := by
  refine .once h (by rw [hslot]) ?_
  exact .join .warn fun _ _ _ => .bind same_parseText fun _ _ => .pure rfl

theorem pairs_parseNamed {slot slot' : Option Bytes} {repeated : Cause} (h : w.Paired A ρ w')
    (hslot : slot = slot') :
    T.Pairs (parseNamed w loc slot repeated) (parseNamed w' loc slot' repeated) Eq :=
  .once h (by rw [hslot]) (same_parseName.mono fun _ _ h => h.1)

theorem pairs_parseNextWindow {isReturn : Bool} (h : w.Paired A ρ w') :
    T.Pairs (parseNextWindow w loc isReturn) (parseNextWindow w' loc isReturn)
      (WindowDraft.Paired A ρ) := by
  have hslot : w.nextWindow = w'.nextWindow := (congrArg WindowDraft.nextWindow h.seen :)
  have hset (text : Bytes) : WindowDraft.Paired A ρ { w with nextWindow := some text }
      { w' with nextWindow := some text } :=
    h.put (f := fun v => { v with nextWindow := some text }) (fun _ => rfl) rfl rfl
  refine .once h (by rw [hslot]) ?_
  refine .ite (fun _ => .pure (hset _)) fun _ => ?_
  exact .bind .lift fun token _ => .guard fun _ => .pure (hset _)

/-! ### Inline switches -/

theorem same_nextInlineLabel : T.Same nextInlineLabel := by
  refine .join .state fun s s' hs => ?_
  rw [← hs.inlineCount]
  refine .ite (fun _ => .bind .location fun _ _ => .fail_bind) fun _ => ?_
  refine .join (R := fun _ _ => True) ?_ fun _ _ _ => ?_
  · rintro t t' _ _ _ _ ht ⟨⟩ ⟨⟩
    exact ⟨⟨ht.lexer, rfl, ht.inline⟩, trivial⟩
  · rintro t t' _ _ _ _ ht ⟨⟩ ⟨⟩
    exact ⟨ht, rfl, trivial⟩

theorem pairs_parseSwitchRef {slot slot' : Option Label} (h : w.Paired A ρ w')
    (hslot : slot = slot') :
    T.Pairs (parseSwitchRef w loc slot) (parseSwitchRef w' loc slot') Eq := by
  refine .once h (by rw [hslot]) ?_
  refine .bind .lift fun token _ => .ite (fun _ => ?_) fun _ => ?_
  · exact same_parseLabel.mono fun _ _ h => h.1
  refine .bind .lift fun _ _ => .bind .lift fun _ _ => .bind same_nextInlineLabel fun label _ => ?_
  refine .join pairs_compileSwitch fun (switch, afterHash) (switch', _) => ?_
  rintro ⟨hswitch, -, rfl⟩
  refine .ite (fun _ => .bind .location fun _ _ => .fail_bind) fun _ => .bind .lift fun _ _ => ?_
  refine .join (R := fun _ _ => True) ?_ fun _ _ _ => .pure rfl
  rintro t t' _ _ _ _ ht ⟨⟩ ⟨⟩
  have hinline : T.inline switch switch' := T.inline_of_paired hswitch
  exact ⟨⟨ht.lexer, ht.inlineCount, List.rel_append ht.inline (.cons hinline .nil)⟩, trivial⟩

/-! ### Flags and dimensions -/

theorem pairs_parseSubWindow (h : w.Paired A ρ w') :
    T.Pairs (parseSubWindow w loc) (parseSubWindow w' loc) (WindowDraft.Paired A ρ) := by
  refine .join (pairs_checkUnconditional h) fun _ _ _ => .bind same_parseLabel fun label _ => ?_
  exact .pure (h.add WindowDraft.adds_subWindows rfl)

theorem pairs_parseFlags (h : w.Paired A ρ w') :
    T.Pairs (parseFlags w loc) (parseFlags w' loc) (WindowDraft.Paired A ρ) := by
  have hflags : w.flags = w'.flags := (congrArg WindowDraft.flags h.seen :)
  refine .join (pairs_checkUnconditional h) fun _ _ _ => ?_
  rw [← hflags]
  refine .bind (P := fun _ => True) ?_ fun flags _ => .pure ?_
  · refine .repeatSame (I := fun _ => True) trivial fun flags _ => ?_
    refine .bind same_atLineEnd fun ended _ => .ite (fun _ => .pure ⟨rfl, trivial⟩) fun _ => ?_
    refine .bind .lift fun token _ => ?_
    split
    · exact .guard fun _ => .pure ⟨rfl, trivial⟩
    · exact .fail
  · exact h.put (f := fun v => { v with flags := flags }) (fun _ => rfl) rfl rfl

theorem pairs_parseDimension {slot slot' : Option Expr} (h : w.Paired A ρ w')
    (hslot : Settles A ρ slot slot') :
    T.Pairs (parseDimension w loc slot) (parseDimension w' loc slot') fun e e' =>
      Settles A ρ (some e) (some e') := by
  refine .once h hslot.isSome_eq ?_
  refine .bind .location fun start _ => .bind agrees_parseExpr fun v hv => ?_
  refine (pairs_toExpr (A := A) (ρ := ρ) hv).mono fun e e' he => ?_
  exact congrArg (fun x => some (Expr.constant x)) he

/-! ### Images -/

variable (A ρ) in
theorem pairs_parseImageSize : T.Pairs parseImageSize parseImageSize (Settles A ρ) := by
  refine .bind .lift fun token _ => .ite (fun _ => .pure rfl) fun _ => ?_
  refine .bind .lift fun _ _ => .bind .location fun loc _ => ?_
  refine .bind agrees_parseNumeric fun v hv => ?_
  extract_lets store
  have hstore : T.Pairs (store ()) (store ()) (Settles A ρ) := by
    refine .join (pairs_toExpr (A := A) (ρ := ρ) hv) fun e e' he => .pure ?_
    exact congrArg (fun x => some (Expr.constant x)) he
  split
  · exact .ite (fun _ => .join .warn fun _ _ _ => hstore) fun _ => hstore
  · exact hstore

theorem same_parseImageFlags : T.Same parseImageFlags := by
  refine .bind .lift fun token _ => .ite (fun _ => .pure ⟨rfl, trivial⟩) fun _ => ?_
  refine .bind .lift fun _ _ => .repeatSame (I := fun _ => True) trivial fun flags _ => ?_
  refine .bind .lift fun token _ => ?_
  split
  · exact .fail
  · refine .guard fun _ => .bind same_atLineEnd fun ended _ => ?_
    exact .ite (fun _ => .pure ⟨rfl, trivial⟩) fun _ => .pure ⟨rfl, trivial⟩

theorem pairs_parseImage (h : w.Paired A ρ w') :
    T.Pairs (parseImage w) (parseImage w') (WindowDraft.Paired A ρ) := by
  refine .join (pairs_activeCondition h) fun (condition, emits) (condition', emits') hr => ?_
  refine .bind same_parseName fun file _ => ?_
  refine .join (pairs_parseArgument A ρ) fun x x' hx => ?_
  refine .join (pairs_parseArgument A ρ) fun y y' hy => ?_
  refine .join (pairs_parseImageSize A ρ) fun width width' hwidth => ?_
  rw [← hwidth.isSome_eq]
  refine .ite_bind (fun _ => pairs_parseImageSize A ρ) (fun _ => .pure rfl) ?_
  intro height height' hheight
  beta_reduce
  rw [← hheight.isSome_eq]
  refine .ite_bind (fun _ => same_parseImageFlags) (fun _ => .pure ⟨rfl, trivial⟩) ?_
  rintro flags _ ⟨rfl, -⟩
  refine pairs_add WindowDraft.adds_images h ?_ hr
  simp only [Command.settle, settle_eq hx hy hwidth hheight]

/-! ### Choices -/

theorem same_parseChoiceArguments : T.Same parseChoiceArguments := by
  refine .repeatSame (I := fun _ => True) trivial fun values _ => ?_
  refine .bind .lift fun token _ => .ite (fun _ => ?_) fun _ => ?_
  · refine .bind same_parseFormatValue fun v _ => ?_
    exact .bind .lift fun _ _ => .pure ⟨rfl, trivial⟩
  · refine .bind .lift fun _ _ => .bind .lift fun next _ => .ite (fun _ => ?_) fun _ => ?_
    · refine .bind .lift fun _ _ => .bind .lift fun low _ => ?_
      exact .bind same_labelOfTokens fun label _ => .pure ⟨rfl, trivial⟩
    · refine .bind same_formatValueOfToken fun v _ => ?_
      exact .bind .lift fun _ _ => .pure ⟨rfl, trivial⟩

theorem pairs_parseChoice (h : w.Paired A ρ w') :
    T.Pairs (parseChoice w) (parseChoice w') (WindowDraft.Paired A ρ) := by
  refine .join (pairs_activeCondition h) fun (condition, emits) (condition', emits') hr => ?_
  refine .bind .lift fun token _ => .bind same_stringValue fun text _ => ?_
  refine .bind .lift fun next _ => ?_
  extract_lets add add'
  have hadd (r : List FormatValue × Label) :
      T.Pairs (add r) (add' r) (WindowDraft.Paired A ρ) :=
    pairs_add WindowDraft.adds_choices h rfl hr
  refine .ite (fun _ => ?_) fun _ => .bind same_parseLabel fun label _ => hadd ([], label)
  exact .bind .lift fun _ _ => .bind same_parseChoiceArguments fun r _ => hadd r

/-! ### Conversations -/

theorem same_parseStay : T.Same parseStay := by
  refine .repeatSame (I := fun _ => True) trivial fun stay _ => ?_
  refine .bind same_atLineEnd fun ended _ => .ite (fun _ => .pure ⟨rfl, trivial⟩) fun _ => ?_
  exact .bind .lift fun token _ => .guard fun _ => .guard fun _ => .pure ⟨rfl, trivial⟩

theorem paired_talk (h : w.Paired A ρ w') (talk : Talk) :
    WindowDraft.Paired A ρ { w with talk := some talk } { w' with talk := some talk } :=
  h.put (f := fun v => { v with talk := some talk }) (fun _ => rfl) rfl rfl

theorem pairs_parseTalk (h : w.Paired A ρ w') :
    T.Pairs (parseTalk w loc) (parseTalk w' loc) (WindowDraft.Paired A ρ) := by
  have hslot : w.talk = w'.talk := (congrArg WindowDraft.talk h.seen :)
  refine .once h (by rw [hslot]) ?_
  refine .bind .lift fun target _ => ?_
  extract_lets animate animate'
  have hanimate (names : Bytes × Bytes) :
      T.Pairs (animate names) (animate' names) (WindowDraft.Paired A ρ) :=
    .bind same_parseWord fun _ _ => .bind same_parseStay fun _ _ => .pure (paired_talk h _)
  have hpure (names : Bytes × Bytes) :
      T.Pairs (pure names >>= animate) (pure names >>= animate') (WindowDraft.Paired A ρ) := by
    simpa only [pure_bind] using hanimate names
  exact .ite (fun _ => hpure _) fun _ => .ite (fun _ => hpure _) fun _ => .fail_bind

theorem same_parseStayWord : T.Same parseStayWord := by
  refine .bind .lift fun token _ => .ite (fun _ => .pure ⟨rfl, trivial⟩) fun _ => ?_
  exact .ite (fun _ => .pure ⟨rfl, trivial⟩) fun _ => .fail

theorem pairs_parseTalkEx (h : w.Paired A ρ w') :
    T.Pairs (parseTalkEx w loc) (parseTalkEx w' loc) (WindowDraft.Paired A ρ) := by
  have hslot : w.talk = w'.talk := (congrArg WindowDraft.talk h.seen :)
  refine .once h (by rw [hslot]) ?_
  refine .bind same_parseWord fun name1 _ => .bind same_parseWord fun name2 _ => ?_
  refine .bind same_parseWord fun anim1 _ => .bind same_parseWord fun anim2 _ => ?_
  refine .bind same_atLineEnd fun ended _ => .ite (fun _ => .pure (paired_talk h _)) fun _ => ?_
  refine .bind same_parseStayWord fun _ _ => .bind same_parseStayWord fun _ _ => ?_
  exact .pure (paired_talk h _)

/-! ### Backgrounds -/

theorem same_parseColor : T.Same parseColor := by
  refine .bind .lift fun _ _ => .bind .lift fun token _ => ?_
  split
  · exact .pure ⟨rfl, trivial⟩
  · exact .fail

theorem same_parseBackdropWord {b : Backdrop} : T.Same (parseBackdropWord b token) := by
  have hcolor {f : UInt32 → Backdrop} : T.Same (parseColor >>= fun color => pure (f color)) :=
    .bind same_parseColor fun _ _ => .pure ⟨rfl, trivial⟩
  have hflag {b : Backdrop} : T.Same (pure b) := .pure ⟨rfl, trivial⟩
  refine .ite (fun _ => hcolor) fun _ => .ite (fun _ => hcolor) fun _ => ?_
  refine .ite (fun _ => hcolor) fun _ => .ite (fun _ => hcolor) fun _ => ?_
  refine .ite (fun _ => hflag) fun _ => .ite (fun _ => hflag) fun _ => ?_
  exact .ite (fun _ => hflag) fun _ => .ite (fun _ => hflag) fun _ => .fail

theorem same_parseBackdrop {corners : Corners} : T.Same (parseBackdrop corners) := by
  refine .repeatSame (I := fun _ => True) trivial fun b _ => .bind .lift fun token _ => ?_
  have hgoOn (b : Backdrop) : T.Agrees
      (atLineEnd >>= fun ended => if ended then pure (.inr b) else pure (.inl b))
      (Sum.elim (fun _ : Backdrop => True) fun _ : Backdrop => True) :=
    .bind same_atLineEnd fun _ _ =>
      .ite (fun _ => .pure ⟨rfl, trivial⟩) fun _ => .pure ⟨rfl, trivial⟩
  split
  · exact .guard fun _ => hgoOn _
  · exact .bind same_parseBackdropWord fun b _ => hgoOn b
  · exact .fail_bind

theorem pairs_parseBackground (h : w.Paired A ρ w') :
    T.Pairs (parseBackground w) (parseBackground w') (WindowDraft.Paired A ρ) := by
  have hcorners : w.corners = w'.corners := (congrArg WindowDraft.corners h.seen :)
  refine .join (pairs_activeCondition h) fun (condition, emits) (condition', emits') hr => ?_
  rw [← hcorners]
  refine .bind same_parseBackdrop fun b _ => ?_
  refine .ite (fun _ => .bind .location fun _ _ => .fail_bind) fun _ => ?_
  extract_lets v name zero flags v'
  have hv : v.Paired A ρ v' :=
    h.put (f := fun u => { u with corners := b.corners, hasBackground := true })
      (fun _ => rfl) rfl rfl
  -- the name counts only where the background is not turned off
  have hname (e : Bool) : (if (e && !b.off) = true then name else none) =
      if e then (if b.off then none else name) else none := by
    cases e <;> cases b.off <;> rfl
  rw [hname, hname]
  cases (if b.off then none else name) with
  | none =>
    simp only [ite_self]
    exact .pure hv
  | some file =>
    let image (condition : Option Expr) : Command :=
      .image ⟨condition, file, ⟨zero, zero, none, none⟩, flags⟩
    have hsettle : (image condition).settle A ρ = (image condition').settle A ρ := rfl
    have hadd := pairs_add (T := T) WindowDraft.adds_images hv hsettle hr
    cases emits <;> cases emits' <;> exact hadd

/-! ### Cameras -/

theorem same_parseCamText : T.Same parseCamText := by
  refine .bind .lift fun _ _ => .bind .lift fun token _ => ?_
  refine .ite_bind (fun _ => same_stringValue) (fun _ => .pure ⟨rfl, trivial⟩) ?_
  rintro text _ ⟨rfl, -⟩
  exact .guard fun _ => .bind .lift fun _ _ => .pure ⟨rfl, trivial⟩

theorem same_parseCamNumber : T.Same parseCamNumber := by
  refine .bind .lift fun _ _ => .bind .lift fun token _ => .bind .lift fun _ _ => ?_
  exact .bind .located fun n _ => .guard fun _ => .pure ⟨rfl, trivial⟩

theorem same_parseCamSetting {c : Cam} : T.Same (parseCamSetting c token) := by
  have htext {f : Bytes → Cam} : T.Same (parseCamText >>= fun text => pure (f text)) :=
    .bind same_parseCamText fun _ _ => .pure ⟨rfl, trivial⟩
  have hnumber {f : UInt16 → Cam} : T.Same (parseCamNumber >>= fun n => pure (f n)) :=
    .bind same_parseCamNumber fun _ _ => .pure ⟨rfl, trivial⟩
  refine .ite (fun _ => htext) fun _ => .ite (fun _ => htext) fun _ => ?_
  refine .ite (fun _ => htext) fun _ => .ite (fun _ => hnumber) fun _ => ?_
  refine .ite (fun _ => hnumber) fun _ => .ite (fun _ => hnumber) fun _ => ?_
  refine .ite (fun _ => hnumber) fun _ => .ite (fun _ => hnumber) fun _ => ?_
  refine .ite (fun _ => hnumber) fun _ => .ite (fun _ => hnumber) fun _ => ?_
  refine .ite (fun _ => hnumber) fun _ => .ite (fun _ => hnumber) fun _ => ?_
  refine .ite (fun _ => ?_) fun _ => ?_
  · exact .bind same_parseCamNumber fun n _ => .guard fun _ => .pure ⟨rfl, trivial⟩
  · refine .ite (fun _ => .pure ⟨rfl, trivial⟩) fun _ => ?_
    exact .ite (fun _ => .pure ⟨rfl, trivial⟩) fun _ => .fail

theorem same_parseCamName : T.Same parseCamName := by
  refine .options (.ite (fun _ => .bind .lift fun _ _ => .pure ⟨rfl, trivial⟩) fun _ => ?_)
  refine .bind .lift fun token _ => ?_
  exact .ite (fun _ => .join .warn fun _ _ _ => .pure ⟨rfl, trivial⟩) fun _ => .pure ⟨rfl, trivial⟩

theorem pairs_parseCam (h : w.Paired A ρ w') :
    T.Pairs (parseCam w loc) (parseCam w' loc) (WindowDraft.Paired A ρ) := by
  have hslot : w.cam = w'.cam := (congrArg WindowDraft.cam h.seen :)
  refine .join (pairs_checkUnset (by rw [hslot])) fun _ _ _ => ?_
  refine .join (pairs_checkUnconditional h) fun _ _ _ => .bind same_parseCamName fun name _ => ?_
  refine .bind (P := fun _ => True) ?_ fun cam _ => .pure ?_
  · refine .repeatSame (I := fun _ => True) trivial fun c _ => ?_
    refine .bind same_atLineEnd fun ended _ => .ite (fun _ => .pure ⟨rfl, trivial⟩) fun _ => ?_
    refine .bind .lift fun token _ => .bind same_parseCamSetting fun c _ => .pure ⟨rfl, trivial⟩
  · exact h.put (f := fun v => { v with cam := some cam }) (fun _ => rfl) rfl rfl

/-! ### Directives -/

theorem pairs_parseCommand (h : w.Paired A ρ w') :
    T.Pairs (parseCommand w token) (parseCommand w' token) (WindowDraft.Paired A ρ) := by
  have harea : w.area.settle A ρ = w'.area.settle A ρ := (congrArg WindowDraft.area h.seen :)
  have hx : Settles A ρ w.area.x w'.area.x := (congrArg Area.x harea :)
  have hy : Settles A ρ w.area.y w'.area.y := (congrArg Area.y harea :)
  have hwidth : Settles A ρ w.area.width w'.area.width := (congrArg Area.width harea :)
  have hheight : Settles A ρ w.area.height w'.area.height := (congrArg Area.height harea :)
  have hput {a a' : Area} (ha : a.settle A ρ = a'.settle A ρ) :
      WindowDraft.Paired A ρ { w with area := a } { w' with area := a' } := by
    have hseen := congrArg₂ (fun (v : WindowDraft) a => { v with area := a }) h.seen ha
    exact { h with seen := hseen }
  refine .ite (fun _ => .join (pairs_parseDimension h hx) fun _ _ he => .pure ?_) fun _ => ?_
  · exact hput (settle_eq he hy hwidth hheight)
  refine .ite (fun _ => .join (pairs_parseDimension h hy) fun _ _ he => .pure ?_) fun _ => ?_
  · exact hput (settle_eq hx he hwidth hheight)
  refine .ite (fun _ => .join (pairs_parseDimension h hwidth) fun _ _ he => .pure ?_) fun _ => ?_
  · exact hput (settle_eq hx hy he hheight)
  refine .ite (fun _ => .join (pairs_parseDimension h hheight) fun _ _ he => .pure ?_) fun _ => ?_
  · exact hput (settle_eq hx hy hwidth he)
  refine .ite (fun _ => .join (pairs_parseFormattedText h) fun _ _ hcs => .pure ?_) fun _ => ?_
  · exact h.add WindowDraft.adds_titles hcs
  refine .ite (fun _ => .join (pairs_parseFormattedText h) fun _ _ hcs => .pure ?_) fun _ => ?_
  · exact h.add WindowDraft.adds_bodies hcs
  refine .ite (fun _ => pairs_parseTalk h) fun _ => ?_
  refine .ite (fun _ => pairs_parseTalkEx h) fun _ => ?_
  refine .ite (fun _ => pairs_parseImage h) fun _ => ?_
  refine .ite (fun _ => pairs_parseFlags h) fun _ => ?_
  refine .ite (fun _ => pairs_parseSubWindow h) fun _ => ?_
  refine .ite (fun _ => pairs_parseChoice h) fun _ => ?_
  refine .ite (fun _ => ?_) fun _ => .ite (fun _ => ?_) fun _ => .ite (fun _ => ?_) fun _ => ?_
  · refine .store (pairs_parseConsole h (congrArg WindowDraft.startConsole h.seen :)) fun text => ?_
    exact h.put (f := fun v => { v with startConsole := some text }) (fun _ => rfl) rfl rfl
  · refine .store (pairs_parseConsole h (congrArg WindowDraft.finishConsole h.seen :)) fun text => ?_
    exact h.put (f := fun v => { v with finishConsole := some text }) (fun _ => rfl) rfl rfl
  · refine .store (pairs_parseNamed h (congrArg WindowDraft.font h.seen :)) fun text => ?_
    exact h.put (f := fun v => { v with font := some text }) (fun _ => rfl) rfl rfl
  refine .ite (fun _ => ?_) fun _ => .ite (fun _ => pairs_parseNextWindow h) fun _ => ?_
  · refine .store (pairs_parseNamed h (congrArg WindowDraft.style h.seen :)) fun text => ?_
    exact h.put (f := fun v => { v with style := some text }) (fun _ => rfl) rfl rfl
  refine .ite (fun _ => pairs_parseNextWindow h) fun _ => ?_
  refine .ite (fun _ => pairs_parsePrint h) fun _ => ?_
  refine .ite (fun _ => pairs_parsePrint h) fun _ => ?_
  refine .ite (fun _ => ?_) fun _ => .ite (fun _ => ?_) fun _ => .ite (fun _ => ?_) fun _ => ?_
  · refine .store (pairs_parseSwitchRef h (congrArg WindowDraft.startSwitch h.seen :)) fun label => ?_
    exact h.put (f := fun v => { v with startSwitch := some label }) (fun _ => rfl) rfl rfl
  · refine .store (pairs_parseSwitchRef h (congrArg WindowDraft.thinkSwitch h.seen :)) fun label => ?_
    exact h.put (f := fun v => { v with thinkSwitch := some label }) (fun _ => rfl) rfl rfl
  · refine .store (pairs_parseSwitchRef h (congrArg WindowDraft.finishSwitch h.seen :)) fun label => ?_
    exact h.put (f := fun v => { v with finishSwitch := some label }) (fun _ => rfl) rfl rfl
  refine .ite (fun _ => pairs_parseBackground h) fun _ => ?_
  exact .ite (fun _ => pairs_parseCam h) fun _ => .fail

theorem pairs_parseDirective (h : w.Paired A ρ w') :
    T.Pairs (parseDirective w token) (parseDirective w' token) (WindowDraft.Paired A ρ) := by
  refine .ite (fun _ => .pure h) fun _ => ?_
  refine .ite (fun _ => pairs_closeBrace h.clearClosed) fun _ => ?_
  refine .ite (fun _ => pairs_openElse h) fun _ => .guard fun _ => ?_
  refine .ite (fun _ => pairs_openIf h.clearClosed) fun _ => ?_
  refine .join (pairs_parseCommand h.clearClosed) fun v v' hv => ?_
  exact .bind .lift fun next _ => .guard fun _ => .pure hv.markUsed.closeUnbraced

variable (A ρ) in
theorem pairs_compileWindow : T.Pairs compileWindow compileWindow fun r r' =>
    r.1.id = r'.1.id ∧ r.1.shown A ρ = r'.1.shown A ρ ∧ r.2 = r'.2 := by
  refine .bind same_parseDefinitionLabel fun label _ => .bind .lift fun token _ => ?_
  refine .guard fun _ => ?_
  refine .join (R := fun r r' => WindowDraft.Paired A ρ r.1 r'.1 ∧ r.2 = r'.2) ?_ ?_
  · refine .repeatFrom (I := WindowDraft.Paired A ρ) ⟨rfl, by simp, by simp⟩ fun v v' hv => ?_
    refine .bind .lift fun token _ => ?_
    split
    · refine .bind .lift fun _ _ => .bind same_parseDefine fun defined _ => ?_
      exact .ite (fun _ => .pure (.inl hv)) fun _ => .pure (.inr ⟨hv, rfl⟩)
    · exact .pure (.inr ⟨hv, rfl⟩)
    · refine .bind .lift fun _ _ => ?_
      exact .join (pairs_parseDirective hv) fun u u' hu => .pure (.inl hu)
  · rintro ⟨draft, afterHash⟩ ⟨draft', _⟩ ⟨hdraft, rfl⟩
    dsimp only
    rw [← hdraft.blocks_eq]
    split
    · exact .fail_bind
    · refine .pure ⟨rfl, ?_, rfl⟩
      simp only [Window.shown]
      rw [WindowDraft.shown_commands, WindowDraft.shown_commands, hdraft.seen]

end Twins

/-! ### Files of one script -/

namespace Twins

open Compiler

variable {T : Twins} {A : Arithmetic} {ρ : Assignment}

def Windows (A : Arithmetic) (ρ : Assignment) (w w' : Window) : Prop :=
  w.id = w'.id ∧ w.shown A ρ = w'.shown A ρ

/-- Two scripts that have defined alike so far. -/
structure Programs (T : Twins) (A : Arithmetic) (ρ : Assignment) (p p' : ProgramDraft) : Prop where
  windows : List.Forall₂ (Windows A ρ) p.windows p'.windows
  switches : List.Forall₂ T.inline p.switches p'.switches
  afterHash : p.afterHash = p'.afterHash

theorem same_skipToHash : T.Same skipToHash := by
  refine .repeatSame (I := fun _ => True) trivial fun _ _ => ?_
  refine .bind .lift fun token _ => .ite (fun _ => .pure ⟨rfl, trivial⟩) fun _ => ?_
  exact .bind .lift fun _ _ => .pure ⟨rfl, trivial⟩

theorem same_findHash : T.Same findHash := by
  refine .bind .lift fun _ _ => .bind .lift fun token _ => ?_
  exact .ite (fun _ => .pure ⟨rfl, trivial⟩) fun _ => .guard fun _ => .pure ⟨rfl, trivial⟩

theorem pairs_parseTopDirective {p p' : ProgramDraft} (hp : T.Programs A ρ p p') :
    T.Pairs (parseTopDirective p) (parseTopDirective p') (T.Programs A ρ) := by
  refine .bind .lift fun kind _ => .guard fun _ => .ite (fun _ => ?_) fun _ => ?_
  · refine .join (pairs_compileWindow A ρ) ?_
    rintro ⟨window, afterHash⟩ ⟨window', _⟩ ⟨hid, hshown, rfl⟩
    refine .pure { hp with windows := ?_, afterHash := rfl }
    exact List.rel_append hp.windows (.cons ⟨hid, hshown⟩ .nil)
  refine .ite (fun _ => .bind same_parseDefinitionLabel fun label _ => ?_) fun _ => ?_
  · refine .join pairs_compileSwitch ?_
    rintro ⟨switch, afterHash⟩ ⟨switch', _⟩ ⟨hswitch, -, rfl⟩
    refine .pure { hp with switches := ?_, afterHash := rfl }
    exact List.rel_append hp.switches (.cons (T.inline_of_paired hswitch) .nil)
  · refine .ite (fun _ => ?_) fun _ => .fail
    exact .bind .lift fun _ _ => .pure { hp with afterHash := rfl }

variable (A ρ) in
theorem pairs_compileProgram : T.Pairs compileProgram compileProgram fun f f' =>
    List.Forall₂ (Windows A ρ) f.windows f'.windows ∧
      List.Forall₂ T.inline f.switches f'.switches := by
  refine .options ?_
  extract_lets program
  have hprogram (u : Unit) : T.Pairs (program u) (program u) fun f f' =>
      List.Forall₂ (Windows A ρ) f.windows f'.windows ∧
        List.Forall₂ T.inline f.switches f'.switches := by
    refine .join (R := T.Programs A ρ) ?_ fun p p' hp => ?_
    · refine .repeatFrom (I := T.Programs A ρ) ⟨.nil, .nil, rfl⟩ fun p p' hp => ?_
      have hgoOn : T.Pairs
          (parseTopDirective p >>= fun p => pure (.inl p : ProgramDraft ⊕ ProgramDraft))
          (parseTopDirective p' >>= fun p => pure (.inl p : ProgramDraft ⊕ ProgramDraft))
          (Sum.LiftRel (T.Programs A ρ) (T.Programs A ρ)) :=
        (pairs_parseTopDirective hp).join fun q q' hq => .pure (.inl hq)
      rw [← hp.afterHash]
      refine .ite (fun _ => .bind same_findHash fun found _ => ?_) fun _ => hgoOn
      exact .ite (fun _ => .pure (.inr hp)) fun _ => hgoOn
    · refine .join .state fun s s' hs => .pure ⟨hp.windows, ?_⟩
      exact List.rel_append hp.switches hs.inline
  exact .ite (fun _ => .bind same_skipToHash fun u _ => hprogram u) fun _ => hprogram ()

end Twins

/-- A file comes from a run of the compiler over the prepared text. -/
theorem compile_ok {src : Bytes} {o : Options} {f : File} (h : (compile src o).result = .ok f) :
    ∃ hash text s, effectiveHash o.effective = .ok hash ∧
      prepareSource o.effective src = .ok text ∧
      Compiler.compileProgram ⟨o.effective, hash⟩
        ⟨.ofSource text o.effective.file o.effective.allowExpFloats, [], 0, []⟩ = .ok f s := by
  unfold compile at h
  extract_lets options at h
  split at h
  · cases h
  · split at h
    · cases h
    · extract_lets start at h
      split at h
      · cases h
      · split at h
        · split at h
          · cases h
          · cases h
            exact ⟨_, _, _, ‹_›, ‹_›, ‹_›⟩
        · cases h
          exact ⟨_, _, _, ‹_›, ‹_›, ‹_›⟩

/-- What a script compiles to under options that differ at most in whether they optimize. -/
theorem paired_files {src : Bytes} {o : Options} {a b : Bool} {f₀ f₁ : File}
    (h₀ : (compile src { o with optimize := a }).result = .ok f₀)
    (h₁ : (compile src { o with optimize := b }).result = .ok f₁) (A : Arithmetic)
    (ρ : Assignment) : List.Forall₂ (Twins.Windows A ρ) f₀.windows f₁.windows ∧
      List.Forall₂ (Switch.Paired { o.effective with optimize := a }
        { o.effective with optimize := b }) f₀.switches f₁.switches := by
  obtain ⟨hash, text, s, hhash, htext, hrun⟩ := compile_ok h₀
  obtain ⟨hash', text', s', hhash', htext', hrun'⟩ := compile_ok h₁
  -- neither the hash nor the prepared text depends on whether the options optimize
  have hsame : (Except.ok hash : Except CompileFailure Nat) = .ok hash' := hhash.symm.trans hhash'
  have hsame' : (Except.ok text : Except CompileError Bytes) = .ok text' :=
    htext.symm.trans htext'
  cases hsame
  cases hsame'
  let T : Twins := ⟨⟨{ o.effective with optimize := a }, hash⟩, b, Switch.Paired _ _, id⟩
  have hstart : T.States ⟨.ofSource text o.effective.file o.effective.allowExpFloats, [], 0, []⟩
      ⟨.ofSource text o.effective.file o.effective.allowExpFloats, [], 0, []⟩ := ⟨rfl, rfl, .nil⟩
  exact (T.pairs_compileProgram A ρ _ _ _ _ _ _ hstart hrun hrun').2

end ApeScript
