import ApeScript.Proofs.CarriedSwitch

/-!
# Windows of a variant

A variant of a compilation collects the same window drafts, in which only the switches that windows
name can differ: their inline labels follow the other hash. `Variant.Kept` says so of one directive,
and also that the directive names no switch. The directives that name switches are left to a
hypothesis, `Variant.Inlines`.
-/

namespace ApeScript

open Label (inlineBase)

/-- A command that is collected in a list of a draft: it names no switch, and its label is one that
scripts can write. -/
def Command.Listed : Command → Prop
  | switchRef .. => False
  | subWindow label => label.toNat < inlineBase
  | choice _ _ _ label => label.toNat < inlineBase
  | _ => True

/-- A command under another hash. Only the names of switches depend on it. -/
def Command.rehash (hash hash' : Nat) : Command → Command
  | switchRef code label => switchRef code (label.rehash hash hash')
  | c => c

theorem Command.Listed.rehash {c : Command} {hash hash' : Nat} (h : c.Listed) :
    c.rehash hash hash' = c := by
  cases c <;> first | rfl | exact h.elim

def Window.rehash (hash hash' : Nat) (w : Window) : Window :=
  { w with commands := w.commands.map (Command.rehash hash hash') }

namespace WindowDraft

structure Listed (w : WindowDraft) : Prop where
  titles : ∀ c ∈ w.titles, c.Listed
  bodies : ∀ c ∈ w.bodies, c.Listed
  prints : ∀ c ∈ w.prints, c.Listed
  subWindows : ∀ c ∈ w.subWindows, c.Listed
  images : ∀ c ∈ w.images, c.Listed
  choices : ∀ c ∈ w.choices, c.Listed

theorem listed_empty : ({} : WindowDraft).Listed := by
  constructor <;> exact fun _ h => (List.not_mem_nil h).elim

def refs (w : WindowDraft) : List Label :=
  w.startSwitch.toList ++ w.thinkSwitch.toList ++ w.finishSwitch.toList

def rehash (hash hash' : Nat) (w : WindowDraft) : WindowDraft :=
  { w with
    startSwitch := w.startSwitch.map (Label.rehash hash hash')
    thinkSwitch := w.thinkSwitch.map (Label.rehash hash hash')
    finishSwitch := w.finishSwitch.map (Label.rehash hash hash') }

def leading (w : WindowDraft) : List Command :=
  [w.titles, w.bodies, w.prints, (w.cam.map Command.cam).toList, (w.talk.map Command.talk).toList,
   simple CommandCode.startConsole w.startConsole,
   simple CommandCode.finishConsole w.finishConsole].flatten

def naming (w : WindowDraft) : List Command :=
  [ref CommandCode.startSwitch w.startSwitch, ref CommandCode.thinkSwitch w.thinkSwitch,
   ref CommandCode.finishSwitch w.finishSwitch].flatten

/-- The commands that are stored after those that name switches. -/
def trailing (w : WindowDraft) : List Command :=
  [simple CommandCode.style w.style, simple CommandCode.font w.font,
   if w.storedFlags = 0 then [] else [.flags w.storedFlags],
   if w.corners = ⟨0, 0, 0, 0⟩ then [] else [.background w.corners],
   [.dimensions w.area], w.subWindows, w.images, w.choices,
   simple CommandCode.nextWindow w.nextWindow].flatten

variable {w : WindowDraft} {hash hash' : Nat}

theorem commands_eq : w.commands = w.leading ++ (w.naming ++ w.trailing) := by
  simp [commands, leading, naming, trailing]

theorem listed_slot {α : Type} {make : α → Command} (h : ∀ a, (make a).Listed) (o : Option α) :
    ∀ c ∈ (o.map make).toList, c.Listed := by
  cases o with
  | none => simp
  | some a => simpa using h a

theorem Listed.leading (hw : w.Listed) : ∀ c ∈ w.leading, c.Listed := by
  refine List.forall_mem_flatten.2 ?_
  simp only [List.forall_mem_cons, List.not_mem_nil, false_imp_iff, implies_true, and_true]
  refine ⟨hw.titles, hw.bodies, hw.prints, ?_, ?_, ?_, ?_⟩
  all_goals
    apply listed_slot
    intro _
    trivial

theorem Listed.trailing (hw : w.Listed) : ∀ c ∈ w.trailing, c.Listed := by
  have hunless {p : Prop} [Decidable p] {c : Command} (h : c.Listed) :
      ∀ c' ∈ (if p then [] else [c]), c'.Listed := by
    split
    · simp
    · simpa using h
  refine List.forall_mem_flatten.2 ?_
  simp only [List.forall_mem_cons, List.not_mem_nil, false_imp_iff, implies_true, and_true]
  refine ⟨?_, ?_, hunless trivial, hunless trivial, trivial, hw.subWindows, hw.images,
    hw.choices, ?_⟩
  all_goals
    apply listed_slot
    intro _
    trivial

theorem commands_rehash (hw : w.Listed) :
    (w.rehash hash hash').commands = w.commands.map (Command.rehash hash hash') := by
  have hlist {cs : List Command} (h : ∀ c ∈ cs, c.Listed) :
      cs.map (Command.rehash hash hash') = cs :=
    (List.map_congr_left fun c hc => (h c hc).rehash).trans (List.map_id' cs)
  have href (code : UInt8) (o : Option Label) :
      ref code (o.map (Label.rehash hash hash')) =
        (ref code o).map (Command.rehash hash hash') := by
    cases o <;> rfl
  have hnaming : (w.rehash hash hash').naming = w.naming.map (Command.rehash hash hash') := by
    simp only [naming, rehash, href, List.map_flatten, List.map_cons, List.map_nil]
  rw [commands_eq, commands_eq, List.map_append, List.map_append, hlist hw.leading,
    hlist hw.trailing, hnaming]
  rfl

end WindowDraft

namespace Variant

open Compiler
open Contract (forall_mem_concat)

def block (V : Variant) (b : ConditionBlock) : ConditionBlock := { b with loc := V.place b.loc }

def draft (V : Variant) (w : WindowDraft) : WindowDraft :=
  { w.rehash V.context.hash V.hash with
    blocks := w.blocks.map V.block
    closed := w.closed.map V.block }

/-- A draft after a directive that names no switch, and the draft of the other compilation. -/
structure Kept (V : Variant) (w v v' : WindowDraft) : Prop where
  other : v' = V.draft v
  listed : v.Listed
  refs : v.refs = w.refs

variable {V : Variant} {w : WindowDraft} {loc : Location} {token : Token}

theorem draft_closeUnbraced (V : Variant) (w : WindowDraft) :
    V.draft w.closeUnbraced = (V.draft w).closeUnbraced := by
  have hbraced : (fun b : ConditionBlock => !b.braced) ∘ V.block = fun b => !b.braced := rfl
  simp [draft, WindowDraft.closeUnbraced, WindowDraft.rehash, List.takeWhile_map,
    List.dropWhile_map, hbraced]

theorem draft_markUsed (V : Variant) (w : WindowDraft) :
    V.draft w.markUsed = (V.draft w).markUsed := by
  simp [draft, WindowDraft.markUsed, WindowDraft.rehash, block, Function.comp_def]

/-! ### Conditions -/

theorem same_activeCondition :
    V.Carries (activeCondition w) (activeCondition (V.draft w)) fun r r' => r' = r ∧ True := by
  unfold activeCondition
  have hblocks : (V.draft w).blocks.reverse = w.blocks.reverse.map V.block := List.map_reverse.symm
  rw [hblocks]
  generalize w.blocks.reverse = outermostFirst
  have hconditions : (outermostFirst.map V.block).map (·.condition) =
      outermostFirst.map (·.condition) := by
    rw [List.map_map]
    rfl
  dsimp only
  rw [hconditions]
  cases outermostFirst with
  | nil => exact .pure ⟨rfl, trivial⟩
  | cons outermost rest => exact same_toCondition

theorem same_checkUnconditional :
    V.Carries (checkUnconditional w loc) (checkUnconditional (V.draft w) (V.place loc)) fun a b =>
      b = a ∧ True := by
  have hblocks : (V.draft w).blocks.isEmpty = w.blocks.isEmpty := List.isEmpty_map
  unfold checkUnconditional
  rw [hblocks]
  exact .ite (fun _ => .pure ⟨rfl, trivial⟩) fun _ => .fail

theorem same_checkUnset {α β : Type} {slot : Option α} {slot' : Option β} {cause : Cause}
    (h : slot'.isSome = slot.isSome) :
    V.Carries (checkUnset slot loc cause) (checkUnset slot' (V.place loc) cause) fun a b => b = a ∧ True := by
  unfold checkUnset
  rw [h]
  exact .ite (fun _ => .fail) fun _ => .pure ⟨rfl, trivial⟩

/-- The checks of a directive that stands at most once, and outside conditions. -/
theorem Carries.once {α β γ : Type} {slot slot' : Option α} {cause : Cause} {next : Compiler β}
    {next' : Compiler γ} {R : β → γ → Prop} (hslot : slot'.isSome = slot.isSome)
    (hnext : V.Carries next next' R) :
    V.Carries (checkUnconditional w loc >>= fun _ => checkUnset slot loc cause >>= fun _ => next)
      (checkUnconditional (V.draft w) (V.place loc) >>= fun _ =>
        checkUnset slot' (V.place loc) cause >>= fun _ => next') R :=
  .bind same_checkUnconditional fun _ _ => .bind (same_checkUnset hslot) fun _ _ => hnext

theorem carries_openBlock (V : Variant) (b : ConditionBlock) (hw : w.Listed) :
    V.Carries (openBlock w b) (openBlock (V.draft w) (V.block b)) (V.Kept w) := by
  refine .bind same_skipLineEnds fun _ _ => .bind shares_peekNormal fun token _ => ?_
  refine .ite (fun _ => .bind same_consume fun _ _ => ?_) fun _ => ?_
  · exact .pure ⟨rfl, { hw with }, rfl⟩
  · exact .pure ⟨rfl, { hw with }, rfl⟩

theorem carries_openIf (hw : w.Listed) :
    V.Carries (openIf w loc) (openIf (V.draft w) (V.place loc)) (V.Kept w) := by
  refine .bind shares_expect fun _ _ => .bind same_parseExpr fun condition _ => ?_
  exact .bind shares_expect fun _ _ => .guard fun _ => V.carries_openBlock _ hw

theorem carries_openElse (hw : w.Listed) :
    V.Carries (openElse w loc) (openElse (V.draft w) (V.place loc)) (V.Kept w) := by
  unfold openElse
  have hclosed : (V.draft w).closed = w.closed.map V.block := rfl
  rw [hclosed]
  cases w.closed with
  | nil => exact .fail
  | cons inner outer =>
    refine .guard fun _ => .guard fun _ => ?_
    have hopened : WindowDraft.Listed { w with blocks := outer ++ w.blocks, closed := [] } :=
      { hw with }
    have hdraft : V.draft { w with blocks := outer ++ w.blocks, closed := [] } =
        { V.draft w with blocks := outer.map V.block ++ (V.draft w).blocks, closed := [] } := by
      simp [draft, WindowDraft.rehash]
    have hkept := (V.carries_openBlock ⟨inner.condition.invert, false, true, false, loc⟩
      hopened).mono fun v v' hv => (⟨hv.other, hv.listed, hv.refs⟩ : V.Kept w v v')
    rw [hdraft] at hkept
    exact hkept

theorem carries_closeBrace (hw : w.Listed) :
    V.Carries (closeBrace w loc) (closeBrace (V.draft w) (V.place loc)) (V.Kept w) := by
  unfold closeBrace
  have hblocks : (V.draft w).blocks = w.blocks.map V.block := rfl
  rw [hblocks]
  cases w.blocks with
  | nil => exact .fail
  | cons top rest =>
    have hclosed : ({ V.draft w with
        blocks := rest.map V.block, closed := [V.block top] } : WindowDraft).closeUnbraced =
          V.draft { w with blocks := rest, closed := [top] }.closeUnbraced :=
      (V.draft_closeUnbraced { w with blocks := rest, closed := [top] }).symm
    refine .guard fun _ => .options (.relax ?_ fun _ => .pure ⟨hclosed, { hw with }, rfl⟩)
    intro hrefused
    rw [Bool.and_eq_true] at hrefused ⊢
    exact ⟨hrefused.1, not_permitted hrefused.2⟩

/-! ### Text -/

theorem same_atLineEnd : V.Same atLineEnd :=
  .bind shares_peekNormal fun _ _ => .pure ⟨rfl, trivial⟩

theorem same_parseText : V.Same parseText := .bind shares_read fun _ _ => same_stringValue

theorem agrees_parseFormattedText {code : UInt8} :
    V.Carries (parseFormattedText w code) (parseFormattedText (V.draft w) code) fun cs cs' =>
      cs' = cs ∧ ∀ c ∈ cs, c.Listed := by
  refine .bind same_activeCondition fun (condition, emits) _ => ?_
  refine .bind same_parseText fun text _ => .bind same_parseFormatList fun format _ => ?_
  refine .pure ⟨rfl, ?_⟩
  split
  · exact List.forall_mem_singleton.2 trivial
  · exact List.forall_mem_nil _

theorem same_parseArgument {comma : Bool} : V.Same (parseArgument comma) := by
  unfold parseArgument
  extract_lets argument
  have hargument : V.Same (argument ()) := by
    refine .bind .location fun loc _ => .bind same_parseNumeric fun v _ => ?_
    exact .bind same_toExpr fun e _ => .pure ⟨rfl, trivial⟩
  exact .ite (fun _ => .bind shares_expect fun _ _ => hargument) fun _ => hargument

theorem carries_parsePrint {withFont : Bool} (hw : w.Listed) :
    V.Carries (parsePrint w withFont) (parsePrint (V.draft w) withFont) (V.Kept w) := by
  refine .bind same_activeCondition fun (condition, emits) _ => ?_
  refine .bind same_parseArgument fun x _ => .bind same_parseArgument fun y _ => ?_
  refine .bind same_parseArgument fun alpha _ => ?_
  extract_lets message message'
  have hmessage (colors : Option Expr × Option Expr × Option Expr × Option Bytes) :
      V.Carries (message colors) (message' colors) (V.Kept w) := by
    refine .bind shares_expect fun _ _ => .bind same_parseText fun text _ => ?_
    refine .bind same_parseFormatList fun format _ => .ite (fun _ => ?_) fun _ => ?_
    · exact .pure ⟨rfl, hw, rfl⟩
    · exact .pure ⟨rfl, { hw with prints := forall_mem_concat hw.prints trivial }, rfl⟩
  refine .ite (fun _ => ?_) fun _ => hmessage (none, none, none, none)
  refine .bind same_parseArgument fun red _ => .bind same_parseArgument fun green _ => ?_
  refine .bind same_parseArgument fun blue _ => .bind shares_expect fun _ _ => ?_
  exact .bind same_parseWord fun font _ => hmessage (red, green, blue, some font)

theorem same_parseConsole {slot : Option Bytes} :
    V.Carries (parseConsole w loc slot) (parseConsole (V.draft w) (V.place loc) slot) fun a b =>
      b = a ∧ True := by
  refine .once rfl (.bind .warn fun _ _ => ?_)
  exact .bind same_parseText fun _ _ => .pure ⟨rfl, trivial⟩

theorem same_parseNamed {slot : Option Bytes} {repeated : Cause} :
    V.Carries (parseNamed w loc slot repeated) (parseNamed (V.draft w) (V.place loc) slot repeated)
      fun a b => b = a ∧ True :=
  .once rfl same_parseName

theorem carries_parseNextWindow {isReturn : Bool} (hw : w.Listed) :
    V.Carries (parseNextWindow w loc isReturn) (parseNextWindow (V.draft w) (V.place loc) isReturn)
      (V.Kept w) := by
  refine .once rfl (.ite (fun _ => .pure ⟨rfl, { hw with }, rfl⟩) fun _ => ?_)
  exact .bind shares_read fun token _ => .guard fun _ => .pure ⟨rfl, { hw with }, rfl⟩

/-! ### Flags, dimensions and sub-windows -/

theorem carries_parseSubWindow (hw : w.Listed) :
    V.Carries (parseSubWindow w loc) (parseSubWindow (V.draft w) (V.place loc)) (V.Kept w) := by
  refine .bind same_checkUnconditional fun _ _ => .bind agrees_parseLabel fun label hlabel => ?_
  exact .pure ⟨rfl, { hw with subWindows := forall_mem_concat hw.subWindows hlabel }, rfl⟩

theorem carries_parseFlags (hw : w.Listed) :
    V.Carries (parseFlags w loc) (parseFlags (V.draft w) (V.place loc)) (V.Kept w) := by
  refine .bind same_checkUnconditional fun _ _ => ?_
  refine .bind (P := fun _ => True) ?_ fun flags _ => .pure ⟨rfl, { hw with }, rfl⟩
  refine .repeatSame (I := fun _ => True) trivial fun flags _ => ?_
  refine .bind same_atLineEnd fun ended _ => .ite (fun _ => .pure ⟨rfl, trivial⟩) fun _ => ?_
  refine .bind shares_expect fun token _ => ?_
  rw [token_text]
  split
  · exact .guard fun _ => .pure ⟨rfl, trivial⟩
  · exact .fail

theorem same_parseDimension {slot : Option Expr} :
    V.Carries (parseDimension w loc slot) (parseDimension (V.draft w) (V.place loc) slot) fun a b =>
      b = a ∧ True := by
  refine .once rfl (.bind .location fun start _ => ?_)
  exact .bind same_parseExpr fun v _ => same_toExpr

/-! ### Images -/

theorem same_parseImageSize : V.Same parseImageSize := by
  refine .bind shares_peekNormal fun token _ => .ite (fun _ => .pure ⟨rfl, trivial⟩) fun _ => ?_
  refine .bind same_consume fun _ _ => .bind .location fun loc _ => ?_
  refine .bind same_parseNumeric fun v _ => ?_
  extract_lets store store'
  have hstore : V.Carries (store ()) (store' ()) fun e e' => e' = e ∧ True :=
    .bind same_toExpr fun e _ => .pure ⟨rfl, trivial⟩
  split
  · exact .ite (fun _ => .bind .warn fun _ _ => hstore) fun _ => hstore
  · exact hstore

theorem same_parseImageFlags : V.Same parseImageFlags := by
  refine .bind shares_peekNormal fun token _ => .ite (fun _ => .pure ⟨rfl, trivial⟩) fun _ => ?_
  refine .bind same_consume fun _ _ => .repeatSame (I := fun _ => True) trivial fun flags _ => ?_
  refine .bind shares_expect fun token _ => ?_
  rw [token_text]
  split
  · exact .fail
  · refine .guard fun _ => .bind same_atLineEnd fun ended _ => ?_
    exact .ite (fun _ => .pure ⟨rfl, trivial⟩) fun _ => .pure ⟨rfl, trivial⟩

theorem carries_parseImage (hw : w.Listed) :
    V.Carries (parseImage w) (parseImage (V.draft w)) (V.Kept w) := by
  refine .bind same_activeCondition fun (condition, emits) _ => ?_
  refine .bind same_parseName fun file _ => .bind same_parseArgument fun x _ => ?_
  refine .bind same_parseArgument fun y _ => .bind same_parseImageSize fun width _ => ?_
  refine .ite_bind (fun _ => same_parseImageSize) (fun _ => .pure ⟨rfl, trivial⟩) ?_
  rintro height _ ⟨rfl, -⟩
  refine .ite_bind (fun _ => same_parseImageFlags) (fun _ => .pure ⟨rfl, trivial⟩) ?_
  rintro flags _ ⟨rfl, -⟩
  refine .ite (fun _ => .pure ⟨rfl, hw, rfl⟩) fun _ => ?_
  exact .pure ⟨rfl, { hw with images := forall_mem_concat hw.images trivial }, rfl⟩

/-! ### Choices -/

theorem agrees_parseChoiceArguments :
    V.Agrees parseChoiceArguments fun r => r.2.toNat < inlineBase := by
  refine .repeatSame (I := fun _ => True) trivial fun values _ => ?_
  refine .bind shares_peek fun token _ => .ite (fun _ => ?_) fun _ => ?_
  · refine .bind same_parseFormatValue fun v _ => ?_
    exact .bind shares_expect fun _ _ => .pure ⟨rfl, trivial⟩
  · refine .bind same_consume fun _ _ => .bind shares_peekNormal fun next _ => ?_
    refine .ite (fun _ => ?_) fun _ => ?_
    · refine .bind same_consume fun _ _ => .bind shares_expect fun low _ => ?_
      exact .bind agrees_labelOfTokens fun label hlabel => .pure ⟨rfl, hlabel⟩
    · refine .bind same_formatValueOfToken fun v _ => ?_
      exact .bind shares_expect fun _ _ => .pure ⟨rfl, trivial⟩

theorem carries_parseChoice (hw : w.Listed) :
    V.Carries (parseChoice w) (parseChoice (V.draft w)) (V.Kept w) := by
  refine .bind same_activeCondition fun (condition, emits) _ => ?_
  refine .bind shares_read fun token _ => .bind same_stringValue fun text _ => ?_
  refine .bind shares_peekNormal fun next _ => ?_
  extract_lets add add'
  have hadd (r : List FormatValue × Label) (hr : r.2.toNat < inlineBase) :
      V.Carries (add r) (add' r) (V.Kept w) := by
    refine .ite (fun _ => .pure ⟨rfl, hw, rfl⟩) fun _ => ?_
    exact .pure ⟨rfl, { hw with choices := forall_mem_concat hw.choices hr }, rfl⟩
  refine .ite (fun _ => ?_) fun _ => .bind agrees_parseLabel fun label hl => hadd ([], label) hl
  exact .bind same_consume fun _ _ => .bind agrees_parseChoiceArguments fun r hr => hadd r hr

/-! ### Conversations -/

theorem same_parseStay : V.Same parseStay := by
  refine .repeatSame (I := fun _ => True) trivial fun stay _ => ?_
  refine .bind same_atLineEnd fun ended _ => .ite (fun _ => .pure ⟨rfl, trivial⟩) fun _ => ?_
  exact .bind shares_expect fun token _ => .guard fun _ => .guard fun _ => .pure ⟨rfl, trivial⟩

theorem carries_parseTalk (hw : w.Listed) :
    V.Carries (parseTalk w loc) (parseTalk (V.draft w) (V.place loc)) (V.Kept w) := by
  refine .once rfl (.bind shares_expect fun target _ => ?_)
  extract_lets animate animate'
  have hanimate (names : Bytes × Bytes) :
      V.Carries (pure names >>= animate) (pure names >>= animate') (V.Kept w) := by
    rw [pure_bind, pure_bind]
    refine .bind same_parseWord fun _ _ => .bind same_parseStay fun _ _ => ?_
    exact .pure ⟨rfl, { hw with }, rfl⟩
  exact .ite (fun _ => hanimate _) fun _ => .ite (fun _ => hanimate _) fun _ => .fail_bind

theorem same_parseStayWord : V.Same parseStayWord := by
  refine .bind shares_expect fun token _ => .ite (fun _ => .pure ⟨rfl, trivial⟩) fun _ => ?_
  exact .ite (fun _ => .pure ⟨rfl, trivial⟩) fun _ => .fail

theorem carries_parseTalkEx (hw : w.Listed) :
    V.Carries (parseTalkEx w loc) (parseTalkEx (V.draft w) (V.place loc)) (V.Kept w) := by
  refine .once rfl (.bind same_parseWord fun name1 _ => .bind same_parseWord fun name2 _ => ?_)
  refine .bind same_parseWord fun anim1 _ => .bind same_parseWord fun anim2 _ => ?_
  refine .bind same_atLineEnd fun ended _ => ?_
  refine .ite (fun _ => .pure ⟨rfl, { hw with }, rfl⟩) fun _ => ?_
  refine .bind same_parseStayWord fun _ _ => .bind same_parseStayWord fun _ _ => ?_
  exact .pure ⟨rfl, { hw with }, rfl⟩

/-! ### Backgrounds -/

theorem same_parseColor : V.Same parseColor := by
  refine .bind shares_expect fun _ _ => .bind shares_read fun token _ => ?_
  rw [token_text]
  split
  · exact .pure ⟨rfl, trivial⟩
  · exact .fail

theorem same_parseBackdropWord {b : Backdrop} : V.Carries (parseBackdropWord b token)
    (parseBackdropWord b (V.token token)) fun r r' => r' = r ∧ True := by
  have hcolor {f : UInt32 → Backdrop} : V.Same (parseColor >>= fun color => pure (f color)) :=
    .bind same_parseColor fun _ _ => .pure ⟨rfl, trivial⟩
  have hflag {b : Backdrop} : V.Same (pure b) := .pure ⟨rfl, trivial⟩
  refine .ite (fun _ => hcolor) fun _ => .ite (fun _ => hcolor) fun _ => ?_
  refine .ite (fun _ => hcolor) fun _ => .ite (fun _ => hcolor) fun _ => ?_
  refine .ite (fun _ => hflag) fun _ => .ite (fun _ => hflag) fun _ => ?_
  exact .ite (fun _ => hflag) fun _ => .ite (fun _ => hflag) fun _ => .fail

theorem same_parseBackdrop {corners : Corners} : V.Same (parseBackdrop corners) := by
  refine .repeatSame (I := fun _ => True) trivial fun b _ => .bind shares_next fun token _ => ?_
  have hgoOn (b : Backdrop) : V.Agrees
      (atLineEnd >>= fun ended => if ended then pure (.inr b) else pure (.inl b))
      (Sum.elim (fun _ : Backdrop => True) fun _ : Backdrop => True) :=
    .bind same_atLineEnd fun _ _ =>
      .ite (fun _ => .pure ⟨rfl, trivial⟩) fun _ => .pure ⟨rfl, trivial⟩
  rw [token_type]
  split
  · exact .guard fun _ => hgoOn _
  · exact .bind same_parseBackdropWord fun b _ => hgoOn b
  · exact .fail_bind

theorem carries_parseBackground (hw : w.Listed) :
    V.Carries (parseBackground w) (parseBackground (V.draft w)) (V.Kept w) := by
  refine .bind same_activeCondition fun (condition, emits) _ => ?_
  refine .bind same_parseBackdrop fun b _ => ?_
  refine .ite (fun _ => .bind .location fun _ _ => .fail_bind) fun _ => ?_
  extract_lets v name zero flags v'
  split
  · exact .pure ⟨rfl, { hw with }, rfl⟩
  · exact .pure ⟨rfl, { hw with images := forall_mem_concat hw.images trivial }, rfl⟩

/-! ### Cameras -/

theorem same_parseCamText : V.Same parseCamText := by
  refine .bind shares_expect fun _ _ => .bind shares_read fun token _ => ?_
  refine .ite_bind (fun _ => same_stringValue) (fun _ => .pure ⟨rfl, trivial⟩) ?_
  rintro text _ ⟨rfl, -⟩
  exact .guard fun _ => .bind shares_expect fun _ _ => .pure ⟨rfl, trivial⟩

theorem same_parseCamNumber : V.Same parseCamNumber := by
  refine .bind shares_expect fun _ _ => .bind shares_expect fun token _ =>
    .bind shares_expect fun _ _ => ?_
  exact .bind .located fun n _ => .guard fun _ => .pure ⟨rfl, trivial⟩

theorem same_parseCamSetting {c : Cam} : V.Carries (parseCamSetting c token)
    (parseCamSetting c (V.token token)) fun r r' => r' = r ∧ True := by
  have htext {f : Bytes → Cam} : V.Same (parseCamText >>= fun text => pure (f text)) :=
    .bind same_parseCamText fun _ _ => .pure ⟨rfl, trivial⟩
  have hnumber {f : UInt16 → Cam} : V.Same (parseCamNumber >>= fun n => pure (f n)) :=
    .bind same_parseCamNumber fun _ _ => .pure ⟨rfl, trivial⟩
  refine .ite (fun _ => htext) fun _ => .ite (fun _ => htext) fun _ => ?_
  refine .ite (fun _ => htext) fun _ => .ite (fun _ => hnumber) fun _ => ?_
  refine .ite (fun _ => hnumber) fun _ => .ite (fun _ => hnumber) fun _ => ?_
  refine .ite (fun _ => hnumber) fun _ => .ite (fun _ => hnumber) fun _ => ?_
  refine .ite (fun _ => hnumber) fun _ => .ite (fun _ => hnumber) fun _ => ?_
  refine .ite (fun _ => hnumber) fun _ => .ite (fun _ => hnumber) fun _ => ?_
  refine .ite (fun _ => ?_) fun _ => ?_
  · exact .bind same_parseCamNumber fun n _ => .guard fun _ => .pure ⟨rfl, trivial⟩
  · refine .ite (fun _ => .pure ⟨rfl, trivial⟩) fun _ => ?_
    exact .ite (fun _ => .pure ⟨rfl, trivial⟩) fun _ => .fail

theorem same_parseCamName : V.Same parseCamName := by
  refine .options (.ite (fun _ => .bind shares_expect fun _ _ => .pure ⟨rfl, trivial⟩) fun _ => ?_)
  refine .bind shares_read fun token _ => ?_
  exact .ite (fun _ => .bind .warn fun _ _ => .pure ⟨rfl, trivial⟩) fun _ => .pure ⟨rfl, trivial⟩

theorem carries_parseCam (hw : w.Listed) :
    V.Carries (parseCam w loc) (parseCam (V.draft w) (V.place loc)) (V.Kept w) := by
  refine .bind (same_checkUnset rfl) fun _ _ => .bind same_checkUnconditional fun _ _ => ?_
  refine .bind same_parseCamName fun name _ => ?_
  refine .bind (P := fun _ => True) ?_ fun cam _ => .pure ⟨rfl, { hw with }, rfl⟩
  refine .repeatSame (I := fun _ => True) trivial fun c _ => ?_
  refine .bind same_atLineEnd fun ended _ => .ite (fun _ => .pure ⟨rfl, trivial⟩) fun _ => ?_
  refine .bind shares_expect fun token _ => .bind same_parseCamSetting fun c _ => .pure ⟨rfl, trivial⟩

/-! ### Directives -/

def switchWords : List Bytes := [utf8 "startswitch", utf8 "thinkswitch", utf8 "finishswitch"]

/-- The switches that windows name are carried to the other hash. -/
def Inlines (V : Variant) : Prop :=
  ∀ (w : WindowDraft) (loc : Location) (slot : Option Label),
    V.Carries (parseSwitchRef w loc slot) (parseSwitchRef (V.draft w) (V.place loc) (slot.map V.label))
      fun l l' => l' = V.label l

/-- A draft after a directive, and the draft of the other compilation. Only a directive that names
a switch changes the switches that the window names. -/
structure Drafted (V : Variant) (token : Token) (w v v' : WindowDraft) : Prop where
  other : v' = V.draft v
  listed : v.Listed
  refs : token.text ∉ switchWords → v.refs = w.refs

theorem Kept.drafted {v v' : WindowDraft} (h : V.Kept w v v') : V.Drafted token w v v' :=
  ⟨h.other, h.listed, fun _ => h.refs⟩

theorem carries_parseCommand (hV : token.text ∈ switchWords → V.Inlines) (hw : w.Listed) :
    V.Carries (parseCommand w token) (parseCommand (V.draft w) (V.token token)) (V.Drafted token w) := by
  have hkept {x y : Compiler WindowDraft} (h : V.Carries x y (V.Kept w)) :
      V.Carries x y (V.Drafted token w) := h.mono fun _ _ hv => hv.drafted
  -- a directive that sets a field which names no switch
  have hset {α : Type} {x y : Compiler α} {put put' : α → WindowDraft}
      (h : V.Carries x y fun a b => b = a ∧ True) (hput : ∀ a, V.Kept w (put a) (put' a)) :
      V.Carries (x >>= fun a => pure (put a)) (y >>= fun a => pure (put' a)) (V.Drafted token w) :=
    .bind h fun a _ => .pure (hput a).drafted
  refine .ite (fun _ => hset same_parseDimension fun _ => ⟨rfl, { hw with }, rfl⟩) fun _ => ?_
  refine .ite (fun _ => hset same_parseDimension fun _ => ⟨rfl, { hw with }, rfl⟩) fun _ => ?_
  refine .ite (fun _ => hset same_parseDimension fun _ => ⟨rfl, { hw with }, rfl⟩) fun _ => ?_
  refine .ite (fun _ => hset same_parseDimension fun _ => ⟨rfl, { hw with }, rfl⟩) fun _ => ?_
  refine .ite (fun _ => .bind agrees_parseFormattedText fun cs hcs => .pure ?_) fun _ => ?_
  · have htitles := List.forall_mem_append.2 ⟨hw.titles, hcs⟩
    exact ⟨rfl, { hw with titles := htitles }, fun _ => rfl⟩
  refine .ite (fun _ => .bind agrees_parseFormattedText fun cs hcs => .pure ?_) fun _ => ?_
  · have hbodies := List.forall_mem_append.2 ⟨hw.bodies, hcs⟩
    exact ⟨rfl, { hw with bodies := hbodies }, fun _ => rfl⟩
  refine .ite (fun _ => hkept (carries_parseTalk hw)) fun _ => ?_
  refine .ite (fun _ => hkept (carries_parseTalkEx hw)) fun _ => ?_
  refine .ite (fun _ => hkept (carries_parseImage hw)) fun _ => ?_
  refine .ite (fun _ => hkept (carries_parseFlags hw)) fun _ => ?_
  refine .ite (fun _ => hkept (carries_parseSubWindow hw)) fun _ => ?_
  refine .ite (fun _ => hkept (carries_parseChoice hw)) fun _ => ?_
  refine .ite (fun _ => hset same_parseConsole fun _ => ⟨rfl, { hw with }, rfl⟩) fun _ => ?_
  refine .ite (fun _ => hset same_parseConsole fun _ => ⟨rfl, { hw with }, rfl⟩) fun _ => ?_
  refine .ite (fun _ => hset same_parseNamed fun _ => ⟨rfl, { hw with }, rfl⟩) fun _ => ?_
  refine .ite (fun _ => hset same_parseNamed fun _ => ⟨rfl, { hw with }, rfl⟩) fun _ => ?_
  refine .ite (fun _ => hkept (carries_parseNextWindow hw)) fun _ => ?_
  refine .ite (fun _ => hkept (carries_parseNextWindow hw)) fun _ => ?_
  refine .ite (fun _ => hkept (carries_parsePrint hw)) fun _ => ?_
  refine .ite (fun _ => hkept (carries_parsePrint hw)) fun _ => ?_
  have hnamed {name : String} (h : (decide (token.text = utf8 name)) = true)
      (hname : utf8 name ∈ switchWords) : token.text ∈ switchWords := of_decide_eq_true h ▸ hname
  refine .ite (fun h => ?_) fun _ => .ite (fun h => ?_) fun _ => .ite (fun h => ?_) fun _ => ?_
  · have hword := hnamed h (by decide)
    refine .join (hV hword w token.loc w.startSwitch) fun l l' hl => .pure ⟨?_, { hw with }, ?_⟩
    · rw [hl]
      rfl
    · exact fun hnot => absurd hword hnot
  · have hword := hnamed h (by decide)
    refine .join (hV hword w token.loc w.thinkSwitch) fun l l' hl => .pure ⟨?_, { hw with }, ?_⟩
    · rw [hl]
      rfl
    · exact fun hnot => absurd hword hnot
  · have hword := hnamed h (by decide)
    refine .join (hV hword w token.loc w.finishSwitch) fun l l' hl => .pure ⟨?_, { hw with }, ?_⟩
    · rw [hl]
      rfl
    · exact fun hnot => absurd hword hnot
  refine .ite (fun _ => hkept (carries_parseBackground hw)) fun _ => ?_
  exact .ite (fun _ => hkept (carries_parseCam hw)) fun _ => .fail

theorem carries_parseDirective (hV : token.text ∈ switchWords → V.Inlines) (hw : w.Listed) :
    V.Carries (parseDirective w token) (parseDirective (V.draft w) (V.token token))
      (V.Drafted token w) := by
  have hcleared : WindowDraft.Listed { w with closed := [] } := { hw with }
  have hclear {x y : Compiler WindowDraft} (h : V.Carries x y (V.Kept { w with closed := [] })) :
      V.Carries x y (V.Drafted token w) :=
    h.mono fun _ _ hv => ⟨hv.other, hv.listed, fun _ => hv.refs⟩
  refine .ite (fun _ => .pure ⟨rfl, hw, fun _ => rfl⟩) fun _ => ?_
  refine .ite (fun _ => hclear (carries_closeBrace hcleared)) fun _ => ?_
  refine .ite (fun _ => (carries_openElse hw).mono fun _ _ hv => hv.drafted) fun _ => ?_
  refine .guard fun _ => .ite (fun _ => hclear (carries_openIf hcleared)) fun _ => ?_
  refine .join (carries_parseCommand hV hcleared) fun v v' hv => ?_
  refine .bind shares_peekNormal fun next _ => .guard fun _ => .pure ?_
  rw [hv.other]
  refine ⟨?_, { hv.listed with }, hv.refs⟩
  rw [draft_closeUnbraced, draft_markUsed]

/-- A window of the variant has the same commands, with the names of switches carried over. -/
theorem carries_compileWindow (hV : V.Inlines) :
    V.Carries compileWindow compileWindow fun r r' =>
      r' = (r.1.rehash V.context.hash V.hash, r.2) := by
  refine .bind agrees_parseDefinitionLabel fun label _ => .bind shares_next fun token _ => ?_
  refine .guard fun _ => ?_
  refine .join (R := fun r r' => r' = (V.draft r.1, r.2) ∧ r.1.Listed) ?_ ?_
  · refine .repeatFrom (I := fun v v' => v' = V.draft v ∧ v.Listed)
      ⟨rfl, WindowDraft.listed_empty⟩ ?_
    rintro v _ ⟨rfl, hv⟩
    refine .bind shares_peekNormal fun token _ => ?_
    rw [token_type]
    split
    · refine .bind same_consume fun _ _ => .bind same_parseDefine fun defined _ => ?_
      exact .ite (fun _ => .pure (.inl ⟨rfl, hv⟩)) fun _ => .pure (.inr ⟨rfl, hv⟩)
    · exact .pure (.inr ⟨rfl, hv⟩)
    · refine .bind same_consume fun _ _ => ?_
      refine .join (carries_parseDirective (fun _ => hV) hv) fun u u' hu => ?_
      exact .pure (.inl ⟨hu.other, hu.listed⟩)
  · rintro ⟨draft, afterHash⟩ _ ⟨rfl, hdraft⟩
    dsimp only
    have hblocks : (V.draft draft).blocks = draft.blocks.map V.block := rfl
    rw [hblocks]
    cases draft.blocks with
    | cons => exact .fail_bind
    | nil =>
      refine .pure ?_
      have hcommands : (V.draft draft).commands =
          (draft.rehash V.context.hash V.hash).commands := rfl
      rw [hcommands, WindowDraft.commands_rehash hdraft]
      rfl

end Variant

end ApeScript
