import ApeScript.Proofs.CanonicalOrder
import ApeScript.Proofs.RestatedCommand

/-!
# What the directives of a window can say

A script cannot say everything that a window can hold: characters stay or do not, printed text has
all of its colours or none, an image has no height without a width, and so on. The commands of a
draft are `Command.Spoken` whatever its directives were (`WindowDraft.Drafted.spoken_commands`), so
of all that can be lost when a command is written and read again, only the spelling of formatting
strings is left (`Command.faithful_iff`).
-/

namespace ApeScript

/-- An image that directives give: it has a position, a height only after a width, known flags, and
those of a backdrop if it is one. -/
structure Image.Spoken (i : Image) : Prop where
  sized : i.area.width = none → i.area.height = none
  backdrop : i.isBackdrop = true →
    (ImageFlags.has i.flags ImageFlags.stretch && ImageFlags.has i.flags ImageFlags.tile) = false ∧
      i.flags &&& (ImageFlags.stretch ||| ImageFlags.tile) = i.flags
  placed : i.area.x.isSome = true ∧ i.area.y.isSome = true
  known : i.flags &&& ~~~ImageFlags.known = 0

/-- Between whom a conversation is that names no second animation. -/
def Talk.Usual (t : Talk) : Prop :=
  t.name1 = Compiler.npcName ∧ t.name2 = Compiler.playerName ∨
    t.name1 = Compiler.playerName ∧ t.name2 = Compiler.npcName

namespace Command

def Spoken : Command → Prop
  | talk t => ((t.stay1 = 0 ∧ t.anim2.isSome ∨ t.stay1 = 1) ∧ (t.stay2 = 0 ∨ t.stay2 = 1)) ∧
      (t.anim2 = none → t.Usual)
  | image i => i.Spoken
  | flags bits => bits ≠ 0 ∧ WindowFlags.unnamed bits = 0
  | simpleText code text => (isConsole code = true → text.getLast? = some 10) ∧
      code ∈ [CommandCode.startConsole, CommandCode.finishConsole, CommandCode.font,
        CommandCode.style, CommandCode.nextWindow]
  | print p => (p.isFull = true ∨ p.red = none ∧ p.green = none ∧ p.blue = none ∧ p.font = none) ∧
      p.x.isSome = true ∧ p.y.isSome = true ∧ p.alpha.isSome = true
  | background corners => corners ≠ ⟨0, 0, 0, 0⟩
  | cam c => Marked c.params.restore ∧ Marked c.params.zip
  | blank => False
  | _ => True

/-- Only the formatting strings of a command that directives can give are written with a loss. -/
theorem faithful_iff {c : Command} (hc : c.Spoken) (asBackground : Bool) :
    c.Faithful asBackground ↔ Unescaped c.formats := by
  cases c with
  | formattedText | choice => rfl
  | print p => exact and_iff_right hc.1
  | image i =>
    have hfaithful : (image i).Faithful asBackground := by
      rw [Faithful]
      split
      · rename_i hplaced
        exact (hc.backdrop (Bool.and_eq_true_iff.1 hplaced).2).2
      · exact hc.sized
    exact iff_of_true hfaithful (by simp [Unescaped, formats])
  | talk | flags | simpleText => exact iff_of_true hc.1 (by simp [Unescaped, formats])
  | blank => exact hc.elim
  | _ => exact iff_of_true hc (by simp [Unescaped, formats])

end Command

structure WindowDraft.Spoken (w : WindowDraft) : Prop where
  talk : ∀ t ∈ w.talk, (Command.talk t).Spoken
  startConsole : ∀ text ∈ w.startConsole, text.getLast? = some 10
  finishConsole : ∀ text ∈ w.finishConsole, text.getLast? = some 10
  corners : w.hasBackground = false → w.corners = ⟨0, 0, 0, 0⟩
  cam : ∀ c ∈ w.cam, (Command.cam c).Spoken
  prints : ∀ c ∈ w.prints, c.Spoken
  images : ∀ c ∈ w.images, c.Spoken
  flags : WindowFlags.unnamed w.flags = 0

namespace Compiler

open Contract (forall_mem_concat)

variable {c : CompileContext} {s : CompileState} {w : WindowDraft} {token : Token} {loc : Location}

theorem Gives.ite_bind {α β : Type} {p : Prop} [Decidable p] {x y : Compiler α}
    {f : α → Compiler β} {P : α → CompileState → Prop} {Q : β → CompileState → Prop}
    (hx : p → Gives x c s P) (hy : ¬ p → Gives y c s P) (hf : ∀ a t, P a t → Gives (f a) c t Q) :
    Gives (if p then x >>= f else y >>= f) c s Q :=
  .ite (fun h => .bind (hx h) hf) fun h => .bind (hy h) hf

/-! ### Conversations -/

theorem gives_parseStay : Gives parseStay c s fun stay _ => stay = 0 ∨ stay = 1 := by
  refine .repeatFrom (I := fun stay _ => ∀ v ∈ stay, v = 0 ∨ v = 1) (by simp) fun stay t hstay => ?_
  refine .after fun ended t => .ite (fun _ => .pure ?_) fun _ => .after fun token t => ?_
  · cases stay with
    | none => exact .inr rfl
    | some v => exact hstay v rfl
  · refine .guard fun _ => .guard fun _ => .pure ?_
    rintro v ⟨⟩
    split
    · exact .inl rfl
    · exact .inr rfl

theorem gives_parseStayWord : Gives parseStayWord c s fun stay _ => stay = 0 ∨ stay = 1 :=
  .after fun _ _ => .ite (fun _ => .pure (.inr rfl)) fun _ =>
    .ite (fun _ => .pure (.inl rfl)) fun _ => .fail

theorem gives_parseTalk_spoken (hw : w.Spoken) :
    Gives (parseTalk w loc) c s fun w' _ => w'.Spoken := by
  refine .after fun _ t => .after fun _ t => .after fun target t => ?_
  extract_lets animate
  have hanimate (name1 name2 : Bytes) (t : CompileState)
      (hnames : name1 = npcName ∧ name2 = playerName ∨ name1 = playerName ∧ name2 = npcName) :
      Gives (animate (name1, name2)) c t fun w' _ => w'.Spoken := by
    refine .after fun anim t => .bind gives_parseStay fun stay t hstay => .pure ?_
    refine { hw with talk := ?_ }
    rintro _ ⟨⟩
    exact ⟨⟨.inr rfl, hstay⟩, fun _ => hnames⟩
  rw [pure_bind, pure_bind]
  refine .ite (fun _ => hanimate _ _ _ (.inl ⟨rfl, rfl⟩)) fun _ => ?_
  exact .ite (fun _ => hanimate _ _ _ (.inr ⟨rfl, rfl⟩)) fun _ => .fail_bind

theorem gives_parseTalkEx_spoken (hw : w.Spoken) :
    Gives (parseTalkEx w loc) c s fun w' _ => w'.Spoken := by
  have htalk {t : Talk} (ht : (Command.talk t).Spoken) :
      WindowDraft.Spoken { w with talk := some t } :=
    { hw with talk := by rintro _ ⟨⟩; exact ht }
  refine .after fun _ t => .after fun _ t => .after fun name1 t => .after fun name2 t => ?_
  refine .after fun anim1 t => .after fun anim2 t => .after fun ended t => ?_
  refine .ite (fun _ => .pure (htalk ⟨⟨.inr rfl, .inr rfl⟩, by simp⟩)) fun _ => ?_
  refine .bind gives_parseStayWord fun stay1 t h1 => .bind gives_parseStayWord fun stay2 t h2 => ?_
  exact .pure (htalk ⟨⟨h1.imp_left fun h => ⟨h, rfl⟩, h2⟩, by simp⟩)

/-! ### Printed text and images -/

theorem gives_parseArgument {comma : Bool} :
    Gives (parseArgument comma) c s fun e _ => e.isSome = true := by
  have hargument (s : CompileState) : Gives (do
      let loc ← location
      let v ← parseNumeric
      return some (← toExpr v loc)) c s fun e _ => e.isSome = true :=
    .after fun _ _ => .after fun _ _ => .after fun _ _ => .pure rfl
  refine .ite (fun _ => .after fun _ t => hargument t) fun _ => hargument s

theorem gives_parsePrint_spoken {withFont : Bool} (hw : w.Spoken) :
    Gives (parsePrint w withFont) c s fun w' _ => w'.Spoken := by
  refine .after fun r t => .bind gives_parseArgument fun x t hx => ?_
  refine .bind gives_parseArgument fun y t hy => .bind gives_parseArgument fun alpha t halpha => ?_
  extract_lets message
  have hmessage (red green blue : Option Expr) (font : Option Bytes) (t : CompileState)
      (h : (red.isSome && green.isSome && blue.isSome && font.isSome) = true ∨
        red = none ∧ green = none ∧ blue = none ∧ font = none) :
      Gives (message (red, green, blue, font)) c t fun w' _ => w'.Spoken := by
    refine .after fun _ t => .after fun text t => .after fun format t => .ite (fun _ => .pure hw) ?_
    refine fun _ => .pure { hw with prints := forall_mem_concat hw.prints ?_ }
    exact ⟨h, hx, hy, halpha⟩
  refine .ite (fun _ => ?_) fun _ => ?_
  · refine .bind gives_parseArgument fun red t hred => ?_
    refine .bind gives_parseArgument fun green t hgreen => ?_
    refine .bind gives_parseArgument fun blue t hblue => .after fun _ t => .after fun font t => ?_
    rw [pure_bind]
    exact hmessage red green blue (some font) t (.inl (by simp [hred, hgreen, hblue]))
  · rw [pure_bind]
    exact hmessage none none none none _ (.inr ⟨rfl, rfl, rfl, rfl⟩)

/-- Flags that are named are known. -/
theorem known_or {a b : UInt32} (ha : a &&& ~~~ImageFlags.known = 0)
    (hb : b &&& ~~~ImageFlags.known = 0) : (a ||| b) &&& ~~~ImageFlags.known = 0 := by
  rw [UInt32.and_comm, WindowFlags.and_or_distrib, UInt32.and_comm, ha, UInt32.and_comm, hb,
    UInt32.or_zero]

theorem gives_parseImageFlags :
    Gives parseImageFlags c s fun flags _ => flags &&& ~~~ImageFlags.known = 0 := by
  refine .after fun token t => .ite (fun _ => .pure (by decide)) fun _ => .after fun _ t => ?_
  refine .repeatFrom (I := fun flags _ => flags &&& ~~~ImageFlags.known = 0) (by decide)
    fun flags t hflags => .after fun token t => ?_
  split
  · exact .fail
  · rename_i flag hname
    obtain ⟨entry, hentry, rfl⟩ := Option.map_eq_some_iff.1 hname
    have hnamed : ∀ entry ∈ imageFlagNames, entry.2 &&& ~~~ImageFlags.known = 0 := by decide
    have hall := known_or hflags (hnamed entry (List.mem_of_find?_eq_some hentry))
    exact .guard fun _ => .after fun ended t => .ite (fun _ => .pure hall) fun _ => .pure hall

theorem gives_parseImage_spoken (hw : w.Spoken) :
    Gives (parseImage w) c s fun w' _ => w'.Spoken := by
  refine .after fun r t => .after fun file t => .bind gives_parseArgument fun x t hx => ?_
  refine .bind gives_parseArgument fun y t hy => ?_
  refine .after fun width t => .ite_bind (P := fun height _ => width = none → height = none)
    (fun hwidth => ?_) (fun _ => .pure fun _ => rfl) fun height t hheight => ?_
  · exact fun _ _ _ hnone => by simp [hnone] at hwidth
  refine .ite_bind (P := fun flags _ => (height.isSome = true ∨ flags = 0) ∧
    flags &&& ~~~ImageFlags.known = 0) (fun hsome => ?_) (fun _ => .pure ⟨.inr rfl, by decide⟩)
    fun flags t hflags => ?_
  · exact gives_parseImageFlags.mono fun _ _ h => ⟨.inl hsome, h⟩
  refine .ite (fun _ => .pure hw) fun _ => .pure ?_
  refine { hw with images := forall_mem_concat hw.images ?_ }
  refine ⟨hheight, fun hbackdrop => ?_, ⟨hx, hy⟩, hflags.2⟩
  rcases hflags.1 with hsome | rfl
  · simp only [Image.isBackdrop, Bool.and_eq_true, Option.isNone_iff_eq_none] at hbackdrop
    simp [hbackdrop.1.2] at hsome
  · have hnone : (ImageFlags.has 0 ImageFlags.stretch && ImageFlags.has 0 ImageFlags.tile) =
        false := by decide
    exact ⟨hnone, UInt32.zero_and⟩

/-- The flags of a background that is not solid are those of a backdrop. -/
theorem and_backdropFlags : ∀ stretch tile solid : Bool, (stretch && tile) = false →
    let flags := (if stretch then ImageFlags.stretch else 0) |||
      (if tile then ImageFlags.tile else 0) ||| (if solid then ImageFlags.solid else 0)
    ImageFlags.has flags ImageFlags.solid = false →
      (ImageFlags.has flags ImageFlags.stretch && ImageFlags.has flags ImageFlags.tile) = false ∧
        flags &&& (ImageFlags.stretch ||| ImageFlags.tile) = flags := by
  decide

theorem known_backdropFlags : ∀ stretch tile solid : Bool,
    ((if stretch then ImageFlags.stretch else 0) ||| (if tile then ImageFlags.tile else 0) |||
      (if solid then ImageFlags.solid else 0)) &&& ~~~ImageFlags.known = 0 := by
  decide

theorem gives_parseBackground_spoken (hw : w.Spoken) :
    Gives (parseBackground w) c s fun w' _ => w'.Spoken := by
  refine .after fun r t => .after fun b t => ?_
  refine .ite (fun _ => .after fun _ _ => .fail_bind) fun hexclusive => ?_
  extract_lets w' name
  have hw' : w'.Spoken := { hw with corners := by rintro ⟨⟩ }
  split
  · exact .pure hw'
  · have hnot : (b.stretch && b.tile) = false := by
      cases hstretch : b.stretch <;> cases htile : b.tile <;> simp_all
    refine .pure { hw' with images := forall_mem_concat hw'.images ?_ }
    refine ⟨fun _ => rfl, fun h => ?_, ⟨rfl, rfl⟩, known_backdropFlags b.stretch b.tile b.solid⟩
    simp only [Image.isBackdrop, Bool.and_eq_true, Bool.not_eq_true'] at h
    exact and_backdropFlags b.stretch b.tile b.solid hnot h.2

/-! ### Cameras -/

theorem gives_parseCamSetting {cam : Cam} (h : (Command.cam cam).Spoken) :
    Gives (parseCamSetting cam token) c s fun cam' _ => (Command.cam cam').Spoken := by
  have htext {f : Bytes → Cam} (hf : ∀ text, (Command.cam (f text)).Spoken) :
      Gives (parseCamText >>= fun text => pure (f text)) c s fun cam' _ => (Command.cam cam').Spoken :=
    .after fun text _ => .pure (hf text)
  have hnumber {f : UInt16 → Cam} (hf : ∀ n, (Command.cam (f n)).Spoken) :
      Gives (parseCamNumber >>= fun n => pure (f n)) c s fun cam' _ => (Command.cam cam').Spoken :=
    .after fun n _ => .pure (hf n)
  refine .ite (fun _ => htext fun _ => h) fun _ => .ite (fun _ => htext fun _ => h) fun _ => ?_
  refine .ite (fun _ => htext fun _ => h) fun _ => .ite (fun _ => hnumber fun _ => h) fun _ => ?_
  refine .ite (fun _ => hnumber fun _ => h) fun _ => .ite (fun _ => hnumber fun _ => h) fun _ => ?_
  refine .ite (fun _ => hnumber fun _ => h) fun _ => .ite (fun _ => hnumber fun _ => h) fun _ => ?_
  refine .ite (fun _ => hnumber fun _ => h) fun _ => .ite (fun _ => hnumber fun _ => h) fun _ => ?_
  refine .ite (fun _ => hnumber fun _ => h) fun _ => .ite (fun _ => hnumber fun _ => h) fun _ => ?_
  refine .ite (fun _ => .after fun _ t => .guard fun _ => .pure h) fun _ => ?_
  refine .ite (fun _ => .pure ⟨.inr rfl, h.2⟩) fun _ => ?_
  exact .ite (fun _ => .pure ⟨h.1, .inr rfl⟩) fun _ => .fail

theorem gives_parseCam_spoken (hw : w.Spoken) :
    Gives (parseCam w loc) c s fun w' _ => w'.Spoken := by
  refine .after fun _ t => .after fun _ t => .after fun name t => ?_
  refine .bind (P := fun cam _ => (Command.cam cam).Spoken) ?_ fun cam t hcam => .pure { hw with cam := ?_ }
  · refine .repeatFrom (I := fun cam _ => (Command.cam cam).Spoken) ⟨.inl rfl, .inl rfl⟩ ?_
    refine fun cam t hcam => .after fun ended t => .ite (fun _ => .pure hcam) fun _ => ?_
    exact .after fun token t => .bind (gives_parseCamSetting hcam) fun cam' t hcam' => .pure hcam'
  · rintro _ ⟨⟩
    exact hcam

/-! ### Directives -/

theorem gives_parseFlags_spoken (hw : w.Spoken) :
    Gives (parseFlags w loc) c s fun w' _ => w'.Spoken := by
  refine .after fun _ t => .bind (P := fun flags _ => WindowFlags.unnamed flags = 0) ?_
    fun flags t h => .pure { hw with flags := h }
  refine .repeatFrom (I := fun flags _ => WindowFlags.unnamed flags = 0) hw.flags
    fun flags t hflags => .after fun ended t => ?_
  refine .ite (fun _ => .pure hflags) fun _ => .after fun token t => ?_
  split
  · rename_i flag hname
    obtain ⟨entry, hentry, rfl⟩ := Option.map_eq_some_iff.1 hname
    have hnamed : ∀ entry ∈ WindowFlags.named, WindowFlags.unnamed entry.1 = 0 := by decide
    exact .guard fun _ =>
      .pure (WindowFlags.unnamed_or hflags (hnamed entry (List.mem_of_find?_eq_some hentry)))
  · exact .fail

theorem gives_parseConsole {slot : Option Bytes} :
    Gives (parseConsole w loc slot) c s fun text _ => text.getLast? = some 10 :=
  .after fun _ _ => .after fun _ _ => .after fun _ _ => .after fun text _ => .pure (by simp)

theorem gives_parseCommand_spoken (hw : w.Spoken) :
    Gives (parseCommand w token) c s fun w' _ => w'.Spoken := by
  refine .ite (fun _ => .after fun _ _ => .pure { hw with }) fun _ => ?_
  refine .ite (fun _ => .after fun _ _ => .pure { hw with }) fun _ => ?_
  refine .ite (fun _ => .after fun _ _ => .pure { hw with }) fun _ => ?_
  refine .ite (fun _ => .after fun _ _ => .pure { hw with }) fun _ => ?_
  refine .ite (fun _ => .after fun _ _ => .pure { hw with }) fun _ => ?_
  refine .ite (fun _ => .after fun _ _ => .pure { hw with }) fun _ => ?_
  refine .ite (fun _ => gives_parseTalk_spoken hw) fun _ => ?_
  refine .ite (fun _ => gives_parseTalkEx_spoken hw) fun _ => ?_
  refine .ite (fun _ => gives_parseImage_spoken hw) fun _ => ?_
  refine .ite (fun _ => gives_parseFlags_spoken hw) fun _ => ?_
  refine .ite (fun _ => gives_parseSubWindow.mono ?_) fun _ => ?_
  · rintro w' t ⟨-, l, rfl⟩
    exact { hw with }
  refine .ite (fun _ => gives_parseChoice_own.mono ?_) fun _ => ?_
  · rintro w' t (⟨rfl, -⟩ | ⟨condition, text, format, l, rfl⟩)
    · exact hw
    · exact { hw with }
  refine .ite (fun _ => .bind gives_parseConsole fun text t htext => .pure ?_) fun _ => ?_
  · exact { hw with startConsole := by rintro _ ⟨⟩; exact htext }
  refine .ite (fun _ => .bind gives_parseConsole fun text t htext => .pure ?_) fun _ => ?_
  · exact { hw with finishConsole := by rintro _ ⟨⟩; exact htext }
  refine .ite (fun _ => .after fun _ _ => .pure { hw with }) fun _ => ?_
  refine .ite (fun _ => .after fun _ _ => .pure { hw with }) fun _ => ?_
  have hnext {isReturn : Bool} :
      Gives (parseNextWindow w token.loc isReturn) c s fun w' _ => w'.Spoken := by
    refine gives_parseNextWindow_once.mono fun w' t h => ?_
    cases h
    exact { hw with }
  refine .ite (fun _ => hnext) fun _ => .ite (fun _ => hnext) fun _ => ?_
  refine .ite (fun _ => gives_parsePrint_spoken hw) fun _ => ?_
  refine .ite (fun _ => gives_parsePrint_spoken hw) fun _ => ?_
  refine .ite (fun _ => .after fun _ _ => .pure { hw with }) fun _ => ?_
  refine .ite (fun _ => .after fun _ _ => .pure { hw with }) fun _ => ?_
  refine .ite (fun _ => .after fun _ _ => .pure { hw with }) fun _ => ?_
  refine .ite (fun _ => gives_parseBackground_spoken hw) fun _ => ?_
  exact .ite (fun _ => gives_parseCam_spoken hw) fun _ => .fail

end Compiler

theorem WindowDraft.Spoken.of_bare {w w' : WindowDraft} (hw : w.Spoken) (h : w'.bare = w.bare) :
    w'.Spoken := by
  have hbare : w.bare.Spoken := { hw with }
  rw [← h] at hbare
  exact { hbare with }

namespace Compiler

variable {c : CompileContext} {s t : CompileState} {w : WindowDraft} {token : Token} {es : List Entry}

theorem gives_parseDirective_spoken (hw : w.Spoken) :
    Gives (parseDirective w token) c s fun w' _ => w'.Spoken := by
  have hbare {v : WindowDraft} (t : CompileState) (h : v.bare = w.bare) : v.Spoken := hw.of_bare h
  refine .ite (fun _ => .pure hw) fun _ => ?_
  refine .ite (fun _ => gives_closeBrace_bare.mono fun _ => hbare) fun _ => ?_
  refine .ite (fun _ => gives_openElse_bare.mono fun _ => hbare) fun _ => .guard fun _ => ?_
  refine .ite (fun _ => gives_openIf_bare.mono fun _ => hbare) fun _ => ?_
  have hcleared : WindowDraft.Spoken { w with closed := [] } := { hw with }
  refine .bind (gives_parseCommand_spoken hcleared) fun w' t hw' => .after fun _ _ => .guard ?_
  exact fun _ => .pure { hw' with }

theorem gives_parseWindowRound_spoken (hw : w.Spoken) :
    Gives (parseWindowRound w) c s fun r _ => Sum.elim WindowDraft.Spoken (·.1.Spoken) r := by
  refine .after fun token t => ?_
  split
  · exact .after fun _ _ => .after fun _ _ => .ite (fun _ => .pure hw) fun _ => .pure hw
  · exact .pure hw
  · exact .after fun _ _ => .bind (gives_parseDirective_spoken hw) fun w' _ hw' => .pure hw'

/-- Every draft of a window says what directives can say. -/
theorem Body.spoken (h : Body c s es w t) : w.Spoken := by
  induction h with
  | start => exact ⟨by simp, by simp, by simp, fun _ => rfl, by simp, by simp, by simp, rfl⟩
  | other _ _ _ round ih => exact gives_parseWindowRound_spoken ih _ _ round
  | directive _ _ _ round _ ih => exact gives_parseWindowRound_spoken ih _ _ round

end Compiler

/-! ### Sound drafts -/

namespace Contract

open Compiler

variable {K : Contract} {w : WindowDraft} {c : CompileContext} {s t : CompileState} {es : List Entry}

theorem ensures_parseWindowRound (hK : K.Inlines) (hw : w.Sound K.options) :
    K.Ensures (parseWindowRound w) (Sum.elim (WindowDraft.Sound K.options) (·.1.Sound K.options)) := by
  refine .bind (.lift Lexer.peek_ensures) fun token _ => ?_
  split
  · refine .bind (.lift Lexer.consume_ensures) fun _ _ => .bind keeps_parseDefine fun _ _ => ?_
    exact .ite (fun _ => .pure hw) fun _ => .pure hw
  · exact .pure hw
  · refine .bind (.lift Lexer.consume_ensures) fun _ _ => ?_
    exact (ensures_parseDirective hK hw).bind fun w hw => .pure hw

theorem holds_body (hK : K.Inlines) (hs : K.Holds c s) (h : Body c s es w t) :
    K.Holds c t ∧ w.Sound K.options := by
  have hround {w w' : WindowDraft} {t u : CompileState} (ht : K.Holds c t ∧ w.Sound K.options)
      (round : parseWindowRound w c t = .ok (.inl w') u) : K.Holds c u ∧ w'.Sound K.options := by
    have hensures := ensures_parseWindowRound hK ht.2 c t ht.1
    rwa [round] at hensures
  induction h with
  | start => exact ⟨hs, WindowDraft.sound_empty⟩
  | other _ _ _ round ih => exact hround ih round
  | directive _ _ _ round _ ih => exact hround ih round

end Contract

/-! ### Compiled windows -/

structure WindowDraft.Drafted (o : Options) (w : WindowDraft) : Prop where
  sound : w.Sound o
  spoken : w.Spoken
  tally : ∃ es, Compiler.Tally es w

structure Window.Drafted (o : Options) (w : Window) : Prop where
  id : w.id.isInline = false
  id_ne_zero : w.id ≠ 0
  draft : ∃ draft : WindowDraft, draft.Drafted o ∧ draft.commands = w.commands

/-- What a script has defined so far: windows that directives say. -/
def Compiler.ProgramDraft.Drafted (o : Options) (p : ProgramDraft) : Prop :=
  ∀ w ∈ p.windows, w.Drafted o

namespace Contract

open Compiler

variable {K : Contract} {c : CompileContext} {s : CompileState} {α : Type} {x : Compiler α}
  {P : α → Prop}

theorem Ensures.gives (hx : K.Ensures x P) (hs : K.Holds c s) :
    Gives x c s fun a t => K.Holds c t ∧ P a := by
  intro a t hrun
  have h := hx c s hs
  rwa [hrun] at h

theorem gives_parseDefinitionLabel (hs : K.Holds c s) : Gives parseDefinitionLabel c s fun label t =>
    K.Holds c t ∧ label.isInline = false ∧ label ≠ 0 := by
  intro label t hrun
  obtain ⟨ht, hzero⟩ := ensures_parseDefinitionLabel.gives hs label t hrun
  obtain ⟨-, hlabel⟩ := gives_of_agrees Variant.agrees_parseDefinitionLabel label t hrun
  exact ⟨ht, by simpa [Label.isInline] using hlabel, hzero⟩

theorem gives_compileWindow_drafted (hK : K.Inlines) (hs : K.Holds c s) :
    Gives compileWindow c s fun r t => K.Holds c t ∧ r.1.Drafted K.options := by
  refine .bind (gives_parseDefinitionLabel hs) ?_
  rintro label t ⟨ht, hinline, hzero⟩
  refine .bind ((Ensures.lift Lexer.read_ensures).gives ht) ?_
  rintro token u ⟨hu, -⟩
  refine .guard fun _ => .bind (P := fun r v => K.Holds c v ∧ r.1.Drafted K.options) ?_ ?_
  · intro last v hrun
    obtain ⟨es, t', hbody, hround⟩ := gives_rounds_body last v hrun
    obtain ⟨ht', hsound⟩ := holds_body hK hu hbody
    obtain ⟨hv, -⟩ := (ensures_parseWindowRound hK hsound).gives ht' _ _ hround
    exact ⟨hv, hsound, hbody.spoken, es, hbody.tally⟩
  · rintro ⟨draft, afterHash⟩ v ⟨hv, hdraft⟩
    dsimp only
    split
    · exact .fail_bind
    · exact .pure ⟨hv, hinline, hzero, draft, hdraft, rfl⟩

/-! ### Compiled files -/

theorem gives_parseTopDirective_drafted (hK : K.Inlines) {p : ProgramDraft}
    (hp : p.Drafted K.options) (hs : K.Holds c s) :
    Gives (parseTopDirective p) c s fun q t => K.Holds c t ∧ q.Drafted K.options := by
  refine .bind ((Ensures.lift Lexer.read_ensures).gives hs) ?_
  rintro kind t ⟨ht, -⟩
  refine .guard fun _ => .ite (fun _ => ?_) fun _ => .ite (fun _ => ?_) fun _ => ?_
  · refine .bind (gives_compileWindow_drafted hK ht) ?_
    rintro ⟨window, afterHash⟩ u ⟨hu, hwindow⟩
    exact .pure ⟨hu, forall_mem_concat hp hwindow⟩
  · refine .bind (ensures_parseDefinitionLabel.gives ht) ?_
    rintro label u ⟨hu, hlabel⟩
    refine .bind ((ensures_compileSwitch hlabel).gives hu) ?_
    rintro ⟨switch, afterHash⟩ v ⟨hv, -⟩
    exact .pure ⟨hv, hp⟩
  · refine .ite (fun _ => ?_) fun _ => .fail
    refine .bind ((Ensures.lift Lexer.defineMacro_ensures).gives ht) ?_
    rintro _ u ⟨hu, -⟩
    exact .pure ⟨hu, hp⟩

theorem gives_compileProgram_drafted (hK : K.Inlines) (hs : K.Holds c s) :
    Gives compileProgram c s fun f _ => ∀ w ∈ f.windows, w.Drafted K.options := by
  refine .bind (ensures_options.gives hs) ?_
  rintro _ t ⟨ht, -⟩
  extract_lets program
  have hprogram (u : Unit) {t : CompileState} (ht : K.Holds c t) :
      Gives (program u) c t fun f _ => ∀ w ∈ f.windows, w.Drafted K.options := by
    refine .bind (P := fun p t => K.Holds c t ∧ p.Drafted K.options) ?_ ?_
    · have hempty : ProgramDraft.Drafted K.options {} := by simp [ProgramDraft.Drafted]
      refine .repeatFrom (I := fun p t => K.Holds c t ∧ p.Drafted K.options) ⟨ht, hempty⟩ ?_
      rintro p t ⟨ht, hp⟩
      have hgoOn {t : CompileState} (ht : K.Holds c t) : Gives
          (parseTopDirective p >>= fun p => pure (.inl p : ProgramDraft ⊕ ProgramDraft)) c t
          fun r t => Sum.elim (fun q => K.Holds c t ∧ q.Drafted K.options)
            (fun q => K.Holds c t ∧ q.Drafted K.options) r :=
        .bind (gives_parseTopDirective_drafted hK hp ht) fun q t hq => .pure hq
      refine .ite (fun _ => .bind (keeps_findHash.gives ht) ?_) fun _ => hgoOn ht
      rintro found u ⟨hu, -⟩
      exact .ite (fun _ => .pure ⟨hu, hp⟩) fun _ => hgoOn hu
    · rintro p t ⟨-, hp⟩
      exact .after fun _ _ => .pure hp
  refine .ite (fun _ => .bind (keeps_skipToHash.gives ht) ?_) fun _ => hprogram () ht
  rintro u v ⟨hv, -⟩
  exact hprogram u hv

end Contract

/-- A file is compiled from windows that directives say. -/
theorem compile_drafted {src : Bytes} {o : Options} {f : File}
    (h : (compile src o).result = .ok f) : ∀ w ∈ f.windows, w.Drafted o.effective := by
  obtain ⟨hash, text, s, hhash, -, hrun⟩ := compile_ok h
  have hmax : hash ≤ Options.maxHash := by
    have hyields := effectiveHash_yields o.effective
    rwa [hhash] at hyields
  have hstart : (Contract.compiling o.effective).Holds ⟨o.effective, hash⟩
      ⟨.ofSource text o.effective.file o.effective.allowExpFloats, [], 0, []⟩ :=
    ⟨rfl, Lexer.lettered_ofSource .., hmax, Nat.zero_le _, by simp⟩
  exact Contract.gives_compileProgram_drafted Contract.inlines_compiling hstart f s hrun

end ApeScript
