import ApeScript.Compile.WindowBody
import ApeScript.Proofs.Negation

/-!
# What a window shows

Under an arithmetic and an assignment, a window shows the commands whose condition holds or is
absent. `Window.shown` lists them without their conditions, and with every other expression replaced
by the number it comes to. The condition that the compiler stores with a command, and whether it
makes the command at all, decide together whether the command shows as its conditions ask for.
-/

namespace ApeScript

/-- Whether a condition holds; where there is none, nothing is asked for. -/
def Expr.allows (A : Arithmetic) (ρ : Assignment) (condition : Option Expr) : Bool :=
  condition.all fun e => !(e.value A ρ).isZero

def Expr.settle (A : Arithmetic) (ρ : Assignment) (e : Option Expr) : Option Expr :=
  e.map fun e => Expr.constant (e.value A ρ)

def Area.settle (A : Arithmetic) (ρ : Assignment) (a : Area) : Area :=
  ⟨Expr.settle A ρ a.x, Expr.settle A ρ a.y, Expr.settle A ρ a.width, Expr.settle A ρ a.height⟩

namespace Command

/-- The command without its condition, its other expressions as the numbers they come to. -/
def settle (A : Arithmetic) (ρ : Assignment) : Command → Command
  | formattedText code _ text format => formattedText code none text format
  | dimensions area => dimensions (area.settle A ρ)
  | image i => image ⟨none, i.file, i.area.settle A ρ, i.flags⟩
  | choice _ text format label => choice none text format label
  | print p => print ⟨Expr.settle A ρ p.x, Expr.settle A ρ p.y, Expr.settle A ρ p.alpha,
      Expr.settle A ρ p.red, Expr.settle A ρ p.green, Expr.settle A ρ p.blue, p.font, p.message,
      none, p.format⟩
  | c => c

def shown (A : Arithmetic) (ρ : Assignment) (cs : List Command) : List Command :=
  (cs.filter fun c => Expr.allows A ρ c.condition?).map (settle A ρ)

variable {A : Arithmetic} {ρ : Assignment} {c : Command}

@[simp] theorem shown_nil : shown A ρ [] = [] := rfl

@[simp] theorem shown_append (cs ds : List Command) :
    shown A ρ (cs ++ ds) = shown A ρ cs ++ shown A ρ ds := by
  simp [shown]

@[simp] theorem shown_flatten (css : List (List Command)) :
    shown A ρ css.flatten = (css.map (shown A ρ)).flatten := by
  induction css with
  | nil => rfl
  | cons cs css ih => simp [ih]

/-- A command that is made unless it can never show. -/
theorem shown_emitted (emits : Bool) : shown A ρ (if emits then [c] else []) =
    if emits && Expr.allows A ρ c.condition? then [c.settle A ρ] else [] := by
  cases emits with
  | false => rfl
  | true =>
    simp only [shown, if_true, Bool.true_and, List.filter_cons, List.filter_nil]
    split <;> rfl

/-- A command without condition and expressions shows as it is. -/
theorem shown_plain (hcondition : c.condition? = none) (hsettle : c.settle A ρ = c) :
    shown A ρ [c] = [c] := by
  simp [shown, hcondition, Expr.allows, hsettle]

theorem shown_option {α : Type} {make : α → Command} (o : Option α)
    (hmake : ∀ a, shown A ρ [make a] = [make a]) :
    shown A ρ (o.map make).toList = (o.map make).toList := by
  cases o with
  | none => rfl
  | some a => exact hmake a

end Command

def Window.shown (A : Arithmetic) (ρ : Assignment) (w : Window) : List Command :=
  Command.shown A ρ w.commands

namespace WindowDraft

/-- The draft of what shows of the commands collected so far. -/
def seen (A : Arithmetic) (ρ : Assignment) (w : WindowDraft) : WindowDraft :=
  { w with
    titles := Command.shown A ρ w.titles
    bodies := Command.shown A ρ w.bodies
    prints := Command.shown A ρ w.prints
    area := w.area.settle A ρ
    images := Command.shown A ρ w.images
    choices := Command.shown A ρ w.choices
    subWindows := Command.shown A ρ w.subWindows }

/-- What shows of the commands is put in the same order. -/
theorem shown_commands (A : Arithmetic) (ρ : Assignment) (w : WindowDraft) :
    Command.shown A ρ w.commands = (w.seen A ρ).commands := by
  have hunless {p : Prop} [Decidable p] {c : Command} (hc : Command.shown A ρ [c] = [c]) :
      Command.shown A ρ (if p then [] else [c]) = if p then [] else [c] := by
    split
    · rfl
    · exact hc
  have hsimple (code : UInt8) (text : Option Bytes) :
      Command.shown A ρ (simple code text) = simple code text :=
    Command.shown_option text fun _ => Command.shown_plain rfl rfl
  have href (code : UInt8) (label : Option Label) :
      Command.shown A ρ (ref code label) = ref code label :=
    Command.shown_option label fun _ => Command.shown_plain rfl rfl
  have hcam : Command.shown A ρ (w.cam.map Command.cam).toList = (w.cam.map Command.cam).toList :=
    Command.shown_option w.cam fun _ => Command.shown_plain rfl rfl
  have htalk : Command.shown A ρ (w.talk.map Command.talk).toList =
      (w.talk.map Command.talk).toList :=
    Command.shown_option w.talk fun _ => Command.shown_plain rfl rfl
  have harea : Command.shown A ρ [.dimensions w.area] = [.dimensions (w.area.settle A ρ)] := rfl
  have hflags : Command.shown A ρ [.flags w.storedFlags] = [.flags w.storedFlags] :=
    Command.shown_plain rfl rfl
  have hcorners : Command.shown A ρ [.background w.corners] = [.background w.corners] :=
    Command.shown_plain rfl rfl
  simp only [commands, Command.shown_flatten, List.map_cons, List.map_nil, hsimple, href, hcam,
    htalk, harea, hunless hflags, hunless hcorners]
  rfl

end WindowDraft

namespace Compiler

/-- A condition that is stored, or decided while compiling, asks for what its value asks for. -/
theorem gives_toCondition {c : CompileContext} {s : CompileState} {loc : Location}
    {o : Option Value} (ho : ∀ v ∈ o, v.Finite) : Gives (toCondition o loc) c s fun r t =>
      (∀ A ρ, (r.2 && Expr.allows A ρ r.1) =
        o.all fun v => v.holds A ρ c.options.allowExprEscapes) ∧ s.Hushed t := by
  have hstored {v v' : Value} (hv' : v'.Finite)
      (hholds : ∀ A ρ, v'.holds A ρ c.options.allowExprEscapes =
        v.holds A ρ c.options.allowExprEscapes) :
      Gives (toExpr v' loc >>= fun e => pure (some e, true)) c s fun r t =>
        (∀ A ρ, (r.2 && Expr.allows A ρ r.1) = v.holds A ρ c.options.allowExprEscapes) ∧
          s.Hushed t := by
    refine .bind gives_toExpr fun e t h => .pure ⟨fun A ρ => ?_, h.2⟩
    simp only [Expr.allows, Option.all_some, Bool.true_and, h.1.value_eq hv',
      Binary32.isZero_canonical]
    exact hholds A ρ
  cases o with
  | none => exact .pure ⟨fun _ _ => rfl, rfl⟩
  | some v =>
    have hv : v.Finite := ho v rfl
    refine .bind .options fun o t => ?_
    rintro ⟨rfl, rfl⟩
    refine .ite (fun _ => .bind .located ?_) fun _ => hstored hv fun _ _ => rfl
    rintro folded t' ⟨hfold, rfl⟩
    split
    · refine .pure ⟨fun A ρ => ?_, rfl⟩
      rw [Option.all_some, ← Value.holds_fold hv hfold, Value.holds_const (hv.fold hfold)]
      simp [Expr.allows]
    · exact hstored (hv.fold hfold) fun _ _ => Value.holds_fold hv hfold

end Compiler

end ApeScript
