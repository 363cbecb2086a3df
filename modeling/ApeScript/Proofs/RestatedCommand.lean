import ApeScript.Proofs.CamLine
import ApeScript.Proofs.FormatText
import ApeScript.Proofs.RereadExpression
import ApeScript.Proofs.StoredWindow

/-!
# What comes back of a command

A command that is written and read again is not always the command it was, and nothing is reported:
stay flags and camera settings become zero or one, colours without a font are left out, a height
without a width becomes the width, and formatting strings are escaped once more. `Command.reread`
says what comes back but for the expressions, which are restored one by one (`Command.restated`), and
`Command.Faithful` is the condition under which that is the command itself.
-/

namespace ApeScript

/-! ### Images and printed text -/

/-- An image as it is read back: its only size is its width. -/
def Image.reread (i : Image) : Image :=
  if i.area.width.isSome then i
  else { i with area := { i.area with width := i.area.height, height := none } }

namespace Print

def isFull (p : Print) : Bool :=
  p.red.isSome && p.green.isSome && p.blue.isSome && p.font.isSome

def reread (p : Print) : Print :=
  let format := p.format.map FormatValue.reread
  if p.isFull then { p with format := format }
  else { p with red := none, green := none, blue := none, font := none, format := format }

end Print

/-! ### Commands with other expressions -/

def Area.mapExpr (f : Expr → Expr) (a : Area) : Area :=
  ⟨a.x.map f, a.y.map f, a.width.map f, a.height.map f⟩

def Image.mapExpr (f : Expr → Expr) (i : Image) : Image :=
  { i with condition := i.condition.map f, area := i.area.mapExpr f }

def Print.mapExpr (f : Expr → Expr) (p : Print) : Print :=
  { p with
    x := p.x.map f, y := p.y.map f, alpha := p.alpha.map f, red := p.red.map f
    green := p.green.map f, blue := p.blue.map f, condition := p.condition.map f }

namespace Command

def mapExpr (f : Expr → Expr) : Command → Command
  | formattedText code condition text format => formattedText code (condition.map f) text format
  | dimensions area => dimensions (area.mapExpr f)
  | image i => image (i.mapExpr f)
  | choice condition text format label => choice (condition.map f) text format label
  | print p => print (p.mapExpr f)
  | c => c

variable {c d : Command} {asBackground : Bool}

theorem toList_map {α β : Type} (f : α → β) (o : Option α) : (o.map f).toList = o.toList.map f := by
  cases o <;> rfl

theorem exprs_mapExpr (f : Expr → Expr) (c : Command) : (c.mapExpr f).exprs = c.exprs.map f := by
  cases c <;> simp [mapExpr, exprs, Area.mapExpr, Area.exprs, Image.mapExpr, Print.mapExpr,
    toList_map]

theorem mapExpr_mapExpr (f g : Expr → Expr) (c : Command) :
    (c.mapExpr f).mapExpr g = c.mapExpr (g ∘ f) := by
  cases c <;> simp [mapExpr, Area.mapExpr, Image.mapExpr, Print.mapExpr]

theorem code_mapExpr (f : Expr → Expr) (c : Command) : (c.mapExpr f).code = c.code := by
  cases c <;> rfl

def outline (c : Command) : Command := c.mapExpr fun _ => .constant .zero

theorem outline_mapExpr (f : Expr → Expr) (c : Command) : (c.mapExpr f).outline = c.outline :=
  mapExpr_mapExpr _ _ _

structure Alike (R : Expr → Expr → Prop) (c d : Command) : Prop where
  exprs : List.Forall₂ R c.exprs d.exprs
  outline : c.outline = d.outline

theorem Alike.code_eq {R : Expr → Expr → Prop} (h : c.Alike R d) : c.code = d.code := by
  rw [← code_mapExpr (fun _ => .constant .zero) c, ← code_mapExpr (fun _ => .constant .zero) d]
  exact congrArg code h.outline

theorem alike_mapExpr {R : Expr → Expr → Prop} {f : Expr → Expr} (h : ∀ e ∈ c.exprs, R e (f e)) :
    c.Alike R (c.mapExpr f) := by
  refine ⟨?_, (outline_mapExpr f c).symm⟩
  rw [exprs_mapExpr, List.forall₂_map_right_iff, List.forall₂_same]
  exact h

end Command

namespace Expr

def restored (e : Expr) : Expr := e.parsed.layout true |>.toOption.getD e

abbrev Stored (e : Expr) : Prop := e.Compiled Options.defaults

/-- Expressions that are alike, or have the same constant value. -/
def Same (e e' : Expr) : Prop :=
  e.Alike e' ∨ ∃ x ∈ e.constant?, ∃ y ∈ e'.constant?, x.eq y = true

variable {e : Expr}

theorem Stored.isFloat (he : e.Stored) : e.parsed.isFloat = true := (he.layout_parsed rfl).1

theorem Stored.layout (he : e.Stored) : e.parsed.layout true = .ok e.restored := by
  obtain ⟨e', h, -⟩ := (he.layout_parsed rfl).2
  rw [restored, h]
  rfl

theorem Stored.alike (he : e.Stored) : e.Alike e.restored := by
  obtain ⟨e', h, halike⟩ := (he.layout_parsed rfl).2
  rw [he.layout] at h
  cases h
  exact halike

end Expr

/-! ### What comes back -/

def Image.atOrigin (i : Image) : Image :=
  { i with
    area := ⟨some (.constant .zero), some (.constant .zero), none, none⟩
    flags := i.flags &&& (ImageFlags.stretch ||| ImageFlags.tile) }

/-- A backdrop has a position that comes to zero, and no size. -/
theorem Image.area_of_isBackdrop (i : Image) (h : i.isBackdrop = true) :
    ∃ x y : Expr, x.constant?.any Binary32.isZero = true ∧
      y.constant?.any Binary32.isZero = true ∧ i.area = ⟨some x, some y, none, none⟩ := by
  obtain ⟨condition, file, ⟨x, y, width, height⟩, flags⟩ := i
  simp only [Image.isBackdrop, Bool.and_eq_true, Option.isNone_iff_eq_none] at h
  obtain ⟨⟨⟨⟨hx, hy⟩, rfl⟩, rfl⟩, -⟩ := h
  have hzero (e : Option Expr)
      (he : ((e.bind Expr.constant?).map Binary32.isZero).getD false = true) :
      ∃ e', e = some e' ∧ e'.constant?.any Binary32.isZero = true := by
    cases e with
    | none => cases he
    | some e =>
      refine ⟨e, rfl, ?_⟩
      rw [Option.bind_some] at he
      cases hconstant : e.constant? with
      | none => simp [hconstant] at he
      | some z => simpa [hconstant] using he
  obtain ⟨x, rfl, hx'⟩ := hzero x hx
  obtain ⟨y, rfl, hy'⟩ := hzero y hy
  exact ⟨x, y, hx', hy', rfl⟩

namespace Command

def isConsole (code : UInt8) : Bool :=
  code = CommandCode.startConsole || code = CommandCode.finishConsole

def reread (asBackground : Bool) : Command → Command
  | formattedText code condition text format =>
      formattedText code condition text (format.map FormatValue.reread)
  | talk t => talk t.reread
  | image i => image (if asBackground && i.isBackdrop then i.atOrigin else i.reread)
  | choice condition text format label =>
      choice condition text (format.map FormatValue.reread) label
  | simpleText code text =>
      simpleText code (if isConsole code then Script.withoutNewline text ++ [10] else text)
  | print p => print p.reread
  | cam c => cam c.reread
  | c => c

def Unescaped (format : List FormatValue) : Prop :=
  ∀ v ∈ format, ∀ b ∈ v.literal, ¬ Script.Special b

/-- A setting that is given without a value. -/
def Marked (v : UInt16) : Prop := v = CamParams.unset ∨ v = 1

def Faithful (asBackground : Bool) : Command → Prop
  | formattedText _ _ _ format => Unescaped format
  | talk t => (t.stay1 = 0 ∧ t.anim2.isSome ∨ t.stay1 = 1) ∧ (t.stay2 = 0 ∨ t.stay2 = 1)
  | image i =>
      if asBackground && i.isBackdrop then
        i.flags &&& (ImageFlags.stretch ||| ImageFlags.tile) = i.flags
      else i.area.width = none → i.area.height = none
  | flags bits => bits ≠ 0
  | choice _ _ format _ => Unescaped format
  | simpleText code text => isConsole code = true → text.getLast? = some 10
  | print p => (p.isFull = true ∨ p.red = none ∧ p.green = none ∧ p.blue = none ∧ p.font = none) ∧
      Unescaped p.format
  | background corners => corners ≠ ⟨0, 0, 0, 0⟩
  | cam c => Marked c.params.restore ∧ Marked c.params.zip
  | _ => True

def stays : Command → Bool
  | flags bits => bits ≠ 0
  | background corners => corners ≠ ⟨0, 0, 0, 0⟩
  | _ => true

def restated (asBackground : Bool) (c : Command) : Command :=
  (c.reread asBackground).mapExpr Expr.restored

end Command

/-! ### Faithful commands -/

theorem Talk.reread_eq_self_iff (t : Talk) : t.reread = t ↔
    (t.stay1 = 0 ∧ t.anim2.isSome ∨ t.stay1 = 1) ∧ (t.stay2 = 0 ∨ t.stay2 = 1) := by
  obtain ⟨anim1, anim2, name1, name2, stay1, stay2⟩ := t
  have hstay (v : UInt32) : Talk.stay v = v ↔ v = 0 ∨ v = 1 := by
    by_cases hv : v = 0
    · simp [Talk.stay, hv]
    · simp [Talk.stay, hv, eq_comm]
  cases anim2 with
  | none => simp [Talk.reread, hstay, eq_comm (a := (1 : UInt32))]
  | some => simp [Talk.reread, hstay]

theorem Cam.reread_eq_self_iff (c : Cam) : c.reread = c ↔
    Command.Marked c.params.restore ∧ Command.Marked c.params.zip := by
  obtain ⟨name, source, target, owner, params⟩ := c
  have hmark (v : UInt16) : CamParams.mark v = v ↔ Command.Marked v := by
    by_cases hv : v = CamParams.unset
    · simp [CamParams.mark, Command.Marked, hv]
    · simp [CamParams.mark, Command.Marked, hv, eq_comm]
  cases params
  simp [Cam.reread, hmark]

theorem Image.reread_eq_self_iff (i : Image) :
    i.reread = i ↔ (i.area.width = none → i.area.height = none) := by
  obtain ⟨condition, file, ⟨x, y, width, height⟩, flags⟩ := i
  cases width with
  | none => simp [Image.reread, eq_comm]
  | some => simp [Image.reread]

theorem Print.reread_eq_self_iff (p : Print) : p.reread = p ↔
    (p.isFull = true ∨ p.red = none ∧ p.green = none ∧ p.blue = none ∧ p.font = none) ∧
      Command.Unescaped p.format := by
  rw [Command.Unescaped, ← FormatValue.map_reread_eq_self_iff]
  obtain ⟨x, y, alpha, red, green, blue, font, message, condition, format⟩ := p
  cases hfull : Print.isFull ⟨x, y, alpha, red, green, blue, font, message, condition, format⟩ with
  | true => simp [Print.reread, hfull]
  | false => simp [Print.reread, hfull, eq_comm, and_assoc]

theorem withoutNewline_append (s : Bytes) :
    Script.withoutNewline s ++ [10] = s ↔ s.getLast? = some 10 := by
  constructor
  · intro h
    rw [← h, List.getLast?_append]
    rfl
  · intro h
    rw [Script.withoutNewline, if_pos h]
    exact List.dropLast_append_getLast? 10 h

namespace Command

variable {c : Command} {asBackground : Bool}

theorem reread_eq_self_iff (hstays : c.stays = true) : c.reread false = c ↔ c.Faithful false := by
  cases c with
  | formattedText | choice =>
    simp [reread, Faithful, Unescaped, FormatValue.map_reread_eq_self_iff]
  | talk t => simp [reread, Faithful, t.reread_eq_self_iff]
  | image i => simp [reread, Faithful, i.reread_eq_self_iff]
  | flags | background => simpa [reread, Faithful, stays] using hstays
  | simpleText code text =>
    by_cases hcode : isConsole code = true
    · simp [reread, Faithful, hcode, withoutNewline_append]
    · simp [reread, Faithful, hcode]
  | print p => simp [reread, Faithful, p.reread_eq_self_iff]
  | cam c => simp [reread, Faithful, c.reread_eq_self_iff]
  | dimensions | subWindow | switchRef | blank => simp [reread, Faithful]

/-! ### Commands that come back but for their expressions -/

theorem outline_reread (c : Command) : (c.reread false).outline = c.outline.reread false := by
  cases c with
  | image i =>
    obtain ⟨condition, file, ⟨x, y, width, height⟩, flags⟩ := i
    cases width <;> rfl
  | print p =>
    obtain ⟨x, y, alpha, red, green, blue, font, message, condition, format⟩ := p
    cases red <;> cases green <;> cases blue <;> cases font <;> rfl
  | _ => rfl

theorem faithful_outline : c.outline.Faithful false ↔ c.Faithful false := by
  cases c with
  | image i => simp [outline, mapExpr, Faithful, Image.mapExpr, Area.mapExpr]
  | print p => simp [outline, mapExpr, Faithful, Print.mapExpr, Print.isFull]
  | _ => rfl

theorem stays_outline : c.outline.stays = c.stays := by
  cases c <;> rfl

theorem reread_eq_false (hplaced : ∀ i, c = image i → (asBackground && i.isBackdrop) = false) :
    c.reread asBackground = c.reread false := by
  cases c with
  | image i => simp [reread, hplaced i rfl]
  | _ => rfl

theorem faithful_iff_false (hplaced : ∀ i, c = image i → (asBackground && i.isBackdrop) = false) :
    c.Faithful asBackground ↔ c.Faithful false := by
  cases c with
  | image i => simp [Faithful, hplaced i rfl]
  | _ => rfl

/-- What an image is read back as when a background directive puts it at the origin. -/
theorem alike_atOrigin_iff {i : Image} (hbackdrop : i.isBackdrop = true)
    (hcondition : ∀ e ∈ i.condition, e.Stored) :
    (image i).Alike Expr.Same ((image i.atOrigin).mapExpr Expr.restored) ↔
      (image i).Faithful true := by
  obtain ⟨x, y, hx, hy, harea⟩ := i.area_of_isBackdrop hbackdrop
  obtain ⟨condition, file, area, flags⟩ := i
  cases harea
  have hfaithful : (image ⟨condition, file, ⟨some x, some y, none, none⟩, flags⟩).Faithful true ↔
      flags &&& (ImageFlags.stretch ||| ImageFlags.tile) = flags := by
    simp [Faithful, hbackdrop]
  rw [hfaithful]
  constructor
  · intro h
    have houtline := h.outline
    rw [outline_mapExpr] at houtline
    simp only [outline, mapExpr, Image.mapExpr, Image.atOrigin, image.injEq, Image.mk.injEq] at houtline
    exact houtline.2.2.2.symm
  · intro h
    refine ⟨?_, ?_⟩
    · rw [exprs_mapExpr]
      have hzero (e : Expr) (he : e.constant?.any Binary32.isZero = true) :
          e.Same (Expr.restored (.constant .zero)) := by
        obtain ⟨z, hz, hzero⟩ := Option.any_eq_true _ _ |>.1 he
        exact .inr ⟨z, hz, .zero, rfl, Binary32.eq_of_isZero hzero rfl⟩
      simp only [exprs, Area.exprs, Image.atOrigin, List.map_append, Option.toList_some,
        Option.toList_none, List.map_cons, List.map_nil, List.append_nil, List.singleton_append]
      refine List.rel_append ?_ (.cons (hzero x hx) (.cons (hzero y hy) .nil))
      rw [List.forall₂_map_right_iff, List.forall₂_same]
      exact fun e he => .inl (hcondition e (Option.mem_toList.1 he)).alike
    · rw [outline_mapExpr]
      simp [outline, mapExpr, Image.mapExpr, Image.atOrigin, Area.mapExpr, h]

/-- A command that is one of those that are read comes back if it is faithful, and only then. -/
theorem alike_restated_iff (hstays : c.stays = true) (hexprs : ∀ e ∈ c.exprs, e.Stored) :
    c.Alike Expr.Same (c.restated asBackground) ↔ c.Faithful asBackground := by
  by_cases hplaced : ∃ i, c = image i ∧ (asBackground && i.isBackdrop) = true
  · obtain ⟨i, rfl, hplaced⟩ := hplaced
    obtain ⟨rfl, hbackdrop⟩ := Bool.and_eq_true_iff.1 hplaced
    have hcondition : ∀ e ∈ i.condition, e.Stored := fun e he =>
      hexprs e (List.mem_append_left _ (Option.mem_toList.2 he))
    rw [restated, reread, if_pos hplaced]
    exact alike_atOrigin_iff hbackdrop hcondition
  · simp only [not_exists, not_and, Bool.not_eq_true] at hplaced
    rw [restated, reread_eq_false hplaced, faithful_iff_false hplaced]
    constructor
    · intro h
      rw [← faithful_outline, ← reread_eq_self_iff (stays_outline.trans hstays), ← outline_reread,
        ← outline_mapExpr Expr.restored, ← h.outline]
    · intro h
      rw [(reread_eq_self_iff hstays).2 h]
      exact alike_mapExpr fun e he => .inl (hexprs e he).alike

end Command

end ApeScript
