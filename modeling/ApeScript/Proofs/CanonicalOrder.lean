import ApeScript.Proofs.EnclosedCommands
import ApeScript.Proofs.WindowLines

/-!
# The order of a window's commands

Whatever order its directives come in, the commands of a window are stored by kind. A directive
collects at most one command (`Adds`), which goes after those collected before it, or it says
something that may be said once (`Unique`). The draft keeps a tally of the directives read so far
(`WindowDraft.Tally`), from which the order of the commands and the flag for a window without
background follow; a directive that would say something again fails.
-/

namespace ApeScript

def CommandCode.stored : List UInt8 :=
  [title, body, xyPrint, cam, talk, startConsole, finishConsole, startSwitch, thinkSwitch,
    finishSwitch, style, font, flags, background, dimensions, subWindow, image, choice, nextWindow]

def CommandCode.single : List UInt8 :=
  [cam, talk, startConsole, finishConsole, startSwitch, thinkSwitch, finishSwitch, style, font,
    flags, background, dimensions, nextWindow]

def Command.rank (c : Command) : Nat := CommandCode.stored.idxOf c.code

structure Window.Canonical (w : Window) : Prop where
  stored : ∀ c ∈ w.commands, c.code ∈ CommandCode.stored
  sorted : w.commands.Pairwise fun a b => a.rank ≤ b.rank
  dimensions : w.commands.countP (·.code = CommandCode.dimensions) = 1
  single : ∀ code ∈ CommandCode.single, w.commands.countP (·.code = code) ≤ 1

/-! ### Commands of one kind after those of another -/

section

variable {lists : List (List Command)} {codes : List UInt8} {p : UInt8 → Prop}

def Sorted (p : UInt8 → Prop) (lists : List (List Command)) (codes : List UInt8) : Prop :=
  List.Forall₂ (fun cs code => (∀ c ∈ cs, c.code = code) ∧ (p code → cs.length ≤ 1)) lists codes

theorem Sorted.code_mem (h : Sorted p lists codes) : ∀ c ∈ lists.flatten, c.code ∈ codes := by
  induction h with
  | nil => simp
  | cons hhead _ ih =>
    intro c hc
    rcases List.mem_append.1 hc with hc | hc
    · exact List.mem_cons.2 (Or.inl (hhead.1 c hc))
    · exact List.mem_cons_of_mem _ (ih c hc)

theorem Sorted.pairwise {rank : UInt8 → Nat} (h : Sorted p lists codes)
    (hcodes : codes.Pairwise fun a b => rank a ≤ rank b) :
    lists.flatten.Pairwise fun a b => rank a.code ≤ rank b.code := by
  induction h with
  | nil => exact .nil
  | cons hhead hrest ih =>
    obtain ⟨hfirst, hcodes⟩ := List.pairwise_cons.1 hcodes
    refine List.pairwise_append.2 ⟨List.pairwise_of_forall_mem_list ?_, ih hcodes, ?_⟩
    · intro a ha b hb
      rw [hhead.1 a ha, hhead.1 b hb]
    · intro a ha b hb
      rw [hhead.1 a ha]
      exact hfirst _ (code_mem hrest b hb)

/-- The commands of a kind are those of its list. -/
theorem Sorted.filter_flatten (h : Sorted p lists codes) (hcodes : codes.Nodup) {i : Nat}
    {cs : List Command} {code : UInt8} (hcs : lists[i]? = some cs) (hcode : codes[i]? = some code) :
    lists.flatten.filter (·.code = code) = cs := by
  induction h generalizing i with
  | nil => simp at hcs
  | @cons first made lists codes hhead hrest ih =>
    obtain ⟨hmade, hcodes⟩ := List.nodup_cons.1 hcodes
    rw [List.flatten_cons, List.filter_append]
    cases i with
    | zero =>
      obtain rfl : first = cs := by simpa using hcs
      obtain rfl : made = code := by simpa using hcode
      rw [List.filter_eq_self.2 fun c hc => by simp [hhead.1 c hc], List.filter_eq_nil_iff.2,
        List.append_nil]
      intro c hc h
      exact hmade (of_decide_eq_true h ▸ code_mem hrest c hc)
    | succ i =>
      have hmem : code ∈ codes := List.mem_of_getElem? (by simpa using hcode)
      rw [ih hcodes (by simpa using hcs) (by simpa using hcode), List.filter_eq_nil_iff.2,
        List.nil_append]
      intro c hc h
      exact hmade (((hhead.1 c hc).symm.trans (of_decide_eq_true h)) ▸ hmem)

theorem Sorted.countP_le (h : Sorted p lists codes) (hcodes : codes.Nodup) {code : UInt8}
    (hp : p code) : lists.flatten.countP (·.code = code) ≤ 1 := by
  induction h with
  | nil => simp
  | @cons cs made lists codes hhead hrest ih =>
    obtain ⟨hmade, hcodes⟩ := List.nodup_cons.1 hcodes
    rw [List.flatten_cons, List.countP_append]
    by_cases hcode : made = code
    · subst hcode
      have hnone : lists.flatten.countP (·.code = made) = 0 := by
        refine List.countP_eq_zero.2 fun c hc h => hmade ?_
        rw [← of_decide_eq_true h]
        exact code_mem hrest c hc
      rw [hnone]
      exact List.countP_le_length.trans (hhead.2 hp)
    · have hnone : cs.countP (·.code = code) = 0 :=
        List.countP_eq_zero.2 fun c hc h => hcode ((hhead.1 c hc).symm.trans (of_decide_eq_true h))
      rw [hnone, Nat.zero_add]
      exact ih hcodes

end

/-! ### What may be said once -/

inductive Unique where
  | x
  | y
  | width
  | height
  | talk
  | startConsole
  | finishConsole
  | font
  | style
  | nextWindow
  | startSwitch
  | thinkSwitch
  | finishSwitch
  | cam
  deriving DecidableEq, Repr

namespace Unique

/-- The keywords of the directives that may come once, with what they say. -/
def keywords : List (Bytes × Unique) :=
  [(utf8 "xpos", x), (utf8 "ypos", y), (utf8 "width", width), (utf8 "height", height),
   (utf8 "talk", talk), (utf8 "talk_ex", talk), (utf8 "startconsole", startConsole),
   (utf8 "finishconsole", finishConsole), (utf8 "font", font), (utf8 "style", style),
   (utf8 "goto", nextWindow), (utf8 "nextwindow", nextWindow), (utf8 "return", nextWindow),
   (utf8 "startswitch", startSwitch), (utf8 "thinkswitch", thinkSwitch),
   (utf8 "finishswitch", finishSwitch), (utf8 "cam", cam)]

def ofWord? (word : Bytes) : Option Unique := (keywords.find? (·.1 = word)).map (·.2)

end Unique

def WindowDraft.said (w : WindowDraft) : Unique → Bool
  | .x => w.area.x.isSome
  | .y => w.area.y.isSome
  | .width => w.area.width.isSome
  | .height => w.area.height.isSome
  | .talk => w.talk.isSome
  | .startConsole => w.startConsole.isSome
  | .finishConsole => w.finishConsole.isSome
  | .font => w.font.isSome
  | .style => w.style.isSome
  | .nextWindow => w.nextWindow.isSome
  | .startSwitch => w.startSwitch.isSome
  | .thinkSwitch => w.thinkSwitch.isSome
  | .finishSwitch => w.finishSwitch.isSome
  | .cam => w.cam.isSome

/-- Something is said for the first time, and nothing else changes. -/
inductive WindowDraft.Sets (w : WindowDraft) : Unique → WindowDraft → Prop where
  | x (h : w.area.x = none) (e : Expr) : Sets w .x { w with area := { w.area with x := some e } }
  | y (h : w.area.y = none) (e : Expr) : Sets w .y { w with area := { w.area with y := some e } }
  | width (h : w.area.width = none) (e : Expr) :
      Sets w .width { w with area := { w.area with width := some e } }
  | height (h : w.area.height = none) (e : Expr) :
      Sets w .height { w with area := { w.area with height := some e } }
  | talk (h : w.talk = none) (talk : Talk) : Sets w .talk { w with talk := some talk }
  | startConsole (h : w.startConsole = none) (text : Bytes) :
      Sets w .startConsole { w with startConsole := some text }
  | finishConsole (h : w.finishConsole = none) (text : Bytes) :
      Sets w .finishConsole { w with finishConsole := some text }
  | font (h : w.font = none) (name : Bytes) : Sets w .font { w with font := some name }
  | style (h : w.style = none) (name : Bytes) : Sets w .style { w with style := some name }
  | nextWindow (h : w.nextWindow = none) (text : Bytes) :
      Sets w .nextWindow { w with nextWindow := some text }
  | startSwitch (h : w.startSwitch = none) (label : Label) :
      Sets w .startSwitch { w with startSwitch := some label }
  | thinkSwitch (h : w.thinkSwitch = none) (label : Label) :
      Sets w .thinkSwitch { w with thinkSwitch := some label }
  | finishSwitch (h : w.finishSwitch = none) (label : Label) :
      Sets w .finishSwitch { w with finishSwitch := some label }
  | cam (h : w.cam = none) (cam : Cam) : Sets w .cam { w with cam := some cam }

namespace WindowDraft.Sets

variable {w w' : WindowDraft} {u : Unique}

theorem fresh (h : w.Sets u w') : w.said u = false := by
  cases h <;> simpa [said] using ‹_ = none›

theorem said (h : w.Sets u w') (v : Unique) : w'.said v = (w.said v || u = v) := by
  cases h <;> cases v <;> simp [WindowDraft.said]

theorem collected (h : w.Sets u w') : w'.collected = w.collected := by
  cases h <;> rfl

theorem hasBackground (h : w.Sets u w') : w'.hasBackground = w.hasBackground := by
  cases h <;> rfl

theorem flags (h : w.Sets u w') : w'.flags = w.flags := by
  cases h <;> rfl

end WindowDraft.Sets

def WindowDraft.bare (w : WindowDraft) : WindowDraft := { w with blocks := [], closed := [] }

/-- The keyword of a directive other than `if` and `else`. -/
def Token.keyword? (token : Token) : Option Bytes :=
  if token.type = .identifier ∧ token.text ≠ utf8 "if" ∧ token.text ≠ utf8 "else" then
    some token.text
  else none

theorem Token.keyword?_of_type {token : Token} (h : token.type ≠ .identifier) :
    token.keyword? = none :=
  if_neg fun hword => h hword.1

namespace Compiler

variable {c : CompileContext} {s t : CompileState} {w w' : WindowDraft} {token : Token}
  {loc : Location} {word : Bytes} {own : Option Command}

/-- The conditions around the next directive cannot hold, which is decided when optimizing. -/
def Hidden (c : CompileContext) (w : WindowDraft) : Prop :=
  ∃ condition s t, activeCondition w c s = .ok (condition, false) t

/-- A directive adds a command of its kind to the end of those collected, or nothing. It leaves out
a command only if its conditions cannot hold, or if it is a background that shows no image. -/
structure Adds (c : CompileContext) (word : Bytes) (w : WindowDraft) (own : Option Command)
    (w' : WindowDraft) : Prop where
  gains : w.Gains own.toList w'
  code : ∀ x ∈ own, Directive.code? ⟨word, true⟩ = some x.code
  left : own = none → Directive.code? ⟨word, false⟩ = none ∨ Hidden c w

structure Does (c : CompileContext) (word : Bytes) (w : WindowDraft) (own : Option Command)
    (w' : WindowDraft) : Prop where
  adds : Adds c word w own w'
  said : ∀ u, w'.said u = (w.said u || Unique.ofWord? word = some u)
  fresh : ∀ u, Unique.ofWord? word = some u → w.said u = false
  background : w'.hasBackground = (w.hasBackground || word = utf8 "background")
  flags : w.flags &&& WindowFlags.noBackground = 0 → w'.flags &&& WindowFlags.noBackground = 0

theorem Does.of_adds (hadds : Adds c word w own w') (hword : Unique.ofWord? word = none)
    (hplain : word ≠ utf8 "background") (hsaid : w'.said = w.said)
    (hbackground : w'.hasBackground = w.hasBackground) (hflags : w'.flags = w.flags) :
    Does c word w own w' where
  adds := hadds
  said := by simp [hsaid, hword]
  fresh := by simp [hword]
  background := by simp [hbackground, hplain]
  flags := by simp [hflags]

theorem Does.once {u : Unique} (hsets : w.Sets u w') (hword : Unique.ofWord? word = some u)
    (hcode : Directive.code? ⟨word, false⟩ = none) (hplain : word ≠ utf8 "background") :
    Does c word w none w' where
  adds := ⟨WindowDraft.gains_nil hsets.collected, by simp, fun _ => Or.inl hcode⟩
  said v := by simp [hsets.said, hword]
  fresh := by simpa [hword] using hsets.fresh
  background := by simp [hsets.hasBackground, hplain]
  flags := by simp [hsets.flags]

/-! ### Directives that may come once -/

/-- What fails inside a condition, and where something has been said. -/
theorem gives_unset {α β : Type} {slot : Option α} {cause : Cause} {f : Unit → Compiler β} :
    Gives (checkUnconditional w loc >>= fun _ => checkUnset slot loc cause >>= f) c s
      fun _ _ => slot = none :=
  .after fun _ _ => .bind gives_checkUnset fun _ _ h _ _ _ => h.1

theorem gives_parseTalk_once : Gives (parseTalk w loc) c s fun w' _ =>
    w.Sets .talk w' := by
  refine .after fun _ t => .bind gives_checkUnset fun _ t hw => .after fun target t => ?_
  extract_lets animate
  have hanimate (names : Bytes × Bytes) (t : CompileState) : Gives (animate names) c t fun w' _ =>
      w.Sets .talk w' :=
    .after fun _ _ => .after fun _ _ => .pure (.talk hw.1 _)
  refine .ite (fun _ => .after hanimate) fun _ => ?_
  exact .ite (fun _ => .after hanimate) fun _ => .fail_bind

theorem gives_parseTalkEx_once : Gives (parseTalkEx w loc) c s fun w' _ =>
    w.Sets .talk w' := by
  refine .after fun _ t => .bind gives_checkUnset fun _ t hw => .after fun _ t => ?_
  refine .after fun _ t => .after fun _ t => .after fun _ t => .after fun _ t => ?_
  refine .ite (fun _ => .pure (.talk hw.1 _)) fun _ => .after fun _ t => ?_
  exact .after fun _ t => .pure (.talk hw.1 _)

theorem gives_parseNextWindow_once {isReturn : Bool} :
    Gives (parseNextWindow w loc isReturn) c s fun w' _ =>
      w.Sets .nextWindow w' := by
  refine .after fun _ t => .bind gives_checkUnset fun _ t hw => ?_
  refine .ite (fun _ => .pure (.nextWindow hw.1 _)) fun _ => .after fun token t => ?_
  exact .guard fun _ => .pure (.nextWindow hw.1 _)

theorem gives_parseCam_once : Gives (parseCam w loc) c s fun w' _ =>
    w.Sets .cam w' :=
  .bind gives_checkUnset fun _ _ hw => .after fun _ _ => .after fun _ _ => .after fun _ _ =>
    .pure (.cam hw.1 _)

/-! ### Flags -/

/-- The flags that a keyword names are single bits. -/
theorem and_noBackground {name : Bytes} {flag : UInt32} (h : WindowFlags.ofName? name = some flag)
    (hflag : flag ≠ WindowFlags.noBackground) : flag &&& WindowFlags.noBackground = 0 := by
  obtain ⟨f, hf, rfl⟩ := Option.map_eq_some_iff.1 h
  have hbit : ∀ f ∈ WindowFlags.named,
      f.1 ≠ WindowFlags.noBackground → f.1 &&& WindowFlags.noBackground = 0 := by decide
  exact hbit f (List.mem_of_find?_eq_some hf) hflag

theorem gives_parseFlags_and : Gives (parseFlags w loc) c s fun w' _ => ∃ flags,
    w' = { w with flags := flags } ∧ (w.flags &&& WindowFlags.noBackground = 0 →
      flags &&& WindowFlags.noBackground = 0) := by
  refine .after fun _ t => .bind (P := fun flags _ => w.flags &&& WindowFlags.noBackground = 0 →
    flags &&& WindowFlags.noBackground = 0) ?_ fun flags t h => .pure ⟨flags, rfl, h⟩
  refine .repeatFrom (I := fun flags _ => w.flags &&& WindowFlags.noBackground = 0 →
    flags &&& WindowFlags.noBackground = 0) id fun flags t hflags => .after fun ended t => ?_
  refine .ite (fun _ => .pure hflags) fun _ => .after fun token t => ?_
  split
  · rename_i flag hname
    refine .guard fun hflag => .pure fun hw => ?_
    rw [UInt32.and_comm, WindowFlags.and_or_distrib, UInt32.and_comm, hflags hw, UInt32.and_comm,
      and_noBackground hname hflag, UInt32.or_zero]
  · exact .fail

/-! ### Directives that collect commands -/

theorem gives_activeCondition_hidden :
    Gives (activeCondition w) c s fun r _ => r.2 = false → Hidden c w := by
  rintro ⟨condition, emits⟩ t h (rfl : emits = false)
  exact ⟨condition, s, t, h⟩

theorem gives_parseFormattedText_code {code : UInt8} :
    Gives (parseFormattedText w code) c s fun cs _ => ∃ own : Option Command, cs = own.toList ∧
      (∀ x ∈ own, x.code = code) ∧ (own = none → Hidden c w) := by
  refine .bind gives_activeCondition_hidden ?_
  rintro ⟨condition, emits⟩ t hhidden
  refine .after fun text t => .after fun format t => .pure ?_
  cases emits with
  | false => exact ⟨none, rfl, by simp, fun _ => hhidden rfl⟩
  | true => exact ⟨some (.formattedText code condition text format), rfl, by simp [Command.code],
      by simp⟩

theorem gives_parsePrint_own {withFont : Bool} : Gives (parsePrint w withFont) c s fun w' _ =>
    (w' = w ∧ Hidden c w) ∨ ∃ p, w' = { w with prints := w.prints ++ [.print p] } := by
  refine .bind gives_activeCondition_hidden ?_
  rintro ⟨condition, emits⟩ t hhidden
  refine .after fun x t => .after fun y t => .after fun alpha t => ?_
  extract_lets message
  have hmessage (r : Option Expr × Option Expr × Option Expr × Option Bytes) (t : CompileState) :
      Gives (message r) c t fun w' _ =>
        (w' = w ∧ Hidden c w) ∨ ∃ p, w' = { w with prints := w.prints ++ [.print p] } := by
    refine .after fun _ _ => .after fun _ _ => .after fun _ _ => .ite (fun hemits => ?_) fun _ => ?_
    · exact .pure (Or.inl ⟨rfl, hhidden (by simpa using hemits)⟩)
    · exact .pure (Or.inr ⟨_, rfl⟩)
  refine .ite (fun _ => ?_) fun _ => .after hmessage
  refine .after fun red t => .after fun green t => .after fun blue t => .after fun _ t => ?_
  exact .after fun font t => .after hmessage

theorem gives_parseImage_own : Gives (parseImage w) c s fun w' _ =>
    (w' = w ∧ Hidden c w) ∨ ∃ i, w' = { w with images := w.images ++ [.image i] } := by
  refine .bind gives_activeCondition_hidden ?_
  rintro ⟨condition, emits⟩ t hhidden
  refine .after fun file t => .after fun x t => .after fun y t => .after fun width t => ?_
  refine .either fun height t => .either fun flags t => .ite (fun hemits => ?_) fun _ => ?_
  · exact .pure (Or.inl ⟨rfl, hhidden (by simpa using hemits)⟩)
  · exact .pure (Or.inr ⟨_, rfl⟩)

theorem gives_parseChoice_own : Gives (parseChoice w) c s fun w' _ =>
    (w' = w ∧ Hidden c w) ∨ ∃ condition text format l,
      w' = { w with choices := w.choices ++ [.choice condition text format l] } := by
  refine .bind gives_activeCondition_hidden ?_
  rintro ⟨condition, emits⟩ t hhidden
  refine .after fun token t => .after fun text t => .after fun next t => ?_
  extract_lets add
  have hadd (r : List FormatValue × Label) (t : CompileState) : Gives (add r) c t fun w' _ =>
      (w' = w ∧ Hidden c w) ∨ ∃ condition text format l,
        w' = { w with choices := w.choices ++ [.choice condition text format l] } := by
    refine .ite (fun hemits => ?_) fun _ => ?_
    · exact .pure (Or.inl ⟨rfl, hhidden (by simpa using hemits)⟩)
    · exact .pure (Or.inr ⟨_, _, _, _, rfl⟩)
  refine .ite (fun _ => ?_) fun _ => .after fun l t => .after hadd
  exact .after fun _ t => .after hadd

theorem gives_parseBackground_own : Gives (parseBackground w) c s fun w' _ => ∃ corners,
    w' = { w with corners := corners, hasBackground := true } ∨ ∃ i, w' = { w with
      corners := corners, hasBackground := true, images := w.images ++ [.image i] } := by
  refine .after fun r t => .after fun b t => ?_
  refine .ite (fun _ => .after fun _ _ => .fail_bind) fun _ => ?_
  extract_lets w' name
  split
  · exact .pure ⟨b.corners, Or.inl rfl⟩
  · exact .pure ⟨b.corners, Or.inr ⟨_, rfl⟩⟩

/-! ### All directives -/

theorem Adds.some {x : Command} (hgains : w.Gains [x] w')
    (hcode : Directive.code? ⟨word, true⟩ = .some x.code) : Adds c word w (.some x) w' :=
  ⟨hgains, by simpa using hcode, by simp⟩

theorem Adds.none (hcollected : w'.collected = w.collected)
    (hleft : Directive.code? ⟨word, false⟩ = .none ∨ Hidden c w) : Adds c word w .none w' :=
  ⟨WindowDraft.gains_nil hcollected, by simp, fun _ => hleft⟩

theorem gives_parseCommand_does :
    Gives (parseCommand w token) c s fun w' _ => ∃ own, Does c token.text w own w' := by
  have honce {word : Bytes} (hword : decide (token.text = word) = true) {u : Unique}
      {w' : WindowDraft} (hsets : w.Sets u w') (hu : Unique.ofWord? word = some u)
      (hcode : Directive.code? ⟨word, false⟩ = none) (hplain : word ≠ utf8 "background") :
      ∃ own, Does c token.text w own w' := by
    rw [of_decide_eq_true hword]
    exact ⟨none, .once hsets hu hcode hplain⟩
  have hadds {word : Bytes} (hword : decide (token.text = word) = true) {own : Option Command}
      {w' : WindowDraft} (hadds : Adds c word w own w') (hu : Unique.ofWord? word = none)
      (hplain : word ≠ utf8 "background") (hsaid : w'.said = w.said)
      (hbackground : w'.hasBackground = w.hasBackground) (hflags : w'.flags = w.flags) :
      ∃ own, Does c token.text w own w' := by
    rw [of_decide_eq_true hword]
    exact ⟨own, .of_adds hadds hu hplain hsaid hbackground hflags⟩
  refine .ite (fun h => .bind gives_unset fun e t hw => .pure ?_) fun _ => ?_
  · exact honce h (.x hw e) rfl rfl (by decide)
  refine .ite (fun h => .bind gives_unset fun e t hw => .pure ?_) fun _ => ?_
  · exact honce h (.y hw e) rfl rfl (by decide)
  refine .ite (fun h => .bind gives_unset fun e t hw => .pure ?_) fun _ => ?_
  · exact honce h (.width hw e) rfl rfl (by decide)
  refine .ite (fun h => .bind gives_unset fun e t hw => .pure ?_) fun _ => ?_
  · exact honce h (.height hw e) rfl rfl (by decide)
  refine .ite (fun h => .bind gives_parseFormattedText_code ?_) fun _ => ?_
  · rintro _ t ⟨own, rfl, hcode, hhidden⟩
    cases own with
    | none =>
      exact .pure (hadds h (.none (by simp) (Or.inr (hhidden rfl))) rfl (by decide) rfl rfl rfl)
    | some x =>
      have hx : x.code = CommandCode.title := hcode x rfl
      refine .pure (hadds h (.some (WindowDraft.gains_title hx) ?_) rfl (by decide) rfl rfl rfl)
      rw [hx]
      rfl
  refine .ite (fun h => .bind gives_parseFormattedText_code ?_) fun _ => ?_
  · rintro _ t ⟨own, rfl, hcode, hhidden⟩
    cases own with
    | none =>
      exact .pure (hadds h (.none (by simp) (Or.inr (hhidden rfl))) rfl (by decide) rfl rfl rfl)
    | some x =>
      have hx : x.code = CommandCode.body := hcode x rfl
      refine .pure (hadds h (.some (WindowDraft.gains_body hx) ?_) rfl (by decide) rfl rfl rfl)
      rw [hx]
      rfl
  refine .ite (fun h => gives_parseTalk_once.mono fun w' t hw => ?_) fun _ => ?_
  · exact honce h hw rfl rfl (by decide)
  refine .ite (fun h => gives_parseTalkEx_once.mono fun w' t hw => ?_) fun _ => ?_
  · exact honce h hw rfl rfl (by decide)
  refine .ite (fun h => gives_parseImage_own.mono ?_) fun _ => ?_
  · rintro w' t (⟨rfl, hhidden⟩ | ⟨i, rfl⟩)
    · exact hadds h (.none rfl (Or.inr hhidden)) rfl (by decide) rfl rfl rfl
    · exact hadds h (.some (WindowDraft.gains_image i) rfl) rfl (by decide) rfl rfl rfl
  refine .ite (fun h => gives_parseFlags_and.mono ?_) fun _ => ?_
  · rintro w' t ⟨flags, rfl, hflags⟩
    rw [of_decide_eq_true h]
    exact ⟨none, .none rfl (Or.inl rfl), fun u => (Bool.or_false _).symm, by rintro u ⟨⟩,
      (Bool.or_false _).symm, hflags⟩
  refine .ite (fun h => gives_parseSubWindow.mono ?_) fun _ => ?_
  · rintro w' t ⟨-, l, rfl⟩
    exact hadds h (.some (WindowDraft.gains_subWindow l) rfl) rfl (by decide) rfl rfl rfl
  refine .ite (fun h => gives_parseChoice_own.mono ?_) fun _ => ?_
  · rintro w' t (⟨rfl, hhidden⟩ | ⟨condition, text, format, l, rfl⟩)
    · exact hadds h (.none rfl (Or.inr hhidden)) rfl (by decide) rfl rfl rfl
    · have hgains := WindowDraft.gains_choice (w := w) condition text format l
      exact hadds h (.some hgains rfl) rfl (by decide) rfl rfl rfl
  refine .ite (fun h => .bind gives_unset fun text t hw => .pure ?_) fun _ => ?_
  · exact honce h (.startConsole hw text) rfl rfl (by decide)
  refine .ite (fun h => .bind gives_unset fun text t hw => .pure ?_) fun _ => ?_
  · exact honce h (.finishConsole hw text) rfl rfl (by decide)
  refine .ite (fun h => .bind gives_unset fun name t hw => .pure ?_) fun _ => ?_
  · exact honce h (.font hw name) rfl rfl (by decide)
  refine .ite (fun h => .bind gives_unset fun name t hw => .pure ?_) fun _ => ?_
  · exact honce h (.style hw name) rfl rfl (by decide)
  refine .ite (fun h => gives_parseNextWindow_once.mono fun w' t hw => ?_) fun _ => ?_
  · rcases Bool.or_eq_true_iff.1 h with h | h
    · exact honce h hw rfl rfl (by decide)
    · exact honce h hw rfl rfl (by decide)
  refine .ite (fun h => gives_parseNextWindow_once.mono fun w' t hw => ?_) fun _ => ?_
  · exact honce h hw rfl rfl (by decide)
  refine .ite (fun h => gives_parsePrint_own.mono ?_) fun _ => ?_
  · rintro w' t (⟨rfl, hhidden⟩ | ⟨p, rfl⟩)
    · exact hadds h (.none rfl (Or.inr hhidden)) rfl (by decide) rfl rfl rfl
    · exact hadds h (.some (WindowDraft.gains_print p) rfl) rfl (by decide) rfl rfl rfl
  refine .ite (fun h => gives_parsePrint_own.mono ?_) fun _ => ?_
  · rintro w' t (⟨rfl, hhidden⟩ | ⟨p, rfl⟩)
    · exact hadds h (.none rfl (Or.inr hhidden)) rfl (by decide) rfl rfl rfl
    · exact hadds h (.some (WindowDraft.gains_print p) rfl) rfl (by decide) rfl rfl rfl
  refine .ite (fun h => .bind gives_unset fun label t hw => .pure ?_) fun _ => ?_
  · exact honce h (.startSwitch hw label) rfl rfl (by decide)
  refine .ite (fun h => .bind gives_unset fun label t hw => .pure ?_) fun _ => ?_
  · exact honce h (.thinkSwitch hw label) rfl rfl (by decide)
  refine .ite (fun h => .bind gives_unset fun label t hw => .pure ?_) fun _ => ?_
  · exact honce h (.finishSwitch hw label) rfl rfl (by decide)
  refine .ite (fun h => gives_parseBackground_own.mono ?_) fun _ => ?_
  · rw [of_decide_eq_true h]
    have hdoes {own : Option Command} {w' : WindowDraft}
        (hadds : Adds c (utf8 "background") w own w') (hsaid : w'.said = w.said)
        (hbackground : w'.hasBackground = true) (hflags : w'.flags = w.flags) :
        ∃ own, Does c (utf8 "background") w own w' :=
      ⟨own, hadds, fun u => (congrFun hsaid u).trans (Bool.or_false _).symm, by rintro u ⟨⟩,
        hbackground.trans (Bool.or_true _).symm, fun hw => hflags ▸ hw⟩
    rintro w' t ⟨corners, rfl | ⟨i, rfl⟩⟩
    · exact hdoes (.none rfl (Or.inl rfl)) rfl rfl rfl
    · have hgains : w.Gains [.image i] { w with
          corners := corners, hasBackground := true, images := w.images ++ [.image i] } :=
        WindowDraft.gains_image i
      exact hdoes (.some hgains rfl) rfl rfl rfl
  exact .ite (fun h => gives_parseCam_once.mono fun w' t hw => honce h hw rfl rfl (by decide))
    fun _ => .fail

/-! ### Blocks -/

theorem gives_openBlock_bare {b : ConditionBlock} :
    Gives (openBlock w b) c s fun w' _ => w'.bare = w.bare :=
  .after fun _ _ => .after fun _ _ => .ite (fun _ => .after fun _ _ => .pure rfl) fun _ => .pure rfl

theorem gives_openIf_bare : Gives (openIf w loc) c s fun w' _ => w'.bare = w.bare :=
  .after fun _ _ => .after fun _ _ => .after fun _ _ => .guard fun _ => gives_openBlock_bare

theorem gives_openElse_bare : Gives (openElse w loc) c s fun w' _ => w'.bare = w.bare := by
  unfold openElse
  split
  · exact .fail
  · exact .guard fun _ => .guard fun _ => gives_openBlock_bare

theorem gives_closeBrace_bare : Gives (closeBrace w loc) c s fun w' _ => w'.bare = w.bare := by
  unfold closeBrace
  split
  · exact .fail
  · exact .guard fun _ => .after fun _ _ => .guard fun _ => .pure rfl

/-! ### Rounds -/

structure Acts (c : CompileContext) (token : Token) (w w' : WindowDraft) : Prop where
  other : token.keyword? = none → w'.bare = w.bare
  directive : ∀ word, token.keyword? = some word → ∃ own, Does c word w own w'

theorem Acts.of_bare (h : token.keyword? = none) (hbare : w'.bare = w.bare) : Acts c token w w' :=
  ⟨fun _ => hbare, by simp [h]⟩

theorem gives_parseDirective_acts :
    Gives (parseDirective w token) c s fun w' _ => Acts c token w w' := by
  refine .ite (fun hline => .pure ?_) fun _ => ?_
  · exact .of_bare (Token.keyword?_of_type (by simp [hline])) rfl
  refine .ite (fun hbrace => gives_closeBrace_bare.mono fun w' t hbare => ?_) fun _ => ?_
  · exact .of_bare (Token.keyword?_of_type (by simp [hbrace])) hbare
  refine .ite (fun helse => gives_openElse_bare.mono fun w' t hbare => ?_) fun helse => ?_
  · have htext : token.text = utf8 "else" := by simp_all [Token.is]
    exact .of_bare (if_neg fun hword => hword.2.2 htext) hbare
  refine .guard fun htype => ?_
  extract_lets cleared
  refine .ite (fun hif => gives_openIf_bare.mono fun w' t hbare => ?_) fun hif => ?_
  · exact .of_bare (if_neg fun hword => hword.2.1 hif) hbare
  have hword : token.keyword? = some token.text := by
    refine if_pos ⟨by simpa using htype, hif, fun h => helse ?_⟩
    simp_all [Token.is]
  refine .bind gives_parseCommand_does fun w' t hdoes => .after fun next t => .guard fun _ => ?_
  obtain ⟨own, hadds, hsaid, hfresh, hbackground, hflags⟩ := hdoes
  refine .pure ⟨by simp [hword], fun word hsome => ?_⟩
  obtain rfl : token.text = word := Option.some_inj.1 (hword.symm.trans hsome)
  exact ⟨own, ⟨hadds.gains, hadds.code, hadds.left⟩, hsaid, hfresh, hbackground, hflags⟩

theorem gives_parseWindowRound_acts : Gives (parseWindowRound w) c s fun r _ =>
    ∃ token t, (Lexer.peekNormal : Compiler Token) c s = .ok token t ∧
      Sum.elim (Acts c token w) (fun last => last.1 = w ∧ token.keyword? = none) r := by
  refine .bind gives_run fun token t hpeek => ?_
  split
  · rename_i hhash
    have hword : token.keyword? = none := Token.keyword?_of_type (by simp [hhash])
    refine .after fun _ _ => .after fun defined _ => .ite (fun _ => ?_) fun _ => ?_
    · exact .pure ⟨token, t, hpeek, .of_bare hword rfl⟩
    · exact .pure ⟨token, t, hpeek, rfl, hword⟩
  · rename_i hend
    exact .pure ⟨token, t, hpeek, rfl, Token.keyword?_of_type (by simp [hend])⟩
  · refine .after fun _ _ => .bind gives_parseDirective_acts fun w' _ hacts => ?_
    exact .pure ⟨token, t, hpeek, hacts⟩

/-! ### Bodies -/

structure Entry where
  word : Bytes
  own : Option Command

/-- The rounds that read a window's body up to some draft, with the directives among them. -/
inductive Body (c : CompileContext) (s : CompileState) :
    List Entry → WindowDraft → CompileState → Prop where
  | start : Body c s [] {} s
  | other {es : List Entry} {w w' : WindowDraft} {token : Token} {t t' u : CompileState}
      (before : Body c s es w t) (first : (Lexer.peekNormal : Compiler Token) c t = .ok token t')
      (keyword : token.keyword? = none) (round : parseWindowRound w c t = .ok (.inl w') u) :
      Body c s es w' u
  | directive {es : List Entry} {w w' : WindowDraft} {token : Token} {t t' u : CompileState}
      {word : Bytes} {own : Option Command} (before : Body c s es w t)
      (first : (Lexer.peekNormal : Compiler Token) c t = .ok token t')
      (keyword : token.keyword? = some word) (round : parseWindowRound w c t = .ok (.inl w') u)
      (adds : Adds c word w own w') : Body c s (es ++ [⟨word, own⟩]) w' u

/-- The draft as the directives read so far have made it. -/
structure Tally (es : List Entry) (w : WindowDraft) : Prop where
  gains : WindowDraft.Gains {} (es.filterMap (·.own)) w
  said : ∀ u, es.countP (Unique.ofWord? ·.word = some u) = (w.said u).toNat
  background : w.hasBackground = es.any (·.word = utf8 "background")
  flags : w.flags &&& WindowFlags.noBackground = 0

variable {es : List Entry}

theorem Tally.start : Tally [] {} where
  gains := WindowDraft.gains_nil rfl
  said u := by cases u <;> rfl
  background := rfl
  flags := by decide

theorem Tally.other (h : Tally es w) (hbare : w'.bare = w.bare) : Tally es w' where
  gains code hcode := (congrArg (WindowDraft.collected · code) hbare).trans (h.gains code hcode)
  said u := by
    have hsaid : w'.bare.said u = w.bare.said u := congrArg (WindowDraft.said · u) hbare
    rw [h.said]
    exact congrArg Bool.toNat hsaid.symm
  background := (congrArg WindowDraft.hasBackground hbare).trans h.background
  flags := by
    have hflags : w'.bare.flags = w.bare.flags := congrArg WindowDraft.flags hbare
    exact (congrArg (· &&& WindowFlags.noBackground) hflags).trans h.flags

theorem Tally.directive {own' : Option Command} (h : Tally es w) (hadds : Adds c word w own w')
    (hdoes : Does c word w own' w') : Tally (es ++ [⟨word, own⟩]) w' where
  gains := by
    have hown : [Entry.mk word own].filterMap (·.own) = own.toList := by cases own <;> rfl
    rw [List.filterMap_append, hown]
    exact h.gains.trans hadds.gains
  said u := by
    rw [List.countP_append, h.said, List.countP_singleton, hdoes.said]
    by_cases hu : Unique.ofWord? word = some u
    · simp [hu, hdoes.fresh u hu]
    · simp [hu]
  background := by
    rw [hdoes.background, h.background]
    simp
  flags := hdoes.flags h.flags

theorem Body.tally (h : Body c s es w t) : Tally es w := by
  induction h with
  | start => exact .start
  | other before first keyword round ih =>
    obtain ⟨token, t, hpeek, hacts⟩ := gives_parseWindowRound_acts _ _ round
    obtain ⟨rfl, -⟩ : token = _ ∧ t = _ := by simpa [first] using hpeek.symm
    exact ih.other (hacts.other keyword)
  | directive before first keyword round adds ih =>
    obtain ⟨token, t, hpeek, hacts⟩ := gives_parseWindowRound_acts _ _ round
    obtain ⟨rfl, -⟩ : token = _ ∧ t = _ := by simpa [first] using hpeek.symm
    obtain ⟨own', hdoes⟩ := hacts.directive _ keyword
    exact ih.directive adds hdoes

/-- The loop over a body ends with a draft that its directives have made. -/
theorem gives_rounds_body : Gives (repeatFrom {} parseWindowRound) c s fun last t =>
    ∃ es u, Body c s es last.1 u ∧ parseWindowRound last.1 c u = .ok (.inr last) t := by
  refine .repeatFrom (I := fun w t => ∃ es, Body c s es w t) ⟨[], .start⟩ ?_
  rintro w t ⟨es, hbody⟩ r u hround
  obtain ⟨token, t', hpeek, hacts⟩ := gives_parseWindowRound_acts _ _ hround
  cases r with
  | inr last =>
    obtain ⟨rfl, -⟩ := hacts
    exact ⟨es, t, hbody, hround⟩
  | inl w' =>
    cases hword : token.keyword? with
    | none => exact ⟨es, hbody.other hpeek hword hround⟩
    | some word =>
      obtain ⟨own, hdoes⟩ := hacts.directive word hword
      exact ⟨_, hbody.directive hpeek hword hround hdoes.adds⟩

/-! ### Windows -/

end Compiler

namespace WindowDraft

variable {w : WindowDraft} {cs : List Command}

/-- The lists that the commands of a window are put together from. -/
theorem sorted_commands (h : Gains {} cs w) :
    ∃ lists : List (List Command), w.commands = lists.flatten ∧
    Sorted (· ∈ CommandCode.single) lists CommandCode.stored ∧
    lists[12]? = some (if w.storedFlags = 0 then [] else [Command.flags w.storedFlags]) ∧
    lists[14]? = some [Command.dimensions w.area] ∧
    lists[18]? = some (simple CommandCode.nextWindow w.nextWindow) ∧
    lists[13]? = some (if w.corners = ⟨0, 0, 0, 0⟩ then [] else [Command.background w.corners]) ∧
    lists[16]? = some w.images := by
  have hmade (made : UInt8) (hmember : made ∈ CommandCode.collected) :
      (∀ c ∈ w.collected made, c.code = made) ∧
        (made ∈ CommandCode.single → (w.collected made).length ≤ 1) := by
    constructor
    · intro c hc
      rw [h made hmember] at hc
      exact (show c ∈ cs ∧ c.code = made by simpa [collected] using hc).2
    · intro hsingle
      have hdisjoint : ∀ code ∈ CommandCode.collected, code ∉ CommandCode.single := by
        decide +kernel
      exact absurd hsingle (hdisjoint made hmember)
  have hslot {α : Type} {code : UInt8} (make : α → Command) (o : Option α)
      (hmake : ∀ a, (make a).code = code) : (∀ c ∈ (o.map make).toList, c.code = code) ∧
        (code ∈ CommandCode.single → (o.map make).toList.length ≤ 1) := by
    cases o with
    | none => simp
    | some a => simp [hmake]
  have hunless {p : Prop} [Decidable p] {c : Command} :
      (∀ c' ∈ (if p then [] else [c]), c'.code = c.code) ∧
        (c.code ∈ CommandCode.single → (if p then [] else [c]).length ≤ 1) := by
    split_ifs <;> simp
  refine ⟨_, rfl, ?_, rfl, rfl, rfl, rfl, rfl⟩
  refine .cons (hmade CommandCode.title (by decide)) <|
    .cons (hmade CommandCode.body (by decide)) <|
    .cons (hmade CommandCode.xyPrint (by decide)) <|
    .cons (hslot Command.cam w.cam fun _ => rfl) <|
    .cons (hslot Command.talk w.talk fun _ => rfl) <|
    .cons (hslot (Command.simpleText _) w.startConsole fun _ => rfl) <|
    .cons (hslot (Command.simpleText _) w.finishConsole fun _ => rfl) <|
    .cons (hslot (Command.switchRef _) w.startSwitch fun _ => rfl) <|
    .cons (hslot (Command.switchRef _) w.thinkSwitch fun _ => rfl) <|
    .cons (hslot (Command.switchRef _) w.finishSwitch fun _ => rfl) <|
    .cons (hslot (Command.simpleText _) w.style fun _ => rfl) <|
    .cons (hslot (Command.simpleText _) w.font fun _ => rfl) <|
    .cons hunless <| .cons hunless <| .cons (by simp [Command.code]) <|
    .cons (hmade CommandCode.subWindow (by decide)) <|
    .cons (hmade CommandCode.image (by decide)) <|
    .cons (hmade CommandCode.choice (by decide)) <|
    .cons (hslot (Command.simpleText _) w.nextWindow fun _ => rfl) .nil

theorem canonical_commands (h : Gains {} cs w) (label : Label) :
    (Window.mk label w.commands).Canonical := by
  obtain ⟨lists, hcommands, hsorted, -, hdimensions, -⟩ := sorted_commands h
  have hnodup : CommandCode.stored.Nodup := by decide +kernel
  have hranks : CommandCode.stored.Pairwise fun a b =>
      CommandCode.stored.idxOf a ≤ CommandCode.stored.idxOf b := by decide +kernel
  constructor
  · rw [hcommands]
    exact hsorted.code_mem
  · rw [hcommands]
    exact hsorted.pairwise hranks
  · rw [hcommands, List.countP_eq_length_filter, hsorted.filter_flatten hnodup hdimensions rfl]
    rfl
  · intro code hcode
    rw [hcommands]
    exact hsorted.countP_le hnodup hcode

theorem flags_mem_commands (h : Gains {} cs w) {bits : UInt32} :
    Command.flags bits ∈ w.commands ↔ bits = w.storedFlags ∧ w.storedFlags ≠ 0 := by
  obtain ⟨lists, hcommands, hsorted, hflags, -⟩ := sorted_commands h
  have hfilter := hsorted.filter_flatten (by decide +kernel) hflags rfl
  have hmem : Command.flags bits ∈ w.commands ↔
      Command.flags bits ∈ w.commands.filter (·.code = CommandCode.flags) := by
    simp [Command.code]
  rw [hmem, hcommands, hfilter]
  split_ifs with hzero <;> simp [hzero]

/-- The flag for a window without background is stored exactly for such a window. -/
theorem noBackground_iff (h : Gains {} cs w) (hflags : w.flags &&& WindowFlags.noBackground = 0) :
    (∃ bits, Command.flags bits ∈ w.commands ∧ bits &&& WindowFlags.noBackground ≠ 0) ↔
      w.hasBackground = false := by
  simp only [flags_mem_commands h]
  cases hbackground : w.hasBackground with
  | true =>
    have hstored : w.storedFlags = w.flags := if_pos hbackground
    simp [hstored, hflags]
  | false =>
    have hstored : w.storedFlags = w.flags ||| WindowFlags.noBackground :=
      if_neg (by simp [hbackground])
    have hbit : w.storedFlags &&& WindowFlags.noBackground = WindowFlags.noBackground := by
      rw [hstored, UInt32.and_comm, WindowFlags.and_or_distrib, UInt32.and_comm, hflags,
        UInt32.zero_or]
      rfl
    have hne : w.storedFlags ≠ 0 := by
      intro hzero
      rw [hzero] at hbit
      revert hbit
      decide
    refine iff_of_true ⟨_, ⟨rfl, hne⟩, ?_⟩ rfl
    rw [hbit]
    decide

end WindowDraft

namespace Compiler

variable {c : CompileContext} {s t : CompileState} {w : WindowDraft} {es : List Entry}

/-- The commands of a window as the directives of its body say. -/
structure MadeOf (es : List Entry) (window : Window) : Prop where
  order : ∀ code ∈ CommandCode.collected, window.commands.filter (·.code = code) =
    (es.filterMap (·.own)).filter (·.code = code)
  once : ∀ u, es.countP (Unique.ofWord? ·.word = some u) ≤ 1
  background : (∃ bits, Command.flags bits ∈ window.commands ∧
    bits &&& WindowFlags.noBackground ≠ 0) ↔ ∀ e ∈ es, e.word ≠ utf8 "background"

theorem Tally.madeOf (h : Tally es w) (label : Label) : MadeOf es ⟨label, w.commands⟩ where
  order _ hcode := WindowDraft.filter_commands h.gains hcode
  once u := by
    rw [h.said]
    exact Bool.toNat_le _
  background := by
    rw [WindowDraft.noBackground_iff h.gains h.flags, h.background]
    simp

theorem gives_compileWindow_madeOf : Gives compileWindow c s fun r t =>
    r.1.Canonical ∧ ∃ label start es draft u, parseWindowLine c s = .ok label start ∧
      Body c start es draft u ∧ parseWindowRound draft c u = .ok (.inr (draft, r.2)) t ∧
      MadeOf es r.1 := by
  refine .bind gives_run fun label t hlabel => .bind gives_run fun token u htoken => ?_
  refine .guard fun hends => .bind gives_rounds_body ?_
  rintro ⟨draft, afterHash⟩ v ⟨es, u', hbody, hround⟩
  have hline : parseWindowLine c s = .ok label u := by
    rw [parseWindowLine, bind_run hlabel, bind_run htoken, if_neg hends]
    rfl
  have htally := hbody.tally
  dsimp only
  split
  · exact .fail_bind
  · exact .pure ⟨WindowDraft.canonical_commands htally.gains label, label, u, es, draft, u', hline,
      hbody, hround, htally.madeOf label⟩

/-! ### Directives that come again -/

/-- A directive does not say again what has been said. -/
theorem Body.not_again {token : Token} {t' : CompileState} {word : Bytes} {u : Unique}
    (hbody : Body c s es w t) (hpeek : (Lexer.peekNormal : Compiler Token) c t = .ok token t')
    (hword : token.keyword? = some word) (hu : Unique.ofWord? word = some u)
    (hsaid : ∃ e ∈ es, Unique.ofWord? e.word = some u) :
    ∀ r v, parseWindowRound w c t ≠ .ok r v := by
  intro r v hround
  have hset : w.said u = true := by
    obtain ⟨e, he, heq⟩ := hsaid
    have hpos : 0 < es.countP (Unique.ofWord? ·.word = some u) :=
      List.countP_pos_iff.2 ⟨e, he, by simpa using heq⟩
    rw [hbody.tally.said] at hpos
    cases hw : w.said u with
    | true => rfl
    | false => simp [hw] at hpos
  obtain ⟨token, t, hpeek', hacts⟩ := gives_parseWindowRound_acts _ _ hround
  obtain ⟨rfl, -⟩ : token = _ ∧ t = _ := by simpa [hpeek] using hpeek'.symm
  cases r with
  | inr last =>
    obtain ⟨-, hnone⟩ := hacts
    rw [hnone] at hword
    cases hword
  | inl w' =>
    obtain ⟨own, hdoes⟩ := hacts.directive word hword
    rw [hdoes.fresh u hu] at hset
    cases hset

def Continues (c : CompileContext) (p q : WindowDraft × CompileState) : Prop :=
  parseWindowRound p.1 c p.2 = .ok (.inl q.1) q.2

theorem Body.continues (h : Body c s es w t) :
    Relation.ReflTransGen (Continues c) ({}, s) (w, t) := by
  induction h with
  | start => exact .refl
  | other before first keyword round ih => exact ih.tail round
  | directive before first keyword round adds ih => exact ih.tail round

/-- A body is not read beyond a round that fails. -/
theorem gives_rounds_false (hreach : Relation.ReflTransGen (Continues c) ({}, s) (w, t))
    (hround : ∀ r v, parseWindowRound w c t ≠ .ok r v) :
    Gives (repeatFrom {} parseWindowRound) c s fun _ _ => False := by
  refine .repeatFrom (I := fun w' t' => Relation.ReflTransGen (Continues c) (w', t') (w, t))
    hreach ?_
  intro w' t' hreach' r u hrun
  rcases hreach'.cases_head with heq | ⟨⟨w'', t''⟩, hstep, hrest⟩
  · obtain ⟨rfl, rfl⟩ := Prod.mk.inj heq
    exact (hround r u hrun).elim
  · obtain ⟨rfl, rfl⟩ : r = .inl w'' ∧ u = t'' := by
      simpa [Continues, hrun] using hstep
    exact hrest

theorem fails_compileWindow {label : Label} {start : CompileState}
    (hline : parseWindowLine c s = .ok label start)
    (hreach : Relation.ReflTransGen (Continues c) ({}, start) (w, t))
    (hround : ∀ r v, parseWindowRound w c t ≠ .ok r v) : ∃ e v, compileWindow c s = .error e v := by
  have hgives : Gives compileWindow c s fun _ _ => False := by
    refine .bind gives_run fun label' t' hlabel => .bind gives_run fun token u htoken => ?_
    refine .guard fun hends => .bind (P := fun _ _ => False) ?_ fun _ _ h => h.elim
    have hline' : parseWindowLine c s = .ok label' u := by
      rw [parseWindowLine, bind_run hlabel, bind_run htoken, if_neg hends]
      rfl
    obtain ⟨rfl, rfl⟩ : label = label' ∧ start = u := by simpa [hline] using hline'
    exact gives_rounds_false hreach hround
  cases hrun : compileWindow c s with
  | ok r v => exact (hgives r v hrun).elim
  | error e v => exact ⟨e, v, rfl⟩

/-- A window that compiles has its commands in their order, and each list of them as its directives
come. It says so if it has no background. A directive that would say again what can be said once is
an error. -/
theorem compileWindow_canonical (c : CompileContext) (s : CompileState) :
    (∀ window afterHash t, compileWindow c s = .ok (window, afterHash) t →
      window.Canonical ∧ ∃ label start es draft u, parseWindowLine c s = .ok label start ∧
        Body c start es draft u ∧
        parseWindowRound draft c u = .ok (.inr (draft, afterHash)) t ∧ MadeOf es window) ∧
    ∀ label start es w t token t' word u, parseWindowLine c s = .ok label start →
      Body c start es w t → (Lexer.peekNormal : Compiler Token) c t = .ok token t' →
      token.keyword? = some word → Unique.ofWord? word = some u →
      (∃ e ∈ es, Unique.ofWord? e.word = some u) → ∃ e v, compileWindow c s = .error e v := by
  refine ⟨fun window afterHash t h => gives_compileWindow_madeOf _ _ h, ?_⟩
  intro label start es w t token t' word u hline hbody hpeek hword hu hsaid
  exact fails_compileWindow hline hbody.continues (hbody.not_again hpeek hword hu hsaid)

def disorderedStart : CompileState :=
  ⟨.ofSource (utf8 " 1:1\nbody \"x\"\nstyle s\ntitle \"t\"\nbody \"y\"\n") [] true, [], 0, []⟩

def disorderedEnd : CompileState :=
  ⟨⟨⟨[], 0, ⟨[], 5, 0⟩⟩, true, [⟨.endOfFile, [], ⟨[], 5, 0⟩⟩], []⟩, [], 0, []⟩

def disorderedWindow : Window where
  id := 10001
  commands := [.formattedText 84 none [116] [], .formattedText 66 none [120] [],
    .formattedText 66 none [121] [], .simpleText 87 [115], .flags 2,
    .dimensions ⟨none, none, none, none⟩]

def returnStart : CompileState := ⟨.ofSource (utf8 " 1:1\nreturn\ngoto 1:1\n") [] true, [], 0, []⟩

/-- The source of that window from its second line on, with the given tokens before it. -/
def returnState (rest : String) (line column : Nat) (queue : List Token) : CompileState :=
  ⟨⟨⟨utf8 rest, (utf8 rest).length, ⟨[], line, column⟩⟩, true, queue, []⟩, [], 0, []⟩

theorem compileWindow_canonical_disordered :
    (compileWindow ⟨Options.defaults, 0⟩ disorderedStart =
        .ok (disorderedWindow, false) disorderedEnd ∧ disorderedWindow.Canonical) ∧
      ∃ e v, compileWindow ⟨Options.defaults, 0⟩ returnStart = .error e v := by
  have hrun : compileWindow ⟨Options.defaults, 0⟩ disorderedStart =
      .ok (disorderedWindow, false) disorderedEnd := by cbv
  refine ⟨⟨hrun, ((compileWindow_canonical _ _).1 _ _ _ hrun).1⟩, ?_⟩
  have hline : parseWindowLine ⟨Options.defaults, 0⟩ returnStart =
      .ok 10001 (returnState "return\ngoto 1:1\n" 1 0 []) := by cbv
  have hreturn : parseWindowRound {} ⟨Options.defaults, 0⟩
      (returnState "return\ngoto 1:1\n" 1 0 []) =
        .ok (.inl { nextWindow := some (utf8 "0:0") })
          (returnState "goto 1:1\n" 2 0 [⟨.endOfLine, [10], ⟨[], 1, 6⟩⟩]) := by cbv
  have hend : parseWindowRound { nextWindow := some (utf8 "0:0") } ⟨Options.defaults, 0⟩
      (returnState "goto 1:1\n" 2 0 [⟨.endOfLine, [10], ⟨[], 1, 6⟩⟩]) =
        .ok (.inl { nextWindow := some (utf8 "0:0") }) (returnState "goto 1:1\n" 2 0 []) := by cbv
  have hfirst : (Lexer.peekNormal : Compiler Token) ⟨Options.defaults, 0⟩
      (returnState "return\ngoto 1:1\n" 1 0 []) =
        .ok ⟨.identifier, utf8 "return", ⟨[], 1, 0⟩⟩ (returnState "\ngoto 1:1\n" 1 6
          [⟨.identifier, utf8 "return", ⟨[], 1, 0⟩⟩]) := by cbv
  have hagain : (Lexer.peekNormal : Compiler Token) ⟨Options.defaults, 0⟩
      (returnState "goto 1:1\n" 2 0 []) =
        .ok ⟨.identifier, utf8 "goto", ⟨[], 2, 0⟩⟩ (returnState " 1:1\n" 2 4
          [⟨.identifier, utf8 "goto", ⟨[], 2, 0⟩⟩]) := by cbv
  have hbody : Body ⟨Options.defaults, 0⟩ (returnState "return\ngoto 1:1\n" 1 0 [])
      [⟨utf8 "return", none⟩] { nextWindow := some (utf8 "0:0") }
      (returnState "goto 1:1\n" 2 0 []) :=
    (Body.start.directive hfirst rfl hreturn (.none rfl (Or.inl rfl))).other rfl rfl hend
  exact (compileWindow_canonical _ _).2 _ _ _ _ _ _ _ _ .nextWindow hline hbody hagain rfl rfl
    ⟨_, List.mem_singleton_self _, rfl⟩

end Compiler

end ApeScript
