import ApeScript.Compile.Program
import ApeScript.Proofs.Spelling

/-!
# Scripts of one window

A window's directives stand on lines of their own, and each line takes what the window has said so
far a step further. `rounds_directive` gives the step of one line, from what the directive reads
after its keyword, and `compile_windowScript` the file of a script with one window, from the steps
of its lines.
-/

namespace ApeScript

inductive Spot.EndsLine (rest : Bytes) : Spot → Prop where
  | unread : EndsLine rest ⟨[], 10 :: rest⟩
  | seen : EndsLine rest ⟨[(.endOfLine, [10])], rest⟩

/-- Nothing, or a text after a blank. -/
def Spaced (s : Bytes) : Prop := s.head? = none ∨ s.head? = some 32

namespace Spaced

variable {s t : Bytes}

theorem nil : Spaced [] := .inl rfl

theorem blank (s : Bytes) : Spaced (32 :: s) := .inr rfl

theorem append (hs : Spaced s) (ht : Spaced t) : Spaced (s ++ t) := by
  cases s with
  | nil => exact ht
  | cons => exact hs

/-- An identifier ends where such a text or the end of the line follows it. -/
theorem delimits (hs : Spaced s) (rest : Bytes) :
    ∀ b ∈ (s ++ 10 :: rest).head?, isIdentifierByte b = false := by
  intro b hb
  cases s with
  | nil =>
    cases hb
    rfl
  | cons a s =>
    cases hb
    rcases hs with h | h
    · cases h
    · cases h
      rfl

end Spaced

/-- Outside all conditions, with none closed just before. -/
structure WindowDraft.Flat (w : WindowDraft) : Prop where
  blocks : w.blocks = []
  closed : w.closed = []

namespace Compiler

open Lexer

variable {c : CompileContext} {p q : Spot} {w w' : WindowDraft} {rest : Bytes}

theorem succeeds_peek_endsLine (h : p.EndsLine rest) :
    Succeeds peekNormal (At p) (At ⟨[(.endOfLine, [10])], rest⟩)
      (·.lexeme = (.endOfLine, [10])) := by
  cases h with
  | unread => exact succeeds_peek rfl
  | seen => exact succeeds_peek_queued

theorem reads_atLineEnd (h : p.EndsLine rest) :
    Reads atLineEnd c p ⟨[(.endOfLine, [10])], rest⟩ (· = true) := by
  refine .bind (.lift (succeeds_peek_endsLine h)) fun token ht => ?_
  have htype : token.type = .endOfLine := congrArg Prod.fst ht
  rw [htype]
  exact .pure rfl

/-! ### Loops up to the end of a line -/

section

variable {α σ : Type} {step : σ → Compiler (σ ⊕ α)} {s s' : σ} {a : α} {text tail : Bytes}

/-- From a state, a loop reads a text up to the end of its line and gives a result. -/
def Finishes (step : σ → Compiler (σ ⊕ α)) (c : CompileContext) (text : Bytes) (s : σ) (a : α) :
    Prop :=
  ∀ rest, Reads (repeatWithin step (Spot.mk [] (text ++ 10 :: rest)).remaining s) c
    ⟨[], text ++ 10 :: rest⟩ ⟨[(.endOfLine, [10])], rest⟩ (· = a)

theorem Finishes.stop
    (h : ∀ rest, Reads (step s) c ⟨[], 10 :: rest⟩ ⟨[(.endOfLine, [10])], rest⟩ (· = .inr a)) :
    Finishes step c [] s a :=
  fun rest => .stop (h rest)

theorem Finishes.round (htext : text ≠ [])
    (h : ∀ rest, Reads (step s) c ⟨[], text ++ (tail ++ 10 :: rest)⟩ ⟨[], tail ++ 10 :: rest⟩
      (· = .inl s')) (htail : Finishes step c tail s' a) :
    Finishes step c (text ++ tail) s a := by
  intro rest
  rw [List.append_assoc]
  refine .goOn (h rest) (Or.inl ?_) (htail rest)
  have := List.length_pos_iff.2 htext
  simp [Spot.remaining]
  omega

theorem Finishes.reads (h : Finishes step c text s a) (rest : Bytes) :
    Reads (repeatFrom s step) c ⟨[], text ++ 10 :: rest⟩ ⟨[(.endOfLine, [10])], rest⟩ (· = a) :=
  .repeatFrom (h rest)

end

/-! ### Lines -/

/-- One round of reading a window's body. -/
def parseWindowRound (w : WindowDraft) : Compiler (WindowDraft ⊕ (WindowDraft × Bool)) := do
  let token ← Lexer.peekNormal
  match token.type with
  | .hash =>
    Lexer.consume
    if ← parseDefine then return .inl w
    return .inr (w, true)
  | .endOfFile => return .inr (w, false)
  | _ =>
    Lexer.consume
    return .inl (← parseDirective w token)

theorem reads_parseWindowRound {k : Lexeme} {ks : List Lexeme}
    (hpeek : Succeeds peekNormal (At p) (At ⟨k :: ks, rest⟩) (·.lexeme = k)) (hhash : k.1 ≠ .hash)
    (hend : k.1 ≠ .endOfFile)
    (hdirective : ∀ loc, Reads (parseDirective w ⟨k.1, k.2, loc⟩) c ⟨ks, rest⟩ q (· = w')) :
    Reads (parseWindowRound w) c p q (· = .inl w') := by
  refine .bind (.lift hpeek) fun token ht => ?_
  obtain ⟨type, word, loc⟩ := token
  cases ht
  simp only
  split
  · contradiction
  · contradiction
  · refine .bind (.lift succeeds_consume) fun _ _ => .bind (hdirective loc) ?_
    rintro _ rfl
    exact .pure rfl

theorem reads_parseWindowRound_end :
    Reads (parseWindowRound w) c ⟨[], []⟩ ⟨[(.endOfFile, [])], []⟩ (· = .inr (w, false)) := by
  refine .bind (.lift (succeeds_peek rfl)) fun token ht => ?_
  have htype : token.type = .endOfFile := congrArg Prod.fst ht
  rw [htype]
  exact .pure rfl

theorem reads_parseWindowRound_line (h : p.EndsLine rest) :
    Reads (parseWindowRound w) c p ⟨[], rest⟩ (· = .inl w) :=
  reads_parseWindowRound (succeeds_peek_endsLine h) nofun nofun fun _ => .pure rfl

/-- An empty line says nothing. -/
theorem rounds_line : Rounds parseWindowRound c [10] w w :=
  .round (by simp) fun _ => reads_parseWindowRound_line .unread

/-- A directive outside all conditions does what its command does. -/
theorem reads_parseDirective (hw : w.closed = []) (hw' : w'.blocks = []) {word : Bytes}
    {loc : Location} (helse : word ≠ utf8 "else") (hif : word ≠ utf8 "if") (hq : q.EndsLine rest)
    (hcommand : Reads (parseCommand w ⟨.identifier, word, loc⟩) c p q (· = w')) :
    Reads (parseDirective w ⟨.identifier, word, loc⟩) c p ⟨[(.endOfLine, [10])], rest⟩
      (· = w') := by
  have hopen : { w with closed := [] } = w := by rw [← hw]
  have hdone : w'.markUsed.closeUnbraced = w' := by
    cases w'
    simp_all [WindowDraft.markUsed, WindowDraft.closeUnbraced]
  simp only [parseDirective, reduceCtorEq, if_false, Token.is, decide_true, Bool.true_and, helse,
    hif, decide_false, Bool.false_eq_true, ne_eq, not_true_eq_false, hopen]
  refine .bind hcommand ?_
  rintro _ rfl
  refine .bind (.lift (succeeds_peek_endsLine hq)) fun next hnext => ?_
  have htype : next.type = .endOfLine := congrArg Prod.fst hnext
  rw [htype]
  exact .pure hdone

def isKeyword (word : Bytes) : Bool :=
  word.all isIdentifierByte && word.head?.any (!Bytes.isDigit ·) && word != utf8 "else" &&
    word != utf8 "if"

/-- The line of a directive: its keyword, and what its command reads. -/
theorem rounds_directive (hw : w.Flat) (hw' : w'.Flat) {word args : Bytes}
    (hword : isKeyword word = true) (command : Location → Compiler WindowDraft)
    (hparse : ∀ loc, parseCommand w ⟨.identifier, word, loc⟩ = command loc)
    (hargs : Spaced args)
    (hcommand : ∀ loc rest, ∃ q, Spot.EndsLine rest q ∧
      Reads (command loc) c ⟨[], args ++ 10 :: rest⟩ q (· = w')) :
    Rounds parseWindowRound c (word ++ args ++ [10]) w w' := by
  intro rest r P hrest
  simp only [isKeyword, Bool.and_eq_true, bne_iff_ne, and_assoc] at hword
  obtain ⟨hbytes, hstart, helse, hif⟩ := hword
  have hfirst : first? .normal {} (word ++ (args ++ 10 :: rest)) =
      some ((.identifier, word), args ++ 10 :: rest) :=
    first?_identifier (.of_all (by simp [hbytes, hstart])) (hargs.delimits rest)
  have hround : Reads (parseWindowRound w) c ⟨[], word ++ (args ++ 10 :: rest)⟩
      ⟨[(.endOfLine, [10])], rest⟩ (· = .inl w') := by
    refine reads_parseWindowRound (succeeds_peek hfirst) nofun nofun fun loc => ?_
    obtain ⟨q, hq, hreads⟩ := hcommand loc rest
    rw [← hparse] at hreads
    exact reads_parseDirective hw.closed hw'.blocks helse hif hq hreads
  have htext : word ++ args ++ [10] ++ rest = word ++ (args ++ 10 :: rest) := by simp
  rw [htext]
  -- the directive, then the end of its line, which has been looked at
  refine .goOn hround ?_ (.goOn (reads_parseWindowRound_line .seen) ?_ hrest)
  · left
    simp [Spot.remaining]
    omega
  · right
    simp [Spot.remaining]

/-! ### The window and the script -/

theorem reads_parseDefinitionLabel {label : Label} (hlabel : label.isInline = false)
    (hzero : label ≠ 0) : Reads parseDefinitionLabel c ⟨[], 32 :: (label.text ++ 10 :: rest)⟩
      ⟨[], 10 :: rest⟩ (· = label) := by
  refine .bind (.lift (succeeds_peek (first?_label label))) fun first _ => ?_
  refine .bind (reads_parseLabel hlabel succeeds_read_queued) ?_
  rintro _ rfl
  rw [if_neg hzero]
  exact .pure rfl

theorem reads_compileWindow {label : Label} (hlabel : label.isInline = false) (hzero : label ≠ 0)
    {lines : Bytes} (hlines : Rounds parseWindowRound c lines {} w) (hw : w.blocks = []) :
    Reads compileWindow c ⟨[], 32 :: (label.text ++ 10 :: lines)⟩ ⟨[(.endOfFile, [])], []⟩
      (· = (⟨label, w.commands⟩, false)) := by
  refine .bind (reads_parseDefinitionLabel hlabel hzero) ?_
  rintro _ rfl
  refine .bind (.lift (succeeds_read rfl)) fun token ht => ?_
  have htype : token.type = .endOfLine := congrArg Prod.fst ht
  rw [htype]
  have hrounds := hlines.reads reads_parseWindowRound_end
  rw [List.append_nil] at hrounds
  refine .bind hrounds ?_
  rintro _ rfl
  simp only [hw]
  exact .pure rfl

def parseProgramRound (p : ProgramDraft) : Compiler (ProgramDraft ⊕ ProgramDraft) := do
  if !p.afterHash then
    if !(← findHash) then return .inr p
  return .inl (← parseTopDirective p)

theorem reads_findHash : Reads findHash c ⟨[], 35 :: rest⟩ ⟨[], rest⟩ (· = true) := by
  refine .bind (.lift (succeeds_skipLineEnds (succeeds_peek rfl) nofun)) fun _ _ => ?_
  refine .bind (.lift succeeds_read_queued) fun token ht => ?_
  have htype : token.type = .hash := congrArg Prod.fst ht
  rw [htype]
  exact .pure rfl

theorem reads_findHash_end :
    Reads findHash c ⟨[(.endOfFile, [])], []⟩ ⟨[], []⟩ (· = false) := by
  refine .bind (.lift (succeeds_skipLineEnds succeeds_peek_queued nofun)) fun _ _ => ?_
  refine .bind (.lift succeeds_read_queued) fun token ht => ?_
  have htype : token.type = .endOfFile := congrArg Prod.fst ht
  rw [htype]
  exact .pure rfl

/-- A script that holds a window and nothing else. -/
theorem succeeds_compileProgram {window : Window} {text : Bytes}
    (htop : c.options.legacyTopLevel = false)
    (hwindow : Reads compileWindow c ⟨[], 32 :: text⟩ ⟨[(.endOfFile, [])], []⟩
      (· = (window, false))) (base : CompileState) :
    Succeeds (compileProgram c) (StandsAt base ⟨[], utf8 "#window " ++ text⟩)
      (StandsAt base ⟨[], []⟩) (· = ⟨[window], base.inline⟩) := by
  have htext : utf8 "#window " ++ text = 35 :: (utf8 "window" ++ 32 :: text) := rfl
  have hdirective : Reads (parseTopDirective {}) c ⟨[], utf8 "window" ++ 32 :: text⟩
      ⟨[(.endOfFile, [])], []⟩ (· = { windows := [window] }) := by
    refine .bind (.lift (succeeds_read rfl)) fun kind hkind => ?_
    obtain ⟨type, word, loc⟩ := kind
    cases hkind
    refine .bind hwindow ?_
    rintro _ rfl
    exact .pure rfl
  have hround : Reads (parseProgramRound {}) c ⟨[], 35 :: (utf8 "window" ++ 32 :: text)⟩
      ⟨[(.endOfFile, [])], []⟩ (· = .inl { windows := [window] }) := by
    refine .bind reads_findHash ?_
    rintro _ rfl
    refine .bind hdirective ?_
    rintro _ rfl
    exact .pure rfl
  have hend : Reads (parseProgramRound { windows := [window] }) c
      ⟨[(.endOfFile, [])], []⟩ ⟨[], []⟩ (· = .inr { windows := [window] }) := by
    refine .bind reads_findHash_end ?_
    rintro _ rfl
    exact .pure rfl
  have hrounds : Reads (repeatFrom {} parseProgramRound) c
      ⟨[], 35 :: (utf8 "window" ++ 32 :: text)⟩ ⟨[], []⟩ (· = { windows := [window] }) := by
    refine .repeatFrom (.goOn hround ?_ (.stop hend))
    left
    simp [Spot.remaining]
  rw [htext]
  refine succeeds_bind (Reads.options base) ?_
  rintro _ rfl
  simp only [htop, Bool.false_eq_true, if_false]
  refine succeeds_bind (hrounds base) ?_
  rintro _ rfl
  refine succeeds_bind (P := (·.inline = base.inline)) ?_ fun s hs => .pure ?_
  · intro s hs
    have hinline : s.inline = base.inline := by rw [hs.2]
    exact ⟨s, s, rfl, hinline, hs⟩
  · rw [hs]
    rfl

end Compiler

/-- A text without carriage returns is left as it is. -/
theorem normalizeNewlines_eq_self {s : Bytes} (h : 13 ∉ s) :
    Preprocess.normalizeNewlines s = s := by
  have hkeep : ∀ p ∈ s.zip (s.drop 1 ++ [(0 : UInt8)]),
      (if p.1 = 13 then (if p.2 = 10 then none else some 10) else some p.1) = some p.1 := by
    intro p hp
    have hne : p.1 ≠ 13 := fun heq => h (heq ▸ (List.of_mem_zip hp).1)
    rw [if_neg hne]
  unfold Preprocess.normalizeNewlines
  rw [List.filterMap_congr hkeep]
  change List.filterMap (some ∘ Prod.fst) _ = s
  rw [List.filterMap_eq_map, List.map_fst_zip]
  simp
  omega

def windowScript (label : Label) (lines : Bytes) : Bytes :=
  utf8 "#window " ++ (label.text ++ 10 :: lines)

theorem compile_windowScript {label : Label} (hlabel : label.isInline = false) (hzero : label ≠ 0)
    {lines : Bytes} {w : WindowDraft} (hw : w.blocks = [])
    (hlines : Compiler.Rounds Compiler.parseWindowRound ⟨Options.defaults, 0⟩ lines {} w)
    (hreturn : 13 ∉ lines) :
    (compile (windowScript label lines) Options.defaults).result =
      .ok ⟨[⟨label, w.commands⟩], []⟩ := by
  have hscript : 13 ∉ windowScript label lines := by
    have hstart : 13 ∉ utf8 "#window " := by decide
    simp [windowScript, label.text_not_mem_return, hstart, hreturn]
  have hstart : Compiler.StandsAt ⟨.ofSource (windowScript label lines) [] true, [], 0, []⟩
      ⟨[], windowScript label lines⟩ ⟨.ofSource (windowScript label lines) [] true, [], 0, []⟩ :=
    ⟨⟨rfl, rfl, rfl, rfl, rfl⟩, rfl⟩
  obtain ⟨_, t, hrun, rfl, -⟩ := Compiler.succeeds_compileProgram rfl
    (Compiler.reads_compileWindow hlabel hzero hlines hw) _ _ hstart
  have hprepared : prepareSource Options.defaults (windowScript label lines) =
      .ok (windowScript label lines) :=
    congrArg Except.ok (normalizeNewlines_eq_self hscript)
  have hhash : effectiveHash Options.defaults = .ok 0 := rfl
  have heffective : Options.defaults.effective = Options.defaults := rfl
  simp only [compile, heffective, hhash, hprepared]
  rw [show Options.defaults.allowExpFloats = true from rfl,
    show Options.defaults.file = [] from rfl, hrun]
  dsimp only
  -- warnings are reported and change nothing
  split
  · rfl
  · rfl

end ApeScript
