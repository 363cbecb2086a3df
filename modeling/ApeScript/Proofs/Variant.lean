import ApeScript.Compile.WindowBody
import ApeScript.Proofs.Contract

/-!
# A compilation and its variants

A `Variant` of a compilation permits at least as much, and may name the script otherwise and number
the inline switches by another hash. `Variant.Carries V x y R` says that whenever `x` succeeds in
the compilation, `y` succeeds in the variant from the corresponding state, ends in the corresponding
state and gives a result related by `R`. `Variant.Agrees V x P` is the case of one reader whose two
results are equal; tokens and places are those of the other file. There is a rule for each way in
which compilers are put together. A check that the variant makes more rarely needs no more than the
same check: it did not fail in the first place.
-/

namespace ApeScript

/-! ### Places in another file -/

/-- The same line and column in another file. -/
def Location.inFile (file : Bytes) (l : Location) : Location := { l with file := file }

theorem Location.inFile_advance (file : Bytes) (l : Location) (s : Bytes) :
    (l.advance s).inFile file = (l.inFile file).advance s := by
  induction s generalizing l with
  | nil => rfl
  | cons b s ih =>
    have hafter : (l.after b).inFile file = (l.inFile file).after b := by
      unfold after
      split <;> rfl
    exact (ih (l.after b)).trans (congrArg (advance · s) hafter)

def Token.inFile (file : Bytes) (t : Token) : Token := { t with loc := t.loc.inFile file }

/-! ### Reading with exponents -/

namespace Scan

/-- A number that ends well where exponents are not allowed ends there where they are. -/
theorem numberFrom_done {step : NumberStep} {size n : Nat} {s : Bytes}
    (h : numberFrom false step size s = .done n) (e : Bool) :
    numberFrom e step size s = .done n := by
  induction s generalizing step size with
  | nil => exact h
  | cons b rest ih =>
    have hletter (hid : ¬ isIdentifierByte b) : ¬ (b = 101 || b = 69) := by
      intro hb
      obtain rfl | rfl : b = 101 ∨ b = 69 := by simpa using hb
      · exact hid (by decide)
      · exact hid (by decide)
    unfold numberFrom at h ⊢
    by_cases hdigit : Bytes.isDigit b
    · rw [if_pos hdigit] at h ⊢
      exact ih h
    · rw [if_neg hdigit, if_neg (by simp)] at h
      rw [if_neg hdigit]
      by_cases hid : isIdentifierByte b
      · rw [if_pos hid] at h
        cases h
      · rw [if_neg hid] at h
        rw [if_neg (by simp [hletter hid]), if_neg hid]
        by_cases hpoint : b = 46
        · rw [if_pos hpoint] at h ⊢
          split at h
          · rw [if_pos ‹_›]
            exact ih h
          · cases h
        · rw [if_neg hpoint] at h ⊢
          split at h
          · rw [if_pos ‹_›]
            exact ih h
          · rw [if_neg ‹_›]
            exact h

theorem number_done {exponents : Bool} {s : Bytes} {n : Nat} (h : number exponents s = .done n)
    (e : Bool) : number (exponents || e) s = .done n := by
  cases exponents with
  | true => exact h
  | false => exact numberFrom_done h e

end Scan

namespace Lexer

variable {α β γ δ : Type} {file : Bytes} {e : Bool}

/-- The lexer in another file, with exponents allowed as well if `e` says so. -/
def wide (l : Lexer) (file : Bytes) (e : Bool) : Lexer where
  cursor := { l.cursor with loc := l.cursor.loc.inFile file }
  exponents := l.exponents || e
  queue := l.queue.map (Token.inFile file)
  macros := l.macros.map fun m => (m.1, m.2.map (Token.inFile file))

theorem remaining_wide (l : Lexer) : (l.wide file e).remaining = l.remaining := by
  simp only [remaining, wide, List.countP_map]
  rfl

theorem body?_wide (l : Lexer) (name : Bytes) :
    (l.wide file e).body? name = (l.body? name).map (List.map (Token.inFile file)) := by
  simp [body?, wide, List.find?_map, Function.comp_def]

theorem nextIsQuote_wide (l : Lexer) : (l.wide file e).nextIsQuote = l.nextIsQuote := by
  unfold nextIsQuote
  have hqueue : (l.wide file e).queue = l.queue.map (Token.inFile file) := rfl
  rw [hqueue]
  cases l.queue <;> rfl

/-- What `x` reads, `y` reads in another file, where exponents may be allowed as well. -/
def Widens (file : Bytes) (e : Bool) (x : Lex α) (y : Lex β) (f : α → β) : Prop :=
  ∀ l a m, x l = .ok a m → y (l.wide file e) = .ok (f a) (m.wide file e)

namespace Widens

variable {x x' : Lex α} {y y' : Lex β} {k : α → Lex γ} {k' : β → Lex δ} {f : α → β} {g : γ → δ}

theorem pure {a : α} {b : β} (h : b = f a) : Widens file e (pure a) (pure b) f := by
  rintro l _ _ ⟨⟩
  rw [h]
  rfl

theorem fail {loc : Location} {cause : Cause} : Widens file e (fail loc cause) y f := nofun

theorem get {k : Lexer → Lex γ} {k' : Lexer → Lex δ}
    (hk : ∀ l : Lexer, Widens file e (k l) (k' (l.wide file e)) g) :
    Widens file e (get >>= k) (get >>= k') g := by
  intro l b m h
  exact hk l l b m h

theorem modify {f f' : Lexer → Lexer} (hf : ∀ l : Lexer, (f l).wide file e = f' (l.wide file e)) :
    Widens file e (modify f) (modify f') id := by
  rintro l _ _ ⟨⟩
  exact congrArg (EStateM.Result.ok PUnit.unit) (hf l).symm

theorem bind (hx : Widens file e x y f) (hk : ∀ a, Widens file e (k a) (k' (f a)) g) :
    Widens file e (x >>= k) (y >>= k') g := by
  intro l b m h
  change EStateM.bind x k l = .ok b m at h
  change EStateM.bind y k' (l.wide file e) = .ok (g b) (m.wide file e)
  rw [EStateM.bind] at h ⊢
  cases hl : x l with
  | ok a n =>
    rw [hl] at h
    rw [hx l a n hl]
    exact hk a n b m h
  | error err n =>
    rw [hl] at h
    cases h

theorem ite {p : Prop} [Decidable p] (hx : Widens file e x y f) (hx' : Widens file e x' y' f) :
    Widens file e (if p then x else x') (if p then y else y') f := by
  split
  · exact hx
  · exact hx'

theorem dite {p : Prop} [Decidable p] {x : p → Lex α} {x' : ¬ p → Lex α} {y : p → Lex β}
    {y' : ¬ p → Lex β} (hx : ∀ h, Widens file e (x h) (y h) f)
    (hx' : ∀ h, Widens file e (x' h) (y' h) f) :
    Widens file e (if h : p then x h else x' h) (if h : p then y h else y' h) f := by
  split
  · apply hx
  · apply hx'

/-- A check that fails when `p` holds, and what follows it. -/
theorem guard {p : Prop} [Decidable p] {loc : Location} {cause : Cause} {w : Lex γ} {z z' : Lex δ}
    (hz : Widens file e w z' g) :
    Widens file e (if p then Lexer.fail loc cause >>= k else w) (if p then z else z') g :=
  ite nofun hz

end Widens

theorem advance_widens {size : Nat} : Widens file e (advance size) (advance size) id := by
  refine .modify fun l => ?_
  simp only [wide, Cursor.advance, Location.inFile_advance]

theorem take_widens {type : TokenType} {outcome outcome' : Scan.Outcome}
    (h : ∀ n, outcome = .done n → outcome' = .done n) :
    Widens file e (take type outcome) (take type outcome') (Token.inFile file) := by
  refine .get fun l => ?_
  cases outcome with
  | done size =>
    rw [h size rfl]
    exact .bind advance_widens fun _ => .pure rfl
  | failed size cause atStart =>
    intro l' a m hrun
    change EStateM.bind (advance size) _ l' = .ok a m at hrun
    cases atStart <;> cases hrun

theorem lexRaw_widens {flags : ReadFlags} :
    Widens file e (lexRaw flags) (lexRaw flags) (Token.inFile file) := by
  refine .get fun l => .bind (take_widens fun _ h => h) fun token => .ite (.pure rfl) ?_
  refine .get fun l => ?_
  have hbody : (l.wide file e).body? (token.inFile file).text =
      (l.body? token.text).map (List.map (Token.inFile file)) := body?_wide ..
  rw [hbody]
  rcases l.body? token.text with _ | _ | ⟨first, _ | ⟨second, more⟩⟩
  · exact .pure rfl
  · exact .pure rfl
  · exact .pure rfl
  · exact .pure rfl

theorem lexQuoted_widens {flags : ReadFlags} :
    Widens file e (lexQuoted flags) (lexQuoted flags) (Token.inFile file) :=
  .get fun _ => take_widens fun _ h => h

theorem lexNormal_widens {flags : ReadFlags} : Widens file e (lexNormal flags) (lexNormal flags)
    (Prod.map (Token.inFile file) (Option.map (List.map (Token.inFile file)))) := by
  refine .get fun l => ?_
  have hrest : (l.wide file e).cursor.rest = l.cursor.rest := rfl
  rw [hrest]
  split
  · exact .pure rfl
  · refine .ite (.bind (take_widens fun n h => Scan.number_done h e) fun _ => .pure rfl) ?_
    refine .ite (.bind (take_widens fun _ h => h) fun token => .pure ?_) ?_
    · refine Prod.ext rfl ?_
      change (if flags.noMacros then none else (l.wide file e).body? token.text) =
        (if flags.noMacros then none else l.body? token.text).map (List.map (Token.inFile file))
      rw [body?_wide]
      split <;> rfl
    refine .ite (.bind lexQuoted_widens fun _ => .pure rfl) ?_
    exact .bind (take_widens fun _ h => h) fun _ => .pure rfl

theorem lexWithin_widens {mode : ReadMode} {flags : ReadFlags} {fuel : Nat} :
    Widens file e (lexWithin mode flags fuel) (lexWithin mode flags fuel) (Token.inFile file) := by
  induction fuel generalizing mode with
  | zero => exact .bind (f := Location.inFile file) (.get fun _ => .pure rfl) fun _ => .pure rfl
  | succ fuel ih =>
    unfold lexWithin
    refine .get fun l => .bind advance_widens fun _ => .get fun l => ?_
    have hrest : (l.wide file e).cursor.rest = l.cursor.rest := rfl
    rw [hrest]
    split
    · exact .guard (.pure rfl)
    · exact take_widens fun _ h => h
    · cases mode with
      | raw => exact lexRaw_widens
      | quoted => exact lexQuoted_widens
      | normal =>
        refine .bind lexNormal_widens ?_
        rintro ⟨token, _ | _ | ⟨first, more⟩⟩
        · exact .pure rfl
        · exact ih
        · refine .bind (.modify fun l => ?_) fun _ => .pure rfl
          simp [wide, Token.inFile, Function.comp_def]

theorem read_widens {mode : ReadMode} {flags : ReadFlags} :
    Widens file e (read mode flags) (read mode flags) (Token.inFile file) := by
  refine .get fun l => ?_
  have hqueue : (l.wide file e).queue = l.queue.map (Token.inFile file) := rfl
  rw [hqueue]
  cases l.queue with
  | cons token rest => exact .bind (.modify fun _ => rfl) fun _ => .pure rfl
  | nil => exact .get fun _ => lexWithin_widens

theorem peek_widens {mode : ReadMode} {flags : ReadFlags} :
    Widens file e (peek mode flags) (peek mode flags) (Token.inFile file) := by
  refine .get fun l => ?_
  have hqueue : (l.wide file e).queue = l.queue.map (Token.inFile file) := rfl
  rw [hqueue]
  cases l.queue with
  | cons token rest => exact .pure rfl
  | nil =>
    exact .bind (.get fun _ => lexWithin_widens) fun _ =>
      .bind (.modify fun _ => rfl) fun _ => .pure rfl

theorem consume_widens : Widens file e consume consume id :=
  .modify fun l => by simp [wide]

theorem expect_widens {type : TokenType} :
    Widens file e (expect type) (expect type) (Token.inFile file) :=
  .bind read_widens fun _ => .ite (.pure rfl) .fail

theorem skipLineEnds_widens : Widens file e skipLineEnds skipLineEnds id := by
  refine .get fun l => ?_
  rw [remaining_wide]
  induction l.remaining using skipLineEndsWithin.induct with
  | case1 bound ih =>
    rw [skipLineEndsWithin]
    refine .bind peek_widens fun token => .ite ?_ (.pure rfl)
    refine .bind consume_widens fun _ => .get fun l => ?_
    rw [remaining_wide]
    exact .dite (fun less => ih l less) fun _ => .fail

theorem macroBodyWithin_widens {bound : Remaining} : Widens file e (macroBodyWithin bound)
    (macroBodyWithin bound) (List.map (Token.inFile file)) := by
  induction bound using macroBodyWithin.induct with
  | case1 bound ih =>
    rw [macroBodyWithin]
    refine .bind peek_widens fun token => .ite (.pure rfl) ?_
    refine .bind consume_widens fun _ => .get fun l => ?_
    rw [remaining_wide]
    exact .dite (fun less => .bind (ih l less) fun _ => .pure rfl) fun _ => .fail

theorem defineMacro_widens : Widens file e defineMacro defineMacro id := by
  refine .bind read_widens fun name => .guard (.get fun l => ?_)
  have hsome : ((l.wide file e).body? (name.inFile file).text).isSome =
      (l.body? name.text).isSome := by
    rw [show (name.inFile file).text = name.text from rfl, body?_wide, Option.isSome_map]
  rw [hsome]
  refine .guard (.get fun l => ?_)
  rw [remaining_wide]
  exact .bind macroBodyWithin_widens fun _ => .modify fun l => by simp [wide, Token.inFile]

end Lexer

/-! ### Labels under another hash -/

namespace Label

/-- The label of an inline switch under another hash. Any other label stays. -/
def rehash (hash hash' : Nat) (l : Label) : Label :=
  if l.isInline then
    l - UInt32.ofNat (hash * Compiler.maxInline) + UInt32.ofNat (hash' * Compiler.maxInline)
  else l

variable {hash hash' i : Nat} {l : Label}

theorem rehash_of_lt (h : l.toNat < inlineBase) : l.rehash hash hash' = l := by
  simp [rehash, isInline, h]

theorem rehash_self : l.rehash hash hash = l := by
  unfold rehash
  split
  · exact UInt32.sub_add_cancel ..
  · rfl

end Label

def Switch.rehash (hash hash' : Nat) (s : Switch) : Switch :=
  { s with label := s.label.rehash hash hash' }

/-! ### Variants -/

/-- Another compilation that permits at least as much, and what is recorded about the states that
the first one goes through. -/
structure Variant where
  context : CompileContext
  file : Bytes
  given : Option UInt32
  hash : Nat
  malformed : Bool
  exponents : Bool
  emptyBlocks : Bool
  Holds : CompileState → Prop
  reading : ∀ {s}, Holds s → ∀ lexer warnings,
    Holds { s with lexer := lexer, warnings := warnings }

namespace Variant

def other (V : Variant) : CompileContext where
  options :=
    { V.context.options with
      file := V.file
      hash := V.given
      allowMalformedExprs := V.context.options.allowMalformedExprs || V.malformed
      allowExpFloats := V.context.options.allowExpFloats || V.exponents
      allowEmptyBlocks := V.context.options.allowEmptyBlocks || V.emptyBlocks }
  hash := V.hash

def label (V : Variant) (l : Label) : Label := l.rehash V.context.hash V.hash

def place (V : Variant) (loc : Location) : Location := loc.inFile V.file

def token (V : Variant) (t : Token) : Token := t.inFile V.file

def state (V : Variant) (s : CompileState) : CompileState where
  lexer := s.lexer.wide V.file V.exponents
  warnings := s.warnings.map (Prod.map V.place id)
  inlineCount := s.inlineCount
  inline := s.inline.map (Switch.rehash V.context.hash V.hash)

variable {α β γ δ : Type} {V : Variant}

def Carries (V : Variant) (x : Compiler α) (y : Compiler β) (R : α → β → Prop) : Prop :=
  ∀ s a t, V.Holds s → x V.context s = .ok a t →
    ∃ b, y V.other (V.state s) = .ok b (V.state t) ∧ V.Holds t ∧ R a b

abbrev Agrees (V : Variant) (x : Compiler α) (P : α → Prop) : Prop :=
  V.Carries x x fun a b => b = a ∧ P a

/-- Both read the same; nothing else is said about it. -/
abbrev Same (V : Variant) (x : Compiler α) : Prop := V.Agrees x fun _ => True

namespace Carries

variable {x y : Compiler α} {x' y' : Compiler β} {f : α → Compiler γ} {g : β → Compiler δ}
  {P : α → Prop} {R : α → β → Prop} {S : γ → δ → Prop} {loc : Location} {cause : Cause}

theorem pure {a : α} {b : β} (h : R a b) : V.Carries (pure a) (pure b) R := by
  rintro s _ _ hs ⟨⟩
  exact ⟨b, rfl, hs, h⟩

theorem fail : V.Carries (Compiler.fail loc cause) x' R := nofun

theorem join (hx : V.Carries x x' R) (hf : ∀ a b, R a b → V.Carries (f a) (g b) S) :
    V.Carries (x >>= f) (x' >>= g) S := by
  intro s c t hs h
  change EStateM.bind (x V.context) (fun a => f a V.context) s = .ok c t at h
  rw [EStateM.bind] at h
  cases hxs : x V.context s with
  | error e u =>
    rw [hxs] at h
    cases h
  | ok a u =>
    rw [hxs] at h
    obtain ⟨b, hrun, hu, hab⟩ := hx s a u hs hxs
    obtain ⟨d, hrun', ht, hcd⟩ := hf a b hab u c t hu h
    exact ⟨d, (bind_run hrun).trans hrun', ht, hcd⟩

theorem bind {m : α → β} (hx : V.Carries x x' fun a b => b = m a ∧ P a)
    (hf : ∀ a, P a → V.Carries (f a) (g (m a)) S) : V.Carries (x >>= f) (x' >>= g) S := by
  refine hx.join ?_
  rintro a _ ⟨rfl, ha⟩
  exact hf a ha

theorem mono {R' : α → β → Prop} (hx : V.Carries x x' R) (h : ∀ a b, R a b → R' a b) :
    V.Carries x x' R' := by
  intro s a t hs hrun
  obtain ⟨b, hrun', ht, hab⟩ := hx s a t hs hrun
  exact ⟨b, hrun', ht, h a b hab⟩

/-- What would follow a failure is not run. -/
theorem fail_bind {y : Compiler δ} : V.Carries (Compiler.fail loc cause >>= f) y S := nofun

theorem ite {p : Prop} [Decidable p] (hx : p → V.Carries x x' R) (hy : ¬ p → V.Carries y y' R) :
    V.Carries (if p then x else y) (if p then x' else y') R := by
  split
  · exact hx ‹p›
  · exact hy ‹¬ p›

theorem dite {p : Prop} [Decidable p] {x : p → Compiler α} {y : ¬ p → Compiler α}
    {x' : p → Compiler β} {y' : ¬ p → Compiler β} (hx : ∀ h, V.Carries (x h) (x' h) R)
    (hy : ∀ h, V.Carries (y h) (y' h) R) :
    V.Carries (if h : p then x h else y h) (if h : p then x' h else y' h) R := by
  split
  · apply hx
  · apply hy

/-- A check that fails when `p` holds, and what follows it. The other compilation may make a check
that fails more rarely. -/
theorem relax {p q : Prop} [Decidable p] [Decidable q] {z : Compiler δ} {y : Compiler γ}
    {y' : Compiler δ} (hqp : q → p) (hy : ¬ p → V.Carries y y' S) :
    V.Carries (if p then Compiler.fail loc cause >>= f else y) (if q then z else y') S := by
  by_cases hp : p
  · rw [if_pos hp]
    exact fail_bind
  · rw [if_neg hp, if_neg (mt hqp hp)]
    exact hy hp

theorem guard {p : Prop} [Decidable p] {z : Compiler δ} {y : Compiler γ} {y' : Compiler δ}
    (hy : ¬ p → V.Carries y y' S) :
    V.Carries (if p then Compiler.fail loc cause >>= f else y) (if p then z else y') S :=
  relax id hy

/-- Two branches that are followed by the same. -/
theorem ite_bind {p : Prop} [Decidable p] (hx : p → V.Carries x x' R) (hy : ¬ p → V.Carries y y' R)
    (hf : ∀ a b, R a b → V.Carries (f a) (g b) S) :
    V.Carries (if p then x >>= f else y >>= f) (if p then x' >>= g else y' >>= g) S :=
  ite (fun h => (hx h).join hf) fun h => (hy h).join hf

theorem located {loc' : Location} {x : Except Cause α} : V.Carries (Compiler.located loc x)
    (Compiler.located loc' x) fun a b => b = a ∧ x = .ok a := by
  cases x with
  | ok a => exact pure ⟨rfl, rfl⟩
  | error cause => exact fail

theorem lift {x : Lex α} {m : α → β} {y : Lex β}
    (hx : Lexer.Widens V.file V.exponents x y m) :
    V.Carries (liftM x) (liftM y) fun a b => b = m a ∧ True := by
  intro s a t hs h
  rw [run_lift] at h
  cases hl : x s.lexer with
  | ok c l =>
    rw [hl] at h
    cases h
    refine ⟨m a, ?_, V.reading hs l s.warnings, rfl, trivial⟩
    have hlexer : (V.state s).lexer = s.lexer.wide V.file V.exponents := rfl
    rw [run_lift, hlexer, hx _ _ _ hl]
    rfl
  | error e l =>
    rw [hl] at h
    cases h

theorem options {f : Options → Compiler γ} {g : Options → Compiler δ}
    (hf : V.Carries (f V.context.options) (g V.other.options) S) :
    V.Carries (Compiler.options >>= f) (Compiler.options >>= g) S := by
  intro s c t hs h
  exact hf s c t hs h

theorem state {f : CompileState → Compiler γ} {g : CompileState → Compiler δ}
    (hf : ∀ s, V.Holds s → V.Carries (f s) (g (V.state s)) S) :
    V.Carries (getThe CompileState >>= f) (getThe CompileState >>= g) S := by
  intro s c t hs h
  exact hf s hs s c t hs h

/-- A change of the state that keeps the states of the two compilations together. -/
theorem modify {f g : CompileState → CompileState} (hf : ∀ s, V.state (f s) = g (V.state s))
    (hholds : ∀ s, V.Holds s → V.Holds (f s)) :
    V.Carries (modifyThe CompileState f) (modifyThe CompileState g) fun _ _ => True := by
  rintro s _ _ hs ⟨⟩
  exact ⟨(), congrArg (EStateM.Result.ok ()) (hf s).symm, hholds s hs, trivial⟩

theorem location :
    V.Carries Compiler.location Compiler.location fun a b => b = V.place a ∧ True := by
  rintro s _ _ hs ⟨⟩
  exact ⟨_, rfl, hs, rfl, trivial⟩

theorem remaining : V.Same Compiler.remaining := by
  rintro s _ _ hs ⟨⟩
  exact ⟨_, rfl, hs, Lexer.remaining_wide s.lexer, trivial⟩

theorem warn {w : Warning} : V.Carries (Compiler.warn loc w) (Compiler.warn (V.place loc) w)
    fun a b => b = a ∧ True := by
  rintro s _ _ hs ⟨⟩
  refine ⟨(), ?_, V.reading hs s.lexer _, rfl, trivial⟩
  refine congrArg (EStateM.Result.ok ()) ?_
  simp [Variant.state]

/-- Two loops go on and end together. -/
theorem repeatFrom {σ τ : Type} {I : σ → τ → Prop} {step : σ → Compiler (σ ⊕ α)}
    {step' : τ → Compiler (τ ⊕ β)} {s : σ} {s' : τ} (hs : I s s')
    (hstep : ∀ s s', I s s' → V.Carries (step s) (step' s') (Sum.LiftRel I R)) :
    V.Carries (Compiler.repeatFrom s step) (Compiler.repeatFrom s' step') R := by
  refine bind remaining fun bound _ => ?_
  induction bound, s using Compiler.repeatWithin.induct generalizing s' with
  | case1 bound s ih =>
    rw [Compiler.repeatWithin, Compiler.repeatWithin]
    refine (hstep s s' hs).join fun result result' hresult => ?_
    cases hresult with
    | inr h => exact pure h
    | inl h =>
      refine bind remaining fun now _ => dite (fun less => ih _ now less h) fun _ => ?_
      exact bind location fun _ _ => fail

theorem repeatSame {σ : Type} {I : σ → Prop} {step : σ → Compiler (σ ⊕ α)} {s : σ} (hs : I s)
    (hstep : ∀ s, I s → V.Agrees (step s) (Sum.elim I P)) :
    V.Agrees (Compiler.repeatFrom s step) P := by
  refine repeatFrom (I := fun s s' => s = s' ∧ I s) ⟨rfl, hs⟩ ?_
  rintro s _ ⟨rfl, hs⟩
  refine (hstep s hs).mono ?_
  rintro (next | a) _ ⟨rfl, h⟩
  · exact .inl ⟨rfl, h⟩
  · exact .inr ⟨rfl, h⟩

end Carries

end Variant

end ApeScript
