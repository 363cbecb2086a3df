import ApeScript.Proofs.Standing

/-!
# The same text at another place

What is read does not depend on the place where the text stands. Two lexers are alike if they differ
in places only, and two states are alike if their lexers are and the same inline switches have been
made. `Compiler.Moves x y R` says that whenever `x` succeeds from a state, `y` succeeds from every
state alike, ends in a state alike, and gives a result related by `R`. Being alike is symmetric, so
that what holds of two states in one direction holds in both.
-/

namespace ApeScript

abbrev Token.Alike (t t' : Token) : Prop := t.lexeme = t'.lexeme

namespace Lexer

/-- Two lexers that differ in places only. -/
structure Alike (l l' : Lexer) : Prop where
  queue : l.queue.map Token.lexeme = l'.queue.map Token.lexeme
  rest : l.cursor.rest = l'.cursor.rest
  unread : l.cursor.unread = l'.cursor.unread
  exponents : l.exponents = l'.exponents
  macros : l.macros.map (fun m => (m.1, m.2.map Token.lexeme)) =
    l'.macros.map fun m => (m.1, m.2.map Token.lexeme)

variable {α β γ δ : Type} {l l' : Lexer}

namespace Alike

theorem refl (l : Lexer) : l.Alike l := ⟨rfl, rfl, rfl, rfl, rfl⟩

theorem symm (h : l.Alike l') : l'.Alike l :=
  ⟨h.queue.symm, h.rest.symm, h.unread.symm, h.exponents.symm, h.macros.symm⟩

theorem trans {l'' : Lexer} (h : l.Alike l') (h' : l'.Alike l'') : l.Alike l'' :=
  ⟨h.queue.trans h'.queue, h.rest.trans h'.rest, h.unread.trans h'.unread,
    h.exponents.trans h'.exponents, h.macros.trans h'.macros⟩

theorem of_stands {e : Setting} {p : Spot} (h : l.Stands e p) (h' : l'.Stands e p) :
    l.Alike l' where
  queue := h.queue.trans h'.queue.symm
  rest := h.rest.trans h'.rest.symm
  unread := h.unread.trans h'.unread.symm
  exponents := h.exponents.trans h'.exponents.symm
  macros := by rw [h.macros, h'.macros]

theorem advance (h : l.Alike l') (size : Nat) :
    Alike { l with cursor := l.cursor.advance size }
      { l' with cursor := l'.cursor.advance size } where
  queue := h.queue
  rest := congrArg (·.drop size) h.rest
  unread := congrArg (· - size) h.unread
  exponents := h.exponents
  macros := h.macros

theorem remaining_eq (h : l.Alike l') : l.remaining = l'.remaining := by
  have hcount (q : List Token) : q.countP (·.type ≠ .endOfFile) =
      (q.map Token.lexeme).countP (·.1 ≠ .endOfFile) := by
    rw [List.countP_map]
    rfl
  rw [remaining, remaining, h.unread, hcount, hcount, h.queue]

/-- A name has the same body in both, but for places. -/
theorem body? (h : l.Alike l') (name : Bytes) :
    (l.body? name).map (·.map Token.lexeme) = (l'.body? name).map (·.map Token.lexeme) := by
  have hfind (m : List (Bytes × List Token)) :
      ((m.find? (·.1 = name)).map (·.2)).map (·.map Token.lexeme) =
        ((m.map fun m => (m.1, m.2.map Token.lexeme)).find? (·.1 = name)).map (·.2) := by
    rw [List.find?_map, Option.map_map, Option.map_map]
    rfl
  rw [Lexer.body?, Lexer.body?, hfind, hfind, h.macros]

end Alike

/-- What `x` reads from a lexer, `y` reads from every lexer alike. Nothing comes back that has been
read. -/
def Moves (x : Lex α) (y : Lex β) (R : α → β → Prop) : Prop :=
  ∀ l l' a m, l.Alike l' → x l = .ok a m →
    m.cursor.unread ≤ l.cursor.unread ∧ ∃ b m', y l' = .ok b m' ∧ m.Alike m' ∧ R a b

namespace Moves

variable {x x' : Lex α} {y y' : Lex β} {f : α → Lex γ} {g : β → Lex δ} {R : α → β → Prop}
  {S : γ → δ → Prop} {loc : Location} {cause : Cause}

theorem pure {a : α} {b : β} (h : R a b) : Moves (pure a) (pure b) R := by
  rintro l l' _ _ hl ⟨⟩
  exact ⟨Nat.le_refl _, b, l', rfl, hl, h⟩

theorem fail : Moves (Lexer.fail loc cause) y R := by
  rintro _ _ _ _ _ ⟨⟩

theorem fail_bind {y : Lex δ} : Moves (Lexer.fail loc cause >>= f) y S := by
  rintro _ _ _ _ _ ⟨⟩

theorem get {f g : Lexer → Lex γ} {S : γ → γ → Prop}
    (hf : ∀ l l' : Lexer, l.Alike l' → Moves (f l) (g l') S) : Moves (get >>= f) (get >>= g) S :=
  fun l l' a m hl h => hf l l' hl l l' a m hl h

theorem modify {f : Lexer → Lexer} (hf : ∀ l l' : Lexer, l.Alike l' → (f l).Alike (f l'))
    (hunread : ∀ l : Lexer, (f l).cursor.unread ≤ l.cursor.unread) :
    Moves (modify f) (modify f) fun _ _ => True := by
  rintro l l' _ _ hl ⟨⟩
  exact ⟨hunread l, _, _, rfl, hf l l' hl, trivial⟩

theorem bind (hx : Moves x y R) (hf : ∀ a b, R a b → Moves (f a) (g b) S) :
    Moves (x >>= f) (y >>= g) S := by
  intro l l' c n hl h
  change EStateM.bind x f l = .ok c n at h
  rw [EStateM.bind] at h
  cases hxl : x l with
  | error e m =>
    rw [hxl] at h
    cases h
  | ok a m =>
    rw [hxl] at h
    obtain ⟨hle, b, m', hy, hm, hab⟩ := hx l l' a m hl hxl
    obtain ⟨hle', d, n', hg, hn, hcd⟩ := hf a b hab m m' c n hm h
    refine ⟨Nat.le_trans hle' hle, d, n', ?_, hn, hcd⟩
    change EStateM.bind y g l' = .ok d n'
    rw [EStateM.bind, hy]
    exact hg

/-- Two tokens that differ in their places. -/
theorem token {x y : Lex Token} {f : Token → Lex γ} {g : Token → Lex δ}
    (hx : Moves x y Token.Alike) (hf : ∀ (type : TokenType) (text : Bytes) (loc loc' : Location),
      Moves (f ⟨type, text, loc⟩) (g ⟨type, text, loc'⟩) S) : Moves (x >>= f) (y >>= g) S := by
  refine hx.bind ?_
  rintro ⟨type, text, loc⟩ ⟨type', text', loc'⟩ h
  obtain ⟨rfl, rfl⟩ := Prod.mk.inj h
  exact hf type text loc loc'

theorem ite {p : Prop} [Decidable p] (hx : p → Moves x y R) (hx' : ¬ p → Moves x' y' R) :
    Moves (if p then x else x') (if p then y else y') R := by
  split
  · exact hx ‹p›
  · exact hx' ‹¬ p›

theorem dite {p : Prop} [Decidable p] {x : p → Lex α} {x' : ¬ p → Lex α} {y : p → Lex β}
    {y' : ¬ p → Lex β} (hx : ∀ h, Moves (x h) (y h) R) (hx' : ∀ h, Moves (x' h) (y' h) R) :
    Moves (if h : p then x h else x' h) (if h : p then y h else y' h) R := by
  split
  · apply hx
  · apply hx'

/-- A check that fails when `p` holds, and what follows it. -/
theorem guard {p : Prop} [Decidable p] {x : Lex γ} {y z : Lex δ} (hx : ¬ p → Moves x y S) :
    Moves (if p then Lexer.fail loc cause >>= f else x) (if p then z else y) S :=
  ite (fun _ => fail_bind) hx

end Moves

variable {mode : ReadMode} {flags : ReadFlags}

theorem moves_advance {size : Nat} : Moves (advance size) (advance size) fun _ _ => True :=
  .modify (fun _ _ hl => hl.advance size) fun _ => Nat.sub_le _ _

theorem moves_location : Moves location location fun _ _ => True := .get fun _ _ _ => .pure trivial

theorem moves_take {type : TokenType} {outcome : Scan.Outcome} :
    Moves (take type outcome) (take type outcome) Token.Alike := by
  refine .get fun l l' hl => ?_
  cases outcome with
  | done size =>
    refine .bind moves_advance fun _ _ _ => .pure ?_
    change (type, l.cursor.rest.take size) = (type, l'.cursor.rest.take size)
    rw [hl.rest]
  | failed size cause atStart =>
    refine .bind moves_advance fun _ _ _ => .ite (fun _ => .fail) fun _ => ?_
    exact .bind moves_location fun _ _ _ => .fail

theorem moves_lexRaw : Moves (lexRaw flags) (lexRaw flags) Token.Alike := by
  refine .get fun l l' hl => ?_
  rw [hl.rest]
  refine moves_take.token fun type text loc loc' => .ite (fun _ => .pure rfl) fun _ => ?_
  refine .get fun l l' hl => ?_
  have hbody := hl.body? text
  cases h : l.body? text with
  | none =>
    rw [h] at hbody
    rw [Option.map_eq_none_iff.1 hbody.symm]
    exact .pure rfl
  | some body =>
    rw [h] at hbody
    obtain ⟨body', h', hlexemes⟩ := Option.map_eq_some_iff.1 hbody.symm
    rw [h']
    obtain _ | ⟨only, _ | ⟨second, more⟩⟩ := body
    · obtain rfl := List.map_eq_nil_iff.1 hlexemes
      exact .pure rfl
    · obtain ⟨only', rfl, honly⟩ := List.map_eq_singleton_iff.1 hlexemes
      exact .pure honly.symm
    · obtain ⟨_, _, rfl, -, hmore⟩ := List.map_eq_cons_iff.1 hlexemes
      obtain ⟨_, _, rfl, -, -⟩ := List.map_eq_cons_iff.1 hmore
      exact .pure rfl

theorem moves_lexQuoted : Moves (lexQuoted flags) (lexQuoted flags) Token.Alike := by
  refine .get fun l l' hl => ?_
  rw [hl.rest]
  exact moves_take

theorem moves_lexNormal : Moves (lexNormal flags) (lexNormal flags) fun r r' =>
    r.1.Alike r'.1 ∧ r.2.map (·.map Token.lexeme) = r'.2.map (·.map Token.lexeme) := by
  refine .get fun l l' hl => ?_
  rw [hl.rest, hl.exponents]
  split
  · exact .pure ⟨rfl, rfl⟩
  · refine .ite (fun _ => moves_take.bind fun _ _ h => .pure ⟨h, rfl⟩) fun _ => ?_
    refine .ite (fun _ => moves_take.token fun type text loc loc' => .pure ⟨rfl, ?_⟩) fun _ => ?_
    · split
      · rfl
      · exact hl.body? text
    · refine .ite (fun _ => moves_lexQuoted.bind fun _ _ h => .pure ⟨h, rfl⟩) fun _ => ?_
      exact moves_take.bind fun _ _ h => .pure ⟨h, rfl⟩

theorem moves_lexWithin {fuel : Nat} :
    Moves (lexWithin mode flags fuel) (lexWithin mode flags fuel) Token.Alike := by
  induction fuel generalizing mode with
  | zero => exact moves_location.bind fun _ _ _ => .pure rfl
  | succ fuel ih =>
    unfold lexWithin
    refine .get fun l l' hl => ?_
    rw [hl.rest]
    refine moves_advance.bind fun _ _ _ => .get fun l l' hl => ?_
    rw [hl.rest]
    split
    · exact .guard fun _ => .pure rfl
    · exact moves_take
    · cases mode with
      | raw => exact moves_lexRaw
      | quoted => exact moves_lexQuoted
      | normal =>
        refine moves_lexNormal.bind ?_
        rintro ⟨token, body⟩ ⟨token', body'⟩ ⟨htoken, hbody⟩
        cases body with
        | none =>
          obtain rfl := Option.map_eq_none_iff.1 hbody.symm
          exact .pure htoken
        | some body =>
          obtain ⟨body', rfl, hlexemes⟩ := Option.map_eq_some_iff.1 hbody.symm
          cases body with
          | nil =>
            obtain rfl := List.map_eq_nil_iff.1 hlexemes
            exact ih
          | cons first more =>
            obtain ⟨first', more', rfl, hfirst, hmore⟩ := List.map_eq_cons_iff.1 hlexemes
            refine .bind (R := fun _ _ => True) ?_ fun _ _ _ => .pure hfirst.symm
            rintro l l' _ _ hl ⟨⟩
            refine ⟨Nat.le_refl _, _, _, rfl, ⟨?_, hl.rest, hl.unread, hl.exponents, hl.macros⟩,
              trivial⟩
            have hplaced (loc : Location) (ts : List Token) :
                (ts.map fun t => { t with loc := loc }).map Token.lexeme = ts.map Token.lexeme := by
              rw [List.map_map]
              rfl
            simp only [List.map_append, hplaced, hl.queue, hmore]

theorem moves_lex : Moves (lex mode flags) (lex mode flags) Token.Alike := by
  refine .get fun l l' hl => ?_
  rw [hl.unread]
  exact moves_lexWithin

/-- The first of the tokens that wait, if there is one. -/
theorem Alike.queue_cases (hl : l.Alike l') : (l.queue = [] ∧ l'.queue = []) ∨
    ∃ token rest token' rest', l.queue = token :: rest ∧ l'.queue = token' :: rest' ∧
      token.Alike token' ∧ rest.map Token.lexeme = rest'.map Token.lexeme := by
  have hqueue := hl.queue
  cases h : l.queue with
  | nil =>
    rw [h] at hqueue
    exact Or.inl ⟨rfl, List.map_eq_nil_iff.1 hqueue.symm⟩
  | cons token rest =>
    rw [h] at hqueue
    obtain ⟨token', rest', h', htoken, hrest⟩ := List.map_eq_cons_iff.1 hqueue.symm
    exact Or.inr ⟨token, rest, token', rest', rfl, h', htoken.symm, hrest.symm⟩

theorem moves_read : Moves (read mode flags) (read mode flags) Token.Alike := by
  refine .get fun l l' hl => ?_
  obtain ⟨h, h'⟩ | ⟨token, rest, token', rest', h, h', htoken, hrest⟩ := hl.queue_cases
  · rw [h, h']
    exact moves_lex
  · rw [h, h']
    refine .bind (R := fun _ _ => True) ?_ fun _ _ _ => .pure htoken
    rintro l l' _ _ hl ⟨⟩
    exact ⟨Nat.le_refl _, _, _, rfl, ⟨hrest, hl.rest, hl.unread, hl.exponents, hl.macros⟩, trivial⟩

theorem moves_peek : Moves (peek mode flags) (peek mode flags) Token.Alike := by
  refine .get fun l l' hl => ?_
  obtain ⟨h, h'⟩ | ⟨token, rest, token', rest', h, h', htoken, hrest⟩ := hl.queue_cases
  · rw [h, h']
    refine moves_lex.bind fun token token' htoken => ?_
    refine .bind (R := fun _ _ => True) ?_ fun _ _ _ => .pure htoken
    rintro l l' _ _ hl ⟨⟩
    refine ⟨Nat.le_refl _, _, _, rfl, ⟨?_, hl.rest, hl.unread, hl.exponents, hl.macros⟩, trivial⟩
    simp only [List.map_cons, htoken, hl.queue]
  · rw [h, h']
    exact .pure htoken

theorem moves_consume : Moves consume consume fun _ _ => True := by
  refine .modify (fun l l' hl => ?_) fun _ => Nat.le_refl _
  refine ⟨?_, hl.rest, hl.unread, hl.exponents, hl.macros⟩
  rw [List.map_drop, List.map_drop, hl.queue]

theorem moves_expect {type : TokenType} : Moves (expect type) (expect type) Token.Alike :=
  moves_read.token fun _ _ _ _ => .ite (fun _ => .pure rfl) fun _ => .fail

theorem moves_skipLineEnds : Moves skipLineEnds skipLineEnds fun _ _ => True := by
  refine .get fun l l' hl => ?_
  rw [hl.remaining_eq]
  induction l'.remaining using skipLineEndsWithin.induct with
  | case1 bound ih =>
    rw [skipLineEndsWithin]
    refine moves_peek.token fun type text loc loc' => .ite (fun _ => ?_) fun _ => .pure trivial
    refine moves_consume.bind fun _ _ _ => .get fun l l' hl => ?_
    rw [hl.remaining_eq]
    exact .dite (fun less => ih l' less) fun _ => .fail

theorem moves_macroBodyWithin {bound : Remaining} :
    Moves (macroBodyWithin bound) (macroBodyWithin bound) fun ts ts' =>
      ts.map Token.lexeme = ts'.map Token.lexeme := by
  induction bound using macroBodyWithin.induct with
  | case1 bound ih =>
    rw [macroBodyWithin]
    refine moves_peek.token fun type text loc loc' => .ite (fun _ => .pure rfl) fun _ => ?_
    refine moves_consume.bind fun _ _ _ => .get fun l l' hl => ?_
    rw [hl.remaining_eq]
    refine .dite (fun less => (ih l' less).bind fun ts ts' hts => .pure ?_) fun _ => .fail
    simp only [List.map_cons, hts, Token.lexeme]

theorem moves_defineMacro : Moves defineMacro defineMacro fun _ _ => True := by
  refine moves_read.token fun type text loc loc' => .guard fun _ => .get fun l l' hl => ?_
  have hsome : (l.body? text).isSome = (l'.body? text).isSome := by
    have h := congrArg Option.isSome (hl.body? text)
    simpa using h
  rw [hsome]
  refine .guard fun _ => .get fun l l' hl => ?_
  rw [hl.remaining_eq]
  refine moves_macroBodyWithin.bind fun ts ts' hts => ?_
  rintro l l' _ _ hl ⟨⟩
  refine ⟨Nat.le_refl _, _, _, rfl, ⟨hl.queue, hl.rest, hl.unread, hl.exponents, ?_⟩, trivial⟩
  simp only [List.map_append, hl.macros, List.map_cons, hts, List.map_nil]

end Lexer

/-- Two states that differ in places and warnings only. -/
structure CompileState.Alike (s s' : CompileState) : Prop where
  lexer : s.lexer.Alike s'.lexer
  inlineCount : s.inlineCount = s'.inlineCount
  inline : s.inline = s'.inline

theorem CompileState.Alike.symm {s s' : CompileState} (h : s.Alike s') : s'.Alike s :=
  ⟨h.lexer.symm, h.inlineCount.symm, h.inline.symm⟩

namespace Compiler

variable {α β γ δ : Type} {c : CompileContext}

/-- What `x` does from a state, `y` does from every state alike. -/
def Moves (c : CompileContext) (x : Compiler α) (y : Compiler β) (R : α → β → Prop) : Prop :=
  ∀ s s' a t, s.Alike s' → x c s = .ok a t → ∃ b t', y c s' = .ok b t' ∧ t.Alike t' ∧ R a b

/-- Both give the same result. -/
abbrev Stays (c : CompileContext) (x y : Compiler α) : Prop := Moves c x y Eq

namespace Moves

variable {x x' : Compiler α} {y y' : Compiler β} {f : α → Compiler γ} {g : β → Compiler δ}
  {R R' : α → β → Prop} {S : γ → δ → Prop} {loc loc' : Location} {cause : Cause}

theorem pure {a : α} {b : β} (h : R a b) : Moves c (pure a) (pure b) R := by
  rintro s s' _ _ hs ⟨⟩
  exact ⟨b, s', rfl, hs, h⟩

theorem fail : Moves c (Compiler.fail loc cause) y R := by
  rintro _ _ _ _ _ ⟨⟩

/-- What would follow a failure is not run. -/
theorem fail_bind {y : Compiler δ} : Moves c (Compiler.fail loc cause >>= f) y S := by
  rintro _ _ _ _ _ ⟨⟩

theorem join (hx : Moves c x y R) (hf : ∀ a b, R a b → Moves c (f a) (g b) S) :
    Moves c (x >>= f) (y >>= g) S := by
  intro s s' r u hs h
  change EStateM.bind (x c) (fun a => f a c) s = .ok r u at h
  rw [EStateM.bind] at h
  cases hxs : x c s with
  | error e t =>
    rw [hxs] at h
    cases h
  | ok a t =>
    rw [hxs] at h
    obtain ⟨b, t', hy, ht, hab⟩ := hx s s' a t hs hxs
    obtain ⟨d, u', hg, hu, hrd⟩ := hf a b hab t t' r u ht h
    exact ⟨d, u', (bind_run hy).trans hg, hu, hrd⟩

theorem bind {x y : Compiler α} {f : α → Compiler γ} {g : α → Compiler δ} (hx : Stays c x y)
    (hf : ∀ a, Moves c (f a) (g a) S) : Moves c (x >>= f) (y >>= g) S := by
  refine hx.join ?_
  rintro a _ rfl
  exact hf a

theorem mono (hx : Moves c x y R) (h : ∀ a b, R a b → R' a b) : Moves c x y R' := by
  intro s s' a t hs hrun
  obtain ⟨b, t', hy, ht, hab⟩ := hx s s' a t hs hrun
  exact ⟨b, t', hy, ht, h a b hab⟩

theorem ite {p : Prop} [Decidable p] (hx : p → Moves c x y R) (hx' : ¬ p → Moves c x' y' R) :
    Moves c (if p then x else x') (if p then y else y') R := by
  split
  · exact hx ‹p›
  · exact hx' ‹¬ p›

theorem dite {p : Prop} [Decidable p] {x : p → Compiler α} {x' : ¬ p → Compiler α}
    {y : p → Compiler β} {y' : ¬ p → Compiler β} (hx : ∀ h, Moves c (x h) (y h) R)
    (hx' : ∀ h, Moves c (x' h) (y' h) R) :
    Moves c (if h : p then x h else x' h) (if h : p then y h else y' h) R := by
  split
  · apply hx
  · apply hx'

/-- A check that fails when `p` holds, and what follows it. -/
theorem guard {p : Prop} [Decidable p] {x : Compiler γ} {y z : Compiler δ}
    (hx : ¬ p → Moves c x y S) :
    Moves c (if p then Compiler.fail loc cause >>= f else x) (if p then z else y) S :=
  ite (fun _ => fail_bind) hx

theorem located {x : Except Cause α} :
    Stays c (Compiler.located loc x) (Compiler.located loc' x) := by
  cases x with
  | ok a => exact pure rfl
  | error cause => exact fail

theorem lift {x : Lex α} {y : Lex β} (hx : Lexer.Moves x y R) : Moves c (liftM x) (liftM y) R := by
  intro s s' a t hs h
  rw [run_lift] at h
  cases hl : x s.lexer with
  | error e l =>
    rw [hl] at h
    cases h
  | ok r l =>
    rw [hl] at h
    cases h
    obtain ⟨-, b, l', hy, hl', hab⟩ := hx s.lexer s'.lexer a l hs.lexer hl
    exact ⟨b, { s' with lexer := l' }, by rw [run_lift, hy], ⟨hl', hs.inlineCount, hs.inline⟩, hab⟩

/-- Two tokens that differ in their places. -/
theorem token {x y : Lex Token} {f : Token → Compiler γ} {g : Token → Compiler δ}
    (hx : Lexer.Moves x y Token.Alike) (hf : ∀ (type : TokenType) (text : Bytes)
      (loc loc' : Location), Moves c (f ⟨type, text, loc⟩) (g ⟨type, text, loc'⟩) S) :
    Moves c (liftM x >>= f) (liftM y >>= g) S := by
  refine (lift hx).join ?_
  rintro ⟨type, text, loc⟩ ⟨type', text', loc'⟩ h
  obtain ⟨rfl, rfl⟩ := Prod.mk.inj h
  exact hf type text loc loc'

theorem options {f : Options → Compiler γ} {g : Options → Compiler δ}
    (hf : Moves c (f c.options) (g c.options) S) :
    Moves c (Compiler.options >>= f) (Compiler.options >>= g) S :=
  fun s s' r t hs h => hf s s' r t hs h

theorem location : Moves c Compiler.location Compiler.location fun _ _ => True := by
  rintro s s' _ _ hs ⟨⟩
  exact ⟨_, s', rfl, hs, trivial⟩

theorem remaining : Stays c Compiler.remaining Compiler.remaining := by
  rintro s s' _ _ hs ⟨⟩
  exact ⟨_, s', rfl, hs, hs.lexer.remaining_eq⟩

theorem warn {w w' : Warning} : Stays c (Compiler.warn loc w) (Compiler.warn loc' w') := by
  rintro s s' _ _ hs ⟨⟩
  exact ⟨_, _, rfl, ⟨hs.lexer, hs.inlineCount, hs.inline⟩, rfl⟩

/-- Whether a quote comes next does not depend on the place. -/
theorem nextIsQuote_bind (hx : Moves c x y R) (hx' : Moves c x' y' R) :
    Moves c (getThe CompileState >>= fun s => if Lexer.nextIsQuote s.lexer then x else x')
      (getThe CompileState >>= fun s => if Lexer.nextIsQuote s.lexer then y else y') R := by
  have hquote (l l' : Lexer) (hl : l.Alike l') : l.nextIsQuote = l'.nextIsQuote := by
    unfold Lexer.nextIsQuote
    obtain ⟨h, h'⟩ | ⟨token, rest, token', rest', h, h', htoken, -⟩ := hl.queue_cases
    · rw [h, h', hl.rest]
    · have htype : token.type = token'.type := congrArg Prod.fst htoken
      simp only [h, h', htype]
  intro s s' a t hs h
  have hchoice : Moves c (if s.lexer.nextIsQuote then x else x')
      (if s'.lexer.nextIsQuote then y else y') R := by
    rw [hquote _ _ hs.lexer]
    exact ite (fun _ => hx) fun _ => hx'
  exact hchoice s s' a t hs h

variable {σ τ : Type} {I : σ → τ → Prop} {step : σ → Compiler (σ ⊕ α)}
  {step' : τ → Compiler (τ ⊕ β)} {s : σ} {s' : τ}

/-- Two loops go on and end together. -/
theorem repeatWithin {bound : Lexer.Remaining} (hs : I s s')
    (hstep : ∀ s s', I s s' → Moves c (step s) (step' s') (Sum.LiftRel I R)) :
    Moves c (Compiler.repeatWithin step bound s) (Compiler.repeatWithin step' bound s') R := by
  induction bound, s using Compiler.repeatWithin.induct generalizing s' with
  | case1 bound s ih =>
    rw [Compiler.repeatWithin, Compiler.repeatWithin]
    refine (hstep s s' hs).join fun result result' hresult => ?_
    cases hresult with
    | inr h => exact pure h
    | inl h =>
      refine remaining.bind fun now => dite (fun less => ih _ now less h) fun _ => ?_
      exact location.join fun _ _ _ => fail

theorem repeatFrom (hs : I s s')
    (hstep : ∀ s s', I s s' → Moves c (step s) (step' s') (Sum.LiftRel I R)) :
    Moves c (Compiler.repeatFrom s step) (Compiler.repeatFrom s' step') R :=
  remaining.bind fun _ => repeatWithin hs hstep

end Moves

end Compiler

end ApeScript
