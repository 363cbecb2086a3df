import ApeScript.Proofs.Contract

/-!
# Where a lexer stands

A `Spot` is where a lexer stands, its places left out: the tokens that wait and the unread text. A
`Lexer.Setting` is what no read changes: whether numbers may have exponents, and the macros.
`Lexer.firstToken?` gives the first token of a text and what follows it, and every way of reading
finds that token where it stands for itself, that is where no macro has its name.

`Compiler.ReadsFrom x c I J P` says that `x` succeeds from every state whose lexer satisfies `I`,
ends in one whose lexer satisfies `J` with a result that satisfies `P`, and changes nothing but the
lexer and the warnings. There is a rule for each way in which readers are put together.
-/

namespace ApeScript

abbrev Lexeme := TokenType × Bytes

def Token.lexeme (t : Token) : Lexeme := (t.type, t.text)

structure Spot where
  queue : List Lexeme
  rest : Bytes

def Spot.remaining (p : Spot) : Lexer.Remaining :=
  ⟨p.rest.length, p.queue.countP (·.1 ≠ .endOfFile)⟩

/-- A computation that succeeds from every state with `I`, its result with `P` and its last state
with `J`. -/
def Succeeds {ε σ α : Type} (x : EStateM ε σ α) (I J : σ → Prop) (P : α → Prop) : Prop :=
  ∀ s, I s → ∃ a t, x s = .ok a t ∧ P a ∧ J t

namespace Succeeds

variable {ε σ α β : Type} {I J K : σ → Prop} {x : EStateM ε σ α} {f : α → EStateM ε σ β}
  {P : α → Prop} {Q : β → Prop}

theorem pure {a : α} (h : P a) : Succeeds (pure a : EStateM ε σ α) I I P :=
  fun s hs => ⟨a, s, rfl, h, hs⟩

theorem get : Succeeds (get : EStateM ε σ σ) I I I := fun s hs => ⟨s, s, rfl, hs, hs⟩

theorem bind (hx : Succeeds x I J P) (hf : ∀ a, P a → Succeeds (f a) J K Q) :
    Succeeds (x >>= f) I K Q := by
  intro s hs
  obtain ⟨a, t, hxs, ha, ht⟩ := hx s hs
  obtain ⟨b, u, hft, hb, hu⟩ := hf a ha t ht
  refine ⟨b, u, ?_, hb, hu⟩
  change EStateM.bind x f s = .ok b u
  rw [EStateM.bind, hxs]
  exact hft

theorem mono {P' : α → Prop} (hx : Succeeds x I J P) (h : ∀ a, P a → P' a) :
    Succeeds x I J P' := by
  intro s hs
  obtain ⟨a, t, hxs, ha, ht⟩ := hx s hs
  exact ⟨a, t, hxs, h a ha, ht⟩

end Succeeds

namespace Lexer

structure Setting where
  exponents : Bool
  macros : List (Bytes × List Token)

namespace Setting

def plain : Setting := ⟨true, []⟩

def body? (e : Setting) (name : Bytes) : Option (List Token) :=
  (e.macros.find? (·.1 = name)).map (·.2)

/-- A token that stands for itself: if it can be the name of a macro, it is not. -/
def Literal (e : Setting) (flags : ReadFlags) (k : Lexeme) : Prop :=
  k.1 = .identifier ∨ k.1 = .raw → flags.noMacros = true ∨ e.body? k.2 = none

theorem literal_of_macros_nil {e : Setting} (h : e.macros = []) (flags : ReadFlags) (k : Lexeme) :
    e.Literal flags k :=
  fun _ => Or.inr (by simp [body?, h])

end Setting

structure Stands (e : Setting) (p : Spot) (l : Lexer) : Prop where
  queue : l.queue.map Token.lexeme = p.queue
  rest : l.cursor.rest = p.rest
  unread : l.cursor.unread = p.rest.length
  exponents : l.exponents = e.exponents
  macros : l.macros = e.macros

def cut? (type : TokenType) (text : Bytes) : Scan.Outcome → Option (Lexeme × Bytes)
  | .done size => some ((type, text.take size), text.drop size)
  | .failed .. => none

/-- The first token of a text that starts with neither a blank nor a comment. -/
def firstTokenHere? (exponents : Bool) (mode : ReadMode) (flags : ReadFlags) :
    Bytes → Option (Lexeme × Bytes)
  | [] => some ((.endOfFile, []), [])
  | b :: rest =>
    if b = 10 then some ((.endOfLine, [10]), rest)
    else match mode with
      | .raw => cut? .raw (b :: rest) (Scan.raw flags (b :: rest))
      | .quoted => cut? .string (b :: rest) (Scan.quoted flags (b :: rest))
      | .normal =>
        if Bytes.isDigit b then cut? .number (b :: rest) (Scan.number exponents (b :: rest))
        else if isIdentifierByte b then
          cut? .identifier (b :: rest) (.done (Scan.identifier (b :: rest)))
        else if b = 34 then cut? .string (b :: rest) (Scan.quoted flags (b :: rest))
        else cut? (Scan.symbol b rest).1 (b :: rest) (Scan.symbol b rest).2

/-- The first token of a text, after blanks and comments, before macros are replaced. -/
def firstToken? (exponents : Bool) (mode : ReadMode) (flags : ReadFlags) (text : Bytes) :
    Option (Lexeme × Bytes) :=
  if (Scan.gap text).2 = .block then none
  else firstTokenHere? exponents mode flags (text.drop (Scan.gap text).1)

namespace Stands

variable {e : Setting} {mode : ReadMode} {flags : ReadFlags} {p q : Spot} {k : Lexeme}
  {ks : List Lexeme} {text rest : Bytes} {l : Lexer}

theorem advance (h : l.Stands e ⟨ks, text⟩) (size : Nat) :
    { l with cursor := l.cursor.advance size }.Stands e ⟨ks, text.drop size⟩ where
  queue := h.queue
  rest := by simp [Cursor.advance, h.rest]
  unread := by simp [Cursor.advance, h.unread]
  exponents := h.exponents
  macros := h.macros

theorem body?_eq (h : l.Stands e p) (name : Bytes) : l.body? name = e.body? name := by
  rw [Lexer.body?, h.macros]
  rfl

theorem lexeme_of_cut? {type : TokenType} {outcome : Scan.Outcome}
    (h : cut? type text outcome = some (k, rest)) : k.1 = type := by
  cases outcome with
  | failed => cases h
  | done size =>
    cases h
    rfl

/-- A token that a scan finds is taken from the text. -/
theorem succeeds_take {type : TokenType} {outcome : Scan.Outcome}
    (h : cut? type text outcome = some (k, rest)) :
    Succeeds (take type outcome) (Stands e ⟨ks, text⟩) (Stands e ⟨ks, rest⟩) (·.lexeme = k) := by
  intro l hl
  cases outcome with
  | failed => cases h
  | done size =>
    cases h
    refine ⟨⟨type, l.cursor.rest.take size, l.cursor.loc⟩, _, rfl, ?_, hl.advance size⟩
    rw [hl.rest]
    rfl

theorem succeeds_lexQuoted (h : cut? .string text (Scan.quoted flags text) = some (k, rest)) :
    Succeeds (lexQuoted flags) (Stands e ⟨ks, text⟩) (Stands e ⟨ks, rest⟩) (·.lexeme = k) := by
  refine .bind .get fun l hl => ?_
  rw [hl.rest]
  exact succeeds_take h

theorem succeeds_lexRaw (h : cut? .raw text (Scan.raw flags text) = some (k, rest))
    (hk : e.Literal flags k) :
    Succeeds (lexRaw flags) (Stands e ⟨ks, text⟩) (Stands e ⟨ks, rest⟩) (·.lexeme = k) := by
  refine .bind .get fun l hl => ?_
  rw [hl.rest]
  refine .bind (succeeds_take h) fun token ht => ?_
  split
  · exact .pure ht
  · rename_i hmacros
    have htext : token.text = k.2 := congrArg Prod.snd ht
    have hnone : e.body? k.2 = none := (hk (Or.inr (lexeme_of_cut? h))).resolve_left hmacros
    refine .bind .get fun l hl => ?_
    rw [htext, hl.body?_eq, hnone]
    exact .pure ht

theorem succeeds_lexNormal {b : UInt8} {more : Bytes} (hb : b ≠ 10)
    (h : firstTokenHere? e.exponents .normal flags (b :: more) = some (k, rest))
    (hk : e.Literal flags k) :
    Succeeds (lexNormal flags) (Stands e ⟨ks, b :: more⟩) (Stands e ⟨ks, rest⟩)
      fun r => r.1.lexeme = k ∧ r.2 = none := by
  simp only [firstTokenHere?, if_neg hb] at h
  refine .bind .get fun l hl => ?_
  rw [hl.rest, hl.exponents]
  simp only [hl.body?_eq]
  split_ifs at h ⊢ with hdigit hword hmacros
  · exact .bind (succeeds_take h) fun token ht => .pure ⟨ht, rfl⟩
  · exact .bind (succeeds_take h) fun token ht => .pure ⟨ht, rfl⟩
  · refine .bind (succeeds_take h) fun token ht => .pure ⟨ht, ?_⟩
    rw [show token.text = k.2 from congrArg Prod.snd ht]
    exact (hk (Or.inl (lexeme_of_cut? h))).resolve_left hmacros
  · exact .bind (succeeds_lexQuoted h) fun token ht => .pure ⟨ht, rfl⟩
  · exact .bind (succeeds_take h) fun token ht => .pure ⟨ht, rfl⟩

theorem succeeds_lexWithin {fuel : Nat}
    (h : firstToken? e.exponents mode flags text = some (k, rest)) (hk : e.Literal flags k) :
    Succeeds (lexWithin mode flags (fuel + 1)) (Stands e ⟨ks, text⟩) (Stands e ⟨ks, rest⟩)
      (·.lexeme = k) := by
  unfold firstToken? at h
  split at h
  · cases h
  · rename_i hgap
    refine .bind .get fun l hl => ?_
    rw [hl.rest]
    refine .bind (J := Stands e ⟨ks, text.drop (Scan.gap text).1⟩) (P := fun _ => True) ?_
      fun _ _ => ?_
    · exact fun l hl => ⟨(), _, rfl, trivial, hl.advance _⟩
    generalize text.drop (Scan.gap text).1 = here at h ⊢
    refine .bind .get fun l hl => ?_
    rw [hl.rest]
    cases here with
    | nil =>
      cases h
      simp only
      split
      · exact absurd ‹_› hgap
      · exact .pure rfl
    | cons b more =>
      by_cases hb : b = 10
      · subst hb
        exact succeeds_take h
      · split
        · contradiction
        · simp_all
        · cases mode with
          | raw =>
            rw [firstTokenHere?, if_neg hb] at h
            exact succeeds_lexRaw h hk
          | quoted =>
            rw [firstTokenHere?, if_neg hb] at h
            exact succeeds_lexQuoted h
          | normal =>
            refine .bind (succeeds_lexNormal hb h hk) ?_
            rintro ⟨token, body⟩ ⟨ht, rfl⟩
            exact .pure ht

theorem succeeds_lex (h : firstToken? e.exponents mode flags text = some (k, rest))
    (hk : e.Literal flags k) :
    Succeeds (lex mode flags) (Stands e ⟨ks, text⟩) (Stands e ⟨ks, rest⟩) (·.lexeme = k) :=
  .bind .get fun _ _ => succeeds_lexWithin h hk

/-! ### Tokens that wait -/

theorem exists_queue (h : l.Stands e ⟨k :: ks, text⟩) : ∃ token queue, l.queue = token :: queue ∧
    token.lexeme = k ∧ { l with queue := queue }.Stands e ⟨ks, text⟩ := by
  obtain ⟨token, queue, hqueue, ht, hks⟩ := List.map_eq_cons_iff.1 h.queue
  exact ⟨token, queue, hqueue, ht, hks, h.rest, h.unread, h.exponents, h.macros⟩

theorem queue_eq_nil (h : l.Stands e ⟨[], text⟩) : l.queue = [] := List.map_eq_nil_iff.1 h.queue

theorem remaining_eq (h : l.Stands e p) : l.remaining = p.remaining := by
  rw [remaining, Spot.remaining, h.unread, ← h.queue, List.countP_map]
  rfl

/-- The first token of the queue is returned as it is. -/
theorem succeeds_read_queued :
    Succeeds (read mode flags) (Stands e ⟨k :: ks, text⟩) (Stands e ⟨ks, text⟩)
      (·.lexeme = k) := by
  intro l hl
  obtain ⟨token, queue, hqueue, ht, hrest⟩ := hl.exists_queue
  refine ⟨token, { l with queue := queue }, ?_, ht, hrest⟩
  simp only [read, bind, EStateM.bind, get, getThe, MonadStateOf.get, EStateM.get, hqueue]
  rfl

theorem succeeds_peek_queued :
    Succeeds (peek mode flags) (Stands e ⟨k :: ks, text⟩) (Stands e ⟨k :: ks, text⟩)
      (·.lexeme = k) := by
  intro l hl
  obtain ⟨token, queue, hqueue, ht, -⟩ := hl.exists_queue
  refine ⟨token, l, ?_, ht, hl⟩
  simp only [peek, bind, EStateM.bind, get, getThe, MonadStateOf.get, EStateM.get, hqueue]
  rfl

theorem succeeds_read (h : firstToken? e.exponents mode flags text = some (k, rest))
    (hk : e.Literal flags k) :
    Succeeds (read mode flags) (Stands e ⟨[], text⟩) (Stands e ⟨[], rest⟩) (·.lexeme = k) := by
  refine .bind .get fun l hl => ?_
  rw [hl.queue_eq_nil]
  exact succeeds_lex h hk

theorem succeeds_peek (h : firstToken? e.exponents mode flags text = some (k, rest))
    (hk : e.Literal flags k) :
    Succeeds (peek mode flags) (Stands e ⟨[], text⟩) (Stands e ⟨[k], rest⟩) (·.lexeme = k) := by
  refine .bind .get fun l hl => ?_
  rw [hl.queue_eq_nil]
  refine .bind (succeeds_lex h hk) fun token ht => ?_
  refine fun l hl => ⟨token, _, rfl, ht, ?_, hl.rest, hl.unread, hl.exponents, hl.macros⟩
  simp [ht, hl.queue_eq_nil]

theorem succeeds_consume :
    Succeeds consume (Stands e ⟨k :: ks, text⟩) (Stands e ⟨ks, text⟩) fun _ => True := by
  intro l hl
  obtain ⟨token, queue, hqueue, -, hrest⟩ := hl.exists_queue
  refine ⟨(), { l with queue := l.queue.drop 1 }, rfl, trivial, ?_⟩
  rw [hqueue]
  exact hrest

end Stands

/-- A token of the kind that is expected is returned. -/
theorem succeeds_expect_from {I J : Lexer → Prop} {type : TokenType} {bytes : Bytes}
    (h : Succeeds next I J (·.lexeme = (type, bytes))) :
    Succeeds (expect type) I J (·.lexeme = (type, bytes)) := by
  refine .bind h fun token ht => ?_
  have htype : token.type = type := congrArg Prod.fst ht
  simp only [htype, decide_true, if_true]
  exact .pure ht

/-- Nothing is skipped before a token that does not end the line. -/
theorem succeeds_skipLineEnds_from {I J : Lexer → Prop} {k : Lexeme}
    (h : Succeeds peekNormal I J (·.lexeme = k)) (hk : k.1 ≠ .endOfLine) :
    Succeeds skipLineEnds I J fun _ => True := by
  refine .bind .get fun l hl => ?_
  rw [skipLineEndsWithin]
  refine .bind h fun token ht => ?_
  have htype : token.type ≠ .endOfLine := fun h => hk (ht ▸ h)
  rw [if_neg htype]
  exact .pure trivial

end Lexer

namespace Compiler

variable {α β σ : Type} {c : CompileContext} {I J K : Lexer → Prop} {P : α → Prop} {Q : β → Prop}
  {loc : Location}

theorem succeeds_bind {I J K : CompileState → Prop} {x : Compiler α} {f : α → Compiler β}
    (hx : Succeeds (x c) I J P) (hf : ∀ a, P a → Succeeds (f a c) J K Q) :
    Succeeds ((x >>= f) c) I K Q :=
  Succeeds.bind hx hf

/-- A state whose lexer satisfies a condition, and that is a given state but for the lexer and the
warnings. -/
def LexesOn (base : CompileState) (I : Lexer → Prop) (s : CompileState) : Prop :=
  I s.lexer ∧ s = { base with lexer := s.lexer, warnings := s.warnings }

def ReadsFrom (x : Compiler α) (c : CompileContext) (I J : Lexer → Prop) (P : α → Prop) : Prop :=
  ∀ base, Succeeds (x c) (LexesOn base I) (LexesOn base J) P

namespace ReadsFrom

theorem pure {a : α} (h : P a) : ReadsFrom (pure a) c I I P := fun _ => .pure h

theorem bind {x : Compiler α} {f : α → Compiler β} (hx : ReadsFrom x c I J P)
    (hf : ∀ a, P a → ReadsFrom (f a) c J K Q) : ReadsFrom (x >>= f) c I K Q :=
  fun base => succeeds_bind (hx base) fun a ha => hf a ha base

theorem mono {x : Compiler α} {P' : α → Prop} (hx : ReadsFrom x c I J P) (h : ∀ a, P a → P' a) :
    ReadsFrom x c I J P' :=
  fun base => (hx base).mono h

theorem lift {x : Lex α} (hx : Succeeds x I J P) : ReadsFrom (liftM x) c I J P := by
  rintro base s ⟨hs, hbase⟩
  obtain ⟨a, l, hxl, ha, hl⟩ := hx s.lexer hs
  refine ⟨a, { s with lexer := l }, ?_, ha, hl, ?_⟩
  · rw [run_lift, hxl]
  · rw [hbase]

theorem get : ReadsFrom (getThe CompileState) c I I (I ·.lexer) :=
  fun _ s hs => ⟨s, s, rfl, hs.1, hs⟩

theorem warn {w : Warning} : ReadsFrom (warn loc w) c I I fun _ => True := by
  rintro base s ⟨hs, hbase⟩
  refine ⟨(), { s with warnings := s.warnings ++ [(loc, w)] }, rfl, trivial, hs, ?_⟩
  rw [hbase]

theorem options : ReadsFrom options c I I (· = c.options) :=
  fun _ s hs => ⟨c.options, s, rfl, rfl, hs⟩

theorem location : ReadsFrom location c I I fun _ => True :=
  fun _ s hs => ⟨s.lexer.cursor.loc, s, rfl, trivial, hs⟩

theorem remaining {r : Lexer.Remaining} (h : ∀ l, I l → l.remaining = r) :
    ReadsFrom remaining c I I (· = r) :=
  fun _ s hs => ⟨s.lexer.remaining, s, rfl, h _ hs.1, hs⟩

theorem located {x : Except Cause α} {a : α} (h : x = .ok a) :
    ReadsFrom (located loc x) c I I (· = a) := by
  rw [h]
  exact pure rfl

variable {step : σ → Compiler (σ ⊕ α)} {bound r : Lexer.Remaining} {s next : σ} {a : α}

/-- A round that ends a loop. -/
theorem stop (h : ReadsFrom (step s) c I J (· = .inr a)) :
    ReadsFrom (repeatWithin step bound s) c I J (· = a) := by
  rw [repeatWithin]
  refine h.bind ?_
  rintro _ rfl
  exact pure rfl

/-- A round that leaves less to read, and the rounds after it. -/
theorem goOn (h : ReadsFrom (step s) c I J (· = .inl next)) (hr : ∀ l, J l → l.remaining = r)
    (hless : r.Less bound) (hrest : ReadsFrom (repeatWithin step r next) c J K P) :
    ReadsFrom (repeatWithin step bound s) c I K P := by
  rw [repeatWithin]
  refine h.bind ?_
  rintro _ rfl
  refine (remaining hr).bind ?_
  rintro _ rfl
  rw [dif_pos hless]
  exact hrest

theorem repeatFrom (hr : ∀ l, I l → l.remaining = r)
    (h : ReadsFrom (repeatWithin step r s) c I J P) : ReadsFrom (repeatFrom s step) c I J P := by
  refine (remaining hr).bind ?_
  rintro _ rfl
  exact h

end ReadsFrom

/-- The computation fails from every state whose lexer satisfies a condition. -/
def FailsFrom (x : Compiler α) (c : CompileContext) (I : Lexer → Prop) : Prop :=
  ∀ s, I s.lexer → ∃ e t, x c s = .error e t

namespace FailsFrom

variable {x : Compiler α} {f : α → Compiler β}

theorem fail {cause : Cause} : FailsFrom (fail loc cause : Compiler α) c I := fun s _ => ⟨_, s, rfl⟩

theorem left (h : FailsFrom x c I) : FailsFrom (x >>= f) c I := by
  intro s hs
  obtain ⟨e, t, hxs⟩ := h s hs
  exact ⟨e, t, bind_run_error hxs⟩

theorem bind (hx : ReadsFrom x c I J P) (hf : ∀ a, P a → FailsFrom (f a) c J) :
    FailsFrom (x >>= f) c I := by
  intro s hs
  obtain ⟨a, t, hxs, ha, ht⟩ := hx s s ⟨hs, rfl⟩
  obtain ⟨e, u, hft⟩ := hf a ha t ht.1
  exact ⟨e, u, (bind_run hxs).trans hft⟩

end FailsFrom

end Compiler

end ApeScript
