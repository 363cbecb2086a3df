import ApeScript.Proofs.Standing

/-!
# Reading a known text

Reading in the plain setting, where numbers may have exponents and no macros are defined.
`Lexer.first?` gives the first token of a text and what follows it. `Compiler.Reads x c p q P` says
that `x` succeeds from every state at the spot `p`, ends at the spot `q` with a result that
satisfies `P`, and changes nothing but the lexer and the warnings. There is a rule for each way in
which readers are put together. `Compiler.Rounds` says that a loop passes over a text and goes from
one state to another; texts that follow each other are passed over one after the other.
-/

namespace ApeScript

namespace Lexer

structure At (p : Spot) (l : Lexer) : Prop where
  queue : l.queue.map Token.lexeme = p.queue
  rest : l.cursor.rest = p.rest
  unread : l.cursor.unread = p.rest.length
  exponents : l.exponents = true
  macros : l.macros = []

/-- The first token of a text that starts with neither a blank nor a comment. -/
def firstHere? (mode : ReadMode) (flags : ReadFlags) : Bytes → Option (Lexeme × Bytes)
  | [] => some ((.endOfFile, []), [])
  | b :: rest =>
    if b = 10 then some ((.endOfLine, [10]), rest)
    else match mode with
      | .raw => cut? .raw (b :: rest) (Scan.raw flags (b :: rest))
      | .quoted => cut? .string (b :: rest) (Scan.quoted flags (b :: rest))
      | .normal =>
        if Bytes.isDigit b then cut? .number (b :: rest) (Scan.number true (b :: rest))
        else if isIdentifierByte b then
          cut? .identifier (b :: rest) (.done (Scan.identifier (b :: rest)))
        else if b = 34 then cut? .string (b :: rest) (Scan.quoted flags (b :: rest))
        else cut? (Scan.symbol b rest).1 (b :: rest) (Scan.symbol b rest).2

def first? (mode : ReadMode) (flags : ReadFlags) (text : Bytes) : Option (Lexeme × Bytes) :=
  if (Scan.gap text).2 = .block then none
  else firstHere? mode flags (text.drop (Scan.gap text).1)

end Lexer

namespace Lexer

variable {mode : ReadMode} {flags : ReadFlags} {p q : Spot} {k : Lexeme} {ks : List Lexeme}
  {text rest : Bytes} {l : Lexer}

theorem at_eq_stands (p : Spot) : At p = Stands .plain p := by
  funext l
  exact propext ⟨fun h => ⟨h.queue, h.rest, h.unread, h.exponents, h.macros⟩,
    fun h => ⟨h.queue, h.rest, h.unread, h.exponents, h.macros⟩⟩

theorem literal_plain (flags : ReadFlags) (k : Lexeme) : Setting.plain.Literal flags k :=
  Setting.literal_of_macros_nil rfl flags k

theorem first?_eq (mode : ReadMode) (flags : ReadFlags) (text : Bytes) :
    first? mode flags text = firstToken? true mode flags text := by
  unfold first? firstToken?
  congr 1

/-- Only numbers are read in another way where they may have no exponents. -/
theorem firstToken?_of_first? {exponents : Bool} (h : first? mode flags text = some (k, rest))
    (hk : k.1 ≠ .number) : firstToken? exponents mode flags text = some (k, rest) := by
  rw [first?_eq] at h
  unfold firstToken? at h ⊢
  split at h
  · cases h
  · rename_i hgap
    rw [if_neg hgap]
    revert h
    cases text.drop (Scan.gap text).1 with
    | nil => exact id
    | cons b rest =>
      cases mode with
      | raw | quoted => exact id
      | normal =>
        simp only [firstTokenHere?]
        intro h
        split_ifs at h ⊢ with hline hdigit
        · exact h
        · exact absurd (Stands.lexeme_of_cut? h) hk
        all_goals exact h

theorem At.queue_eq_nil (h : l.At ⟨[], text⟩) : l.queue = [] := List.map_eq_nil_iff.1 h.queue

theorem At.remaining_eq (h : l.At p) : l.remaining = p.remaining := by
  rw [at_eq_stands] at h
  exact h.remaining_eq

/-- The first token of the queue is returned as it is. -/
theorem succeeds_read_queued :
    Succeeds (read mode flags) (At ⟨k :: ks, text⟩) (At ⟨ks, text⟩) (·.lexeme = k) := by
  simpa only [at_eq_stands] using Stands.succeeds_read_queued

theorem succeeds_peek_queued :
    Succeeds (peek mode flags) (At ⟨k :: ks, text⟩) (At ⟨k :: ks, text⟩) (·.lexeme = k) := by
  simpa only [at_eq_stands] using Stands.succeeds_peek_queued

theorem succeeds_read (h : first? mode flags text = some (k, rest)) :
    Succeeds (read mode flags) (At ⟨[], text⟩) (At ⟨[], rest⟩) (·.lexeme = k) := by
  rw [first?_eq] at h
  simp only [at_eq_stands]
  exact Stands.succeeds_read h (literal_plain flags k)

theorem succeeds_peek (h : first? mode flags text = some (k, rest)) :
    Succeeds (peek mode flags) (At ⟨[], text⟩) (At ⟨[k], rest⟩) (·.lexeme = k) := by
  rw [first?_eq] at h
  simp only [at_eq_stands]
  exact Stands.succeeds_peek h (literal_plain flags k)

theorem succeeds_consume :
    Succeeds consume (At ⟨k :: ks, text⟩) (At ⟨ks, text⟩) fun _ => True := by
  simpa only [at_eq_stands] using Stands.succeeds_consume

theorem succeeds_expect {type : TokenType} {bytes : Bytes}
    (h : Succeeds next (At p) (At q) (·.lexeme = (type, bytes))) :
    Succeeds (expect type) (At p) (At q) (·.lexeme = (type, bytes)) :=
  succeeds_expect_from h

/-- Nothing is skipped before a token that does not end the line. -/
theorem succeeds_skipLineEnds (h : Succeeds peekNormal (At p) (At q) (·.lexeme = k))
    (hk : k.1 ≠ .endOfLine) : Succeeds skipLineEnds (At p) (At q) fun _ => True :=
  succeeds_skipLineEnds_from h hk

end Lexer

namespace Compiler

variable {α β σ : Type} {c : CompileContext} {p q r : Spot} {P : α → Prop} {Q : β → Prop}
  {loc : Location}

def StandsAt (base : CompileState) (p : Spot) (s : CompileState) : Prop :=
  s.lexer.At p ∧ s = { base with lexer := s.lexer, warnings := s.warnings }

def Reads (x : Compiler α) (c : CompileContext) (p q : Spot) (P : α → Prop) : Prop :=
  ∀ base, Succeeds (x c) (StandsAt base p) (StandsAt base q) P

namespace Reads

theorem pure {a : α} (h : P a) : Reads (pure a) c p p P := ReadsFrom.pure h

theorem mono {x : Compiler α} {P' : α → Prop} (hx : Reads x c p q P) (h : ∀ a, P a → P' a) :
    Reads x c p q P' :=
  ReadsFrom.mono hx h

theorem bind {x : Compiler α} {f : α → Compiler β} (hx : Reads x c p q P)
    (hf : ∀ a, P a → Reads (f a) c q r Q) : Reads (x >>= f) c p r Q :=
  ReadsFrom.bind hx hf

theorem lift {x : Lex α} (hx : Succeeds x (Lexer.At p) (Lexer.At q) P) :
    Reads (liftM x) c p q P :=
  ReadsFrom.lift hx

theorem get : Reads (getThe CompileState) c p p (·.lexer.At p) := ReadsFrom.get

theorem warn {w : Warning} : Reads (warn loc w) c p p fun _ => True := ReadsFrom.warn

theorem options : Reads options c p p (· = c.options) := ReadsFrom.options

theorem location : Reads location c p p fun _ => True := ReadsFrom.location

theorem remaining : Reads remaining c p p (· = p.remaining) :=
  ReadsFrom.remaining fun _ hl => hl.remaining_eq

theorem located {x : Except Cause α} {a : α} (h : x = .ok a) :
    Reads (located loc x) c p p (· = a) :=
  ReadsFrom.located h

variable {step : σ → Compiler (σ ⊕ α)} {bound : Lexer.Remaining} {s next : σ} {a : α}

/-- A round that ends a loop. -/
theorem stop (h : Reads (step s) c p q (· = .inr a)) :
    Reads (repeatWithin step bound s) c p q (· = a) :=
  ReadsFrom.stop h

/-- A round that leaves less to read, and the rounds after it. -/
theorem goOn (h : Reads (step s) c p q (· = .inl next)) (hless : q.remaining.Less bound)
    (hrest : Reads (repeatWithin step q.remaining next) c q r P) :
    Reads (repeatWithin step bound s) c p r P :=
  ReadsFrom.goOn h (fun _ hl => hl.remaining_eq) hless hrest

theorem repeatFrom (h : Reads (repeatWithin step p.remaining s) c p q P) :
    Reads (repeatFrom s step) c p q P :=
  ReadsFrom.repeatFrom (fun _ hl => hl.remaining_eq) h

end Reads

/-- A loop passes over a text and goes from one state to another: it reads what it should from the
start of the text on, if it does so from the end of the text on. -/
def Rounds (step : σ → Compiler (σ ⊕ α)) (c : CompileContext) (text : Bytes) (s s' : σ) : Prop :=
  ∀ (rest : Bytes) (q : Spot) (P : α → Prop),
    Reads (repeatWithin step (Spot.mk [] rest).remaining s') c ⟨[], rest⟩ q P →
      Reads (repeatWithin step (Spot.mk [] (text ++ rest)).remaining s) c ⟨[], text ++ rest⟩ q P

namespace Rounds

variable {step : σ → Compiler (σ ⊕ α)} {s s₁ s₂ : σ} {text text₁ text₂ : Bytes}

theorem nil : Rounds step c [] s s := fun _ _ _ h => h

theorem append (h₁ : Rounds step c text₁ s s₁) (h₂ : Rounds step c text₂ s₁ s₂) :
    Rounds step c (text₁ ++ text₂) s s₂ := by
  intro rest q P h
  rw [List.append_assoc]
  exact h₁ _ q P (h₂ rest q P h)

theorem round (hpos : text ≠ [])
    (h : ∀ rest, Reads (step s) c ⟨[], text ++ rest⟩ ⟨[], rest⟩ (· = .inl s₁)) :
    Rounds step c text s s₁ := by
  intro rest q P hrest
  refine .goOn (h rest) (Or.inl ?_) hrest
  have := List.length_pos_iff.2 hpos
  simp [Spot.remaining]
  omega

/-- The rounds over a text, and the round after it that ends the loop. -/
theorem reads {rest : Bytes} {a : α} (h : Rounds step c text s s₁)
    (hstop : Reads (step s₁) c ⟨[], rest⟩ q (· = .inr a)) :
    Reads (repeatFrom s step) c ⟨[], text ++ rest⟩ q (· = a) :=
  .repeatFrom (h rest q _ (.stop hstop))

end Rounds

end Compiler

end ApeScript
