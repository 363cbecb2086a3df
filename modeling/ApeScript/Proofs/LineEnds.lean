import ApeScript.Proofs.MovedSwitch
import ApeScript.Proofs.TokenStream

/-!
# Past the ends of lines

Line ends are skipped where a body or an `else` is looked for, and wherever statements are read one
after the other. `Lexer.Skips J` holds of a lexer from which they are skipped, so that `J` holds
afterwards. Whether this succeeds before a text, and which token is met, is its `Lexer.ahead?`. A
reader that passes over line ends by itself does the same as if they had been skipped before it
(`Compiler.PassesLineEnds`). `Compiler.Runs` says that a reader ends where it should, or that it
fails.
-/

namespace ApeScript

def Lexeme.closes (k : Lexeme) : Bool := k.1 = .closeBrace || k.1 = .endOfFile

theorem run_bind_ok {ε σ α β : Type} {x : EStateM ε σ α} {f : α → EStateM ε σ β} {s u : σ} {b : β} :
    (x >>= f) s = .ok b u ↔ ∃ a t, x s = .ok a t ∧ f a t = .ok b u := by
  change EStateM.bind x f s = .ok b u ↔ _
  rw [EStateM.bind]
  cases x s with
  | ok a t => simp
  | error e t => simp

namespace Lexer

def HeadIs (k : Lexeme) (l : Lexer) : Prop := (l.queue.map Token.lexeme).head? = some k

def Skips (J : Lexer → Prop) (l : Lexer) : Prop := ∃ m, skipLineEnds l = .ok () m ∧ J m

/-- The token that is met before a text once line ends have been skipped, if that succeeds. -/
def ahead? (e : Setting) (text : Bytes) : Option Lexeme :=
  match skipLineEnds ⟨⟨text, text.length, .start []⟩, e.exponents, [], e.macros⟩ with
  | .ok _ l => (l.queue.map Token.lexeme).head?
  | .error .. => none

/-- Before the text, line ends are skipped up to the token `k`, where `J` holds. -/
structure Reaches (e : Setting) (text : Bytes) (k : Lexeme) (J : Lexer → Prop) : Prop where
  skips : ∀ l : Lexer, l.Stands e ⟨[], text⟩ → l.Skips J
  waits : ∀ l : Lexer, J l → l.HeadIs k
  not_line : k.1 ≠ .endOfLine
  unread : ∀ l : Lexer, J l → l.cursor.unread ≤ text.length

/-- What skipping line ends before a text leads to, if it succeeds. -/
inductive Ahead (e : Setting) (text : Bytes) : Option (Lexeme × (Lexer → Prop)) → Prop
  | reaches {k : Lexeme} {J : Lexer → Prop} (h : Reaches e text k J) : Ahead e text (some (k, J))
  | stuck (h : ∀ l : Lexer, l.Stands e ⟨[], text⟩ → ∃ err m, skipLineEnds l = .error err m) :
    Ahead e text none

variable {e : Setting} {k : Lexeme} {J : Lexer → Prop} {l m : Lexer} {text rest : Bytes}
  {token : Token} {bound : Remaining}

/-! ### Tokens that have been looked at -/

theorem HeadIs.exists_queue (h : l.HeadIs k) :
    ∃ token queue, l.queue = token :: queue ∧ token.lexeme = k := by
  unfold HeadIs at h
  cases hq : l.queue with
  | nil => simp [hq] at h
  | cons token queue => exact ⟨token, queue, rfl, by simpa [hq] using h⟩

theorem HeadIs.succeeds_peek (h : ∀ l, J l → l.HeadIs k) :
    Succeeds peekNormal J J (·.lexeme = k) := by
  intro l hl
  obtain ⟨token, queue, hqueue, ht⟩ := (h l hl).exists_queue
  exact ⟨token, l, peekNormal_cons hqueue, ht, hl⟩

/-- A token that is looked at waits. -/
theorem queue_of_peek (h : peekNormal l = .ok token m) : ∃ queue, m.queue = token :: queue := by
  obtain ⟨_, _, ⟨⟩, h⟩ := run_bind_ok.1 h
  cases hq : l.queue with
  | cons first queue =>
    rw [hq] at h
    cases h
    exact ⟨queue, hq⟩
  | nil =>
    rw [hq] at h
    obtain ⟨first, n, -, h⟩ := run_bind_ok.1 h
    cases h
    exact ⟨n.queue, rfl⟩

theorem run_skipLineEnds : skipLineEnds l = skipLineEndsWithin l.remaining l := rfl

def dropped (l : Lexer) : Lexer := { l with queue := l.queue.drop 1 }

/-- The token that is met is looked at first; if it ends a line, it is dropped and the next one is
looked for. -/
theorem skipLineEndsWithin_ok (h : skipLineEndsWithin bound l = .ok () m) :
    ∃ token n, peekNormal l = .ok token n ∧ (token.type ≠ .endOfLine ∧ m = n ∨
      token.type = .endOfLine ∧ n.dropped.remaining.Less bound ∧
        skipLineEndsWithin n.dropped.remaining n.dropped = .ok () m) := by
  rw [skipLineEndsWithin] at h
  obtain ⟨token, n, hpeek, h⟩ := run_bind_ok.1 h
  refine ⟨token, n, hpeek, ?_⟩
  split at h
  · rename_i hline
    obtain ⟨_, _, ⟨⟩, h⟩ := run_bind_ok.1 h
    obtain ⟨_, _, ⟨⟩, h⟩ := run_bind_ok.1 h
    dsimp only at h
    split at h
    · exact Or.inr ⟨hline, ‹_›, h⟩
    · cases h
  · rename_i hline
    cases h
    exact Or.inl ⟨hline, rfl⟩

theorem skipLineEnds_of_ok (h : skipLineEndsWithin bound l = .ok () m) :
    (∃ k : Lexeme, k.1 ≠ .endOfLine ∧ m.HeadIs k) := by
  induction bound using skipLineEndsWithin.induct generalizing l with
  | case1 bound ih =>
    obtain ⟨token, n, hpeek, ⟨hline, rfl⟩ | ⟨-, hless, h⟩⟩ := skipLineEndsWithin_ok h
    · obtain ⟨queue, hqueue⟩ := queue_of_peek hpeek
      exact ⟨token.lexeme, hline, by simp [HeadIs, hqueue]⟩
    · exact ih _ hless h

/-- Where a token waits that ends no line, nothing is skipped. -/
theorem HeadIs.skipLineEnds (h : m.HeadIs k) (hk : k.1 ≠ .endOfLine) :
    Lexer.skipLineEnds m = .ok () m := by
  obtain ⟨_, m', hrun, -, rfl⟩ :=
    succeeds_skipLineEnds_from (I := (· = m)) (J := (· = m)) (HeadIs.succeeds_peek (by simpa)) hk m
      rfl
  exact hrun

/-- Less is left once the end of a line has been dropped. -/
theorem less_dropped {queue : List Token} (h : l.queue = token :: queue)
    (hline : token.type = .endOfLine) : l.dropped.remaining.Less l.remaining := by
  have hcount : l.remaining.queued = queue.countP (·.type ≠ .endOfFile) + 1 := by
    simp [remaining, h, hline]
  refine Or.inr ⟨rfl, ?_⟩
  rw [hcount]
  simp [remaining, dropped, h]

theorem skipLineEndsWithin_line (hpeek : peekNormal l = .ok token m)
    (hline : token.type = .endOfLine) (hless : m.dropped.remaining.Less bound) :
    skipLineEndsWithin bound l = skipLineEnds m.dropped := by
  rw [skipLineEndsWithin]
  change EStateM.bind peekNormal _ l = _
  rw [EStateM.bind, hpeek]
  dsimp only
  rw [if_pos hline]
  change (if m.dropped.remaining.Less bound then skipLineEndsWithin m.dropped.remaining
    else fail token.loc .stalled) m.dropped = _
  rw [if_pos hless]
  rfl

theorem skipLineEnds_queued {queue : List Token} (h : l.queue = token :: queue)
    (hline : token.type = .endOfLine) : skipLineEnds l = skipLineEnds l.dropped :=
  skipLineEndsWithin_line (peekNormal_cons h) hline (less_dropped h hline)

/-- The token that is met may be looked at before. -/
theorem succeeds_peek_skips : Succeeds peekNormal (Skips J) (Skips J) fun _ => True := by
  rintro l ⟨m, h, hm⟩
  obtain ⟨token, n, hpeek, ⟨hline, rfl⟩ | ⟨hline, -, h⟩⟩ := skipLineEndsWithin_ok h
  · obtain ⟨queue, hqueue⟩ := queue_of_peek hpeek
    have hwaits : m.HeadIs token.lexeme := by simp [HeadIs, hqueue]
    exact ⟨token, m, hpeek, trivial, m, hwaits.skipLineEnds hline, hm⟩
  · obtain ⟨queue, hqueue⟩ := queue_of_peek hpeek
    exact ⟨token, n, hpeek, trivial, m, (skipLineEnds_queued hqueue hline).trans h, hm⟩

theorem succeeds_skipLineEnds_skips : Succeeds skipLineEnds (Skips J) J fun _ => True := by
  rintro l ⟨m, h, hm⟩
  exact ⟨(), m, h, trivial, hm⟩

/-! ### What is met before a text -/

namespace Stands

variable {ks : List Lexeme} {p : Spot}

/-- The first token is dropped. -/
theorem dropped (h : l.Stands e ⟨k :: ks, text⟩) : l.dropped.Stands e ⟨ks, text⟩ :=
  ⟨by rw [Lexer.dropped, List.map_drop, h.queue]; rfl, h.rest, h.unread, h.exponents, h.macros⟩

theorem waits (h : l.Stands e ⟨k :: ks, text⟩) : l.HeadIs k := by rw [HeadIs, h.queue]; rfl

/-- The end of a line that has been looked at is dropped. -/
theorem skipLineEnds_line {bytes : Bytes} (h : l.Stands e ⟨[(.endOfLine, bytes)], text⟩) :
    skipLineEnds l = skipLineEnds l.dropped := by
  obtain ⟨token, queue, hqueue, ht, -⟩ := h.exists_queue
  exact skipLineEnds_queued hqueue (congrArg Prod.fst ht)

end Stands

/-- The end of a line is dropped before what comes after it. -/
theorem Stands.skips_line (h : ∀ l : Lexer, l.Stands e ⟨[], text⟩ → l.Skips J)
    (hl : l.Stands e ⟨[], 10 :: text⟩) : l.Skips J := by
  have hline : firstToken? e.exponents .normal {} (10 :: text) = some ((.endOfLine, [10]), text) :=
    rfl
  obtain ⟨token, m, hpeek, ht, hm⟩ := Stands.succeeds_peek hline (by simp [Setting.Literal]) l hl
  obtain ⟨n, hskip, hn⟩ := h _ hm.dropped
  have hless : m.dropped.remaining.Less l.remaining := by
    rw [hm.dropped.remaining_eq, hl.remaining_eq]
    exact Or.inl (Nat.lt_succ_self _)
  exact ⟨n, (skipLineEndsWithin_line hpeek (congrArg Prod.fst ht) hless).trans hskip, hn⟩

theorem skips_of_mem (hwaits : ∀ l, J l → l.HeadIs k) (hk : k.1 ≠ .endOfLine) (h : J l) :
    l.Skips J :=
  ⟨l, (hwaits l h).skipLineEnds hk, h⟩

namespace Reaches

variable (h : Reaches e text k J)
include h

theorem skips_self (hl : J l) : l.Skips J := skips_of_mem h.waits h.not_line hl

theorem skips_line {bytes : Bytes} (hl : l.Stands e ⟨[(.endOfLine, bytes)], text⟩) :
    l.Skips J := by
  obtain ⟨m, hm, hJ⟩ := h.skips _ hl.dropped
  exact ⟨m, hl.skipLineEnds_line.trans hm, hJ⟩

theorem line : Reaches e (10 :: text) k J where
  skips _ hl := hl.skips_line h.skips
  waits := h.waits
  not_line := h.not_line
  unread l hl := Nat.le_succ_of_le (h.unread l hl)

end Reaches

/-- What is met before a text is the same from every lexer that stands there. -/
theorem exists_ahead (e : Setting) (text : Bytes) :
    ∃ o, Ahead e text o ∧ o.map Prod.fst = ahead? e text ∧
      ∀ p ∈ o, ∀ l l' : Lexer, p.2 l → p.2 l' → l.Alike l' := by
  have hstart : Stands e ⟨[], text⟩ ⟨⟨text, text.length, .start []⟩, e.exponents, [], e.macros⟩ :=
    ⟨rfl, rfl, rfl, rfl, rfl⟩
  unfold ahead?
  cases hrun : skipLineEnds ⟨⟨text, text.length, .start []⟩, e.exponents, [], e.macros⟩ with
  | error err m =>
    refine ⟨none, .stuck fun l hl => ?_, rfl, by simp⟩
    cases hl' : skipLineEnds l with
    | error err m => exact ⟨err, m, rfl⟩
    | ok u m =>
      obtain ⟨-, _, m', hrun', -⟩ := moves_skipLineEnds l _ u m (.of_stands hl hstart) hl'
      exact absurd (hrun.symm.trans hrun') (by simp)
  | ok u m =>
    obtain ⟨k, hk, hwaits⟩ := skipLineEnds_of_ok hrun
    refine ⟨some (k, m.Alike), .reaches ⟨fun l hl => ?_, fun l hl => ?_, hk, fun l hl => ?_⟩, ?_,
      ?_⟩
    · obtain ⟨-, _, m', hrun', halike, -⟩ :=
        moves_skipLineEnds _ l u m (.of_stands hstart hl) hrun
      exact ⟨m', hrun', halike⟩
    · rw [HeadIs, ← hl.queue]
      exact hwaits
    · obtain ⟨hle, -⟩ := moves_skipLineEnds _ _ u m (.of_stands hstart hstart) hrun
      rw [← hl.unread]
      exact hle
    · exact hwaits.symm
    · rintro _ ⟨⟩ l l' hl hl'
      exact hl.symm.trans hl'

theorem Remaining.AtMost.unread_le {a b : Remaining} (h : a.AtMost b) : a.unread ≤ b.unread := by
  obtain h | rfl := h
  · unfold Remaining.Less at h
    omega
  · exact Nat.le_refl _

end Lexer

namespace Compiler

open Lexer (Remaining Skips peekNormal skipLineEnds skipLineEndsWithin)

variable {α β : Type} {c : CompileContext} {I J : Lexer → Prop} {o o' : Option (Lexer → Prop)}
  {P P' : α → Prop} {Q : β → Prop} {loc : Location}

/-! ### Readers that may fail -/

/-- The computation ends with the condition `o` on the lexer, or fails if there is none. -/
structure Runs (x : Compiler α) (c : CompileContext) (I : Lexer → Prop)
    (o : Option (Lexer → Prop)) (P : α → Prop) : Prop where
  reads : ∀ J, o = some J → ReadsFrom x c I J P
  fails : o = none → FailsFrom x c I

namespace Runs

variable {x : Compiler α} {f : α → Compiler β}

theorem of_reads (h : ReadsFrom x c I J P) : Runs x c I (some J) P :=
  ⟨fun _ hJ => Option.some.inj hJ ▸ h, by simp⟩

theorem of_fails (h : FailsFrom x c I) : Runs x c I none P := ⟨by simp, fun _ => h⟩

theorem mono (h : Runs x c I o P) (hP : ∀ a, P a → P' a) : Runs x c I o P' :=
  ⟨fun J hJ => (h.reads J hJ).mono hP, h.fails⟩

/-- It is enough that a weaker condition holds at the start. -/
theorem weaken {I' : Lexer → Prop} (h : Runs x c I o P) (hI : ∀ l, I' l → I l) :
    Runs x c I' o P where
  reads J hJ base s hs := h.reads J hJ base s ⟨hI _ hs.1, hs.2⟩
  fails hnone s hs := h.fails hnone s (hI _ hs)

/-- From no state at all, whatever is asked for. -/
theorem of_empty (h : ∀ l, ¬ I l) : Runs x c I o P where
  reads _ _ _ s hs := absurd hs.1 (h s.lexer)
  fails _ s hs := absurd hs (h s.lexer)

/-- Where what comes first ends, what follows goes on; where it fails, so does the whole. -/
theorem bind (hx : Runs x c I o P) (hf : ∀ J, o = some J → ∀ a, P a → Runs (f a) c J o' Q)
    (hnone : o = none → o' = none) : Runs (x >>= f) c I o' Q := by
  cases o with
  | none =>
    rw [hnone rfl]
    exact of_fails (.left (hx.fails rfl))
  | some J =>
    have hreads := hx.reads J rfl
    have hf := hf J rfl
    exact ⟨fun K hK => hreads.bind fun a ha => (hf a ha).reads K hK,
      fun hK => .bind hreads fun a ha => (hf a ha).fails hK⟩

/-- What comes first succeeds. -/
theorem after (hx : ReadsFrom x c I J P) (hf : ∀ a, P a → Runs (f a) c J o Q) :
    Runs (x >>= f) c I o Q := by
  refine (of_reads hx).bind (fun K hK => ?_) (by simp)
  rwa [← Option.some.inj hK]

/-- What comes first may fail, and what follows does not. -/
theorem andThen (hx : Runs x c I o P) (hf : ∀ J a, P a → ReadsFrom (f a) c J J Q) :
    Runs (x >>= f) c I o Q :=
  hx.bind (fun J hJ a ha => hJ ▸ of_reads (hf J a ha)) id

end Runs

/-- What is left to read is remembered. -/
theorem ReadsFrom.remaining_bind {f : Remaining → Compiler β}
    (hf : ∀ r, ReadsFrom (f r) c (fun l => I l ∧ l.remaining = r) J Q) :
    ReadsFrom (Compiler.remaining >>= f) c I J Q :=
  fun base s hs => hf s.lexer.remaining base s ⟨⟨hs.1, rfl⟩, hs.2⟩

theorem Runs.remaining_bind {f : Remaining → Compiler β}
    (hf : ∀ r, Runs (f r) c (fun l => I l ∧ l.remaining = r) o Q) :
    Runs (Compiler.remaining >>= f) c I o Q where
  reads J hJ := .remaining_bind fun r => (hf r).reads J hJ
  fails hnone s hs := (hf s.lexer.remaining).fails hnone s ⟨hs, rfl⟩

/-! ### Readers that pass over line ends -/

/-- A reader that drops the end of a line and starts again, as long as less is left. -/
structure PassesLineEnds (c : CompileContext) (x : Remaining → Compiler α) : Prop where
  line : ∀ (bound : Remaining) (s : CompileState) (token : Token) (n : Lexer),
    peekNormal s.lexer = .ok token n → token.type = .endOfLine → n.dropped.remaining.Less bound →
    x bound c s = x n.dropped.remaining c { s with lexer := n.dropped }
  other : ∀ (bound : Remaining) (s : CompileState) (token : Token) (n : Lexer),
    peekNormal s.lexer = .ok token n → x bound c s = x bound c { s with lexer := n }

namespace PassesLineEnds

variable {x : Remaining → Compiler α} {bound : Remaining} {s : CompileState} {m : Lexer} {n : ℕ}

/-- Line ends may be skipped before. -/
theorem absorbs (h : PassesLineEnds c x) (hskip : skipLineEnds s.lexer = .ok () m)
    (hbound : s.lexer.remaining.AtMost bound) : ∃ bound' : Remaining,
      m.cursor.unread ≤ bound'.unread ∧ x bound c s = x bound' c { s with lexer := m } := by
  rw [Lexer.run_skipLineEnds] at hskip
  generalize hleft : s.lexer.remaining = left at hskip hbound
  induction left using Lexer.skipLineEndsWithin.induct generalizing s bound with
  | case1 left ih =>
    obtain ⟨token, n, hpeek, ⟨hline, rfl⟩ | ⟨hline, hless, hskip⟩⟩ :=
      Lexer.skipLineEndsWithin_ok hskip
    · obtain ⟨hle, -⟩ := Lexer.moves_peek s.lexer s.lexer token m (.refl _) hpeek
      refine ⟨bound, le_trans hle ?_, h.other bound s token m hpeek⟩
      rw [← hleft] at hbound
      exact hbound.unread_le
    · rw [h.line bound s token n hpeek hline (Lexer.Remaining.AtMost.less hless hbound)]
      exact ih n.dropped hless rfl hskip (Or.inr rfl)

/-- What is read once line ends have been skipped is read without that as well. -/
theorem runs (h : PassesLineEnds c x) (hJ : ∀ l, J l → n ≤ l.cursor.unread)
    (hx : ∀ bound', n ≤ bound'.unread → Runs (x bound') c J o P) :
    Runs (x bound) c (fun l => l.Skips J ∧ l.remaining.AtMost bound) o P where
  reads K hK := by
    rintro base s ⟨⟨⟨m, hskip, hm⟩, hbound⟩, hbase⟩
    obtain ⟨bound', hle, heq⟩ := h.absorbs hskip hbound
    rw [heq]
    refine (hx bound' (le_trans (hJ m hm) hle)).reads K hK base _ ⟨hm, ?_⟩
    rw [hbase]
  fails hnone := by
    rintro s ⟨⟨m, hskip, hm⟩, hbound⟩
    obtain ⟨bound', hle, heq⟩ := h.absorbs hskip hbound
    rw [heq]
    exact (hx bound' (le_trans (hJ m hm) hle)).fails hnone _ hm

end PassesLineEnds

variable {f : Token → Compiler β} {s : CompileState} {token : Token} {n : Lexer}

theorem lift_peek (h : peekNormal s.lexer = .ok token n) :
    (liftM peekNormal : Compiler Token) c s = .ok token { s with lexer := n } := by
  rw [run_lift, h]

/-- A token may be looked at twice. -/
theorem peek_again (h : peekNormal s.lexer = .ok token n) :
    (liftM peekNormal >>= f) c s = (liftM peekNormal >>= f) c { s with lexer := n } := by
  obtain ⟨queue, hqueue⟩ := Lexer.queue_of_peek h
  have hagain : peekNormal n = .ok token n := Lexer.peekNormal_cons hqueue
  rw [bind_run (lift_peek h), bind_run (lift_peek (s := { s with lexer := n }) hagain)]

/-- A block drops the ends of lines between its statements. -/
theorem passesLineEnds_parseBlock {opened : Location} {isEmpty : Bool} :
    PassesLineEnds c fun bound => parseBlock bound opened isEmpty where
  line bound s token n hpeek hline hless := by
    rw [parseBlock, bind_run (lift_peek hpeek), hline]
    change (if n.dropped.remaining.Less bound then parseBlock n.dropped.remaining opened isEmpty
      else fail opened .stalled) c { s with lexer := n.dropped } = _
    rw [if_pos hless]
  other bound s token n hpeek := by
    rw [parseBlock]
    exact peek_again hpeek

/-- So does a switch. -/
theorem passesLineEnds_switch {inline : Bool} {d : Draft} :
    PassesLineEnds c fun bound => repeatWithin (switchRound inline loc) bound d where
  line bound s token n hpeek hline hless := by
    have hround : switchRound inline loc d c s = .ok (.inl d) { s with lexer := n.dropped } := by
      rw [switchRound, bind_run (lift_peek hpeek), hline]
      rfl
    rw [repeatWithin, bind_run hround]
    change (if n.dropped.remaining.Less bound then
      repeatWithin (switchRound inline loc) n.dropped.remaining d
      else location >>= fun loc => fail loc .stalled) c { s with lexer := n.dropped } = _
    rw [if_pos hless]
  other bound s token n hpeek := by
    rw [repeatWithin, switchRound, bind_assoc]
    exact peek_again hpeek

end Compiler

end ApeScript
