import ApeScript.Compile.Monad
import ApeScript.Proofs.Contract
import Mathlib

/-!
# Tracked places

The lexer counts lines and columns as it goes. A lexer tracks a text when its place is that of the
offset at which its unread bytes start, and every waiting token has the place of some offset. Each
read keeps this: `Lexer.Sites file text x P` says that `x`, run on a lexer that tracks the text, leaves
one that does and a result with `P`, or fails at a place of the text. `Compiler.Sites` says the same
of compilers and of the warnings they report, whether they succeed or fail, and has a rule for each
way in which compilers are put together.
-/

namespace ApeScript

variable {α β σ : Type} {file text : Bytes}

def Location.Within (file text : Bytes) (l : Location) : Prop :=
  ∃ p ≤ text.length, l = ofOffset file text p

theorem Location.within_ofOffset (file text : Bytes) (p : Nat) :
    (ofOffset file text p).Within file text := by
  refine ⟨min p text.length, Nat.min_le_right _ _, ?_⟩
  rw [ofOffset, ofOffset, ← List.take_eq_take_min]

theorem Location.within_start (file text : Bytes) : (start file).Within file text :=
  within_ofOffset file text 0

theorem Location.file_advance (l : Location) (s : Bytes) : (l.advance s).file = l.file := by
  induction s generalizing l with
  | nil => rfl
  | cons b s ih =>
    have hafter : (l.after b).file = l.file := by
      unfold after
      split <;> rfl
    exact (ih (l.after b)).trans hafter

theorem Location.file_ofOffset (file text : Bytes) (p : Nat) : (ofOffset file text p).file = file :=
  file_advance ..

theorem Location.advance_after (l : Location) (s : Bytes) (b : UInt8) :
    (l.advance s).after b = l.advance (s ++ [b]) :=
  (List.foldl_concat ..).symm

/-- The place where the second part of a text starts. -/
theorem Location.ofOffset_append (file s t : Bytes) :
    ofOffset file (s ++ t) s.length = (start file).advance s := by
  rw [ofOffset, List.take_left]

/-- The place after a part of the text that follows an offset. -/
theorem Location.ofOffset_advance (file text : Bytes) (p size : Nat) :
    (ofOffset file text p).advance ((text.drop p).take size) = ofOffset file text (p + size) := by
  rw [ofOffset, ofOffset, List.take_add]
  exact List.foldl_append.symm

/-- Every reason but a warning that counts as an error. -/
def Cause.Raised : Cause → Prop
  | promoted _ => False
  | _ => True

/-- Every reason but a warning that counts as an error and a loop that does not read on. -/
def Cause.Direct : Cause → Prop
  | promoted _ => False
  | stalled => False
  | _ => True

theorem Cause.Direct.raised {cause : Cause} (h : cause.Direct) : cause.Raised := by
  cases cause with
  | promoted => exact h
  | _ => trivial

theorem Yields.raised {P : α → Prop} {x : Except Cause α} (h : Yields Cause.Direct P x) :
    Yields Cause.Raised P x :=
  h.error_mono fun _ => Cause.Direct.raised

structure CompileError.Sited (file text : Bytes) (e : CompileError) : Prop where
  loc : e.loc.Within file text
  cause : e.cause.Raised

/-! ### Reading tokens -/

namespace Scan

/-- A scan that fails has a reason of its own. -/
def Outcome.Raised : Outcome → Prop
  | done _ => True
  | failed _ cause _ => cause.Raised

/-- A scan that fails has read on. -/
def Outcome.Direct : Outcome → Prop
  | done _ => True
  | failed _ cause _ => cause.Direct

theorem Outcome.Direct.raised {outcome : Outcome} (h : outcome.Direct) : outcome.Raised := by
  cases outcome with
  | done => trivial
  | failed => exact Cause.Direct.raised h

theorem rawFrom_direct (flags : ReadFlags) (size : Nat) (s : Bytes) :
    (rawFrom flags size s).Direct := by
  fun_induction rawFrom flags size s
  case case4 ih | case7 ih => exact ih
  all_goals trivial

theorem raw_direct (flags : ReadFlags) (s : Bytes) : (raw flags s).Direct := by
  unfold raw
  split
  · split <;> apply rawFrom_direct
  · trivial

theorem quotedFrom_direct (flags : ReadFlags) (size : Nat) (s : Bytes) :
    (quotedFrom flags size s).Direct := by
  fun_induction quotedFrom flags size s
  case case6 ih | case7 ih => exact ih
  all_goals trivial

theorem quoted_direct (flags : ReadFlags) (s : Bytes) : (quoted flags s).Direct := by
  unfold quoted
  split
  · apply quotedFrom_direct
  · trivial

theorem numberFrom_direct (exponents : Bool) (step : NumberStep) (size : Nat) (s : Bytes) :
    (numberFrom exponents step size s).Direct := by
  have hfinish (step : NumberStep) (size : Nat) : (numberFrom.finish step size).Direct := by
    cases step <;> trivial
  fun_induction numberFrom exponents step size s
  case case4 | case6 => trivial
  case case2 ih | case3 ih | case5 ih | case7 ih => exact ih
  all_goals apply hfinish

theorem symbol_direct (b : UInt8) (s : Bytes) : (symbol b s).2.Direct := by
  fun_cases symbol b s <;> trivial

end Scan

def Cursor.Tracks (file text : Bytes) (c : Cursor) : Prop :=
  ∃ p, c.rest = text.drop p ∧ c.loc = .ofOffset file text p

namespace Cursor.Tracks

variable {c : Cursor}

theorem within (hc : c.Tracks file text) : c.loc.Within file text := by
  obtain ⟨p, -, hloc⟩ := hc
  exact hloc ▸ Location.within_ofOffset file text p

theorem advance (hc : c.Tracks file text) (size : Nat) : (c.advance size).Tracks file text := by
  obtain ⟨p, hrest, hloc⟩ := hc
  refine ⟨p + size, ?_, ?_⟩
  · change c.rest.drop size = _
    rw [hrest, List.drop_drop]
  · change c.loc.advance (c.rest.take size) = _
    rw [hrest, hloc, Location.ofOffset_advance]

end Cursor.Tracks

def Token.Sited (file text : Bytes) (t : Token) : Prop := t.loc.Within file text

namespace Lexer

/-- The cursor and the waiting tokens have places of the text. The bodies of macros need none: a
token of a macro gets the place where the macro is used. -/
structure Tracks (file text : Bytes) (l : Lexer) : Prop where
  cursor : l.cursor.Tracks file text
  queue : ∀ t ∈ l.queue, t.Sited file text

theorem tracks_ofSource (file text : Bytes) (exponents : Bool) :
    (ofSource text file exponents).Tracks file text :=
  ⟨⟨0, rfl, rfl⟩, by simp [ofSource]⟩

theorem Tracks.within {l : Lexer} (hl : l.Tracks file text) : l.cursor.loc.Within file text :=
  hl.cursor.within

def SitesAt (file text : Bytes) (l : Lexer) (x : Lex α) (P : α → Prop) : Prop :=
  match x l with
  | .ok a l' => l'.Tracks file text ∧ P a
  | .error e _ => e.Sited file text

def Sites (file text : Bytes) (x : Lex α) (P : α → Prop) : Prop :=
  ∀ l : Lexer, l.Tracks file text → l.SitesAt file text x P

namespace Sites

variable {x y : Lex α} {f : α → Lex β} {P : α → Prop} {Q : β → Prop} {loc : Location}
  {cause : Cause}

theorem pure {a : α} (h : P a) : Sites file text (pure a) P := fun _ hl => ⟨hl, h⟩

theorem get : Sites file text get (Tracks file text) := fun _ hl => ⟨hl, hl⟩

theorem location : Sites file text location (Location.Within file text) := fun _ hl => ⟨hl, hl.within⟩

theorem modify {f : Lexer → Lexer} (h : ∀ l, l.Tracks file text → (f l).Tracks file text) :
    Sites file text (modify f) fun _ => True :=
  fun l hl => ⟨h l hl, trivial⟩

theorem fail (hloc : loc.Within file text) (hcause : cause.Raised) :
    Sites file text (fail loc cause : Lex α) P :=
  fun _ _ => ⟨hloc, hcause⟩

theorem bind (hx : Sites file text x P) (hf : ∀ a, P a → Sites file text (f a) Q) :
    Sites file text (x >>= f) Q := by
  intro l hl
  have hrun : (x >>= f) l = EStateM.bind x f l := rfl
  have h := hx l hl
  unfold SitesAt at h ⊢
  rw [hrun, EStateM.bind]
  cases hxl : x l with
  | ok a m =>
    rw [hxl] at h
    exact hf a h.2 m h.1
  | error e m =>
    rw [hxl] at h
    exact h

/-- A check that fails when `p` holds, and what follows it. -/
theorem guard {p : Prop} [Decidable p] {z : Lex β} (hloc : loc.Within file text)
    (hcause : cause.Raised) (hz : ¬ p → Sites file text z Q) :
    Sites file text (if p then Lexer.fail loc cause >>= f else z) Q := by
  split
  · exact (fail (P := fun _ => False) hloc hcause).bind fun _ hfalse => hfalse.elim
  · exact hz ‹¬ p›

theorem ite {p : Prop} [Decidable p] (hx : p → Sites file text x P)
    (hy : ¬ p → Sites file text y P) : Sites file text (if p then x else y) P := by
  split
  · exact hx ‹p›
  · exact hy ‹¬ p›

theorem dite {p : Prop} [Decidable p] {x : p → Lex α} {y : ¬ p → Lex α}
    (hx : ∀ h, Sites file text (x h) P) (hy : ∀ h, Sites file text (y h) P) :
    Sites file text (if h : p then x h else y h) P := by
  split
  · apply hx
  · apply hy

end Sites

theorem sites_advance (size : Nat) : Sites file text (advance size) fun _ => True :=
  .modify fun _ hl => { hl with cursor := hl.cursor.advance size }

/-- A token starts where the cursor stood; a failure is reported there or where the scan stopped. -/
theorem sites_take {type : TokenType} {outcome : Scan.Outcome} (h : outcome.Raised) :
    Sites file text (take type outcome) (Token.Sited file text) := by
  refine .bind .get fun l hl => ?_
  cases outcome with
  | done size => exact .bind (sites_advance size) fun _ _ => .pure hl.within
  | failed size cause atStart =>
    refine .bind (sites_advance size) fun _ _ => .ite (fun _ => .fail hl.within h) fun _ => ?_
    exact .bind .location fun _ hloc => .fail hloc h

theorem sites_lexRaw {flags : ReadFlags} : Sites file text (lexRaw flags) (Token.Sited file text) := by
  refine .bind .get fun l _ => .bind (sites_take (Scan.raw_direct ..).raised) fun token htoken => ?_
  refine .ite (fun _ => .pure htoken) fun _ => .bind .get fun l _ => ?_
  split
  · exact .pure htoken
  · exact .pure htoken

theorem sites_lexQuoted {flags : ReadFlags} : Sites file text (lexQuoted flags) (Token.Sited file text) :=
  .bind .get fun _ _ => sites_take (Scan.quoted_direct ..).raised

theorem sites_lexNormal {flags : ReadFlags} :
    Sites file text (lexNormal flags) fun r => r.1.Sited file text := by
  refine .bind .get fun l hl => ?_
  split
  · exact .pure hl.within
  · refine .ite (fun _ => ?_) fun _ => .ite (fun _ => ?_) fun _ => .ite (fun _ => ?_) fun _ => ?_
    · exact .bind (sites_take (Scan.numberFrom_direct ..).raised) fun _ ht => .pure ht
    · exact .bind (sites_take trivial) fun _ ht => .pure ht
    · exact .bind sites_lexQuoted fun _ ht => .pure ht
    · exact .bind (sites_take (Scan.symbol_direct ..).raised) fun _ ht => .pure ht

theorem sites_lexWithin {mode : ReadMode} {flags : ReadFlags} {fuel : Nat} :
    Sites file text (lexWithin mode flags fuel) (Token.Sited file text) := by
  induction fuel generalizing mode with
  | zero => exact .bind .location fun _ hloc => .pure hloc
  | succ fuel ih =>
    unfold lexWithin
    refine .bind .get fun l _ => .bind (sites_advance _) fun _ _ => .bind .get fun l hl => ?_
    split
    · exact .guard hl.within trivial fun _ => .pure hl.within
    · exact sites_take trivial
    · cases mode with
      | raw => exact sites_lexRaw
      | quoted => exact sites_lexQuoted
      | normal =>
        refine .bind sites_lexNormal ?_
        rintro ⟨token, body⟩ htoken
        match body with
        | none => exact .pure htoken
        | some [] => exact ih
        | some (first :: more) =>
          refine .bind (.modify fun l hl => { hl with queue := ?_ }) fun _ _ => .pure htoken
          exact List.forall_mem_append.2 ⟨hl.queue, List.forall_mem_map.2 fun _ _ => htoken⟩

theorem sites_read {mode : ReadMode} {flags : ReadFlags} :
    Sites file text (read mode flags) (Token.Sited file text) := by
  refine .bind .get fun l hl => ?_
  split
  · rename_i token rest hqueue
    obtain ⟨htoken, hrest⟩ := List.forall_mem_cons.1 (hqueue ▸ hl.queue)
    exact .bind (.modify fun _ hm => { hm with queue := hrest }) fun _ _ => .pure htoken
  · exact .bind .get fun _ _ => sites_lexWithin

theorem sites_peek {mode : ReadMode} {flags : ReadFlags} :
    Sites file text (peek mode flags) (Token.Sited file text) := by
  refine .bind .get fun l hl => ?_
  split
  · rename_i token rest hqueue
    exact .pure (hl.queue token (hqueue ▸ List.mem_cons_self))
  · refine .bind (.bind .get fun _ _ => sites_lexWithin) fun token htoken => ?_
    refine .bind (.modify fun l hl => { hl with queue := ?_ }) fun _ _ => .pure htoken
    exact List.forall_mem_cons.2 ⟨htoken, hl.queue⟩

theorem sites_consume : Sites file text consume fun _ => True :=
  .modify fun _ hl => { hl with queue := fun t ht => hl.queue t (List.mem_of_mem_drop ht) }

theorem sites_expect {type : TokenType} : Sites file text (expect type) (Token.Sited file text) :=
  .bind sites_read fun _ ht => .ite (fun _ => .pure ht) fun _ => .fail ht trivial

theorem sites_skipLineEnds : Sites file text skipLineEnds fun _ => True := by
  refine .bind .get fun l _ => ?_
  induction l.remaining using skipLineEndsWithin.induct with
  | case1 bound ih =>
    rw [skipLineEndsWithin]
    refine .bind sites_peek fun token htoken => .ite (fun _ => ?_) fun _ => .pure trivial
    refine .bind sites_consume fun _ _ => .bind .get fun l _ => ?_
    exact .dite (fun less => ih l less) fun _ => .fail htoken trivial

theorem sites_macroBodyWithin {bound : Remaining} :
    Sites file text (macroBodyWithin bound) fun _ => True := by
  induction bound using macroBodyWithin.induct with
  | case1 bound ih =>
    rw [macroBodyWithin]
    refine .bind sites_peek fun token htoken => .ite (fun _ => .pure trivial) fun _ => ?_
    refine .bind sites_consume fun _ _ => .bind .get fun l _ => ?_
    refine .dite (fun less => ?_) fun _ => .fail htoken trivial
    exact .bind (ih l less) fun _ _ => .pure trivial

theorem sites_defineMacro : Sites file text defineMacro fun _ => True := by
  refine .bind sites_read fun name hname => .guard hname trivial fun _ => ?_
  refine .bind .get fun l _ => .guard hname trivial fun _ => .bind .get fun _ _ => ?_
  exact .bind sites_macroBodyWithin fun body _ => .modify fun l hl => { hl with }

end Lexer

/-! ### Compiling -/

structure CompileState.Tracks (file text : Bytes) (s : CompileState) : Prop where
  lexer : s.lexer.Tracks file text
  warnings : ∀ w ∈ s.warnings, w.1.Within file text

namespace Compiler

def Sites (file text : Bytes) (x : Compiler α) (P : α → Prop) : Prop :=
  ∀ c s, s.Tracks file text →
    match x c s with
    | .ok a s' => s'.Tracks file text ∧ P a
    | .error e s' => (∀ w ∈ s'.warnings, w.1.Within file text) ∧ e.Sited file text

/-- Nothing is said about the result. -/
abbrev Sited (file text : Bytes) (x : Compiler α) : Prop := Sites file text x fun _ => True

namespace Sites

variable {x y : Compiler α} {f : α → Compiler β} {P : α → Prop} {Q : β → Prop} {loc : Location}
  {cause : Cause}

theorem pure {a : α} (h : P a) : Sites file text (pure a) P := fun _ _ hs => ⟨hs, h⟩

/-- An error that has its place already. -/
theorem throw {e : CompileError} (he : e.Sited file text) :
    Sites file text (throw e : Compiler α) P :=
  fun _ _ hs => ⟨hs.warnings, he⟩

theorem fail (hloc : loc.Within file text) (hcause : cause.Raised) :
    Sites file text (Compiler.fail loc cause) P :=
  throw ⟨hloc, hcause⟩

theorem bind (hx : Sites file text x P) (hf : ∀ a, P a → Sites file text (f a) Q) :
    Sites file text (x >>= f) Q := by
  intro c s hs
  have hrun : (x >>= f) c s = EStateM.bind (x c) (fun a => f a c) s := rfl
  have h := hx c s hs
  rw [hrun, EStateM.bind]
  cases hxs : x c s with
  | ok a s' =>
    rw [hxs] at h
    exact hf a h.2 c s' h.1
  | error e s' =>
    rw [hxs] at h
    exact h

/-- What would follow a failure is not run. -/
theorem fail_bind (hloc : loc.Within file text) (hcause : cause.Raised) :
    Sites file text (Compiler.fail loc cause >>= f) Q :=
  (fail (P := fun _ => False) hloc hcause).bind fun _ hfalse => hfalse.elim

theorem ite {p : Prop} [Decidable p] (hx : p → Sites file text x P)
    (hy : ¬ p → Sites file text y P) : Sites file text (if p then x else y) P := by
  split
  · exact hx ‹p›
  · exact hy ‹¬ p›

theorem dite {p : Prop} [Decidable p] {x : p → Compiler α} {y : ¬ p → Compiler α}
    (hx : ∀ h, Sites file text (x h) P) (hy : ∀ h, Sites file text (y h) P) :
    Sites file text (if h : p then x h else y h) P := by
  split
  · apply hx
  · apply hy

/-- A check that fails when `p` holds, and what follows it. -/
theorem guard {p : Prop} [Decidable p] {y : Compiler β} (hloc : loc.Within file text)
    (hcause : cause.Raised) (hy : ¬ p → Sites file text y Q) :
    Sites file text (if p then Compiler.fail loc cause >>= f else y) Q :=
  ite (fun _ => fail_bind hloc hcause) hy

/-- Two branches that are followed by the same. -/
theorem ite_bind {p : Prop} [Decidable p] (hx : p → Sites file text x P)
    (hy : ¬ p → Sites file text y P)
    (hf : ∀ a, P a → Sites file text (f a) Q) : Sites file text (if p then x >>= f else y >>= f) Q :=
  ite (fun h => (hx h).bind hf) fun h => (hy h).bind hf

theorem located {x : Except Cause α} (hloc : loc.Within file text) (hx : Yields Cause.Raised P x) :
    Sites file text (Compiler.located loc x) P := by
  cases x with
  | ok a => exact pure hx
  | error cause => exact fail hloc hx

theorem lift {x : Lex α} (hx : Lexer.Sites file text x P) : Sites file text (liftM x) P := by
  intro c s hs
  have hrun := hx s.lexer hs.lexer
  unfold Lexer.SitesAt at hrun
  rw [run_lift]
  cases hl : x s.lexer with
  | ok a l =>
    rw [hl] at hrun
    exact ⟨⟨hrun.1, hs.warnings⟩, hrun.2⟩
  | error e l =>
    rw [hl] at hrun
    exact ⟨hs.warnings, hrun⟩

end Sites

theorem sites_options : Sited file text options := fun _ _ hs => ⟨hs, trivial⟩

theorem sites_context : Sited file text (readThe CompileContext) := fun _ _ hs => ⟨hs, trivial⟩

theorem sites_state : Sited file text (getThe CompileState) := fun _ _ hs => ⟨hs, trivial⟩

/-- A change of what has been made so far. -/
theorem sites_modify {f : CompileState → CompileState}
    (h : ∀ s, (f s).lexer = s.lexer ∧ (f s).warnings = s.warnings) :
    Sited file text (modifyThe CompileState f) := by
  intro c s hs
  obtain ⟨hlexer, hwarnings⟩ := h s
  exact ⟨⟨hlexer ▸ hs.lexer, hwarnings ▸ hs.warnings⟩, trivial⟩

theorem sites_location : Sites file text location (Location.Within file text) :=
  fun _ _ hs => ⟨hs, hs.lexer.within⟩

theorem sites_remaining : Sited file text remaining := fun _ _ hs => ⟨hs, trivial⟩

theorem sites_warn {loc : Location} {w : Warning} (hloc : loc.Within file text) :
    Sited file text (warn loc w) := by
  intro c s hs
  refine ⟨⟨hs.lexer, ?_⟩, trivial⟩
  exact List.forall_mem_append.2 ⟨hs.warnings, List.forall_mem_singleton.2 hloc⟩

/-- A loop ends with what its last step gives, if every step that goes on keeps the invariant. -/
theorem sites_repeatFrom {I : σ → Prop} {P : α → Prop} {step : σ → Compiler (σ ⊕ α)} {s : σ}
    (hs : I s) (hstep : ∀ s, I s → Sites file text (step s) (Sum.elim I P)) :
    Sites file text (repeatFrom s step) P := by
  refine .bind sites_remaining fun bound _ => ?_
  induction bound, s using repeatWithin.induct with
  | case1 bound s ih =>
    rw [repeatWithin]
    refine (hstep s hs).bind fun result hresult => ?_
    cases result with
    | inr a => exact .pure hresult
    | inl next =>
      refine .bind sites_remaining fun now _ => .dite (fun less => ih next now less hresult) ?_
      exact fun _ => .bind sites_location fun _ hloc => .fail hloc trivial

end Compiler

end ApeScript
