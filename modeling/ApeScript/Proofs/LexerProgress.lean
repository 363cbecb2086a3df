import ApeScript.Proofs.Numerals
import ApeScript.Proofs.TiledSource

/-!
# Reads use up the text

Every token that is read, the end of the file aside, leaves less unread text, or the same and fewer
tokens waiting. There is one exception: a raw read that has to stop at a closing parenthesis returns
an empty token when the parenthesis comes next (`Lexer.Stopped`). Since macros have names, the
empty token is never replaced by one.
-/

namespace ApeScript

namespace Scan

variable {flags : ReadFlags} {n : Nat} {b : UInt8} {s : Bytes}

/-- Only a closing parenthesis at which it has to stop makes a raw word empty. -/
theorem raw_cases (h : raw flags (b :: s) = .done n) :
    0 < n ∨ flags.stopParen = true ∧ b = 41 ∧ n = 0 := by
  rw [raw] at h
  split at h
  · rename_i hstop
    obtain ⟨rfl, hflag⟩ : b = 41 ∧ flags.stopParen = true := by simpa using hstop
    rw [rawFrom.eq_def] at h
    simp only [rawStops, hflag] at h
    cases h
    exact .inr ⟨hflag, rfl, rfl⟩
  · exact .inl (le_of_rawFrom h)

end Scan

namespace Lexer

variable {α β : Type} {l m n : Lexer} {mode : ReadMode} {flags : ReadFlags} {t : Token}
  {ts : List Token} {b : UInt8} {rest : Bytes}

/-! ### A read of the text -/

/-- A raw read stopped right at a closing parenthesis. Its token is empty, unless a macro without a
name replaces it. -/
structure Stopped (l : Lexer) (mode : ReadMode) (flags : ReadFlags) (t : Token) (m : Lexer) :
    Prop where
  mode : mode = .raw
  flags : flags.stopParen = true
  counted : m.Counted
  unread : m.cursor.unread ≤ l.cursor.unread
  queue : m.queue = l.queue
  paren : m.cursor.rest.head? = some 41
  token : t.type = .raw ∧ t.text = [] ∨ (l.body? []).isSome = true

theorem leads_lexRaw_spent (hl : l.Counted) (hrest : l.cursor.rest = b :: rest) :
    Leads (lexRaw flags) l fun t m => Shorter l m ∨ Stopped l .raw flags t m := by
  refine .get ?_
  rw [hrest]
  refine .bind leads_take ?_
  rintro _ m ⟨size, hsize, rfl, rfl⟩
  have hkept : ({ l with cursor := l.cursor.advance size } : Lexer).body? = l.body? := rfl
  rcases Scan.raw_cases hsize with hpos | ⟨hflag, rfl, rfl⟩
  · have htake : Leads (take .raw (.done size)) l fun _ m => Shorter l m :=
      fun t m h => (leads_take_shorter hl hrest (by rintro _ ⟨⟩; exact hpos) t m h).2
    have hshorter := htake _ _ rfl
    refine .ite (fun _ => .pure (.inl hshorter)) fun _ => .get ?_
    split
    · exact .pure (.inl hshorter)
    · exact .pure (.inl hshorter)
  · have hstopped {t : Token} (ht : t.type = .raw ∧ t.text = [] ∨ (l.body? []).isSome = true) :
        Stopped l .raw flags t { l with cursor := l.cursor.advance 0 } :=
      ⟨rfl, hflag, hl.advance 0, Nat.sub_le _ _, rfl, by simp [Cursor.advance, hrest], ht⟩
    refine .ite (fun _ => .pure (.inr (hstopped (.inl ⟨rfl, rfl⟩)))) fun _ => .get ?_
    rw [hkept, List.take_zero]
    split
    · rename_i hbody
      exact .pure (.inr (hstopped (.inr (by simp [hbody]))))
    · exact .pure (.inr (hstopped (.inl ⟨rfl, rfl⟩)))

theorem leads_lexQuoted_spent (hl : l.Counted) (hrest : l.cursor.rest = b :: rest) :
    Leads (lexQuoted flags) l fun _ m => Shorter l m := by
  refine .get fun t m h => (leads_take_shorter hl hrest (fun size hsize => ?_) t m h).2
  rw [hrest, Scan.quoted.eq_def] at hsize
  split at hsize
  · exact Scan.le_of_quotedFrom hsize
  · cases hsize

/-- A read of the text takes a token from it, meets the end of the file or stops at a closing
parenthesis. -/
theorem leads_lexWithin_spent {fuel : Nat} (hl : l.Counted) :
    Leads (lexWithin mode flags fuel) l fun t m => Consumed l t m ∨ Stopped l mode flags t m := by
  cases fuel with
  | zero => exact .get (.pure (.inl ⟨hl, .inr ⟨rfl, le_rfl, rfl⟩⟩))
  | succ fuel =>
    by_cases hmode : mode = .normal
    · subst hmode
      exact fun t m h => .inl (leads_lexWithin hl t m h)
    unfold lexWithin
    refine .get <| .bind leads_advance ?_
    rintro _ _ rfl
    have hgap := hl.advance (Scan.gapFrom 0 .plain l.cursor.rest).1
    have hle : (l.cursor.advance (Scan.gapFrom 0 .plain l.cursor.rest).1).unread ≤
        l.cursor.unread := Nat.sub_le _ _
    generalize l.cursor.advance (Scan.gapFrom 0 .plain l.cursor.rest).1 = cursor at hgap hle ⊢
    have hshorter {t : Token} {m : Lexer} (h : Shorter { l with cursor := cursor } m) :
        Consumed l t m := ⟨h.counted, .inl (Nat.lt_of_lt_of_le h.unread hle)⟩
    refine .get ?_
    split
    · exact .guard fun _ => .pure (.inl ⟨hgap, .inr ⟨rfl, hle, rfl⟩⟩)
    · rename_i hrest
      intro t m h
      exact .inl (hshorter (leads_take_shorter hgap hrest (by simp) t m h).2)
    · rename_i hne _
      obtain ⟨b, rest, hrest⟩ := List.exists_cons_of_ne_nil hne
      cases mode with
      | normal => exact absurd rfl hmode
      | quoted =>
        intro t m h
        exact .inl (hshorter (leads_lexQuoted_spent hgap hrest t m h))
      | raw =>
        intro t m h
        exact (leads_lexRaw_spent hgap hrest t m h).imp hshorter fun hm =>
          { hm with unread := hm.unread.trans hle }

/-- The pair of the unread bytes and the waiting tokens is less in lexicographic order. -/
def Uses (l m : Lexer) : Prop :=
  Prod.Lex (· < ·) (· < ·) (m.cursor.unread, m.queue.length) (l.cursor.unread, l.queue.length)

/-- The same text and the same tokens are left, or less text. -/
theorem remaining_atMost (hle : m.cursor.unread ≤ l.cursor.unread)
    (h : m.queue.countP (·.type ≠ .endOfFile) = l.queue.countP (·.type ≠ .endOfFile)) :
    m.remaining.AtMost l.remaining := by
  rcases Nat.lt_or_eq_of_le hle with hless | heq
  · exact .inl (.inl hless)
  · exact .inr (by rw [remaining, remaining, heq, h])

theorem leads_lex_spent (hl : l.Counted) :
    Leads (lex mode flags) l fun t m => Consumed l t m ∨ Stopped l mode flags t m :=
  .get (leads_lexWithin_spent hl)

/-- What is left to read after a read: less unless the end of the file was read or the read stopped
at a closing parenthesis. -/
theorem read_spent (hl : l.Counted) (h : read mode flags l = .ok t m) :
    m.Counted ∧ m.remaining.AtMost l.remaining ∧ (t.type ≠ .endOfFile →
      l.Uses m ∧ m.remaining.Less l.remaining ∨ l.queue = [] ∧ Stopped l mode flags t m) := by
  cases hqueue : l.queue with
  | cons first rest =>
    cases (read_cons hqueue).symm.trans h
    refine ⟨hl, ?_, fun htype => .inl ⟨?_, .inr ⟨rfl, by simp [remaining, hqueue, htype]⟩⟩⟩
    · by_cases htype : t.type = .endOfFile
      · exact .inr (by simp [remaining, hqueue, htype])
      · exact .inl (.inr ⟨rfl, by simp [remaining, hqueue, htype]⟩)
    · exact .right _ (by simp [hqueue])
  | nil =>
    rw [read_nil hqueue] at h
    rcases leads_lex_spent hl t m h with ⟨hcounted, hless | ⟨hend, hle, hm⟩⟩ | hstopped
    · exact ⟨hcounted, .inl (.inl hless), fun _ => .inl ⟨.left _ _ hless, .inl hless⟩⟩
    · exact ⟨hcounted, remaining_atMost hle (hm ▸ rfl), fun htype => absurd hend htype⟩
    · exact ⟨hstopped.counted, remaining_atMost hstopped.unread (hstopped.queue ▸ rfl),
        fun _ => .inr ⟨rfl, hstopped⟩⟩

/-- A token that is looked at waits first in the queue, where it was or read from the text. -/
theorem peek_cases (h : peek mode flags l = .ok t m) : (∃ ts, l.queue = t :: ts ∧ m = l) ∨
    l.queue = [] ∧ ∃ n, lex mode flags l = .ok t n ∧ m = { n with queue := t :: n.queue } := by
  cases hqueue : l.queue with
  | cons first rest =>
    cases (peek_cons hqueue).symm.trans h
    exact .inl ⟨rest, rfl, rfl⟩
  | nil =>
    rw [peek_nil hqueue] at h
    cases hlex : lex mode flags l with
    | error e n => simp [bind, EStateM.bind, hlex] at h
    | ok token n =>
      simp only [bind, EStateM.bind, hlex] at h
      cases h
      exact .inr ⟨rfl, n, rfl, rfl⟩

/-- Looking at a token and dropping it is reading it. -/
theorem read_of_peek (h : peek mode flags l = .ok t m) :
    ∃ n, read mode flags l = .ok t n ∧ consume m = .ok () n := by
  rcases peek_cases h with ⟨ts, hqueue, rfl⟩ | ⟨hqueue, n, hlex, rfl⟩
  · refine ⟨{ m with queue := ts }, read_cons hqueue, ?_⟩
    change EStateM.Result.ok () { m with queue := m.queue.drop 1 } = _
    rw [hqueue]
    rfl
  · exact ⟨n, (read_nil hqueue).trans hlex, rfl⟩

end Lexer

/-! ### What tokens are spelled as -/

/-- An identifier is not empty, and a number has the text of one. -/
structure Token.Spelled (t : Token) : Prop where
  word : t.type = .identifier → t.text ≠ []
  number : t.type = .number → Scan.Numeral true t.text

theorem Token.Spelled.of_type {t : Token} (hword : t.type ≠ .identifier)
    (hnumber : t.type ≠ .number) : t.Spelled :=
  ⟨fun h => absurd h hword, fun h => absurd h hnumber⟩

theorem Token.Spelled.moved {t : Token} (h : t.Spelled) (loc : Location) :
    ({ t with loc } : Token).Spelled :=
  ⟨h.word, h.number⟩

namespace Lexer

variable {α β : Type} {l m : Lexer} {mode : ReadMode} {flags : ReadFlags} {t : Token}
  {type : TokenType} {src : Bytes}

/-- Every macro has a name, and every token is spelled as its type says. -/
structure Named (l : Lexer) : Prop where
  queue : ∀ t ∈ l.queue, t.Spelled
  macros : ∀ m ∈ l.macros, m.1 ≠ [] ∧ ∀ t ∈ m.2, t.Spelled

theorem named_ofSource (src file : Bytes) (exponents : Bool) : (ofSource src file exponents).Named :=
  ⟨by simp [ofSource], by simp [ofSource]⟩

theorem Named.body? (hl : l.Named) {name : Bytes} {body : List Token}
    (h : l.body? name = some body) : name ≠ [] ∧ ∀ t ∈ body, t.Spelled := by
  obtain ⟨m, hm, rfl⟩ := Option.map_eq_some_iff.1 h
  have hname : m.1 = name := by simpa using List.find?_some hm
  exact hname ▸ hl.macros m (List.mem_of_find?_eq_some hm)

def KeepsNamesAt (l : Lexer) (x : Lex α) (P : α → Prop) : Prop :=
  match x l with
  | .ok a m => m.Named ∧ P a
  | .error _ m => m.Named

/-- Whether it succeeds or fails, a reader leaves names where they are due; what it returns
satisfies `P`. -/
def KeepsNames (x : Lex α) (P : α → Prop) : Prop := ∀ l : Lexer, l.Named → l.KeepsNamesAt x P

namespace KeepsNames

variable {x y : Lex α} {f : α → Lex β} {P : α → Prop} {Q : β → Prop} {loc : Location}
  {cause : Cause}

theorem after_named (hx : KeepsNames x P) (hl : l.Named) : (after x l).Named := by
  have h := hx l hl
  unfold KeepsNamesAt at h
  unfold after
  cases hxl : x l with
  | ok a m =>
    rw [hxl] at h
    exact h.1
  | error e m =>
    rw [hxl] at h
    exact h

theorem ok {a : α} (hx : KeepsNames x P) (hl : l.Named) (h : x l = .ok a m) : P a := by
  have hat := hx l hl
  unfold KeepsNamesAt at hat
  rw [h] at hat
  exact hat.2

theorem pure {a : α} (h : P a) : KeepsNames (pure a : Lex α) P := fun _ hl => ⟨hl, h⟩

theorem get : KeepsNames get Named := fun _ hl => ⟨hl, hl⟩

/-- What follows may depend on the lexer that was read. -/
theorem get_bind {f : Lexer → Lex β} (h : ∀ l : Lexer, l.Named → l.KeepsNamesAt (f l) Q) :
    KeepsNames (MonadState.get >>= f) Q := h

theorem fail : KeepsNames (fail loc cause : Lex α) P := fun _ hl => hl

theorem modify {f : Lexer → Lexer} (h : ∀ l, l.Named → (f l).Named) :
    KeepsNames (modify f) fun _ => True :=
  fun l hl => ⟨h l hl, trivial⟩

theorem bind_at (hx : l.KeepsNamesAt x P) (hf : ∀ a, P a → KeepsNames (f a) Q) :
    l.KeepsNamesAt (x >>= f) Q := by
  have hrun : (x >>= f) l = EStateM.bind x f l := rfl
  unfold KeepsNamesAt at hx ⊢
  rw [hrun, EStateM.bind]
  cases hxl : x l with
  | ok a m =>
    rw [hxl] at hx
    exact hf a hx.2 m hx.1
  | error e m =>
    rw [hxl] at hx
    exact hx

theorem bind (hx : KeepsNames x P) (hf : ∀ a, P a → KeepsNames (f a) Q) :
    KeepsNames (x >>= f) Q :=
  fun l hl => bind_at (hx l hl) hf

theorem ite {p : Prop} [Decidable p] (hx : p → KeepsNames x P) (hy : ¬ p → KeepsNames y P) :
    KeepsNames (if p then x else y) P := by
  split
  · exact hx ‹p›
  · exact hy ‹¬ p›

/-- A check that fails when `p` holds, and what follows it. -/
theorem guard {p : Prop} [Decidable p] {z : Lex β} (hz : ¬ p → KeepsNames z Q) :
    KeepsNames (if p then Lexer.fail loc cause >>= f else z) Q :=
  .ite (fun _ => .bind (P := fun _ => False) .fail fun _ h => h.elim) hz

theorem dite {p : Prop} [Decidable p] {x : p → Lex α} {y : ¬ p → Lex α}
    (hx : ∀ h, KeepsNames (x h) P) (hy : ∀ h, KeepsNames (y h) P) :
    KeepsNames (if h : p then x h else y h) P := by
  split
  · apply hx
  · apply hy

end KeepsNames

theorem names_advance (size : Nat) : KeepsNames (advance size) fun _ => True :=
  .modify fun _ hl => { hl with }

theorem names_location : KeepsNames location fun _ => True := fun _ hl => ⟨hl, trivial⟩

/-- A token is spelled as it should be if the bytes that its scan takes are. -/
theorem names_take {outcome : Scan.Outcome} {l : Lexer} (hl : l.Named)
    (h : ∀ size, outcome = .done size →
      (⟨type, l.cursor.rest.take size, l.cursor.loc⟩ : Token).Spelled) :
    l.KeepsNamesAt (take type outcome) Token.Spelled := by
  have hfail (size : Nat) (cause : Cause) (atStart : Bool) :
      KeepsNames (take type (.failed size cause atStart)) Token.Spelled := by
    refine .bind .get fun l _ => .bind (names_advance size) fun _ _ => ?_
    exact .ite (fun _ => .fail) fun _ => .bind names_location fun _ _ => .fail
  cases outcome with
  | done size => exact ⟨{ hl with }, h size rfl⟩
  | failed size cause atStart => exact hfail size cause atStart l hl

theorem names_take_other {outcome : Scan.Outcome} (hword : type ≠ .identifier)
    (hnumber : type ≠ .number) : KeepsNames (take type outcome) Token.Spelled :=
  fun _ hl => names_take hl fun _ _ => .of_type hword hnumber

theorem names_lexRaw : KeepsNames (lexRaw flags) Token.Spelled := by
  refine .bind .get fun l _ => .bind (names_take_other (by decide) (by decide)) fun token ht => ?_
  refine .ite (fun _ => .pure ht) fun _ => .bind .get fun l hl => ?_
  split
  · rename_i only hbody
    exact .pure (((hl.body? hbody).2 only (List.mem_singleton_self only)).moved token.loc)
  · exact .pure ht

theorem names_lexQuoted : KeepsNames (lexQuoted flags) Token.Spelled :=
  .bind .get fun _ _ => names_take_other (by decide) (by decide)

/-- A token of the grammar and the body of the macro it names. -/
theorem names_lexNormal : KeepsNames (lexNormal flags) fun r =>
    r.1.Spelled ∧ ∀ body, r.2 = some body → ∀ t ∈ body, t.Spelled := by
  refine .get_bind fun l hl => ?_
  have hlone {token : Lex Token} (h : l.KeepsNamesAt token Token.Spelled) :
      l.KeepsNamesAt (token >>= fun t => pure (t, none)) fun r : Token × Option (List Token) =>
        r.1.Spelled ∧ ∀ body, r.2 = some body → ∀ t ∈ body, t.Spelled :=
    KeepsNames.bind_at h fun t ht => .pure ⟨ht, by simp⟩
  split
  · exact ⟨hl, .of_type (by simp) (by simp), by simp⟩
  · rename_i b rest hrest
    by_cases hdigit : Bytes.isDigit b = true
    · rw [if_pos hdigit]
      refine hlone (names_take hl fun size hscan => ⟨nofun, fun _ => ?_⟩)
      obtain ⟨m, more, hsplit, rfl, hm, -⟩ := Scan.number_sound hdigit hscan
      dsimp only
      rw [hrest, hsplit, List.take_left]
      exact hm.allowed
    by_cases hword : isIdentifierByte b = true
    · rw [if_neg hdigit, if_pos hword]
      refine ⟨{ hl with }, ⟨fun _ => ?_, nofun⟩, fun body hbody => ?_⟩
      · change l.cursor.rest.take (Scan.identifier (b :: rest)) ≠ []
        rw [hrest]
        exact (Scan.identifier_take hword (by simpa using hdigit)).nonempty
      · dsimp only at hbody
        split at hbody
        · cases hbody
        · exact (hl.body? hbody).2
    · rw [if_neg hdigit, if_neg hword]
      split
      · exact hlone (names_lexQuoted l hl)
      · exact hlone (names_take_other (symbol_type b rest).1 (symbol_type b rest).2.2 l hl)

theorem names_lexWithin {fuel : Nat} : KeepsNames (lexWithin mode flags fuel) Token.Spelled := by
  have hend (loc : Location) : (⟨.endOfFile, [], loc⟩ : Token).Spelled :=
    .of_type (by simp) (by simp)
  induction fuel generalizing mode with
  | zero => exact .bind names_location fun _ _ => .pure (hend _)
  | succ fuel ih =>
    unfold lexWithin
    refine .bind .get fun l _ => .bind (names_advance _) fun _ _ => .bind .get fun l _ => ?_
    split
    · exact .guard fun _ => .pure (hend _)
    · exact names_take_other (by decide) (by decide)
    · cases mode with
      | raw => exact names_lexRaw
      | quoted => exact names_lexQuoted
      | normal =>
        refine .bind names_lexNormal ?_
        rintro ⟨token, body⟩ ⟨htoken, hbody⟩
        match body with
        | none => exact .pure htoken
        | some [] => exact ih
        | some (first :: more) =>
          obtain ⟨hfirst, hmore⟩ := List.forall_mem_cons.1 (hbody _ rfl)
          refine .bind (.modify fun l hl => { hl with queue := ?_ }) fun _ _ => .pure (hfirst.moved _)
          exact List.forall_mem_append.2 ⟨hl.queue, List.forall_mem_map.2 fun t ht =>
            (hmore t ht).moved token.loc⟩

theorem names_read : KeepsNames (read mode flags) Token.Spelled := by
  refine .bind .get fun l hl => ?_
  split
  · rename_i token rest hqueue
    obtain ⟨htoken, hrest⟩ := List.forall_mem_cons.1 (hqueue ▸ hl.queue)
    exact .bind (.modify fun _ hm => { hm with queue := hrest }) fun _ _ => .pure htoken
  · exact .bind .get fun _ _ => names_lexWithin

theorem names_peek : KeepsNames (peek mode flags) Token.Spelled := by
  refine .bind .get fun l hl => ?_
  split
  · rename_i token rest hqueue
    exact .pure (hl.queue token (hqueue ▸ List.mem_cons_self))
  · refine .bind (.bind .get fun _ _ => names_lexWithin) fun token htoken => ?_
    refine .bind (.modify fun l hl => { hl with queue := ?_ }) fun _ _ => .pure htoken
    exact List.forall_mem_cons.2 ⟨htoken, hl.queue⟩

theorem names_consume : KeepsNames consume fun _ => True :=
  .modify fun _ hl => { hl with queue := fun t ht => hl.queue t (List.mem_of_mem_drop ht) }

theorem names_expect : KeepsNames (expect type) Token.Spelled :=
  .bind names_read fun _ ht => .ite (fun _ => .pure ht) fun _ => .fail

theorem names_skipLineEnds : KeepsNames skipLineEnds fun _ => True := by
  refine .bind .get fun l _ => ?_
  induction l.remaining using skipLineEndsWithin.induct with
  | case1 bound ih =>
    rw [skipLineEndsWithin]
    refine .bind names_peek fun token _ => .ite (fun _ => ?_) fun _ => .pure trivial
    refine .bind names_consume fun _ _ => .bind .get fun l _ => ?_
    exact .dite (fun less => ih l less) fun _ => .fail

theorem names_macroBodyWithin {bound : Remaining} :
    KeepsNames (macroBodyWithin bound) fun body => ∀ t ∈ body, t.Spelled := by
  induction bound using macroBodyWithin.induct with
  | case1 bound ih =>
    rw [macroBodyWithin]
    refine .bind names_peek fun token htoken => .ite (fun _ => .pure (by simp)) fun _ => ?_
    refine .bind names_consume fun _ _ => .bind .get fun l _ => ?_
    refine .dite (fun less => .bind (ih l less) fun body hbody => .pure ?_) fun _ => .fail
    exact List.forall_mem_cons.2 ⟨htoken, hbody⟩

theorem names_defineMacro : KeepsNames defineMacro fun _ => True := by
  refine .bind names_read fun name hname => .guard fun htype => ?_
  refine .bind .get fun l _ => .guard fun _ => .bind .get fun _ _ => ?_
  refine .bind names_macroBodyWithin fun body hbody => .modify fun l hl => { hl with macros := ?_ }
  have hnew : name.text ≠ [] ∧ ∀ t ∈ body, t.Spelled := ⟨hname.word (not_not.1 htype), hbody⟩
  exact List.forall_mem_append.2 ⟨hl.macros, List.forall_mem_singleton.2 hnew⟩

theorem Call.after_named (call : Call) (hl : l.Named) : (call.after l).Named := by
  cases call with
  | read => exact names_read.after_named hl
  | peek => exact names_peek.after_named hl
  | consume => exact names_consume.after_named hl
  | expect => exact names_expect.after_named hl
  | skipLineEnds => exact names_skipLineEnds.after_named hl
  | defineMacro => exact names_defineMacro.after_named hl

/-- Whatever calls are made, names stay where they are due, and the unread bytes are counted. -/
theorem afterAll_sound (calls : List Call) (src file : Bytes) (exponents : Bool) :
    (afterAll calls (ofSource src file exponents)).Named ∧
      (afterAll calls (ofSource src file exponents)).Counted := by
  constructor
  · have hnamed : ∀ l : Lexer, l.Named → (afterAll calls l).Named := by
      induction calls with
      | nil => exact fun l hl => hl
      | cons call calls ih => exact fun l hl => ih (call.after l) (call.after_named hl)
    exact hnamed _ (named_ofSource src file exponents)
  · obtain ⟨q, -, -, hcursor⟩ := exists_ofOffset_afterAll calls (Nat.zero_le src.length)
      (l := ofSource src file exponents) rfl
    rw [Counted, hcursor]
    exact (List.length_drop ..).symm

/-! ### Fuel -/

/-- What follows a reader matters only where the reader arrives. -/
theorem bind_congr_of_leads {x : Lex α} {f g : α → Lex β} {P : α → Lexer → Prop}
    (hx : Leads x l P) (h : ∀ a m, P a m → f a m = g a m) : (x >>= f) l = (x >>= g) l := by
  change EStateM.bind x f l = EStateM.bind x g l
  rw [EStateM.bind, EStateM.bind]
  cases hxl : x l with
  | ok a m => exact h a m (hx a m hxl)
  | error e m => rfl

theorem get_congr {f g : Lexer → Lex β} (h : f l l = g l l) : (get >>= f) l = (get >>= g) l := h

/-- Macros without a body are passed over at most once for each unread byte. -/
theorem lexWithin_eq_of_lt {fuel fuel' : Nat} (hl : l.Counted) (h : l.cursor.unread < fuel)
    (h' : l.cursor.unread < fuel') :
    lexWithin mode flags fuel l = lexWithin mode flags fuel' l := by
  induction fuel generalizing l mode fuel' with
  | zero => exact absurd h (Nat.not_lt_zero _)
  | succ fuel ih =>
    obtain ⟨fuel', rfl⟩ := Nat.exists_eq_succ_of_ne_zero (Nat.ne_zero_of_lt h')
    unfold lexWithin
    refine get_congr (bind_congr_of_leads leads_advance ?_)
    rintro _ _ rfl
    have hgap := hl.advance (Scan.gapFrom 0 .plain l.cursor.rest).1
    have hle : (l.cursor.advance (Scan.gapFrom 0 .plain l.cursor.rest).1).unread ≤
        l.cursor.unread := Nat.sub_le _ _
    refine get_congr ?_
    generalize l.cursor.advance (Scan.gapFrom 0 .plain l.cursor.rest).1 = cursor at hgap hle ⊢
    dsimp only
    cases hrest : cursor.rest with
    | nil => rfl
    | cons b rest =>
      by_cases hb : b = 10
      · subst hb
        rfl
      simp only [List.cons.injEq, hb, false_and, imp_false, not_false_eq_true, implies_true]
      cases mode with
      | raw => rfl
      | quoted => rfl
      | normal =>
        refine bind_congr_of_leads (leads_lexNormal hgap hrest) ?_
        rintro ⟨token, body⟩ m hm
        have hless : m.cursor.unread < l.cursor.unread := Nat.lt_of_lt_of_le hm.unread hle
        rcases body with _ | _ | ⟨first, more⟩
        · rfl
        · exact ih hm.counted (by omega) (by omega)
        · rfl

/-! ### What is left to read -/

/-- The unread bytes are counted, and no more is left to read than `r`. -/
structure UpTo (r : Remaining) (l : Lexer) : Prop where
  counted : l.Counted
  atMost : l.remaining.AtMost r

/-- The unread bytes are counted, and less is left to read than `r`. -/
structure Below (r : Remaining) (l : Lexer) : Prop where
  counted : l.Counted
  less : l.remaining.Less r

/-- No more is left to read than `r`, and a token waits. -/
structure Shows (r : Remaining) (t : Token) (l : Lexer) : Prop extends l.UpTo r where
  first : l.queue.head? = some t

variable {r : Remaining}

theorem Counted.upTo (hl : l.Counted) : l.UpTo l.remaining := ⟨hl, .inr rfl⟩

theorem Below.upTo (hl : l.Below r) : l.UpTo r := ⟨hl.counted, .inl hl.less⟩

theorem UpTo.below {now : Remaining} (hl : l.UpTo now) (h : now.Less r) : l.Below r := by
  refine ⟨hl.counted, ?_⟩
  rcases hl.atMost with hless | heq
  · exact hless.trans h
  · exact heq ▸ h

def FailsDirectly (x : Lex α) : Prop := ∀ l e m, x l = .error e m → e.cause.Direct

namespace FailsDirectly

variable {x y : Lex α} {f : α → Lex β} {loc : Location} {cause : Cause}

theorem pure (a : α) : FailsDirectly (pure a : Lex α) := by
  rintro _ _ _ ⟨⟩

theorem get : FailsDirectly get := by
  rintro _ _ _ ⟨⟩

theorem modify (f : Lexer → Lexer) : FailsDirectly (modify f) := by
  rintro _ _ _ ⟨⟩

theorem fail (h : cause.Direct) : FailsDirectly (fail loc cause : Lex α) := by
  rintro _ _ _ ⟨⟩
  exact h

theorem bind (hx : FailsDirectly x) (hf : ∀ a, FailsDirectly (f a)) : FailsDirectly (x >>= f) := by
  intro l e m h
  change EStateM.bind x f l = .error e m at h
  rw [EStateM.bind] at h
  cases hxl : x l with
  | ok a n =>
    rw [hxl] at h
    exact hf a n e m h
  | error e' n =>
    rw [hxl] at h
    cases h
    exact hx l e m hxl

theorem ite {p : Prop} [Decidable p] (hx : FailsDirectly x) (hy : FailsDirectly y) :
    FailsDirectly (if p then x else y) := by
  split
  · exact hx
  · exact hy

end FailsDirectly

theorem direct_location : FailsDirectly location := .bind .get fun _ => .pure _

theorem direct_take {outcome : Scan.Outcome} (h : outcome.Direct) :
    FailsDirectly (take type outcome) := by
  refine .bind .get fun l => ?_
  cases outcome with
  | done size => exact .bind (.modify _) fun _ => .pure _
  | failed size cause atStart =>
    exact .bind (.modify _) fun _ => .ite (.fail h) (.bind direct_location fun _ => .fail h)

theorem direct_lexRaw : FailsDirectly (lexRaw flags) := by
  refine .bind .get fun l => .bind (direct_take (Scan.raw_direct ..)) fun token => ?_
  refine .ite (.pure _) (.bind .get fun l => ?_)
  split
  · exact .pure _
  · exact .pure _

theorem direct_lexQuoted : FailsDirectly (lexQuoted flags) :=
  .bind .get fun _ => direct_take (Scan.quoted_direct ..)

theorem direct_lexNormal : FailsDirectly (lexNormal flags) := by
  refine .bind .get fun l => ?_
  split
  · exact .pure _
  · refine .ite (.bind (direct_take (Scan.numberFrom_direct ..)) fun _ => .pure _) (.ite ?_ ?_)
    · exact .bind (direct_take trivial) fun _ => .pure _
    · refine .ite (.bind direct_lexQuoted fun _ => .pure _) ?_
      exact .bind (direct_take (Scan.symbol_direct ..)) fun _ => .pure _

theorem direct_lexWithin {fuel : Nat} : FailsDirectly (lexWithin mode flags fuel) := by
  induction fuel generalizing mode with
  | zero => exact .bind direct_location fun _ => .pure _
  | succ fuel ih =>
    unfold lexWithin
    refine .bind .get fun l => .bind (.modify _) fun _ => .bind .get fun l => ?_
    split
    · exact .ite (.bind (.fail trivial) fun _ => .pure _) (.pure _)
    · exact direct_take trivial
    · cases mode with
      | raw => exact direct_lexRaw
      | quoted => exact direct_lexQuoted
      | normal =>
        refine .bind direct_lexNormal ?_
        rintro ⟨token, body⟩
        match body with
        | none => exact .pure _
        | some [] => exact ih
        | some (first :: more) => exact .bind (.modify _) fun _ => .pure _

theorem direct_read : FailsDirectly (read mode flags) := by
  refine .bind .get fun l => ?_
  split
  · exact .bind (.modify _) fun _ => .pure _
  · exact .bind .get fun _ => direct_lexWithin

theorem direct_peek : FailsDirectly (peek mode flags) := by
  refine .bind .get fun l => ?_
  split
  · exact .pure _
  · exact .bind (.bind .get fun _ => direct_lexWithin) fun _ => .bind (.modify _) fun _ => .pure _

/-- From where `P` holds, a reader gets to where `Q` holds, or fails for another reason than a loop
that does not read on. -/
def Progress (P : Lexer → Prop) (x : Lex α) (Q : α → Lexer → Prop) : Prop :=
  ∀ l, P l →
    match x l with
    | .ok a m => Q a m
    | .error e _ => e.cause.Direct

namespace Progress

variable {x y : Lex α} {f : α → Lex β} {P P' : Lexer → Prop} {Q : α → Lexer → Prop}
  {R : β → Lexer → Prop} {loc : Location} {cause : Cause}

theorem pure {a : α} (h : ∀ l, P l → Q a l) : Progress P (pure a : Lex α) Q := h

theorem get {f : Lexer → Lex β} (h : ∀ l, P l → Progress (· = l) (f l) R) :
    Progress P (MonadState.get >>= f) R := fun l hl => h l hl l rfl

theorem fail (h : cause.Direct) : Progress P (fail loc cause : Lex α) Q := fun _ _ => h

theorem modify {f : Lexer → Lexer} {Q : Unit → Lexer → Prop} (h : ∀ l, P l → Q () (f l)) :
    Progress P (modify f) Q := h

theorem bind (hx : Progress P x Q) (hf : ∀ a, Progress (Q a) (f a) R) :
    Progress P (x >>= f) R := by
  intro l hl
  have hrun : (x >>= f) l = EStateM.bind x f l := rfl
  have h := hx l hl
  rw [hrun, EStateM.bind]
  cases hxl : x l with
  | ok a m =>
    rw [hxl] at h
    exact hf a m h
  | error e m =>
    rw [hxl] at h
    exact h

theorem ite {p : Prop} [Decidable p] (hx : p → Progress P x Q) (hy : ¬ p → Progress P y Q) :
    Progress P (if p then x else y) Q := by
  split
  · exact hx ‹p›
  · exact hy ‹¬ p›

/-- A check that fails when `p` holds, and what follows it. -/
theorem guard {p : Prop} [Decidable p] {z : Lex β} (h : cause.Direct)
    (hz : ¬ p → Progress P z R) :
    Progress P (if p then Lexer.fail loc cause >>= f else z) R :=
  .ite (fun _ => .bind (Q := fun _ _ => False) (.fail h) fun _ _ hfalse => hfalse.elim) hz

/-- More is known before, and less has to be known after. -/
theorem mono {Q' : α → Lexer → Prop} (hx : Progress P x Q) (hP : ∀ l, P' l → P l)
    (hQ : ∀ a l, Q a l → Q' a l) : Progress P' x Q' := by
  intro l hl
  have h := hx l (hP l hl)
  cases hxl : x l with
  | ok a m =>
    rw [hxl] at h
    exact hQ a m h
  | error e m =>
    rw [hxl] at h
    exact h

/-- What is known of a reader that succeeds holds after it. -/
theorem leads (hx : FailsDirectly x) (h : ∀ l, P l → Leads x l Q) : Progress P x Q := by
  intro l hl
  cases hxl : x l with
  | ok a m => exact h l hl a m hxl
  | error e m => exact hx l e m hxl

/-- A loop that has read on goes on. -/
theorem spent {bound : Remaining} {k : l.remaining.Less bound → Lex β} (hl : l.Below bound)
    (h : ∀ less, Progress (UpTo l.remaining) (k less) R) :
    Progress (· = l) (if less : l.remaining.Less bound then k less else Lexer.fail loc .stalled)
      R := by
  rintro _ rfl
  rw [dif_pos hl.less]
  exact h hl.less _ hl.counted.upTo

end Progress

theorem progress_read : Progress (UpTo r) (read mode flags) fun _ => UpTo r := by
  refine .leads direct_read fun l hl t m h => ?_
  obtain ⟨hcounted, hmost, -⟩ := read_spent hl.counted h
  exact ⟨hcounted, hmost.trans hl.atMost⟩

/-- Without a parenthesis to stop at, a token was read unless the file has ended. -/
theorem progress_read_token (hflags : flags.stopParen = false) :
    Progress (UpTo r) (read mode flags) fun t m =>
      m.UpTo r ∧ (t.type ≠ .endOfFile → m.Below r) := by
  refine .leads direct_read fun l hl t m h => ?_
  obtain ⟨hcounted, hmost, htoken⟩ := read_spent hl.counted h
  refine ⟨⟨hcounted, hmost.trans hl.atMost⟩, fun htype => ⟨hcounted, ?_⟩⟩
  rcases htoken htype with ⟨-, hless⟩ | ⟨-, hstopped⟩
  · exact Remaining.AtMost.less hless hl.atMost
  · rw [hstopped.flags] at hflags
    cases hflags

/-- A token that is looked at may stand in the way of the text that was read for it. -/
theorem progress_peek (hflags : flags.stopParen = false) :
    Progress (UpTo r) (peek mode flags) fun t => Shows r t := by
  refine .leads direct_peek fun l hl t m h => ?_
  rcases peek_cases h with ⟨ts, hqueue, rfl⟩ | ⟨-, n, hlex, rfl⟩
  · exact ⟨hl, by rw [hqueue]; rfl⟩
  refine ⟨⟨?_, ?_⟩, rfl⟩
  · rcases leads_lex_spent hl.counted t n hlex with hn | hn
    · exact hn.1
    · exact hn.counted
  · rcases leads_lex_spent hl.counted t n hlex with ⟨-, hless | ⟨hend, hle, hn⟩⟩ | hstopped
    · have hm : ({ n with queue := t :: n.queue } : Lexer).remaining.Less l.remaining := .inl hless
      exact .inl (Remaining.AtMost.less hm hl.atMost)
    · exact (remaining_atMost (m := { n with queue := t :: n.queue }) hle
        (by simp [hend, hn])).trans hl.atMost
    · rw [hstopped.flags] at hflags
      cases hflags

theorem progress_consume : Progress (UpTo r) consume fun _ => UpTo r := by
  refine .modify fun l hl => ⟨hl.counted, ?_⟩
  cases hqueue : l.queue with
  | nil =>
    rw [show ([] : List Token).drop 1 = l.queue by rw [hqueue]; rfl]
    exact hl.atMost
  | cons t ts =>
    have hread : read .normal {} l = .ok t { l with queue := ts } := read_cons hqueue
    exact (read_spent hl.counted hread).2.1.trans hl.atMost

/-- Dropping the token that was looked at leaves less, unless it is the end of the file. -/
theorem progress_take (htype : t.type ≠ .endOfFile) :
    Progress (Shows r t) consume fun _ => Below r := by
  refine .modify fun l hl => ?_
  obtain ⟨ts, hqueue⟩ : ∃ ts, l.queue = t :: ts := List.head?_eq_some_iff.1 hl.first
  have hread : read .normal {} l = .ok t { l with queue := ts } := read_cons hqueue
  obtain ⟨hcounted, -, htoken⟩ := read_spent hl.counted hread
  rw [show l.queue.drop 1 = ts by rw [hqueue]; rfl]
  refine ⟨hcounted, ?_⟩
  rcases htoken htype with ⟨-, hless⟩ | ⟨hnil, -⟩
  · exact Remaining.AtMost.less hless hl.atMost
  · cases hqueue.symm.trans hnil

theorem progress_expect (htype : type ≠ .endOfFile) :
    Progress (UpTo r) (expect type) fun _ => Below r := by
  refine .bind (progress_read_token rfl) fun token => .ite (fun h => ?_) fun _ => .fail trivial
  have htoken : token.type = type := by simpa using h
  exact .pure fun l hl => hl.2 (htoken ▸ htype)

theorem progress_skipLineEndsWithin (bound : Remaining) :
    Progress (UpTo bound) (skipLineEndsWithin bound) fun _ => UpTo bound := by
  induction bound using skipLineEndsWithin.induct with
  | case1 bound ih =>
    rw [skipLineEndsWithin]
    refine .bind (progress_peek rfl) fun token => .ite (fun htype => ?_) fun _ => ?_
    · refine .bind (progress_take (by simp [htype])) fun _ => .get fun l hl => ?_
      refine .spent hl fun less => ?_
      exact (ih l less).mono (fun _ h => h) fun _ l hl => (hl.below less).upTo
    · exact .pure fun l hl => hl.toUpTo

theorem progress_macroBodyWithin (bound : Remaining) :
    Progress (UpTo bound) (macroBodyWithin bound) fun _ => UpTo bound := by
  induction bound using macroBodyWithin.induct with
  | case1 bound ih =>
    rw [macroBodyWithin]
    refine .bind (progress_peek rfl) fun token => .ite (fun _ => ?_) fun htype => ?_
    · exact .pure fun l hl => hl.toUpTo
    · have hend : token.type ≠ .endOfFile := fun h => htype (by simp [h, TokenType.endsLine])
      refine .bind (progress_take hend) fun _ => .get fun l hl => ?_
      refine .spent hl fun less => ?_
      exact .bind (ih l less) fun _ => .pure fun l hl => (hl.below less).upTo

theorem progress_skipLineEnds : Progress (UpTo r) skipLineEnds fun _ => UpTo r :=
  .get fun l hl => (progress_skipLineEndsWithin l.remaining).mono
    (fun _ h => h ▸ hl.counted.upTo) fun _ _ h => ⟨h.counted, h.atMost.trans hl.atMost⟩

theorem progress_defineMacro : Progress (UpTo r) defineMacro fun _ => UpTo r := by
  refine .bind progress_read fun name => .guard trivial fun _ => .get fun l hl => ?_
  refine .guard trivial fun _ => .get ?_
  rintro m rfl
  have hbody : Progress (· = m) (macroBodyWithin m.remaining) fun _ => UpTo r :=
    (progress_macroBodyWithin m.remaining).mono (fun _ h => h ▸ hl.counted.upTo)
      fun _ _ h => ⟨h.counted, h.atMost.trans hl.atMost⟩
  refine .bind hbody fun body => ?_
  exact .modify fun l hl => ⟨hl.counted, hl.atMost⟩

end Lexer

end ApeScript
