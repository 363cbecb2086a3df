import ApeScript.Proofs.StatementText

/-!
# Braces around one statement

A statement in braces and the same statement without them are compiled to the same switch, whatever
governs it, unless it is an `if` without braces and without `else`, or ends with one: then another
statement that follows is refused without the braces, and with them it is not.
-/

namespace ApeScript

open Lexer (Setting Stands Remaining Ahead Reaches ahead? peekNormal skipLineEnds
  skipLineEndsWithin firstToken?)

namespace Compiler

variable {c : CompileContext} {inline : Bool} {loc loc' : Location} {d d' D D' : Draft}
  {s s' t u u' : CompileState} {bound : Remaining} {label : Label}

/-! ### The rest of a switch -/

abbrev rounds (inline : Bool) (loc : Location) (bound : Remaining) (d : Draft) :
    Compiler (Draft × Bool) :=
  repeatWithin (switchRound inline loc) bound d

def switchFrom (label : Label) (inline : Bool) (loc : Location) (d : Draft) :
    Compiler (Switch × Bool) := do
  let (draft, afterHash) ← rounds inline loc (← remaining) d
  return (⟨label, ← emitAll draft⟩, afterHash)

theorem compileSwitch_eq_switchFrom :
    compileSwitch label inline = (do switchFrom label inline (← location) .done) := rfl

def SameSwitch (c : CompileContext) (x y : Compiler (Switch × Bool)) (s s' : CompileState) : Prop :=
  (∀ r t, x c s = .ok r t → ∃ t', y c s' = .ok r t' ∧ t.Alike t') ∧
    ∀ r t, y c s' = .ok r t → ∃ t', x c s = .ok r t' ∧ t.Alike t'

theorem SameSwitch.symm {x y : Compiler (Switch × Bool)} (h : SameSwitch c x y s s') :
    SameSwitch c y x s' s := ⟨h.2, h.1⟩

/-- Where the statements that are left are the same, but for places, so is the switch. -/
theorem SameSwitch.of_rounds (hu : u.Alike u') (hd : D.Alike D')
    (h : rounds inline loc s.lexer.remaining d c s = rounds inline loc bound D c u)
    (h' : rounds inline loc' s'.lexer.remaining d' c s' = rounds inline loc' bound D' c u') :
    SameSwitch c (switchFrom label inline loc d) (switchFrom label inline loc' d') s s' := by
  have hrun {loc : Location} {d D : Draft} {s u : CompileState}
      (h : rounds inline loc s.lexer.remaining d c s = rounds inline loc bound D c u) :
      switchFrom label inline loc d c s = (do
        let (draft, afterHash) ← rounds inline loc bound D
        return (⟨label, ← emitAll draft⟩, afterHash) : Compiler (Switch × Bool)) c u := by
    change EStateM.bind (rounds inline loc s.lexer.remaining d c) _ s =
      EStateM.bind (rounds inline loc bound D c) _ u
    rw [EStateM.bind, EStateM.bind, h]
  have hmoves {loc loc' : Location} {D D' : Draft} (hd : D.Alike D') : Stays c (do
        let (draft, afterHash) ← rounds inline loc bound D
        return (⟨label, ← emitAll draft⟩, afterHash)) (do
        let (draft, afterHash) ← rounds inline loc' bound D'
        return (⟨label, ← emitAll draft⟩, afterHash) : Compiler (Switch × Bool)) := by
    refine Moves.join (.repeatWithin hd fun _ _ h => moves_switchRound h) ?_
    rintro ⟨draft, after⟩ ⟨draft', _⟩ ⟨h, rfl⟩
    exact .bind (stays_emitAll h) fun _ => .pure rfl
  rw [SameSwitch, hrun h, hrun h']
  constructor
  · intro r t hr
    obtain ⟨_, t', hr', ht, rfl⟩ := hmoves hd _ _ r t hu hr
    exact ⟨t', hr', ht⟩
  · intro r t hr
    obtain ⟨_, t', hr', ht, rfl⟩ := hmoves hd.symm _ _ r t hu.symm hr
    exact ⟨t', hr', ht⟩

/-- Where no statements can be read, there is no switch. -/
theorem switchFrom_fails (h : ∃ err t, rounds inline loc s.lexer.remaining d c s = .error err t) :
    ∃ err t, switchFrom label inline loc d c s = .error err t := by
  obtain ⟨err, t, h⟩ := h
  refine ⟨err, t, ?_⟩
  change EStateM.bind (rounds inline loc s.lexer.remaining d c) _ s = _
  rw [EStateM.bind, h]

theorem SameSwitch.of_fails {x y : Compiler (Switch × Bool)} (h : ∃ err t, x c s = .error err t)
    (h' : ∃ err t, y c s' = .error err t) : SameSwitch c x y s s' := by
  obtain ⟨err, t, h⟩ := h
  obtain ⟨err', t', h'⟩ := h'
  rw [SameSwitch, h, h']
  exact ⟨by rintro _ _ ⟨⟩, by rintro _ _ ⟨⟩⟩

/-! ### Rounds of a switch -/

/-- A round in which nothing more can follow is the last one. -/
theorem switchRound_closes {k : Lexeme} (h : s.lexer.HeadIs k) (hk : k.closes = true)
    {next : Draft} : switchRound inline loc d c s ≠ .ok (.inl next) t := by
  obtain ⟨token, queue, hqueue, rfl⟩ := h.exists_queue
  intro hrun
  rw [switchRound, bind_run (lift_peek (Lexer.peekNormal_cons hqueue))] at hrun
  rcases Bool.or_eq_true_iff.1 hk with htype | htype
  · have htype : token.type = .closeBrace := of_decide_eq_true htype
    rw [htype] at hrun
    cases inline with
    | true => cases hrun
    | false =>
      obtain ⟨_, _, ⟨⟩, hrun⟩ := Grammar.run_bind_eq_ok.1 hrun
      obtain ⟨_, _, hexpect, -⟩ := Grammar.run_bind_eq_ok.1 hrun
      obtain ⟨l, hl, -⟩ := Gives.lift _ _ hexpect
      obtain ⟨_, _, hnext, hl⟩ := run_bind_ok.1 hl
      cases (Lexer.next_cons hqueue).symm.trans hnext
      rw [htype] at hl
      cases hl
  · have htype : token.type = .endOfFile := of_decide_eq_true htype
    rw [htype] at hrun
    cases inline <;> cases hrun

/-- So the bound does not matter there. -/
theorem rounds_closes {k : Lexeme} (h : s.lexer.HeadIs k) (hk : k.closes = true)
    (bound bound' : Remaining) :
    rounds inline loc bound d c s = rounds inline loc bound' d c s := by
  rw [rounds, rounds, repeatWithin, repeatWithin]
  cases hrun : switchRound inline loc d c s with
  | error err t => rw [bind_run_error hrun, bind_run_error hrun]
  | ok r t =>
    rw [bind_run hrun, bind_run hrun]
    cases r with
    | inr r => rfl
    | inl next => exact absurd hrun (switchRound_closes h hk)

/-- Statements are read only where line ends can be skipped. -/
theorem skipLineEnds_of_rounds {r : Draft × Bool} (h : rounds inline loc bound d c s = .ok r t) :
    ∃ m, skipLineEndsWithin bound s.lexer = .ok () m := by
  induction bound using Lexer.skipLineEndsWithin.induct generalizing s with
  | case1 bound ih =>
    rw [rounds, repeatWithin] at h
    obtain ⟨next, t₁, hround, h⟩ := Grammar.run_bind_eq_ok.1 h
    rw [switchRound] at hround
    obtain ⟨token, t₂, hpeek, hround⟩ := Grammar.run_bind_eq_ok.1 hround
    obtain ⟨n, hn, rfl⟩ := Gives.lift _ _ hpeek
    by_cases hline : token.type = .endOfLine
    · rw [hline] at hround
      cases hround
      obtain ⟨_, _, ⟨⟩, h⟩ := Grammar.run_bind_eq_ok.1 h
      split at h
      · rename_i less
        obtain ⟨m, hm⟩ := ih _ less h
        exact ⟨m, (Lexer.skipLineEndsWithin_line hn hline less).trans hm⟩
      · cases h
    · refine ⟨n, ?_⟩
      rw [skipLineEndsWithin]
      change EStateM.bind peekNormal _ s.lexer = _
      rw [EStateM.bind, hn]
      dsimp only
      rw [if_neg hline]
      rfl

end Compiler

namespace Grammar

open Compiler

variable {c : CompileContext} {e : Setting} {inline : Bool} {loc loc' : Location}
  {d d' d₀ : Draft} {s s' t : CompileState} {label : Label} {text text' tail : Bytes}
  {k k' : Ending} {o : Option (Lexeme × (Lexer → Prop))} {J K : Lexer → Prop}

/-! ### A statement of a switch -/

/-- A statement whose first word is met. -/
theorem runs_switchRound_word {I : Lexer → Prop} {o : Option (Lexer → Prop)} {word after : Bytes}
    (hI : Succeeds peekNormal I (Stands e ⟨[(.identifier, word)], after⟩)
      (·.lexeme = (.identifier, word)))
    (hruns : ∀ {token : Token} {bound : Remaining}, token.lexeme = (.identifier, word) →
      after.length ≤ bound.unread →
        Runs (parseStatement bound token false) c (Stands e ⟨[], after⟩) o (·.Alike d)) :
    Runs (switchRound inline loc d₀) c I o
      fun r => ∃ d₁ : Draft, d₁.Alike d ∧ r = .inl (d₀ ++ d₁) := by
  rw [switchRound]
  refine .after (.lift hI) fun token ht => ?_
  have htype : token.type = .identifier := congrArg Prod.fst ht
  rw [htype]
  dsimp only
  rw [if_neg (by simp)]
  refine .after (.remaining fun l hl => hl.remaining_eq) ?_
  rintro _ rfl
  refine .after (.lift (Lexer.succeeds_expect_from Stands.succeeds_read_queued))
    fun first hfirst => ?_
  refine (hruns hfirst (Nat.le_refl _)).andThen fun _ d₁ hd₁ => ?_
  exact .pure ⟨d₁, hd₁, rfl⟩

theorem runs_switchRound (h : RunsStatement c e .line text d k) (ho : Ahead e tail o)
    (helse : k.isPast = true → NoElse o) :
    Runs (switchRound inline loc d₀) c (Stands e ⟨[], text ++ 10 :: tail⟩) (k.out e .line [] tail o)
      fun r => ∃ d₁ : Draft, d₁.Alike d ∧ r = .inl (d₀ ++ d₁) := by
  obtain ⟨-, -, word, after, hopens, hafter, hruns⟩ := h
  have hfirst : firstToken? e.exponents .normal {} (text ++ 10 :: tail) =
      some ((.identifier, word), after ++ 10 :: tail) := hopens.first_stop hafter
  exact runs_switchRound_word (Stands.succeeds_peek hfirst hopens.literal)
    (hruns (.line ho) (by simp) helse)

theorem unread_of_out (hk : k ≠ .brace) (ho : Ahead e tail o)
    (hout : k.out e .line [] tail o = some K) {l : Lexer} (hl : K l) :
    l.cursor.unread ≤ tail.length := by
  cases ho with
  | reaches h => exact (skips_of_out hk h hout hl).2
  | stuck _ =>
    cases k with
    | brace => exact absurd rfl hk
    | stop =>
      cases hout
      exact Nat.le_of_eq hl.unread
    | passed | last | refused => cases hout

/-- A statement that is refused ends the reading. -/
theorem rounds_refused (h : RunsStatement c e .line text d k) (ho : Ahead e tail o)
    (helse : k.isPast = true → NoElse o) (hs : s.lexer.Stands e ⟨[], text ++ 10 :: tail⟩)
    (hout : k.out e .line [] tail o = none) (bound : Remaining) :
    ∃ err t, rounds inline loc bound d₀ c s = .error err t := by
  obtain ⟨err, t, hrun⟩ := (runs_switchRound h ho helse).fails hout s hs
  refine ⟨err, t, ?_⟩
  rw [rounds, repeatWithin]
  exact bind_run_error hrun

/-- A statement that is not refused is put after those before it, and the reading goes on. -/
theorem rounds_statement (h : RunsStatement c e .line text d k) (ho : Ahead e tail o)
    (helse : k.isPast = true → NoElse o) (hs : s.lexer.Stands e ⟨[], text ++ 10 :: tail⟩)
    (hout : k.out e .line [] tail o = some K) :
    ∃ d₁ t, d₁.Alike d ∧ K t.lexer ∧
      t = { s with lexer := t.lexer, warnings := t.warnings } ∧
      rounds inline loc s.lexer.remaining d₀ c s =
        rounds inline loc t.lexer.remaining (d₀ ++ d₁) c t := by
  obtain ⟨_, t, hrun, ⟨d₁, hd₁, rfl⟩, hK, ht⟩ :=
    (runs_switchRound h ho helse).reads K hout s s ⟨hs, rfl⟩
  refine ⟨d₁, t, hd₁, hK, ht, ?_⟩
  have less : t.lexer.remaining.Less s.lexer.remaining := by
    refine Or.inl (Nat.lt_of_le_of_lt (unread_of_out h.not_brace ho hout hK) ?_)
    change tail.length < s.lexer.cursor.unread
    rw [hs.unread, List.length_append, List.length_cons]
    omega
  rw [rounds, repeatWithin, bind_run hrun]
  change (if t.lexer.remaining.Less s.lexer.remaining then
    repeatWithin (switchRound inline loc) t.lexer.remaining (d₀ ++ d₁)
    else location >>= fun loc => fail loc .stalled) c t = _
  rw [if_pos less]

/-! ### One statement with braces and without -/

/-- The endings of two statements at which the same can follow, given what is met next: the same
ending, or one that lets only a closing brace or the end of the script follow where that follows. -/
def Ending.Matches (o : Option Lexeme) (k k' : Ending) : Prop :=
  k = k' ∨ k = .last ∧ (k' = .passed ∨ k' = .stop) ∧ ∀ p ∈ o, p.closes = true

theorem alike_of_out (hk : k ≠ .brace)
    (hlike : ∀ p ∈ o, ∀ l l' : Lexer, p.2 l → p.2 l' → l.Alike l')
    (hout : k.out e .line [] tail o = some K) {l l' : Lexer} (hl : K l) (hl' : K l') :
    l.Alike l' := by
  cases k with
  | brace => exact absurd rfl hk
  | stop =>
    cases hout
    exact .of_stands hl hl'
  | passed =>
    obtain ⟨p, hp, rfl⟩ := Option.map_eq_some_iff.1 hout
    exact hlike p hp l l' hl hl'
  | last =>
    obtain ⟨p, hp, rfl⟩ := Option.map_eq_some_iff.1 hout
    exact hlike p (Option.filter_eq_some_iff.1 hp).1 l l' hl hl'
  | refused => cases hout

section

variable (h : RunsStatement c e .line text d k) (h' : RunsStatement c e .line text' d k')
  (helse : NoElse o) (hs : s.lexer.Stands e ⟨[], text ++ 10 :: tail⟩)
  (hs' : s'.lexer.Stands e ⟨[], text' ++ 10 :: tail⟩)
  (hcount : s.inlineCount = s'.inlineCount) (hinline : s.inline = s'.inline)
include h h' helse hs hs'

theorem sameSwitch_of_refused (ho : Ahead e tail o) (hout : k.out e .line [] tail o = none)
    (hout' : k'.out e .line [] tail o = none) :
    SameSwitch c (switchFrom label inline loc d₀) (switchFrom label inline loc' d₀) s s' :=
  .of_fails (switchFrom_fails (rounds_refused h ho (fun _ => helse) hs hout _))
    (switchFrom_fails (rounds_refused h' ho (fun _ => helse) hs' hout' _))

/-- One statement is refused, and after the other nothing can be read. -/
theorem sameSwitch_of_stuck (ho : Ahead e tail none) (hk : k.out e .line [] tail o = none)
    (hk' : k' = .stop) (hnone : o = none) :
    SameSwitch c (switchFrom label inline loc d₀) (switchFrom label inline loc' d₀) s s' := by
  subst hnone hk'
  refine .of_fails (switchFrom_fails (rounds_refused h ho (fun _ => helse) hs hk _))
    (switchFrom_fails ?_)
  obtain ⟨d₁, t, -, ht, -, hrun⟩ := rounds_statement h' ho (fun _ => helse) hs' rfl
  rw [hrun]
  cases hrest : rounds inline loc' t.lexer.remaining (d₀ ++ d₁) c t with
  | error err u => exact ⟨err, u, rfl⟩
  | ok r u =>
    obtain ⟨m, hm⟩ := skipLineEnds_of_rounds hrest
    cases ho with
    | stuck hstuck =>
      obtain ⟨err, n, hn⟩ := hstuck _ (Stands.dropped ht)
      rw [← Stands.skipLineEnds_line ht] at hn
      cases hn.symm.trans hm

include hcount hinline

/-- After both statements the lexers stand alike. -/
theorem sameSwitch_of_alike (ho : Ahead e tail o) (hK : ∀ l l', K l → K l' → l.Alike l')
    (hout : k.out e .line [] tail o = some K) (hout' : k'.out e .line [] tail o = some K) :
    SameSwitch c (switchFrom label inline loc d₀) (switchFrom label inline loc' d₀) s s' := by
  obtain ⟨d₁, t, hd, ht, hbase, hrun⟩ := rounds_statement h ho (fun _ => helse) hs hout
  obtain ⟨d₁', t', hd', ht', hbase', hrun'⟩ := rounds_statement h' ho (fun _ => helse) hs' hout'
  have hu : t.Alike t' := by
    refine ⟨hK _ _ ht ht', ?_, ?_⟩
    · rw [hbase, hbase', hcount]
    · rw [hbase, hbase', hinline]
  rw [hu.lexer.remaining_eq] at hrun
  exact .of_rounds hu ((Draft.Alike.refl d₀).append (hd.trans hd'.symm)) hrun hrun'

/-- One statement has passed the end of its line, the other has not, and nothing more follows. -/
theorem sameSwitch_of_closes {p : Lexeme} (hreaches : Reaches e tail p J) (hp : p.closes = true)
    (hJ : ∀ l l', J l → J l' → l.Alike l') (hk : k.out e .line [] tail (some (p, J)) = some J)
    (hk' : k' = .stop) (ho : o = some (p, J)) :
    SameSwitch c (switchFrom label inline loc d₀) (switchFrom label inline loc' d₀) s s' := by
  subst ho hk'
  have ho : Ahead e tail (some (p, J)) := .reaches hreaches
  obtain ⟨d₁, t, hd, ht, hbase, hrun⟩ := rounds_statement h ho (fun _ => helse) hs hk
  obtain ⟨d₁', t', hd', ht', hbase', hrun'⟩ := rounds_statement h' ho (fun _ => helse) hs' rfl
  obtain ⟨m, hskip, hm⟩ := hreaches.skips_line ht'
  obtain ⟨bound, -, hpast⟩ := passesLineEnds_switch.absorbs hskip (.inr rfl)
  have hu : t.Alike { t' with lexer := m } := by
    refine ⟨hJ _ _ ht hm, ?_, ?_⟩
    · rw [hbase, hbase', hcount]
    · rw [hbase, hbase', hinline]
  refine .of_rounds hu ((Draft.Alike.refl d₀).append (hd.trans hd'.symm)) hrun ?_
  exact (hrun'.trans hpast).trans (rounds_closes (hreaches.waits m hm) hp bound _)

end

/-- Statements with the same draft and matching endings are followed by the same. -/
theorem sameSwitch_of_matches (h : RunsStatement c e .line text d k)
    (h' : RunsStatement c e .line text' d k') (hmatch : Ending.Matches (ahead? e tail) k k')
    (helse : ahead? e tail ≠ some (.identifier, utf8 "else"))
    (hs : s.lexer.Stands e ⟨[], text ++ 10 :: tail⟩)
    (hs' : s'.lexer.Stands e ⟨[], text' ++ 10 :: tail⟩)
    (hcount : s.inlineCount = s'.inlineCount) (hinline : s.inline = s'.inline) :
    SameSwitch c (switchFrom label inline loc d₀) (switchFrom label inline loc' d₀) s s' := by
  obtain ⟨o, ho, hfst, hlike⟩ := Lexer.exists_ahead e tail
  rw [← hfst] at hmatch helse
  have hsame (heq : k.out e .line [] tail o = k'.out e .line [] tail o) :
      SameSwitch c (switchFrom label inline loc d₀) (switchFrom label inline loc' d₀) s s' := by
    cases hout : k.out e .line [] tail o with
    | none => exact sameSwitch_of_refused h h' helse hs hs' ho hout (heq.symm.trans hout)
    | some K =>
      exact sameSwitch_of_alike h h' helse hs hs' hcount hinline ho
        (fun _ _ => alike_of_out h.not_brace hlike hout) hout (heq.symm.trans hout)
  obtain rfl | ⟨rfl, rfl | rfl, hcloses⟩ := hmatch
  · exact hsame rfl
  · refine hsame ?_
    cases o with
    | none => rfl
    | some p => simp [Ending.out, Option.filter, hcloses p.1 rfl]
  · cases ho with
    | stuck hstuck => exact sameSwitch_of_stuck h h' helse hs hs' (.stuck hstuck) rfl rfl rfl
    | @reaches p J hreaches =>
      have hp : p.closes = true := hcloses p rfl
      refine sameSwitch_of_closes h h' helse hs hs' hcount hinline hreaches hp (hlike _ rfl) ?_
        rfl rfl
      simp [Ending.out, Option.filter, hp]

/-! ### Braces -/

variable {gov lead : Bytes} {put : Draft → Draft} {ends : Ending → Ending}

theorem matches_ends (h : Head c e .line gov put ends) (hk : k ≠ .brace) {o : Option Lexeme}
    (hfree : k.isPast = true → ∀ p ∈ o, p.closes = true) :
    Ending.Matches o (ends k) (ends (if k.goesOn true then .brace else .refused)) := by
  cases h with
  | ifThen => cases k <;> simp_all [Ending.Matches, Ending.ofIf, Ending.goesOn, Ending.isPast]
  | loop => cases k <;> simp_all [Ending.Matches, Ending.checked, Ending.goesOn, Ending.isPast]
  | @otherwise _ _ _ _ _ ok =>
    cases ok <;> cases k <;>
      simp_all [Ending.Matches, Ending.checked, Ending.goesOn, Ending.isPast]

/-- Past the end of its line, what is governed lets nothing follow but what closes. -/
theorem out_ends_eq_none (h : Head c e .line gov put ends) (hk : k.isPast = true) {p : Lexeme}
    (hp : p.closes = false) : (ends k).out e .line [] tail (some (p, J)) = none := by
  have hlast : Ending.last.out e .line [] tail (some (p, J)) = none := by
    simp [Ending.out, Option.filter, hp]
  cases h with
  | ifThen => cases k <;> first | exact hlast | cases hk
  | loop => cases k <;> first | exact hlast | cases hk
  | @otherwise _ _ _ _ _ ok =>
    cases ok with
    | false => rfl
    | true => cases k <;> first | exact hlast | cases hk

theorem lead_nil : Lead e [] := by
  intro text rest k h hliteral hk l hl
  obtain ⟨_, m, hm, -, hJ⟩ :=
    Lexer.succeeds_skipLineEnds_from (Stands.succeeds_peek h hliteral) hk l hl
  exact ⟨m, hm, hJ⟩

theorem lead_blank : Lead e [32] := fun h hliteral hk l hl =>
  lead_nil (Lexer.firstToken?_blank.trans h) hliteral hk l hl

/-- The end of a line may come before what stands before a token. -/
theorem Lead.line (hlead : Lead e lead) : Lead e (10 :: lead) := fun h hliteral hk _ hl =>
  hl.skips_line (hlead h hliteral hk)

theorem lead_line : Lead e [10] := lead_nil.line

/-- In a switch, two texts are compiled alike after any statements. -/
def Interchangeable (c : CompileContext) (e : Setting) (text text' : Bytes) : Prop :=
  ∀ (label : Label) (inline : Bool) (loc loc' : Location) (d : Draft) (s s' : CompileState),
    s.lexer.Stands e ⟨[], text⟩ → s'.lexer.Stands e ⟨[], text'⟩ →
    s.inlineCount = s'.inlineCount → s.inline = s'.inline →
    SameSwitch c (switchFrom label inline loc d) (switchFrom label inline loc' d) s s'

/-- At the start of a switch, interchangeable texts are compiled to the same switch. -/
theorem Interchangeable.compileSwitch {text text' : Bytes} (h : Interchangeable c e text text')
    (hs : s.lexer.Stands e ⟨[], text⟩) (hs' : s'.lexer.Stands e ⟨[], text'⟩)
    (hcount : s.inlineCount = s'.inlineCount) (hinline : s.inline = s'.inline) :
    SameSwitch c (compileSwitch label inline) (compileSwitch label inline) s s' := by
  rw [compileSwitch_eq_switchFrom]
  exact h label inline _ _ .done s s' hs hs' hcount hinline

def Refused (c : CompileContext) (e : Setting) (text : Bytes) : Prop :=
  ∀ (label : Label) (inline : Bool) (loc : Location) (d : Draft) (s : CompileState),
    s.lexer.Stands e ⟨[], text⟩ → ∃ err t, switchFrom label inline loc d c s = .error err t

/-- A statement with a line end after it, and the same statement in braces, under whatever governs
it, are interchangeable before any text that does not start with an `else`, if the statement does
not pass the end of its line or if nothing follows it. If it does and something follows, only the
braces make a switch of it. -/
theorem interchangeable_braces (hkey : Keywords e) (hgov : Head c e .line gov put ends)
    (hlead : Lead e lead) (hapart : Apart gov (lead ++ text)) (h : Statement c e .line text d k)
    (helse : ahead? e tail ≠ some (.identifier, utf8 "else")) :
    ((k.isPast = true → ∀ p ∈ ahead? e tail, p.closes = true) →
      Interchangeable c e (gov ++ (lead ++ (text ++ 10 :: tail)))
        (gov ++ (utf8 " \x7b\n" ++ (text ++ (utf8 "\n\x7d\n" ++ tail))))) ∧
    (k.isPast = true → (∃ p ∈ ahead? e tail, p.closes = false) →
      Refused c e (gov ++ (lead ++ (text ++ 10 :: tail)))) := by
  have hbare : RunsStatement c e .line (gov ++ (lead ++ text)) (put d) (ends k) :=
    (Statement.bare hgov (by simp) hlead hapart h).runs hkey
  have hbraced : RunsStatement c e .line
      (gov ++ ([32] ++ 123 :: (([10] ++ (text ++ 10 :: ([] ++ [125]))) ++ []))) (put (d ++ .done))
      (ends (if k.goesOn true then .brace else .refused)) := by
    have hblock : Block c e true ([10] ++ (text ++ 10 :: ([] ++ [125]))) false (d ++ .done)
        (k.goesOn true && (!false || c.options.allowEmptyBlocks)) :=
      .line lead_line h (.close lead_nil)
    rw [Bool.not_false, Bool.true_or, Bool.and_true] at hblock
    exact (Statement.braced hgov lead_blank (by rintro _ _ _ _ ⟨⟩; rfl) trail_nil hblock).runs hkey
  rw [Draft.append_done] at hbraced
  have hbareText : gov ++ (lead ++ (text ++ 10 :: tail)) =
      gov ++ (lead ++ text) ++ 10 :: tail := by simp
  have hbracedText : gov ++ (utf8 " \x7b\n" ++ (text ++ (utf8 "\n\x7d\n" ++ tail))) =
      gov ++ ([32] ++ 123 :: (([10] ++ (text ++ 10 :: ([] ++ [125]))) ++ [])) ++ 10 :: tail := by
    simp [show utf8 " \x7b\n" = [32, 123, 10] from rfl,
      show utf8 "\n\x7d\n" = [10, 125, 10] from rfl]
  constructor
  · intro hfree label inline loc loc' d₀ s s' hs hs' hcount hinline
    rw [hbareText] at hs
    rw [hbracedText] at hs'
    have hmatch := matches_ends hgov (h.runs hkey).not_brace hfree
    exact sameSwitch_of_matches hbare hbraced hmatch helse hs hs' hcount hinline
  · rintro hpast ⟨p, hp, hopen⟩ label inline loc d₀ s hs
    rw [hbareText] at hs
    obtain ⟨o, ho, hfst, -⟩ := Lexer.exists_ahead e tail
    rw [← hfst] at hp helse
    obtain ⟨⟨p, J⟩, rfl, rfl⟩ := Option.map_eq_some_iff.1 hp
    exact switchFrom_fails (rounds_refused hbare ho (fun _ => helse) hs
      (out_ends_eq_none hgov hpast hopen) _)

/-! ### Branches on variables -/

variable (condition : ApeScript.Condition) (shown : Script.Shown)

theorem condition_of_reads (hdefault : c.options = Options.defaults) :
    Condition c .plain (utf8 " (" ++ (condition.text ++ [41])) condition.value where
  nonempty := List.cons_ne_nil _ _
  apart := by rintro _ ⟨⟩; rfl
  reads tail := by
    have hreads : ReadsFrom parseCondition c
        (Lexer.At ⟨[], utf8 " (" ++ (condition.text ++ 41 :: tail)⟩) (Lexer.At ⟨[], tail⟩)
        (· = condition.value) := reads_parseCondition hdefault
    simpa [Lexer.at_eq_stands] using hreads

/-- A text is shown before any stop. -/
theorem simple_echo {s : Stop} {gap : Bytes} (hgap : Trail .plain s gap)
    (hends : ∀ tail, EndsOperand (gap ++ (s.bytes ++ tail))) :
    Simple c .plain s (utf8 "echo " ++ (Script.quote shown.1 ++ gap))
      (.single ⟨.echo, some shown.1, [], none, .start []⟩) where
  reads := by
    refine ⟨utf8 "echo", 32 :: (Script.quote shown.1 ++ gap), ?_, by simp, by decide, by decide, ?_⟩
    · exact ⟨rfl, .of_all rfl, by rintro _ ⟨⟩; rfl, rfl, by decide⟩
    intro token tail o ht ho
    obtain ⟨type, text, loc⟩ := token
    obtain ⟨rfl, rfl⟩ := Prod.mk.inj ht
    have hcomma : s.lexeme.1 ≠ .comma := by cases s <;> simp [Stop.lexeme]
    have hreads : ReadsFrom (parseQuotedStatement .echo loc) c
        (Stands .plain ⟨[], 32 :: (Script.quote shown.1 ++ (gap ++ (s.bytes ++ tail)))⟩)
        (Stands .plain ⟨[s.lexeme], tail⟩) (· = .single ⟨.echo, some shown.1, [], none, loc⟩) :=
      have hnone : ∀ v ∈ ([] : List FormatValue), v.Compiled ∧ 34 ∉ v.literal := by simp
      readsFrom_parseQuotedStatement rfl (fun v hv => (hnone v hv).1) (fun v hv => (hnone v hv).2)
        (hends tail) (hgap tail o ho) hcomma
    rw [List.cons_append, List.append_assoc]
    refine .bind hreads ?_
    rintro _ rfl
    exact .bind (.lift Stands.succeeds_peek_queued) fun _ _ => .pure (.single ⟨rfl, trivial⟩)

theorem keywords_plain : Keywords .plain := fun _ _ => rfl

/-- A `while` in an `if` and the line after it make the same switch with braces and without. An
`else if` and the line after it make none without braces. -/
theorem interchangeable_braces_loop :
    Interchangeable ⟨Options.defaults, 0⟩ .plain
        (utf8 "if ( a)\nwhile ( b) \x7b echo \"x\" \x7d\necho \"y\"\n")
        (utf8 "if ( a) \x7b\nwhile ( b) \x7b echo \"x\" \x7d\n\x7d\necho \"y\"\n") ∧
      Refused ⟨Options.defaults, 0⟩ .plain
        (utf8 "if ( a)\necho \"x\"\nelse if ( b)\necho \"x\"\necho \"y\"\n") := by
  have ha : Condition ⟨Options.defaults, 0⟩ .plain (utf8 " ( a)") (.floatVar (utf8 "a")) :=
    condition_of_reads (.variable (⟨.of_all rfl, by decide⟩ : Script.Variable (utf8 "a"))) rfl
  have hb : Condition ⟨Options.defaults, 0⟩ .plain (utf8 " ( b)") (.floatVar (utf8 "b")) :=
    condition_of_reads (.variable (⟨.of_all rfl, by decide⟩ : Script.Variable (utf8 "b"))) rfl
  have hecho : Statement ⟨Options.defaults, 0⟩ .plain .line (utf8 "echo \"x\"") _ .stop :=
    .simple (simple_echo ⟨utf8 "x", by decide⟩ trail_nil (by rintro _ _ ⟨⟩; decide))
  have hlast : Statement ⟨Options.defaults, 0⟩ .plain .brace (utf8 "echo \"x\" ") _ .stop :=
    .simple (simple_echo ⟨utf8 "x", by decide⟩ (fun _ _ _ => rfl) (by rintro _ _ ⟨⟩; decide))
  have hloop : Statement ⟨Options.defaults, 0⟩ .plain .line
      (utf8 "while ( b) \x7b echo \"x\" \x7d") _ .stop :=
    .braced (.loop hb) lead_blank (by rintro _ _ _ _ ⟨⟩; rfl) trail_nil
      (.last lead_blank (show Statement _ _ _ _ _ (if true then .stop else .refused) from hlast))
  have hif : Statement ⟨Options.defaults, 0⟩ .plain .line (utf8 "if ( b)\necho \"x\"") _ .passed :=
    .bare (.ifThen (by simp) hb) (by simp) lead_line (by rintro _ _ _ _ ⟨⟩; rfl) hecho
  have hotherwise : Head ⟨Options.defaults, 0⟩ .plain .line
      (utf8 "if ( a)\necho \"x\"\nelse") _ _ :=
    .otherwise ha (.line lead_line
      (show Statement _ _ _ _ _ (if true then .stop else .refused) from hecho) lead_nil)
  have hnext : ahead? .plain (utf8 "echo \"y\"\n") = some (.identifier, utf8 "echo") := by cbv
  have helse : ahead? .plain (utf8 "echo \"y\"\n") ≠ some (.identifier, utf8 "else") := by
    rw [hnext]
    decide
  constructor
  · exact (interchangeable_braces keywords_plain (.ifThen (by simp) ha) lead_line
      (by rintro _ _ _ _ ⟨⟩; rfl) hloop helse).1 (by rintro ⟨⟩)
  · exact (interchangeable_braces keywords_plain hotherwise lead_blank
      (by rintro _ _ _ _ ⟨⟩; rfl) hif helse).2 rfl ⟨_, hnext, rfl⟩

/-- An `if` in an `if` is accepted before another statement only in braces. -/
theorem not_accepted_nested_if :
    ¬ Accepted (switchScript 1 (utf8 "if (a)\nif (b)\necho \"x\"\necho \"y\"\n")) ∧
      Accepted (switchScript 1 (utf8 "if (a) \x7b\nif (b)\necho \"x\"\n\x7d\necho \"y\"\n")) :=
  ⟨of_decide_eq_false (by cbv), of_decide_eq_true (by cbv)⟩

end Grammar

end ApeScript
