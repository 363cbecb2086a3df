import ApeScript.Proofs.EmittedSwitch
import ApeScript.Proofs.FormatText
import ApeScript.Proofs.NestedWindow

/-!
# Skeletons as switches

A switch that is filled with a skeleton is read as a draft of the same shape, if it is accepted. The
draft is laid out at places of 64 bits, of which each level of nesting takes two, so that no text
stands in more than thirty-one branches.
-/

namespace ApeScript

open Script (Shown)

/-! ### Drafts of a skeleton -/

section

variable {γ δ ε : Type} {p q : Passage γ δ} {d d' : Draft} {n : Nat}

/-- An `if` with its condition. -/
def DraftStatement.IsIf (s : DraftStatement) : Prop := s.type = .ifThen ∧ s.expr.isSome = true

inductive Passage.Drafted : Passage γ δ → Draft → Prop where
  | done : Drafted .done .done
  | plain {t : δ} {rest : Passage γ δ} {s : DraftStatement} {more : Draft}
    (echo : s.type = .echo) (follows : rest.Drafted more) :
    Drafted (.plain t rest) (.step s .done .done more)
  | ifThen {c : γ} {b : Bool} {p rest : Passage γ δ} {s : DraftStatement} {inner more : Draft}
    (isIf : s.IsIf) (branch : p.Drafted inner) (follows : rest.Drafted more) :
    Drafted (.ifThen c b p rest) (.step s inner .done more)
  | ifElse {c : γ} {b b' : Bool} {p q rest : Passage γ δ} {s : DraftStatement}
    {inner alt more : Draft} (isIf : s.IsIf) (branch : p.Drafted inner)
    (alternative : q.Drafted alt) (follows : rest.Drafted more) :
    Drafted (.ifElse c b p b' q rest) (.step s inner alt more)

theorem Passage.Drafted.append (hp : p.Drafted d) (hq : q.Drafted d') :
    (p.append q).Drafted (d ++ d') := by
  induction hp with
  | done => exact hq
  | plain hs _ ih => exact .plain hs ih
  | ifThen hs hinner _ _ ih => exact .ifThen hs hinner ih
  | ifElse hs hinner halt _ _ _ ih => exact .ifElse hs hinner halt ih

theorem DraftStatement.IsIf.governs {s : DraftStatement} (hs : s.IsIf) : s.Governs d d' :=
  ⟨fun _ => hs.2, fun h => absurd hs.1 h⟩

theorem Passage.Drafted.shaped (hp : p.Drafted d) : d.Shaped := by
  induction hp with
  | done => trivial
  | plain hs _ ih => exact ⟨⟨by simp [hs], fun _ _ => ⟨rfl, rfl⟩⟩, trivial, trivial, ih⟩
  | ifThen hs _ _ ihp ih => exact ⟨hs.governs, ihp, trivial, ih⟩
  | ifElse hs _ _ _ ihp ihq ih => exact ⟨hs.governs, ihp, ihq, ih⟩

namespace Draft

/-- A text is shown inside `n` branches. -/
def ShowsAt : Draft → Nat → Prop
  | done, _ => False
  | step s inner alt rest, n => (n = 0 ∧ s.type = .echo) ∨
      (s.type = .ifThen ∧ ∃ m, n = m + 1 ∧ (inner.ShowsAt m ∨ alt.ShowsAt m)) ∨ rest.ShowsAt n

theorem showsAt_append : (d ++ d').ShowsAt n ↔ d.ShowsAt n ∨ d'.ShowsAt n := by
  rw [append_eq]
  induction d with
  | done => simp [append, ShowsAt]
  | step s inner alt rest _ _ ih => simp [append, ShowsAt, ih, or_assoc]

/-- Simplifying keeps every text inside as many branches. -/
theorem ShowsAt.simplify (h : d.ShowsAt n) (hd : d.simplify false = .ok d') : d'.ShowsAt n := by
  induction d generalizing n d' with
  | done => exact h.elim
  | step s inner alt rest ihi iha ih =>
    obtain ⟨here, rest', hhere, hrest, rfl⟩ := simplify_step_ok hd
    rw [showsAt_append]
    rcases h with ⟨rfl, htype⟩ | ⟨htype, m, rfl, h⟩ | h
    · left
      cases hhere with
      | chosen hopt => cases hopt
      | branch hif => simp [htype] at hif
      | loop hloop => simp [htype] at hloop
      | simple => exact Or.inl ⟨rfl, htype⟩
    · left
      cases hhere with
      | chosen hopt => cases hopt
      | branch hif hexpr hfold hinner halt hhere =>
        have h := h.imp (ihi · hinner) (iha · halt)
        obtain ⟨rfl, rfl, rfl⟩ | ⟨rfl, -, -, rfl⟩ | ⟨-, rfl⟩ := simplifyIf_ok hhere
        · exact h.elim id id
        · exact Or.inr (Or.inl ⟨rfl, m, rfl, Or.inl (h.resolve_left id)⟩)
        · exact Or.inr (Or.inl ⟨rfl, m, rfl, h⟩)
      | loop hloop => simp [htype] at hloop
      | simple _ hnone => exact Or.inr (Or.inl ⟨htype, m, rfl, h⟩)
    · exact Or.inr (ih h hrest)

/-- Each branch around a text takes two of the 64 bits of its place. -/
theorem ShowsAt.fits {o : Options} {b : Block} {place : Nat} (h : d.ShowsAt n)
    (hstored : d.StoredAs o b) (hlaid : b.LaidFrom place) : place * 4 ^ n < 2 ^ 64 := by
  induction d generalizing b n place with
  | done => exact h.elim
  | step s inner alt rest ihi iha ih =>
    cases b with
    | done => exact hstored.elim
    | step p inner' alt' rest' =>
      obtain ⟨-, hsi, hsa, hsr⟩ := hstored
      obtain ⟨hplace, hli, hla, hlr⟩ := hlaid
      have hbelow {more m : Nat} (hle : 4 * place ≤ more) (hmore : more * 4 ^ m < 2 ^ 64) :
          place * 4 ^ (m + 1) < 2 ^ 64 := by
        refine lt_of_le_of_lt ?_ hmore
        rw [pow_succ', ← mul_assoc, Nat.mul_comm place]
        exact Nat.mul_le_mul_right _ hle
      rcases h with ⟨rfl, -⟩ | ⟨-, m, rfl, h | h⟩ | h
      · rw [pow_zero, mul_one, ← hplace]
        exact p.cc.toNat_lt
      · exact hbelow (by omega) (ihi h hsi hli)
      · exact hbelow (by omega) (iha h hsa hla)
      · refine lt_of_le_of_lt (Nat.mul_le_mul_right _ ?_) (ih h hsr hlr)
        omega

/-- Whatever is emitted for a draft, no text in it stands in more than thirty-one branches. -/
theorem ShowsAt.le {o : Options} {ps : List Placed} (h : d.ShowsAt n)
    (hoptimize : o.optimize = false) (hd : d.Compiles o ps) : n ≤ 31 := by
  obtain ⟨d', b, hsimple, -, hlaid, -, hemitted⟩ := hd
  rw [hoptimize] at hsimple
  have hshows := h.simplify hsimple
  have hstored : d'.StoredAs o b := by
    cases d' with
    | done => exact hshows.elim
    | step => exact hemitted
  have hfits := hshows.fits hstored hlaid
  rw [one_mul] at hfits
  have hlt : n < 32 := (Nat.pow_lt_pow_iff_right (by decide)).1 hfits
  omega

end Draft

/-- The directives of a passage are shown inside the branches around them. -/
theorem Passage.Drafted.showsAt {f : γ → ε} {negate : ε → ε} {outer : List ε} (hp : p.Drafted d) :
    ∀ x ∈ (p.map f).enclosed negate outer, ∃ n, x.2.length = outer.length + n ∧ d.ShowsAt n := by
  induction hp generalizing outer with
  | done => simp [map, enclosed]
  | plain hs _ ih =>
    refine List.forall_mem_cons.2 ⟨⟨0, rfl, Or.inl ⟨rfl, hs⟩⟩, fun x hx => ?_⟩
    obtain ⟨n, hn, hshows⟩ := ih x hx
    exact ⟨n, hn, Or.inr (Or.inr hshows)⟩
  | ifThen hs _ _ ihp ih =>
    intro x hx
    rcases List.mem_append.1 hx with hx | hx
    · obtain ⟨n, hn, hshows⟩ := ihp x hx
      refine ⟨n + 1, ?_, Or.inr (Or.inl ⟨hs.1, n, rfl, Or.inl hshows⟩)⟩
      simp [hn, Nat.add_comm, Nat.add_left_comm]
    · obtain ⟨n, hn, hshows⟩ := ih x hx
      exact ⟨n, hn, Or.inr (Or.inr hshows)⟩
  | ifElse hs _ _ _ ihp ihq ih =>
    intro x hx
    rcases List.mem_append.1 hx with hx | hx
    · obtain ⟨n, hn, hshows⟩ := ihp x hx
      refine ⟨n + 1, ?_, Or.inr (Or.inl ⟨hs.1, n, rfl, Or.inl hshows⟩)⟩
      simp [hn, Nat.add_comm, Nat.add_left_comm]
    · rcases List.mem_append.1 hx with hx | hx
      · obtain ⟨n, hn, hshows⟩ := ihq x hx
        refine ⟨n + 1, ?_, Or.inr (Or.inl ⟨hs.1, n, rfl, Or.inr hshows⟩)⟩
        simp [hn, Nat.add_comm, Nat.add_left_comm]
      · obtain ⟨n, hn, hshows⟩ := ih x hx
        exact ⟨n, hn, Or.inr (Or.inr hshows)⟩

end

theorem Token.is_eq_true {token : Token} {word : Bytes} :
    token.is word = true ↔ token.lexeme = (.identifier, word) := by
  simp [Token.is, Token.lexeme]

namespace Compiler

open Lexer

variable {α : Type} {c : CompileContext} {s t : CompileState} {word : Bytes}
  {l : List (Sign Condition Shown)} {p q : Skeleton} {bound : Remaining} {loc : Location}

theorem Reads.gives {x : Compiler α} {a b : Spot} {P : α → Prop} (h : Reads x c a b P)
    (hs : s.lexer.At a) : Gives x c s fun r t => P r ∧ t.lexer.At b := by
  intro r t hrun
  obtain ⟨r', t', hrun', hr, ht, -⟩ := h s s ⟨hs, rfl⟩
  cases hrun.symm.trans hrun'
  exact ⟨hr, ht⟩

def Meets (l : List (Sign Condition Shown)) (s : CompileState) : Prop :=
  ∃ p : Spot, p.Before (signLines (utf8 "echo") l) ∧ s.lexer.At p

/-- The lines of the signs come next, or the end of the line before them. -/
def StandsBefore (l : List (Sign Condition Shown)) (s : CompileState) : Prop :=
  ∃ p : Spot, p.Reaches (signLines (utf8 "echo") l) ∧ s.lexer.At p

def Faces (l : List (Sign Condition Shown)) (s : CompileState) : Prop :=
  s.lexer.At ⟨[firstLexeme (utf8 "echo") l], afterFirst (utf8 "echo") l⟩

theorem first?_echo : first? .normal {} (signLines (utf8 "echo") l) =
    some (firstLexeme (utf8 "echo") l, afterFirst (utf8 "echo") l) := first?_signLines (.of_all rfl)

theorem Meets.standsBefore (h : Meets l s) : StandsBefore l s := by
  obtain ⟨p, hp, hs⟩ := h
  exact ⟨p, Or.inl hp, hs⟩

theorem Faces.meets (h : Faces l s) : Meets l s := ⟨_, .seen first?_echo, h⟩

theorem gives_skipLineEnds (h : StandsBefore l s) :
    Gives (liftM skipLineEnds : Compiler Unit) c s fun _ t => Faces l t := by
  obtain ⟨a, ha, hs⟩ := h
  have hreads : Reads (liftM skipLineEnds) c a
      ⟨[firstLexeme (utf8 "echo") l], afterFirst (utf8 "echo") l⟩ fun _ => True :=
    .lift (succeeds_skipLineEnds_reaches ha first?_echo (firstLexeme_ne (Or.inl rfl)))
  exact (hreads.gives hs).mono fun _ t h => h.2

theorem Faces.peek (h : Faces l s) : Gives (liftM peekNormal : Compiler Token) c s fun token t =>
    token.lexeme = firstLexeme (utf8 "echo") l ∧ Faces l t :=
  (Reads.lift succeeds_peek_queued).gives h

theorem Faces.consume (h : Faces l s) : Gives (liftM Lexer.consume : Compiler Unit) c s fun _ t =>
    t.lexer.At ⟨[], afterFirst (utf8 "echo") l⟩ :=
  ((Reads.lift succeeds_consume).gives h).mono fun _ _ h => h.2

theorem StandsBefore.peek (h : StandsBefore l s) :
    Gives (liftM peekNormal : Compiler Token) c s fun _ t => StandsBefore l t := by
  obtain ⟨a, ha | ha, hs⟩ := h
  · refine ((Reads.lift (succeeds_peek_before ha first?_echo)).gives hs).mono fun _ t ht => ?_
    exact ⟨_, Or.inl (.seen first?_echo), ht.2⟩
  · refine ((Reads.lift (succeeds_peek_before ha first?_line)).gives hs).mono fun _ t ht => ?_
    exact ⟨_, Or.inr (.seen first?_line), ht.2⟩

theorem gives_checkStatementEnd {elseMayFollow : Bool} (h : StandsBefore l s) :
    Gives (checkStatementEnd elseMayFollow) c s fun _ t => StandsBefore l t :=
  .bind h.peek fun _ _ ht => .ite (fun _ => .fail) fun _ => .pure ht

/-! ### Statements -/

/-- The switch parser reads a skeleton that is one statement, if an `else` that follows does not
belong to it. -/
def ReadsStatement (c : CompileContext) (p : Skeleton) : Prop :=
  ∀ {s : CompileState} {l : List (Sign Condition Shown)} {bound : Remaining} {token : Token}
    {elseMayFollow : Bool}, token.lexeme = firstLexeme (utf8 "echo") (p.signs ++ l) →
    s.lexer.At ⟨[], afterFirst (utf8 "echo") (p.signs ++ l)⟩ →
    (l.head?.any Sign.isOtherwise = true → p.lacksElse = false) →
    Gives (parseStatement bound token elseMayFollow) c s fun d t =>
      p.Drafted d ∧ StandsBefore l t

def ReadsBlock (c : CompileContext) (p : Skeleton) : Prop :=
  ∀ {s : CompileState} {l : List (Sign Condition Shown)} {bound : Remaining} {opened : Location}
    {isEmpty : Bool}, StandsBefore (p.signs ++ .closing :: l) s →
    Gives (parseBlock bound opened isEmpty) c s fun d t => p.Drafted d ∧ StandsBefore l t

def ReadsBranch (c : CompileContext) (braced : Bool) (p : Skeleton) : Prop :=
  if braced then ReadsBlock c p else ReadsStatement c p

variable {braced braced' : Bool} {condition : Condition} {text : Shown}

theorem ReadsBranch.parseBody {elseMayFollow : Bool} (h : ReadsBranch c braced p)
    (hs : s.lexer.At ⟨[], 10 :: (braceLine braced ++
      signLines (utf8 "echo") (p.signs ++ (closers braced ++ l)))⟩)
    (hmax : l.head?.any Sign.isOtherwise = true → braced = true ∨ p.lacksElse = false) :
    Gives (parseBody bound elseMayFollow) c s fun d t => p.Drafted d ∧ StandsBefore l t := by
  rw [Compiler.parseBody]
  cases braced with
  | true =>
    have hbrace : first? .normal {} (braceLine true ++
        signLines (utf8 "echo") (p.signs ++ (closers true ++ l))) = some ((.openBrace, [123]),
          10 :: signLines (utf8 "echo") (p.signs ++ .closing :: l)) := rfl
    have hskip : Reads (liftM skipLineEnds) c _ _ fun _ => True :=
      .lift (succeeds_skipLineEnds_reaches (Or.inr .unread) hbrace (by simp))
    refine .bind (hskip.gives hs) fun _ t ht => ?_
    refine .bind ((Reads.lift succeeds_read_queued).gives ht.2) ?_
    rintro token t ⟨htoken, ht⟩
    have htype : token.type = .openBrace := congrArg Prod.fst htoken
    rw [if_pos htype]
    exact h ⟨_, Or.inr .unread, ht⟩
  | false =>
    refine .bind (gives_skipLineEnds ⟨_, Or.inr .unread, hs⟩) fun _ t ht => ?_
    refine .bind ((Reads.lift succeeds_read_queued).gives ht) ?_
    rintro token t ⟨htoken, ht⟩
    have htype : token.type = (firstLexeme (utf8 "echo") (p.signs ++ (closers false ++ l))).1 :=
      congrArg Prod.fst htoken
    rw [if_neg (htype ▸ firstLexeme_ne (Or.inr rfl))]
    exact h htoken ht fun helse => (hmax helse).resolve_left (by simp)

/-! ### Texts and conditions -/

theorem reads_parseQuotedStatement {rest : Bytes} :
    Reads (parseQuotedStatement .echo loc) c ⟨[], 32 :: (Script.quote text.1 ++ 10 :: rest)⟩
      ⟨[(.endOfLine, [10])], rest⟩ (· = .single ⟨.echo, some text.1, [], none, loc⟩) := by
  have hline : EndsOperand (10 :: rest) := by
    rintro _ ⟨⟩
    decide
  have hnone : ∀ v ∈ ([] : List FormatValue), v.Compiled ∧ 34 ∉ v.literal := by simp
  have hreads : ReadsFrom (parseQuotedStatement .echo loc) c
      (Lexer.Stands .plain ⟨[], 32 :: (Script.quote text.1 ++ 10 :: rest)⟩)
      (Lexer.Stands .plain ⟨[(.endOfLine, [10])], rest⟩)
      (· = .single ⟨.echo, some text.1, [], none, loc⟩) :=
    readsFrom_parseQuotedStatement rfl (fun v hv => (hnone v hv).1) (fun v hv => (hnone v hv).2)
      hline rfl (by simp)
  rwa [← Lexer.at_eq_stands, ← Lexer.at_eq_stands] at hreads

theorem reads_parseCondition (hdefault : c.options = Options.defaults) {rest : Bytes} :
    Reads parseCondition c ⟨[], utf8 " (" ++ (condition.text ++ 41 :: rest)⟩ ⟨[], rest⟩
      (· = condition.value) := by
  refine .bind (.lift (succeeds_expect (succeeds_read first?_openParen))) fun _ _ => ?_
  refine .bind (reads_parseNumeric_paren hdefault condition) ?_
  rintro _ rfl
  exact .bind (.lift (succeeds_expect succeeds_read_queued)) fun _ _ => .pure rfl

/-! ### Skeletons -/

theorem readsStatement_plain : ReadsStatement c (.plain text .done) := by
  intro s l bound token elseMayFollow htoken hs _
  obtain ⟨type, word, loc⟩ := token
  obtain ⟨rfl, rfl⟩ := Prod.mk.inj htoken
  have hafter : afterFirst (utf8 "echo") ((Passage.plain text .done).signs ++ l) =
      32 :: (Script.quote text.1 ++ 10 :: signLines (utf8 "echo") l) := by
    simp [Passage.signs, afterFirst, Sign.after]
  rw [hafter] at hs
  rw [parseStatement]
  refine .bind (reads_parseQuotedStatement.gives hs) ?_
  rintro _ t ⟨rfl, ht⟩
  refine .bind (gives_checkStatementEnd ⟨_, Or.inr (.seen first?_line), ht⟩) fun _ t ht => ?_
  exact .pure ⟨.plain rfl .done, ht⟩

/-- What an `if` does after its first branch. -/
def parseAlternative (bound : Remaining) (loc : Location) (head : DraftStatement) (inner : Draft) :
    Compiler (Draft × Bool) := do
  let lineEnded := (← Lexer.peekNormal).type = .endOfLine
  Lexer.skipLineEnds
  if !(← Lexer.peekNormal).is (utf8 "else") then
    return (.step head inner .done .done, !lineEnded)
  Lexer.consume
  let later ← remaining
  if later.Less bound then
    let alt ← parseBody later false
    return (.step head inner alt .done, true)
  else fail loc .stalled

theorem parseIf_eq : parseIf bound loc = (do
    let condition ← parseCondition
    let now ← remaining
    if now.Less bound then
      let inner ← parseBody now true
      parseAlternative bound loc ⟨.ifThen, none, [], some condition, loc⟩ inner
    else fail loc .stalled : Compiler (Draft × Bool)) := by
  rw [parseIf]
  rfl

variable {head : DraftStatement} {inner : Draft}

theorem gives_parseAlternative_none (h : StandsBefore l s)
    (hl : ¬ l.head?.any Sign.isOtherwise = true) :
    Gives (parseAlternative bound loc head inner) c s fun r t =>
      r.1 = .step head inner .done .done ∧ StandsBefore l t := by
  refine .bind h.peek fun _ t ht => .bind (gives_skipLineEnds ht) fun _ t ht => ?_
  refine .bind ht.peek ?_
  rintro token t ⟨htoken, ht⟩
  have helse : ¬ token.is (utf8 "else") = true := by
    rwa [Token.is_eq_true, htoken, firstLexeme_eq_else (by decide)]
  refine .ite (fun _ => .pure ⟨rfl, ht.meets.standsBefore⟩) fun h => absurd ?_ helse
  simpa using h

theorem gives_parseAlternative_else (hq : ReadsBranch c braced' q)
    (h : StandsBefore (.otherwise braced' :: (q.signs ++ (closers braced' ++ l))) s)
    (hmax : l.head?.any Sign.isOtherwise = true → braced' = true ∨ q.lacksElse = false) :
    Gives (parseAlternative bound loc head inner) c s fun r t =>
      (∃ alt, q.Drafted alt ∧ r.1 = .step head inner alt .done) ∧ StandsBefore l t := by
  refine .bind h.peek fun _ t ht => .bind (gives_skipLineEnds ht) fun _ t ht => ?_
  refine .bind ht.peek ?_
  rintro token t ⟨htoken, ht⟩
  have helse : token.is (utf8 "else") = true := Token.is_eq_true.2 htoken
  refine .ite (fun h => absurd helse (by simpa using h)) fun _ => ?_
  refine .bind ht.consume fun _ t ht => .bind (Reads.remaining.gives ht) fun later t ht => ?_
  refine .ite (fun _ => ?_) fun _ => .fail
  have htext : afterFirst (utf8 "echo") (.otherwise braced' ::
      (q.signs ++ (closers braced' ++ l))) = 10 :: (braceLine braced' ++
        signLines (utf8 "echo") (q.signs ++ (closers braced' ++ l))) := rfl
  rw [htext] at ht
  refine .bind (hq.parseBody ht.2 hmax) ?_
  rintro alt t ⟨halt, ht⟩
  exact .pure ⟨⟨alt, halt, rfl⟩, ht⟩

/-- An `if` up to its first branch, and what follows. -/
theorem gives_parseIf (hdefault : c.options = Options.defaults)
    {Q : Draft × Bool → CompileState → Prop} (hp : ReadsBranch c braced p)
    (hs : s.lexer.At ⟨[], (Sign.opening condition braced).after ++
      signLines (utf8 "echo") (p.signs ++ (closers braced ++ l))⟩)
    (hmax : l.head?.any Sign.isOtherwise = true → braced = true ∨ p.lacksElse = false)
    (hrest : ∀ inner t, p.Drafted inner → StandsBefore l t → Gives (parseAlternative bound loc
      ⟨.ifThen, none, [], some condition.value, loc⟩ inner) c t Q) :
    Gives (parseIf bound loc) c s Q := by
  have htext (lines : Bytes) : (Sign.opening condition braced).after ++ lines =
      utf8 " (" ++ (condition.text ++ 41 :: 10 :: (braceLine braced ++ lines)) := by
    simp [Sign.after]
  rw [htext] at hs
  rw [parseIf_eq]
  refine .bind ((reads_parseCondition hdefault).gives hs) ?_
  rintro _ t ⟨rfl, ht⟩
  refine .bind (Reads.remaining.gives ht) fun now t ht => .ite (fun _ => ?_) fun _ => .fail
  refine .bind (hp.parseBody ht.2 hmax) ?_
  rintro inner t ⟨hinner, ht⟩
  exact hrest inner t hinner ht

theorem gives_parseStatement_if {Q : Draft → Prop} {elseMayFollow : Bool}
    (h : Gives (parseIf bound loc) c s fun r t => Q r.1 ∧ StandsBefore l t) :
    Gives (parseStatement bound ⟨.identifier, utf8 "if", loc⟩ elseMayFollow) c s fun d t =>
      Q d ∧ StandsBefore l t := by
  rw [parseStatement]
  refine .bind h ?_
  rintro r t ⟨hr, ht⟩
  refine .ite (fun _ => ?_) fun _ => .pure ⟨hr, ht⟩
  exact .bind (gives_checkStatementEnd ht) fun _ t ht => .pure ⟨hr, ht⟩

theorem readsStatement_ifThen (hdefault : c.options = Options.defaults)
    (hp : ReadsBranch c braced p) :
    ReadsStatement c (.ifThen condition braced p .done) := by
  intro s l bound token elseMayFollow htoken hs hmax
  obtain ⟨type, word, loc⟩ := token
  obtain ⟨rfl, rfl⟩ := Prod.mk.inj htoken
  have hl : ¬ l.head?.any Sign.isOtherwise = true := fun h => Bool.noConfusion (hmax h)
  have hsigns : (Passage.ifThen condition braced p .done).signs ++ l =
      .opening condition braced :: (p.signs ++ (closers braced ++ l)) := by simp [Passage.signs]
  rw [hsigns] at hs
  apply gives_parseStatement_if
  refine gives_parseIf hdefault hp hs (fun h => absurd h hl) fun inner t hinner ht => ?_
  refine (gives_parseAlternative_none ht hl).mono ?_
  rintro ⟨_, needsCheck⟩ t ⟨rfl, ht⟩
  exact ⟨.ifThen ⟨rfl, rfl⟩ hinner .done, ht⟩

theorem readsStatement_ifElse (hdefault : c.options = Options.defaults)
    (hp : ReadsBranch c braced p) (hq : ReadsBranch c braced' q)
    (hbranch : braced = true ∨ p.lacksElse = false) :
    ReadsStatement c (.ifElse condition braced p braced' q .done) := by
  intro s l bound token elseMayFollow htoken hs hmax
  obtain ⟨type, word, loc⟩ := token
  obtain ⟨rfl, rfl⟩ := Prod.mk.inj htoken
  have hsigns : (Passage.ifElse condition braced p braced' q .done).signs ++ l =
      .opening condition braced :: (p.signs ++ (closers braced ++
        (.otherwise braced' :: (q.signs ++ (closers braced' ++ l))))) := by simp [Passage.signs]
  rw [hsigns] at hs
  apply gives_parseStatement_if
  refine gives_parseIf hdefault hp hs (fun _ => hbranch) fun inner t hinner ht => ?_
  refine (gives_parseAlternative_else hq ht fun h => ?_).mono ?_
  · cases braced' with
    | true => exact Or.inl rfl
    | false => exact Or.inr (by simpa [Passage.lacksElse] using hmax h)
  · rintro ⟨_, needsCheck⟩ t ⟨⟨alt, halt, rfl⟩, ht⟩
    exact ⟨.ifElse ⟨rfl, rfl⟩ hinner halt .done, ht⟩

/-- A block from the end of a line on reads like one from the next line on. -/
theorem gives_parseBlock_reaches {opened : Location} {isEmpty : Bool}
    {Q : Draft → CompileState → Prop}
    (h : ∀ {s : CompileState} {bound : Remaining}, Meets l s →
      Gives (parseBlock bound opened isEmpty) c s Q)
    (hs : StandsBefore l s) : Gives (parseBlock bound opened isEmpty) c s Q := by
  obtain ⟨a, ha | ha, hs⟩ := hs
  · exact h ⟨a, ha, hs⟩
  · rw [parseBlock]
    refine .bind ((Reads.lift (succeeds_peek_before ha first?_line)).gives hs) ?_
    rintro token t ⟨htoken, ht⟩
    have htype : token.type = .endOfLine := congrArg Prod.fst htoken
    rw [htype]
    refine .bind ((Reads.lift succeeds_consume).gives ht) fun _ t ht => ?_
    refine .bind (Reads.remaining.gives ht.2) fun now t ht => ?_
    split
    · exact h ⟨_, .unread, ht.2⟩
    · exact .fail

theorem Meets.face (h : Meets l s) : Gives (liftM peekNormal : Compiler Token) c s fun token t =>
    token.lexeme = firstLexeme (utf8 "echo") l ∧ Faces l t := by
  obtain ⟨a, ha, hs⟩ := h
  exact (Reads.lift (succeeds_peek_before ha first?_echo)).gives hs

theorem readsBlock_done : ReadsBlock c .done := by
  intro s l bound opened isEmpty hs
  refine gives_parseBlock_reaches (fun {s bound} hs => ?_) hs
  rw [parseBlock]
  refine .bind hs.face ?_
  rintro token t ⟨htoken, ht⟩
  have htype : token.type = .closeBrace := congrArg Prod.fst htoken
  rw [htype]
  refine .bind ht.consume fun _ t ht => .bind .options ?_
  rintro _ _ ⟨-, rfl⟩
  exact .guard fun _ => .pure ⟨.done, _, Or.inr .unread, ht⟩

/-- A statement starts with a word. -/
theorem exists_firstLexeme (hsingle : p.isSingle = true) :
    ∃ word, firstLexeme (utf8 "echo") (p.signs ++ l) = (.identifier, word) := by
  cases p with
  | done => cases hsingle
  | _ => exact ⟨_, rfl⟩

/-- No `else` stands where a statement can. -/
theorem not_isOtherwise_signs (hl : ¬ l.head?.any Sign.isOtherwise = true) :
    ¬ (p.signs ++ l).head?.any Sign.isOtherwise = true := by
  cases p with
  | done => exact hl
  | _ => simp [Passage.signs, Sign.isOtherwise]

/-- A statement, and the block after it. -/
theorem ReadsStatement.append (hp : ReadsStatement c p) (hsingle : p.isSingle = true)
    (hq : ReadsBlock c q) : ReadsBlock c (p.append q) := by
  intro s l bound opened isEmpty hs
  rw [Passage.signs_append, List.append_assoc] at hs
  have hl : ¬ (q.signs ++ .closing :: l).head?.any Sign.isOtherwise = true :=
    not_isOtherwise_signs (by simp [Sign.isOtherwise])
  refine gives_parseBlock_reaches (fun {s bound} hs => ?_) hs
  rw [parseBlock]
  refine .bind hs.face ?_
  rintro token t ⟨htoken, ht⟩
  obtain ⟨word, hfirst⟩ := exists_firstLexeme (l := q.signs ++ .closing :: l) hsingle
  unfold Faces at ht
  rw [hfirst] at htoken ht
  have htype : token.type = .identifier := congrArg Prod.fst htoken
  rw [htype]
  refine .bind ((Reads.lift (succeeds_expect succeeds_read_queued)).gives ht) ?_
  rintro first t ⟨hlexeme, ht⟩
  refine .bind (hp (hlexeme.trans hfirst.symm) ht fun h => absurd h hl) ?_
  rintro d t ⟨hd, a, ha, ht⟩
  refine .bind (Reads.remaining.gives ht) fun now t ht => ?_
  split
  · refine .bind (hq ⟨a, ha, ht.2⟩) ?_
    rintro more t ⟨hmore, ht⟩
    exact .pure ⟨hd.append hmore, ht⟩
  · exact .fail

theorem readsBranch (hp : (p.isSingle = true → ReadsStatement c p) ∧ ReadsBlock c p)
    (hbranch : braced = true ∨ p.isSingle = true) : ReadsBranch c braced p := by
  cases braced with
  | true => exact hp.2
  | false => exact hp.1 (hbranch.resolve_left (by simp))

/-- By induction on the skeleton: its branches are read, and what follows a statement. -/
theorem readsSkeleton (hdefault : c.options = Options.defaults) (hp : p.Grammatical) :
    (p.isSingle = true → ReadsStatement c p) ∧ ReadsBlock c p := by
  induction p with
  | done => exact ⟨fun h => Bool.noConfusion h, readsBlock_done⟩
  | plain text rest ih =>
    refine ⟨fun hsingle => ?_, readsStatement_plain.append rfl (ih hp).2⟩
    cases rest with
    | done => exact readsStatement_plain
    | _ => cases hsingle
  | ifThen condition b p rest ihp ih =>
    obtain ⟨hbranch, hp, hrest⟩ := hp
    have hstatement : ReadsStatement c (.ifThen condition b p .done) :=
      readsStatement_ifThen hdefault (readsBranch (ihp hp) hbranch)
    refine ⟨fun hsingle => ?_, hstatement.append rfl (ih hrest).2⟩
    cases rest with
    | done => exact hstatement
    | _ => cases hsingle
  | ifElse condition b p b' q rest ihp ihq ih =>
    obtain ⟨hbranch, hother, hp, hq, hrest⟩ := hp
    have hstatement : ReadsStatement c (.ifElse condition b p b' q .done) :=
      readsStatement_ifElse hdefault (readsBranch (ihp hp) (hbranch.imp_right And.left))
        (readsBranch (ihq hq) hother) (hbranch.imp_right And.right)
    refine ⟨fun hsingle => ?_, hstatement.append rfl (ih hrest).2⟩
    cases rest with
    | done => exact hstatement
    | _ => cases hsingle

/-! ### Switches -/

/-- A switch with a skeleton is emitted for a draft of the same shape. -/
theorem gives_compileSwitch (hdefault : c.options = Options.defaults) {label : Label}
    (hp : p.Grammatical) (hs : StandsBefore p.signs s) :
    Gives (compileSwitch label false) c s fun r _ =>
      ∃ d, p.Drafted d ∧ d.Compiles c.options r.1.commands := by
  obtain ⟨a, ha, hs⟩ := hs
  -- what has been read so far is the draft of a passage, and the lines of the rest of it come next
  refine .bind (Reads.location.gives hs) fun loc t ht => .bind (.repeatFrom
    (I := fun d t => ∃ before after, Passage.append before after = p ∧ before.Drafted d ∧
      after.Grammatical ∧ StandsBefore after.signs t)
    (P := fun r _ => p.Drafted r.1)
    ⟨.done, p, rfl, .done, hp, a, ha, ht.2⟩ ?_) ?_
  · rintro d t ⟨before, after, rfl, hbefore, hafter, a, ha | ha, ht⟩
    · have hmeets : Meets after.signs t := ⟨a, ha, ht⟩
      refine .bind hmeets.face ?_
      rintro token t ⟨htoken, ht⟩
      obtain rfl | ⟨head, rest, rfl, hsingle, hhead, hrest⟩ := hafter.exists_append
      · have htype : token.type = .endOfFile := congrArg Prod.fst htoken
        rw [htype]
        exact .guard fun _ => .pure (by rwa [Passage.append_done])
      · rw [Passage.signs_append] at htoken ht
        obtain ⟨word, hfirst⟩ := exists_firstLexeme (l := rest.signs) hsingle
        unfold Faces at ht
        rw [hfirst] at htoken ht
        have htype : token.type = .identifier := congrArg Prod.fst htoken
        rw [htype]
        refine .ite (fun h => absurd h.1 (by simp)) fun _ => ?_
        refine .bind (Reads.remaining.gives ht) fun bound t ht => ?_
        refine .bind ((Reads.lift (succeeds_expect succeeds_read_queued)).gives ht.2) ?_
        rintro first t ⟨hlexeme, ht⟩
        have hl : ¬ rest.signs.head?.any Sign.isOtherwise = true := by
          rw [← List.append_nil rest.signs]
          exact not_isOtherwise_signs (by simp)
        refine .bind ((readsSkeleton hdefault hhead).1 hsingle (hlexeme.trans hfirst.symm) ht
          fun h => absurd h hl) ?_
        rintro more t ⟨hmore, ht⟩
        refine .pure ⟨before.append head, rest, Passage.append_assoc, ?_, hrest, ht⟩
        exact hbefore.append hmore
    · refine .bind ((Reads.lift (succeeds_peek_before ha first?_line)).gives ht) ?_
      rintro token t ⟨htoken, ht⟩
      have htype : token.type = .endOfLine := congrArg Prod.fst htoken
      rw [htype]
      refine .bind ((Reads.lift succeeds_consume).gives ht) fun _ t ht => .pure ?_
      exact ⟨before, after, rfl, hbefore, hafter, _, Or.inl .unread, ht.2⟩
  · rintro ⟨d, afterHash⟩ t hd
    exact .bind (gives_emitAll hd.shaped) fun ps t h => .pure ⟨d, hd, h.1⟩

/-- A script with one switch is compiled in the round that reads the switch. -/
theorem gives_compileProgram_switch {label : Label} (hlabel : label.isInline = false)
    (hzero : label ≠ 0) (hdefault : c.options = Options.defaults) (hp : p.Grammatical)
    (hs : s.lexer.At ⟨[], 35 :: (utf8 "switch" ++ 32 :: (label.text ++ 10 ::
      signLines (utf8 "echo") p.signs))⟩) :
    Gives compileProgram c s fun _ _ => ∃ d ps, p.Drafted d ∧ d.Compiles c.options ps := by
  have hdirective {t : CompileState} (ht : t.lexer.At ⟨[], utf8 "switch" ++
      32 :: (label.text ++ 10 :: signLines (utf8 "echo") p.signs)⟩) :
      Gives (parseTopDirective {}) c t fun _ _ =>
        ∃ d ps, p.Drafted d ∧ d.Compiles c.options ps := by
    have hword : first? .normal {} (utf8 "switch" ++
        32 :: (label.text ++ 10 :: signLines (utf8 "echo") p.signs)) =
      some ((.identifier, utf8 "switch"), 32 :: (label.text ++ 10 ::
        signLines (utf8 "echo") p.signs)) := rfl
    refine .bind ((Reads.lift (succeeds_read hword)).gives ht) ?_
    rintro ⟨type, word, loc⟩ t ⟨hkind, ht⟩
    cases hkind
    refine .bind ((reads_parseDefinitionLabel hlabel hzero).gives ht) fun _ t ht => ?_
    refine .bind (gives_compileSwitch hdefault hp ⟨_, Or.inr .unread, ht.2⟩) ?_
    rintro r t ⟨d, hd, hr⟩
    exact .pure ⟨d, _, hd, hr⟩
  refine .bind .options ?_
  rintro _ t ⟨rfl, hstate⟩
  have htop : c.options.legacyTopLevel = false := by
    rw [hdefault]
    rfl
  rw [hstate]
  simp only [htop, Bool.false_eq_true, if_false]
  -- once the switch has been compiled, nothing that follows can change that it was
  refine .bind (.repeatFrom
    (I := fun d t => (d = {} ∧ t = s) ∨ ∃ d ps, p.Drafted d ∧ d.Compiles c.options ps)
    (P := fun _ _ => ∃ d ps, p.Drafted d ∧ d.Compiles c.options ps) (Or.inl ⟨rfl, rfl⟩) ?_)
    fun _ _ hcompiles _ _ _ => hcompiles
  rintro d t (⟨rfl, hstate⟩ | hcompiles)
  · rw [hstate]
    refine .bind (reads_findHash.gives hs) ?_
    rintro _ t ⟨rfl, ht⟩
    exact .bind (hdirective ht) fun d t hcompiles => .pure (Or.inr hcompiles)
  · intro r t _
    cases r with
    | inl => exact Or.inr hcompiles
    | inr => exact hcompiles

end Compiler

def switchScript (label : Label) (lines : Bytes) : Bytes :=
  utf8 "#switch " ++ (label.text ++ 10 :: lines)

/-- No text of a switch that is accepted stands in more than thirty-one branches. -/
theorem Accepted.enclosed_length {label : Label} (hlabel : label.isInline = false)
    (hzero : label ≠ 0) {p : Skeleton} (hp : p.Grammatical)
    (h : Accepted (switchScript label (signLines (utf8 "echo") p.signs))) :
    ∀ x ∈ (p.map Condition.value).enclosed Value.invert [], x.2.length ≤ 31 := by
  have hreturn : 13 ∉ switchScript label (signLines (utf8 "echo") p.signs) := by
    have hstart : 13 ∉ utf8 "#switch " := by decide
    have hlines : 13 ∉ signLines (utf8 "echo") p.signs := not_mem_signLines (by decide)
    simp [switchScript, label.text_not_mem_return, hstart, hlines]
  obtain ⟨f, t, hrun⟩ := (accepted_iff_compileProgram hreturn).1 h
  obtain ⟨d, ps, hd, hcompiles⟩ := Compiler.gives_compileProgram_switch hlabel hzero rfl hp
    (Compiler.at_scriptStart _) f t hrun
  intro x hx
  obtain ⟨n, hn, hshows⟩ := hd.showsAt x hx
  have hle := hshows.le rfl hcompiles
  simpa [hn] using hle

end ApeScript
