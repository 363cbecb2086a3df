import ApeScript.Proofs.CompiledFile
import ApeScript.Proofs.ProgressingWindow

/-!
# Compilation ends because it reads on

Loops of the compiler go on only while less is left to read, and fail if that is not so. They never
fail: what is left is measured by the unread bytes and the tokens waiting, and every token that is
read makes it less. `Compiler.EndsByReading` says of the rounds of a loop that they read on, and
that none follows one that starts at the end of the file.
-/

namespace ApeScript

/-! ### Text stages -/

/-- No compilation fails because a loop did not read on. -/
theorem compile_ne_stalled (src : Bytes) (o : Options) (loc : Location) :
    (compile src o).result ≠ .error (.script ⟨loc, .stalled⟩) := by
  unfold compile
  extract_lets options
  have hhash := effectiveHash_unplaced options
  split
  · rename_i e he
    rw [he] at hhash
    exact fun h => hhash.2 _ (Except.error.inj h)
  rename_i hash _
  have hprepare := prepareSource_yields options src
  split
  · rename_i e he
    rw [he] at hprepare
    rintro ⟨⟩
    exact hprepare
  rename_i text _
  extract_lets start
  have hrun := Compiler.steady_compileProgram _ ⟨options, hash⟩ start
    (Lexer.Counted.upTo (rfl : text.length = text.length))
  split
  · rename_i e s he
    rw [he] at hrun
    rintro ⟨⟩
    exact hrun
  · split
    · split
      · rintro ⟨⟩
      · rintro ⟨⟩
    · rintro ⟨⟩

namespace Lexer

variable {l m : Lexer} {flags : ReadFlags} {t : Token} {ts : List Token}

def AtEnd (flags : ReadFlags) (l : Lexer) : Prop :=
  ∃ t m, peek .normal flags l = .ok t m ∧ t.type = .endOfFile

theorem atEnd_of_queue (h : l.queue = t :: ts) (ht : t.type = .endOfFile) : l.AtEnd flags :=
  ⟨t, l, peek_cons h, ht⟩

theorem AtEnd.of_peek (hl : l.AtEnd flags) (h : peek .normal flags l = .ok t m) :
    t.type = .endOfFile ∧ ∀ flags, m.AtEnd flags := by
  obtain ⟨_, _, hpeek, htype⟩ := hl
  cases hpeek.symm.trans h
  refine ⟨htype, fun flags => ?_⟩
  rcases peek_cases h with ⟨ts, hqueue, rfl⟩ | ⟨-, n, -, rfl⟩
  · exact atEnd_of_queue hqueue htype
  · exact atEnd_of_queue rfl htype

theorem AtEnd.of_read (hl : l.AtEnd flags) (h : read .normal flags l = .ok t m) :
    t.type = .endOfFile := by
  obtain ⟨_, _, hpeek, htype⟩ := hl
  obtain ⟨n, hread, -⟩ := read_of_peek hpeek
  cases hread.symm.trans h
  exact htype

theorem leads_expect_atEnd {type : TokenType} (hl : l.AtEnd {}) (htype : type ≠ .endOfFile) :
    Leads (expect type) l fun _ _ => False := by
  refine .bind (P := fun t _ => t.type = .endOfFile) (fun t m h => hl.of_read h) fun t m ht => ?_
  exact .ite (fun h => absurd (by simpa [ht] using h) htype.symm) fun _ => .fail

/-- What is left to read after a read from any lexer that calls can lead to. -/
theorem read_uses {calls : List Call} {src file : Bytes} {exponents : Bool} {mode : ReadMode}
    (h : read mode flags (afterAll calls (ofSource src file exponents)) = .ok t m)
    (htype : t.type ≠ .endOfFile) :
    (afterAll calls (ofSource src file exponents)).Uses m ∧
        m.remaining.Less (afterAll calls (ofSource src file exponents)).remaining ∨
      mode = .raw ∧ flags.stopParen = true ∧ t.type = .raw ∧ t.text = [] ∧
        m.cursor.rest.head? = some 41 := by
  obtain ⟨hnamed, hcounted⟩ := afterAll_sound calls src file exponents
  rcases (read_spent hcounted h).2.2 htype with huses | ⟨-, hstopped⟩
  · exact .inl huses
  rcases hstopped.token with ⟨hraw, htext⟩ | hbody
  · exact .inr ⟨hstopped.mode, hstopped.flags, hraw, htext, hstopped.paren⟩
  · obtain ⟨body, hbody⟩ := Option.isSome_iff_exists.1 hbody
    exact absurd rfl (hnamed.body? hbody).1

end Lexer

namespace Compiler

variable {σ α : Type} {c : CompileContext} {s : CompileState} {flags : ReadFlags} {type : TokenType}

theorem gives_peek_atEnd (hs : s.lexer.AtEnd flags) :
    Gives (Lexer.peek .normal flags) c s fun t s' =>
      t.type = .endOfFile ∧ ∀ flags, s'.lexer.AtEnd flags := by
  refine Gives.lift.mono ?_
  rintro t _ ⟨l, hpeek, rfl⟩
  exact hs.of_peek hpeek

theorem gives_read_atEnd (hs : s.lexer.AtEnd flags) :
    Gives (Lexer.read .normal flags) c s fun t _ => t.type = .endOfFile := by
  refine Gives.lift.mono ?_
  rintro t _ ⟨l, hread, rfl⟩
  exact hs.of_read hread

/-- Nothing but the end of the file can be expected there. -/
theorem fails_expect_atEnd (hs : s.lexer.AtEnd {}) (htype : type ≠ .endOfFile) :
    Gives (Lexer.expect type) c s fun _ _ => False := by
  refine Gives.lift.mono ?_
  rintro t _ ⟨l, hexpect, rfl⟩
  exact Lexer.leads_expect_atEnd hs htype t l hexpect

theorem gives_atLineEnd_atEnd (hs : s.lexer.AtEnd {}) :
    Gives atLineEnd c s fun ended _ => ended = true :=
  .bind (gives_peek_atEnd hs) fun t s' h => .pure (by simp [h.1, TokenType.endsLine])

/-- A round that starts at the end of the file is the last one, or fails. -/
def StopsAtEnd (flags : ReadFlags) (round : σ → Compiler (σ ⊕ α)) : Prop :=
  ∀ a c s, s.lexer.AtEnd flags → Gives (round a) c s fun result _ => result.isRight = true

theorem ReadsWords.stopsAtEnd {round : σ → Compiler (σ ⊕ α)} {f : σ → α}
    {k : σ → Token → Compiler (σ ⊕ α)} (h : ReadsWords round f k) : StopsAtEnd {} round := by
  intro a c s hs
  rw [h a]
  refine .bind (gives_atLineEnd_atEnd hs) ?_
  rintro ended s' rfl
  exact .pure rfl

theorem stopsAtEnd_parseFormatRound : StopsAtEnd {} parseFormatRound := by
  refine fun values c s hs => .bind (gives_peek_atEnd hs) fun token s' htoken => ?_
  exact .ite (fun _ => .pure rfl) fun h => absurd htoken.1 (by simp [not_not.1 h])

theorem stopsAtEnd_parseChoiceRound : StopsAtEnd { ignoreEscapes := true } parseChoiceRound := by
  refine fun values c s hs => .bind (gives_peek_atEnd hs) fun token s' htoken => ?_
  refine .ite (fun _ => ?_) fun h => absurd htoken.1 (by simp [not_not.1 h])
  have hvalue : Gives parseFormatValue c s' fun _ _ => False := by
    refine .bind (gives_read_atEnd (htoken.2 _)) fun t _ ht => ?_
    rw [formatValueOfToken, ht]
    exact .fail
  exact hvalue.bind fun _ _ h => h.elim

theorem stopsAtEnd_parseFlagsRound : StopsAtEnd {} parseFlagsRound :=
  ReadsWords.stopsAtEnd fun _ => rfl

theorem stopsAtEnd_parseStayRound : StopsAtEnd {} parseStayRound :=
  ReadsWords.stopsAtEnd fun _ => rfl

theorem stopsAtEnd_parseCamRound : StopsAtEnd {} parseCamRound :=
  ReadsWords.stopsAtEnd fun _ => rfl

theorem stopsAtEnd_parseImageFlagsRound : StopsAtEnd {} parseImageFlagsRound :=
  fun _ _ _ hs => .bind (fails_expect_atEnd hs (by decide)) fun _ _ h => h.elim

theorem stopsAtEnd_parseBackdropRound : StopsAtEnd {} parseBackdropRound := by
  refine fun b c s hs => .bind (gives_read_atEnd hs) fun token _ htype => ?_
  rw [htype]
  exact .fail_bind

theorem stopsAtEnd_parseWindowRound : StopsAtEnd {} parseWindowRound := by
  refine fun w c s hs => .bind (gives_peek_atEnd hs) fun token s' htoken => ?_
  rw [htoken.1]
  exact .pure rfl

theorem stopsAtEnd_switchRound {inline : Bool} {loc : Location} :
    StopsAtEnd {} (switchRound inline loc) := by
  refine fun d c s hs => .bind (gives_peek_atEnd hs) fun token s' htoken => ?_
  rw [htoken.1]
  exact .guard fun _ => .pure rfl

theorem fails_parseBlock_atEnd {bound : Lexer.Remaining} {opened : Location} {isEmpty : Bool}
    (hs : s.lexer.AtEnd {}) : Gives (parseBlock bound opened isEmpty) c s fun _ _ => False := by
  rw [parseBlock]
  refine .bind (gives_peek_atEnd hs) fun token s' htoken => ?_
  rw [htoken.1]
  exact .fail

/-- A loop that ends by reading: a round takes a token if another follows, and none follows a round
that starts at the end of the file. -/
structure EndsByReading (flags : ReadFlags) (round : σ → Compiler (σ ⊕ α)) : Prop where
  proceeds : Proceeds round
  stops : StopsAtEnd flags round

/-- A loop whose rounds read on is the loop without a bound. -/
theorem Proceeds.repeatFrom_eq {round : σ → Compiler (σ ⊕ α)} (h : Proceeds round) (a : σ)
    (hs : s.lexer.Counted) : repeatFrom a round c s = (do
      match ← round a with
      | .inl next => repeatFrom next round
      | .inr b => return b : Compiler α) c s := by
  have hrun (a : σ) (s : CompileState) :
      repeatFrom a round c s = repeatWithin round s.lexer.remaining a c s := rfl
  have hround := h a s.lexer.remaining c s hs.upTo
  rw [hrun, repeatWithin]
  cases hstep : round a c s with
  | error e t => rw [bind_run_error hstep, bind_run_error hstep]
  | ok result t =>
    rw [bind_run hstep, bind_run hstep]
    cases result with
    | inr b => rfl
    | inl next =>
      rw [hstep] at hround
      dsimp only
      rw [bind_run (rfl : remaining c t = .ok t.lexer.remaining t), dif_pos hround.less, hrun]

/-- A text of a camera must not be empty, which it is when the read stops right away. -/
theorem parseCamText_empty {paren t : Token} {l m : Lexer}
    (hopen : Lexer.expect .openParen s.lexer = .ok paren l)
    (hread : Lexer.read .raw Scan.phraseFlags l = .ok t m) (htype : t.type = .raw)
    (htext : t.text = []) :
    parseCamText c s = .error ⟨t.loc, .camStringEmpty⟩ { s with lexer := m } := by
  have hopened : (liftM (Lexer.expect .openParen) : Compiler Token) c s =
      .ok paren { s with lexer := l } := by rw [run_lift, hopen]
  have hword : (liftM (Lexer.read .raw Scan.phraseFlags) : Compiler Token) c
      { s with lexer := l } = .ok t { s with lexer := m } := by rw [run_lift, hread]
  rw [parseCamText, bind_run hopened]
  refine (bind_run hword).trans ?_
  rw [if_neg (by simp [htype]), pure_bind, htext]
  rfl

/-- No compilation fails because a loop did not read on. Whatever was called before, every token
that is read, the end of the file aside, leaves less unread text, or the same and fewer tokens
waiting; looking at a token first changes nothing of that, and macros without a body are passed over
at most once for each unread byte. There is one exception, the empty token of a raw read that has to
stop at a closing parenthesis. The only such read is that of a camera's text, which fails then. The
loops of a window, a switch, a choice, a background, a camera, flags, a conversation, an image's
flags and a formatting list end by reading, and so do the statements in braces. -/
theorem compilation_ends (src : Bytes) (o : Options) :
    (∀ loc, (compile src o).result ≠ .error (.script ⟨loc, .stalled⟩)) ∧
    (∀ calls file exponents mode flags,
      let l := Lexer.afterAll calls (.ofSource src file exponents)
      (∀ t m, Lexer.read mode flags l = .ok t m → t.type ≠ .endOfFile →
        l.Uses m ∧ m.remaining.Less l.remaining ∨
          mode = .raw ∧ flags.stopParen = true ∧ t.type = .raw ∧ t.text = [] ∧
            m.cursor.rest.head? = some 41) ∧
      (∀ t m, Lexer.peek mode flags l = .ok t m →
        ∃ n, Lexer.read mode flags l = .ok t n ∧ Lexer.consume m = .ok () n) ∧
      ∀ fuel, l.cursor.unread < fuel →
        Lexer.lexWithin mode flags fuel l = Lexer.lex mode flags l) ∧
    (∀ c s paren l t m, Lexer.expect .openParen s.lexer = .ok paren l →
      Lexer.read .raw Scan.phraseFlags l = .ok t m → t.type = .raw → t.text = [] →
        parseCamText c s = .error ⟨t.loc, .camStringEmpty⟩ { s with lexer := m }) ∧
    EndsByReading {} parseWindowRound ∧
    (∀ inline loc, EndsByReading {} (switchRound inline loc)) ∧
    (∀ bound opened isEmpty c s, s.lexer.AtEnd {} →
      Gives (parseBlock bound opened isEmpty) c s fun _ _ => False) ∧
    EndsByReading { ignoreEscapes := true } parseChoiceRound ∧
    EndsByReading {} parseBackdropRound ∧
    EndsByReading {} parseCamRound ∧
    EndsByReading {} parseFlagsRound ∧
    EndsByReading {} parseStayRound ∧
    EndsByReading {} parseImageFlagsRound ∧
    EndsByReading {} parseFormatRound := by
  refine ⟨compile_ne_stalled src o, fun calls file exponents mode flags => ⟨fun t m => Lexer.read_uses,
    fun t m => Lexer.read_of_peek, fun fuel hfuel => ?_⟩, fun c s paren l t m => parseCamText_empty,
    ⟨proceeds_parseWindowRound, stopsAtEnd_parseWindowRound⟩,
    fun inline loc => ⟨proceeds_switchRound, stopsAtEnd_switchRound⟩,
    fun bound opened isEmpty c s => fails_parseBlock_atEnd,
    ⟨proceeds_parseChoiceRound, stopsAtEnd_parseChoiceRound⟩,
    ⟨proceeds_parseBackdropRound, stopsAtEnd_parseBackdropRound⟩,
    ⟨proceeds_parseCamRound, stopsAtEnd_parseCamRound⟩,
    ⟨proceeds_parseFlagsRound, stopsAtEnd_parseFlagsRound⟩,
    ⟨proceeds_parseStayRound, stopsAtEnd_parseStayRound⟩,
    ⟨proceeds_parseImageFlagsRound, stopsAtEnd_parseImageFlagsRound⟩,
    ⟨proceeds_parseFormatRound, stopsAtEnd_parseFormatRound⟩⟩
  have hcounted := (Lexer.afterAll_sound calls src file exponents).2
  exact Lexer.lexWithin_eq_of_lt hcounted hfuel (Nat.lt_succ_self _)

def emptyCamText : CompileState := ⟨.ofSource (utf8 "()") [] true, [], 0, []⟩

/-- The first parenthesis is used up, the raw read leaves the second one where it is, and the
camera's text fails there. -/
theorem compilation_ends_parentheses :
    (∃ t m, Lexer.read .normal {} emptyCamText.lexer = .ok t m ∧ emptyCamText.lexer.Uses m) ∧
    (∃ t m, Lexer.read .raw Scan.phraseFlags
        (Lexer.afterAll [.read .normal {}] emptyCamText.lexer) = .ok t m ∧ t.text = []) ∧
    parseCamText ⟨Options.defaults, 0⟩ emptyCamText =
      .error ⟨⟨[], 0, 1⟩, .camStringEmpty⟩
        { emptyCamText with lexer := ⟨.ofOffset [] (utf8 "()") 1, true, [], []⟩ } := by
  obtain ⟨-, hreads, hempty, -⟩ := compilation_ends (utf8 "()") Options.defaults
  refine ⟨⟨⟨.openParen, [40], ⟨[], 0, 0⟩⟩, ⟨.ofOffset [] (utf8 "()") 1, true, [], []⟩, rfl, ?_⟩, ?_, ?_⟩
  · rcases (hreads [] [] true .normal {}).1 _ _ rfl (by decide) with h | ⟨h, -⟩
    · exact h.1
    · cases h
  · rcases (hreads [.read .normal {}] [] true .raw Scan.phraseFlags).1 _ _ rfl (by decide)
      with ⟨-, h⟩ | ⟨-, -, -, htext, -⟩
    · exact absurd h (by decide)
    · exact ⟨_, _, rfl, htext⟩
  · exact hempty _ emptyCamText _ _ _ _ rfl rfl rfl rfl

end Compiler

end ApeScript
