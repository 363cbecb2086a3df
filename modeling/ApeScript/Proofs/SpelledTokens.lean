import ApeScript.Proofs.FormatText
import ApeScript.Proofs.LexerProgress
import ApeScript.Proofs.LookAhead
import ApeScript.Proofs.Spelling

/-!
# Tokens of a text without definitions

The parts of a text have no carriage return if the text has none, and define no macro if the keyword
of definitions is nowhere in it. A lexer over such a text keeps it so (`Lexer.Tidy`), and without
macros at most one token waits, none behind a token that was taken. What is read then stands in the
text: a raw word is one that is read as a whole again, and a literal whose escapes are left has no
quote in it.
-/

namespace ApeScript

/-- A part of a script, without carriage returns, and without the keyword of definitions if
`free`. -/
structure Script.Mild (free : Bool) (s : Bytes) : Prop where
  returns : 13 ∉ s
  defines : free = true → ¬ utf8 "define" <:+: s

theorem Script.Mild.part {free : Bool} {s t : Bytes} (hs : Mild free s) (h : t <:+: s) :
    Mild free t :=
  ⟨fun hmem => hs.returns (h.subset hmem), fun hfree hdefine => hs.defines hfree (hdefine.trans h)⟩

theorem Script.Mild.ne_define {free : Bool} {s : Bytes} (hs : Mild free s) (hfree : free = true) :
    s ≠ utf8 "define" := by
  rintro rfl
  exact hs.defines hfree List.infix_rfl

namespace Lexer

open Script (Mild)

variable {α β : Type} {free r r' r'' : Bool} {l m : Lexer} {flags : ReadFlags} {mode : ReadMode}

/-- What is left to read is a part of a script, and so is every token. If `free`, nothing but at
most one token waits, and none if `ready`. -/
structure Tidy (free ready : Bool) (l : Lexer) : Prop where
  rest : Mild free l.cursor.rest
  queue : ∀ t ∈ l.queue, Mild free t.text
  macros : ∀ m ∈ l.macros, ∀ t ∈ m.2, Mild free t.text
  undefined : free = true → l.macros = []
  waiting : free = true → l.queue.length ≤ if ready then 0 else 1

namespace Tidy

theorem weaken (h : l.Tidy free true) (r : Bool) : l.Tidy free r :=
  { h with waiting := fun hfree => (h.waiting hfree).trans (Nat.zero_le _) }

theorem advance (h : l.Tidy free r) (size : ℕ) :
    Tidy free r { l with cursor := l.cursor.advance size } :=
  { h with rest := h.rest.part (List.drop_suffix ..).isInfix }

/-- Macros have bodies only where there are definitions. -/
theorem body? (h : l.Tidy free r) {name : Bytes} {body : List Token}
    (hbody : l.body? name = some body) : free = false ∧ ∀ t ∈ body, Mild free t.text := by
  obtain ⟨m, hm, rfl⟩ := Option.map_eq_some_iff.1 hbody
  refine ⟨?_, h.macros m (List.mem_of_find?_eq_some hm)⟩
  by_contra hfree
  rw [h.undefined (by simpa using hfree)] at hm
  cases hm

theorem queue_eq_nil (h : l.Tidy true true) : l.queue = [] :=
  List.length_eq_zero_iff.1 (Nat.le_zero.1 (h.waiting rfl))

theorem waits (h : l.Tidy true true) : l.Waits [] := ⟨h.queue_eq_nil, h.undefined rfl⟩

end Tidy

/-- From a tidy lexer, `x` leaves one, with a result that satisfies `P`. -/
def Tidies (free r : Bool) (x : Lex α) (r' : Bool) (P : α → Prop) : Prop :=
  ∀ l, Tidy free r l → Leads x l fun a m => Tidy free r' m ∧ P a

namespace Tidies

variable {x y : Lex α} {f : α → Lex β} {P : α → Prop} {Q : β → Prop} {loc : Location}
  {cause : Cause}

theorem pure {a : α} (h : P a) : Tidies free r (pure a) r P := fun _ hl => .pure ⟨hl, h⟩

theorem fail : Tidies free r (fail loc cause : Lex α) r' P := fun _ _ => .fail

theorem get {f : Lexer → Lex β} (hf : ∀ l, Tidy free r l → Tidies free r (f l) r' Q) :
    Tidies free r (get >>= f) r' Q :=
  fun l hl => .get (hf l hl l hl)

theorem bind (hx : Tidies free r x r' P) (hf : ∀ a, P a → Tidies free r' (f a) r'' Q) :
    Tidies free r (x >>= f) r'' Q :=
  fun l hl => (hx l hl).bind fun a m hm => hf a hm.2 m hm.1

theorem ite {p : Prop} [Decidable p] (hx : p → Tidies free r x r' P)
    (hy : ¬ p → Tidies free r y r' P) : Tidies free r (if p then x else y) r' P := by
  split
  · exact hx ‹p›
  · exact hy ‹¬ p›

theorem dite {p : Prop} [Decidable p] {x : p → Lex α} {y : ¬ p → Lex α}
    (hx : ∀ h, Tidies free r (x h) r' P) (hy : ∀ h, Tidies free r (y h) r' P) :
    Tidies free r (if h : p then x h else y h) r' P := by
  split
  · apply hx
  · apply hy

theorem guard {p : Prop} [Decidable p] {z : Lex β} (hz : ¬ p → Tidies free r z r' Q) :
    Tidies free r (if p then Lexer.fail loc cause >>= f else z) r' Q :=
  fun l hl => .guard fun hp => hz hp l hl

theorem weaken (hx : Tidies free r x true P) : Tidies free r x r' P :=
  fun l hl a m h => ⟨((hx l hl a m h).1).weaken r', (hx l hl a m h).2⟩

theorem mono {P' : α → Prop} (hx : Tidies free r x r' P) (h : ∀ a, P a → P' a) :
    Tidies free r x r' P' :=
  fun l hl a m hrun => ⟨(hx l hl a m hrun).1, h a (hx l hl a m hrun).2⟩

end Tidies

/-! ### Reading tokens -/

theorem tidies_advance {size : ℕ} : Tidies free r (advance size) r fun _ => True := by
  rintro l hl _ _ ⟨⟩
  exact ⟨hl.advance size, trivial⟩

theorem tidies_take {type : TokenType} {outcome : Scan.Outcome} :
    Tidies free r (take type outcome) r (Mild free ·.text) := by
  intro l hl t m h
  obtain ⟨size, -, rfl, rfl⟩ := leads_take t m h
  exact ⟨hl.advance size, hl.rest.part (List.take_prefix ..).isInfix⟩

theorem tidies_lexRaw : Tidies free r (lexRaw flags) r (Mild free ·.text) := by
  refine .get fun l _ => .bind tidies_take fun token ht => .ite (fun _ => .pure ht) fun _ => ?_
  refine .get fun l hl => ?_
  split
  · rename_i only hbody
    exact .pure ((hl.body? hbody).2 only (List.mem_singleton_self only))
  · exact .pure ht

theorem tidies_lexQuoted : Tidies free r (lexQuoted flags) r (Mild free ·.text) :=
  .get fun _ _ => tidies_take

theorem tidies_lexNormal : Tidies free r (lexNormal flags) r fun p =>
    Mild free p.1.text ∧ ∀ body, p.2 = some body → free = false ∧ ∀ t ∈ body, Mild free t.text := by
  have hlone {x : Lex Token} (h : Tidies free r x r (Mild free ·.text)) :
      Tidies free r (x >>= fun t => pure (t, none)) r fun p : Token × Option (List Token) =>
        Mild free p.1.text ∧ ∀ body, p.2 = some body →
          free = false ∧ ∀ t ∈ body, Mild free t.text :=
    h.bind fun t ht => .pure ⟨ht, by simp⟩
  refine .get fun l hl => ?_
  split
  · exact .pure ⟨hl.rest.part List.nil_infix, by simp⟩
  · refine .ite (fun _ => hlone tidies_take) fun _ => .ite (fun _ => ?_) fun _ => ?_
    · refine .bind tidies_take fun t ht => .pure ⟨ht, fun body hbody => ?_⟩
      split at hbody
      · cases hbody
      · exact hl.body? hbody
    · exact .ite (fun _ => hlone tidies_lexQuoted) fun _ => hlone tidies_take

theorem tidies_lexWithin {fuel : ℕ} :
    Tidies free r (lexWithin mode flags fuel) r (Mild free ·.text) := by
  induction fuel generalizing mode with
  | zero => exact .get fun l hl => .pure (hl.rest.part List.nil_infix)
  | succ fuel ih =>
    unfold lexWithin
    refine .get fun l _ => .bind tidies_advance fun _ _ => .get fun l hl => ?_
    split
    · exact .guard fun _ => .pure (hl.rest.part List.nil_infix)
    · exact tidies_take
    · cases mode with
      | raw => exact tidies_lexRaw
      | quoted => exact tidies_lexQuoted
      | normal =>
        refine .bind tidies_lexNormal ?_
        rintro ⟨token, body⟩ ⟨htoken, hbody⟩
        match body with
        | none => exact .pure htoken
        | some [] => exact ih
        | some (first :: more) =>
          obtain ⟨rfl, hparts⟩ := hbody _ rfl
          obtain ⟨hfirst, hmore⟩ := List.forall_mem_cons.1 hparts
          refine .bind (P := fun _ => True) ?_ fun _ _ => .pure hfirst
          rintro l hl _ _ ⟨⟩
          refine ⟨{ hl with queue := ?_, waiting := by simp }, trivial⟩
          exact List.forall_mem_append.2 ⟨hl.queue, List.forall_mem_map.2 hmore⟩

/-- Behind a token that is taken nothing waits. -/
theorem tidies_read : Tidies free r (read mode flags) true (Mild free ·.text) := by
  intro l hl
  cases hqueue : l.queue with
  | nil =>
    have hready : l.Tidy free true := { hl with waiting := by simp [hqueue] }
    rw [Leads, read_nil hqueue]
    exact Tidies.get (fun _ _ => tidies_lexWithin) l hready
  | cons first rest =>
    rintro t m hrun
    rw [read_cons hqueue] at hrun
    cases hrun
    have hwait : ∀ t ∈ first :: rest, Mild free t.text := hqueue ▸ hl.queue
    obtain ⟨hfirst, hrest⟩ := List.forall_mem_cons.1 hwait
    refine ⟨{ hl with queue := hrest, waiting := fun hfree => ?_ }, hfirst⟩
    have hlength := hl.waiting hfree
    rw [hqueue, List.length_cons] at hlength
    split at hlength
    · omega
    · exact Nat.le_of_succ_le_succ hlength

theorem tidies_peek : Tidies free r (peek mode flags) false (Mild free ·.text) := by
  intro l hl
  cases hqueue : l.queue with
  | nil =>
    have hready : l.Tidy free true := { hl with waiting := by simp [hqueue] }
    rw [Leads, peek_nil hqueue]
    refine Leads.bind (Tidies.get (fun _ _ => tidies_lexWithin) l hready) fun t m hm => ?_
    obtain ⟨hm, ht⟩ := hm
    rintro _ _ ⟨⟩
    have hqueue : ∀ t' ∈ t :: m.queue, Mild free t'.text := List.forall_mem_cons.2 ⟨ht, hm.queue⟩
    refine ⟨{ hm with queue := hqueue, waiting := fun hfree => ?_ }, ht⟩
    simpa using hm.waiting hfree
  | cons first rest =>
    intro t m hrun
    rw [peek_cons hqueue] at hrun
    cases hrun
    have hfirst : Mild free first.text := hl.queue _ (by simp [hqueue])
    refine ⟨{ hl with waiting := fun hfree => (hl.waiting hfree).trans ?_ }, hfirst⟩
    split <;> decide

theorem tidies_consume : Tidies free r consume true fun _ => True := by
  rintro l hl _ _ ⟨⟩
  have hqueue (t : Token) (ht : t ∈ l.queue.drop 1) : Mild free t.text :=
    hl.queue t (List.mem_of_mem_drop ht)
  refine ⟨{ hl with queue := hqueue, waiting := ?_ }, trivial⟩
  intro hfree
  have hlength := hl.waiting hfree
  rw [List.length_drop]
  split at hlength <;> simp only [if_true] <;> omega

theorem tidies_expect {type : TokenType} :
    Tidies free r (expect type) true fun t => t.type = type ∧ Mild free t.text :=
  .bind tidies_read fun _ ht => .ite (fun h => .pure ⟨of_decide_eq_true h, ht⟩) fun _ => .fail

theorem tidies_skipLineEnds : Tidies free r skipLineEnds false fun _ => True := by
  refine .get fun l hl => ?_
  clear hl
  induction l.remaining using skipLineEndsWithin.induct generalizing r with
  | case1 bound ih =>
    rw [skipLineEndsWithin]
    refine .bind tidies_peek fun token _ => .ite (fun _ => ?_) fun _ => .pure trivial
    refine .bind tidies_consume fun _ _ => .get fun l _ => ?_
    exact .dite (fun less => ih l less) fun _ => .fail

theorem tidies_macroBodyWithin {bound : Remaining} :
    Tidies free r (macroBodyWithin bound) false fun body => ∀ t ∈ body, Mild free t.text := by
  induction bound using macroBodyWithin.induct generalizing r with
  | case1 bound ih =>
    rw [macroBodyWithin]
    refine .bind tidies_peek fun token ht => .ite (fun _ => .pure (by simp)) fun _ => ?_
    refine .bind tidies_consume fun _ _ => .get fun l _ => ?_
    refine .dite (fun less => (ih l less).bind fun body hbody => ?_) fun _ => .fail
    exact .pure (List.forall_mem_cons.2 ⟨ht, hbody⟩)

/-- Definitions are read only where there are any. -/
theorem tidies_defineMacro : Tidies false r defineMacro false fun _ => True := by
  refine .bind tidies_read fun name _ => .guard fun _ => .get fun _ _ => .guard fun _ => ?_
  refine .get fun _ _ => .bind tidies_macroBodyWithin fun body hbody => ?_
  rintro l hl _ _ ⟨⟩
  refine ⟨{ hl with macros := ?_, undefined := by simp }, trivial⟩
  exact List.forall_mem_append.2 ⟨hl.macros, List.forall_mem_singleton.2 hbody⟩

/-! ### What stands in the text -/

/-- A raw word as it stands in a text: it is read as a whole again, unless a parenthesis closed
before it. There is none where a line or the text ends. -/
def Stood (flags : ReadFlags) (t : Token) : Prop :=
  t.type = .raw ∧ (flags.stopParen = true ∧ t.text = [] ∨ Script.RawWord flags t.text) ∨
    t.type = .endOfLine ∧ t.text = [10] ∨ t.type = .endOfFile ∧ t.text = []

end Lexer

/-- What a raw scan takes where a token starts is a raw word, if it takes anything. -/
theorem Script.RawWord.of_scan {flags : ReadFlags} {b : UInt8} {s : Bytes} {n : ℕ}
    (hbare : Scan.Bare (b :: s)) (hline : b ≠ 10) (hscan : Scan.raw flags (b :: s) = .done n) :
    flags.stopParen = true ∧ (b :: s).take n = [] ∨ Script.RawWord flags ((b :: s).take n) := by
  obtain ⟨hblank, hcomment⟩ := hbare.resolve_left hline
  rw [Scan.raw] at hscan
  split at hscan
  · rename_i hclosed
    simp only [Bool.and_eq_true, decide_eq_true_eq] at hclosed
    have hstop : Scan.rawStops flags b = true := by simp [Scan.rawStops, hclosed]
    rw [Scan.rawFrom.eq_def] at hscan
    simp only [hstop, if_true] at hscan
    cases hscan
    exact .inl ⟨hclosed.2, rfl⟩
  · rename_i hopen
    obtain ⟨word, rest, rfl, rfl, hword⟩ := Scan.rawFrom_done hscan
    have htake : (b :: (word ++ rest)).take (1 + word.length) = b :: word := by
      rw [Nat.add_comm, List.take_succ_cons, List.take_left]
    have hsecond {a : UInt8} (h : [47, a] <+: b :: word) :
        b = 47 ∧ (word ++ rest).head? = some a := by
      obtain ⟨rfl, more, rfl⟩ : b = 47 ∧ ∃ more, word = a :: more := by
        obtain ⟨more, hmore⟩ := h
        cases hmore
        exact ⟨rfl, more, rfl⟩
      exact ⟨rfl, rfl⟩
    rw [htake]
    refine .inr ⟨by simp, ?_, ?_, ⟨fun h => ?_, fun h => ?_⟩, ?_⟩
    · rintro _ ⟨⟩
      simpa [isBlankByte] using hblank
    · rintro hparen ⟨⟩
      simp [hparen] at hopen
    · obtain ⟨rfl, hhead⟩ := hsecond h
      exact (hcomment rfl).1 hhead
    · obtain ⟨rfl, hhead⟩ := hsecond h
      exact (hcomment rfl).2 hhead
    · rw [List.tail_cons, hword 0, Nat.zero_add]

namespace Lexer

/-- A raw word is read from the text, or the line or the text has ended. -/
theorem stood_readRaw (hl : l.Tidy true true) :
    Leads (read .raw flags) l fun t _ => Stood flags t := by
  rw [Leads, read_nil hl.queue_eq_nil]
  refine Leads.get ?_
  unfold lexWithin
  refine .get (.bind leads_advance ?_)
  rintro _ _ rfl
  refine .get ?_
  have hgap := Scan.gap_sound l.cursor.rest
  have hrest : (l.cursor.advance (Scan.gapFrom 0 .plain l.cursor.rest).1).rest =
      l.cursor.rest.drop (Scan.gap l.cursor.rest).1 := rfl
  generalize l.cursor.advance (Scan.gapFrom 0 .plain l.cursor.rest).1 = cursor at hrest ⊢
  rw [← hrest] at hgap
  dsimp only
  split
  · exact .guard fun _ => .pure (.inr (.inr ⟨rfl, rfl⟩))
  · rename_i rest hline
    rintro t m h
    obtain ⟨size, ⟨⟩, rfl, -⟩ := leads_take t m h
    exact .inr (.inl ⟨rfl, congrArg (List.take 1) hline⟩)
  · rename_i hne hline
    obtain ⟨hbare, -⟩ := hgap (.inl hne)
    refine .get (.bind leads_take ?_)
    rintro t m ⟨size, hsize, rfl, rfl⟩
    have hstood : Stood flags ⟨.raw, cursor.rest.take size, cursor.loc⟩ := by
      cases htext : cursor.rest with
      | nil => exact absurd htext hne
      | cons b s =>
        rw [htext] at hsize hbare
        refine .inl ⟨rfl, Script.RawWord.of_scan hbare ?_ hsize⟩
        rintro rfl
        exact hline s htext
    refine .ite (fun _ => .pure hstood) fun _ => .get ?_
    have hbody (name : Bytes) :
        Lexer.body? { l with cursor := cursor.advance size } name = none := by
      simp [Lexer.body?, hl.undefined rfl]
    rw [hbody]
    exact .pure hstood

theorem stood_peekRaw (hl : l.Tidy true true) :
    Leads (peek .raw flags) l fun t _ => Stood flags t := by
  intro t m h
  obtain ⟨n, hread, -⟩ := read_of_peek h
  exact stood_readRaw hl t n hread

theorem Stood.word {t : Token} (h : Stood flags t) (hparen : flags.stopParen = false)
    (hline : ¬ t.type.endsLine = true) : t.type = .raw ∧ Script.RawWord flags t.text := by
  obtain ⟨htype, ⟨hstop, -⟩ | hword⟩ | ⟨htype, -⟩ | ⟨htype, -⟩ := h
  · rw [hparen] at hstop
    cases hstop
  · exact ⟨htype, hword⟩
  · exact absurd (htype ▸ rfl) hline
  · exact absurd (htype ▸ rfl) hline

end Lexer

/-- The beginning of a raw word without blanks, escapes or quotes that end it is a raw word. -/
theorem Script.RawWord.of_start {flags : ReadFlags} {s t : Bytes} (hs : Script.RawWord flags s)
    (ht : t <+: s) (hne : t ≠ []) (hescapes : flags.ignoreEscapes = true)
    (hquotes : flags.ignoreQuotes = true)
    (hspace : flags.ignoreSpace = true) : Script.RawWord flags t := by
  obtain ⟨a, t, rfl⟩ := List.exists_cons_of_ne_nil hne
  obtain ⟨rest, rfl⟩ := ht
  have hwhole := Scan.rawFrom_whole hescapes (hs.whole.trans (by rw [Nat.zero_add]))
  refine ⟨hne, hs.start, hs.unclosed, ⟨fun h => ?_, fun h => ?_⟩, ?_⟩
  · exact hs.uncommented.1 (h.trans (List.prefix_append ..))
  · exact hs.uncommented.2 (h.trans (List.prefix_append ..))
  · refine (Scan.rawFrom_solid (fun b hb => ?_) (.inl hspace) (.inl hescapes) (.inl hquotes) 0).trans
      (by rw [Nat.zero_add])
    exact (hwhole b (List.mem_append_left _ hb)).1

end ApeScript
