import ApeScript.Compile.Lexer
import Mathlib

/-!
# The tokens that a lexer delivers

A lexer stands for the tokens that one read after the other returns (`Lexer.Delivers`). Looking at
the next token changes the lexer, but not what it delivers (`Lexer.SameNext`). As long as the unread
bytes are counted rightly, every token but the end of the file leaves less to read.
-/

namespace ApeScript

namespace Scan

variable {flags : ReadFlags} {exponents : Bool} {step : NumberStep} {size n : Nat} {s : Bytes}

theorem le_of_quotedFrom (h : quotedFrom flags size s = .done n) : size ≤ n := by
  fun_induction quotedFrom flags size s
  case case6 ih | case7 ih => exact Nat.le_trans (by omega) (ih h)
  all_goals cases h
  all_goals omega

theorem le_of_numberFrom (h : numberFrom exponents step size s = .done n) : size ≤ n := by
  have hfinish {step : NumberStep} {size : Nat} (h : numberFrom.finish step size = .done n) :
      size ≤ n := by
    cases step <;> cases h <;> rfl
  fun_induction numberFrom exponents step size s
  case case2 ih | case3 ih | case5 ih | case7 ih => exact Nat.le_trans (Nat.le_succ _) (ih h)
  case case1 | case8 => exact hfinish h
  all_goals cases h

theorem pos_of_number {b : UInt8} (hb : Bytes.isDigit b = true)
    (h : number exponents (b :: s) = .done n) : 0 < n := by
  rw [number, numberFrom.eq_def] at h
  dsimp only at h
  rw [if_pos hb] at h
  exact le_of_numberFrom h

theorem pos_of_symbol {b : UInt8} (h : (symbol b s).2 = .done n) : 0 < n := by
  revert h
  fun_cases symbol b s <;> rintro ⟨⟩
  case case2 => split <;> decide
  all_goals decide

end Scan

namespace Lexer

variable {α β : Type} {l m n : Lexer} {t : Token} {ts : List Token}

/-! ### Readers that succeed -/

def Leads (x : Lex α) (l : Lexer) (Q : α → Lexer → Prop) : Prop := ∀ a m, x l = .ok a m → Q a m

namespace Leads

variable {x y : Lex α} {f : α → Lex β} {P : α → Lexer → Prop} {Q : β → Lexer → Prop}

theorem pure {a : α} (h : P a l) : Leads (pure a) l P := by
  rintro _ _ ⟨⟩
  exact h

theorem fail {loc : Location} {cause : Cause} : Leads (fail loc cause : Lex α) l P := by
  rintro _ _ ⟨⟩

theorem get {f : Lexer → Lex β} (h : Leads (f l) l Q) : Leads (get >>= f) l Q := h

theorem bind (hx : Leads x l P) (hf : ∀ a m, P a m → Leads (f a) m Q) : Leads (x >>= f) l Q := by
  intro b n h
  change EStateM.bind x f l = .ok b n at h
  rw [EStateM.bind] at h
  cases hx' : x l with
  | ok a m =>
    rw [hx'] at h
    exact hf a m (hx a m hx') b n h
  | error e m =>
    rw [hx'] at h
    cases h

theorem and {P' : α → Lexer → Prop} (hx : Leads x l P) (hx' : Leads x l P') :
    Leads x l fun a m => P a m ∧ P' a m :=
  fun a m h => ⟨hx a m h, hx' a m h⟩

theorem ite {p : Prop} [Decidable p] (hx : p → Leads x l P) (hy : ¬ p → Leads y l P) :
    Leads (if p then x else y) l P := by
  split
  · exact hx ‹p›
  · exact hy ‹¬ p›

/-- A check that fails when `p` holds, and what follows it. -/
theorem guard {p : Prop} [Decidable p] {z : Lex β} {loc : Location} {cause : Cause}
    (hz : ¬ p → Leads z l Q) : Leads (if p then Lexer.fail loc cause >>= f else z) l Q :=
  ite (fun _ => .bind (P := fun _ _ => False) .fail fun _ _ h => h.elim) hz

end Leads

/-! ### Looking at a token -/

structure SameNext (l m : Lexer) : Prop where
  next : Lexer.next l = Lexer.next m
  peek : peekNormal l = peekNormal m

theorem SameNext.refl : SameNext l l := ⟨rfl, rfl⟩

theorem SameNext.symm (h : SameNext l m) : SameNext m l := ⟨h.next.symm, h.peek.symm⟩

section

variable {mode : ReadMode} {flags : ReadFlags} {first : Token} {rest : List Token}

theorem peek_cons (h : l.queue = first :: rest) : peek mode flags l = .ok first l := by
  simp only [peek, bind, EStateM.bind, get, getThe, MonadStateOf.get, EStateM.get, h]
  rfl

theorem peek_nil (h : l.queue = []) : peek mode flags l = (do
    let token ← lex mode flags
    modify fun l => { l with queue := token :: l.queue }
    return token : Lex Token) l := by
  simp only [peek, bind, EStateM.bind, get, getThe, MonadStateOf.get, EStateM.get, h]

theorem read_cons (h : l.queue = first :: rest) :
    read mode flags l = .ok first { l with queue := rest } := by
  simp only [read, bind, EStateM.bind, get, getThe, MonadStateOf.get, EStateM.get, h]
  rfl

theorem read_nil (h : l.queue = []) : read mode flags l = lex mode flags l := by
  simp only [read, bind, EStateM.bind, get, getThe, MonadStateOf.get, EStateM.get, h]

theorem peekNormal_cons (h : l.queue = first :: rest) : peekNormal l = .ok first l := peek_cons h

theorem next_cons (h : l.queue = first :: rest) :
    next l = .ok first { l with queue := rest } := read_cons h

theorem next_nil (h : l.queue = []) : next l = lex .normal {} l := read_nil h

theorem peekNormal_nil (h : l.queue = []) : peekNormal l = (do
    let token ← next
    modify fun l => { l with queue := token :: l.queue }
    return token : Lex Token) l := by
  simp only [peekNormal, peek, bind, EStateM.bind, get, getThe, MonadStateOf.get, EStateM.get, h,
    next_nil h]

end

theorem peekNormal_spec (h : peekNormal l = .ok t m) :
    SameNext l m ∧ ∃ n, next l = .ok t n ∧ consume m = .ok () n := by
  cases hqueue : l.queue with
  | cons first rest =>
    obtain ⟨rfl, rfl⟩ : first = t ∧ l = m := by simpa [peekNormal_cons hqueue] using h
    refine ⟨.refl, { l with queue := rest }, next_cons hqueue, ?_⟩
    change EStateM.Result.ok () { l with queue := l.queue.drop 1 } = _
    rw [hqueue]
    rfl
  | nil =>
    rw [peekNormal_nil hqueue] at h
    cases hnext : next l with
    | error e n => simp [bind, EStateM.bind, hnext] at h
    | ok token n =>
      simp only [bind, EStateM.bind, hnext] at h
      cases h
      have hm : ({ n with queue := t :: n.queue } : Lexer).queue = t :: n.queue := rfl
      refine ⟨⟨hnext.trans (next_cons hm).symm, ?_⟩, n, rfl, rfl⟩
      rw [peekNormal_cons hm, peekNormal_nil hqueue]
      simp only [bind, EStateM.bind, hnext]
      rfl

/-- A token that is delivered can be looked at first. -/
theorem exists_peekNormal (h : next l = .ok t n) :
    ∃ m, peekNormal l = .ok t m ∧ peekNormal m = .ok t m ∧
      consume m = .ok () n := by
  have hpeek : ∃ m, peekNormal l = .ok t m := by
    cases hqueue : l.queue with
    | cons first rest =>
      obtain ⟨rfl, -⟩ : first = t ∧ _ = n := by simpa [next_cons hqueue] using h
      exact ⟨l, peekNormal_cons hqueue⟩
    | nil =>
      rw [peekNormal_nil hqueue]
      exact ⟨{ n with queue := t :: n.queue }, by simp [bind, EStateM.bind, h]; rfl⟩
  obtain ⟨m, hpeek⟩ := hpeek
  obtain ⟨hsame, n', hnext, hconsume⟩ := peekNormal_spec hpeek
  cases h.symm.trans hnext
  exact ⟨m, hpeek, hsame.peek.symm.trans hpeek, hconsume⟩

inductive Delivers : Lexer → List Token → Lexer → Prop where
  | nil {l : Lexer} : Delivers l [] l
  | cons {l m n : Lexer} {t : Token} {ts : List Token} (h : next l = .ok t m)
      (hrest : Delivers m ts n) : Delivers l (t :: ts) n

theorem Delivers.exists_next (h : Delivers l (t :: ts) n) :
    ∃ m, next l = .ok t m ∧ Delivers m ts n := by
  cases h with
  | cons hnext hrest => exact ⟨_, hnext, hrest⟩

theorem Delivers.append {ts' : List Token} {o : Lexer} (h : Delivers l ts m)
    (h' : Delivers m ts' o) : Delivers l (ts ++ ts') o := by
  induction h with
  | nil => exact h'
  | cons hnext _ ih => exact .cons hnext (ih h')

/-- From a lexer that shows the same next, tokens are delivered as from the other. -/
theorem Delivers.of_sameNext_of_ne_nil (h : Delivers m ts n) (hl : SameNext l m) (hts : ts ≠ []) :
    Delivers l ts n := by
  cases h with
  | nil => exact absurd rfl hts
  | cons hnext hrest => exact .cons (hl.next.trans hnext) hrest

theorem Delivers.of_sameNext (h : Delivers m ts n) (hl : SameNext l m) :
    ∃ n', Delivers l ts n' ∧ SameNext n' n := by
  by_cases hts : ts = []
  · subst hts
    cases h
    exact ⟨l, .nil, hl⟩
  · exact ⟨n, h.of_sameNext_of_ne_nil hl hts, .refl⟩

theorem Delivers.exists_of_append {ts' : List Token} (h : Delivers l (ts ++ ts') n) :
    ∃ m, Delivers l ts m ∧ Delivers m ts' n := by
  induction ts generalizing l with
  | nil => exact ⟨l, .nil, h⟩
  | cons t ts ih =>
    cases h with
    | cons hnext hrest =>
      obtain ⟨m, hts, hts'⟩ := ih hrest
      exact ⟨m, .cons hnext hts, hts'⟩

/-! ### What is left to read -/

def Counted (l : Lexer) : Prop := l.cursor.unread = l.cursor.rest.length

namespace Remaining

variable {a b c : Remaining}

def AtMost (a b : Remaining) : Prop := a.Less b ∨ a = b

theorem Less.trans (hab : a.Less b) (hbc : b.Less c) : a.Less c := by
  unfold Less at *
  omega

theorem AtMost.less (hab : a.Less b) (hbc : b.AtMost c) : a.Less c := by
  rcases hbc with hbc | rfl
  · exact hab.trans hbc
  · exact hab

theorem AtMost.trans (hab : a.AtMost b) (hbc : b.AtMost c) : a.AtMost c := by
  rcases hab with hab | rfl
  · exact Or.inl (AtMost.less hab hbc)
  · exact hbc

end Remaining

theorem counted_ofSource (src file : Bytes) (exponents : Bool) : (ofSource src file exponents).Counted := rfl

theorem Counted.advance (hl : l.Counted) (size : Nat) :
    Counted { l with cursor := l.cursor.advance size } := by
  simp only [Counted, Cursor.advance, List.length_drop]
  rw [show l.cursor.unread = l.cursor.rest.length from hl]

theorem leads_advance {size : Nat} :
    Leads (advance size) l fun _ m => m = { l with cursor := l.cursor.advance size } := by
  rintro _ _ ⟨⟩
  rfl

/-- The token that a scan found is taken from the start of the text. -/
theorem leads_take {type : TokenType} {outcome : Scan.Outcome} :
    Leads (take type outcome) l fun t m => ∃ size, outcome = .done size ∧
      t = ⟨type, l.cursor.rest.take size, l.cursor.loc⟩ ∧
      m = { l with cursor := l.cursor.advance size } := by
  refine .get ?_
  cases outcome with
  | done size =>
    refine .bind leads_advance ?_
    rintro _ _ rfl
    exact .pure ⟨size, rfl, rfl, rfl⟩
  | failed size cause atStart =>
    exact .bind leads_advance fun _ _ _ => .ite (fun _ => .fail) fun _ => .get .fail

/-- A reader took at least one byte and left the queue as it was. -/
structure Shorter (l m : Lexer) : Prop where
  counted : m.Counted
  unread : m.cursor.unread < l.cursor.unread
  queue : m.queue = l.queue

theorem leads_take_shorter {type : TokenType} {outcome : Scan.Outcome} {b : UInt8} {rest : Bytes}
    (hl : l.Counted) (hrest : l.cursor.rest = b :: rest)
    (hpos : ∀ size, outcome = .done size → 0 < size) :
    Leads (take type outcome) l fun t m => t.type = type ∧ Shorter l m := by
  rintro t m h
  obtain ⟨size, houtcome, rfl, rfl⟩ := leads_take t m h
  refine ⟨rfl, hl.advance size, ?_, rfl⟩
  have hunread : l.cursor.unread = rest.length + 1 := by
    rw [show l.cursor.unread = l.cursor.rest.length from hl, hrest, List.length_cons]
  have := hpos size houtcome
  simp only [Cursor.advance]
  omega

theorem leads_lexNormal {flags : ReadFlags} {b : UInt8} {rest : Bytes} (hl : l.Counted)
    (hrest : l.cursor.rest = b :: rest) :
    Leads (lexNormal flags) l fun _ m => Shorter l m := by
  refine .get ?_
  rw [hrest]
  dsimp only
  have hlone {token : Lex Token} (h : Leads token l fun _ m => Shorter l m) :
      Leads (token >>= fun t => pure (t, none)) l
        fun (_ : Token × Option (List Token)) m => Shorter l m := .bind h fun _ _ hm => .pure hm
  refine .ite (fun hdigit => hlone ?_) fun _ => .ite (fun hword => ?_) fun _ => ?_
  · intro t m h
    exact (leads_take_shorter hl hrest (fun size hsize => Scan.pos_of_number hdigit hsize) t m h).2
  · refine .bind (leads_take_shorter hl hrest fun size hsize => ?_) fun _ _ hm => .pure hm.2
    cases hsize
    rw [Scan.identifier, List.takeWhile_cons_of_pos hword]
    exact Nat.succ_pos _
  · refine .ite (fun hquote => hlone ?_) fun _ => hlone ?_
    · refine .get fun t m h => ?_
      refine (leads_take_shorter hl hrest (fun size hsize => ?_) t m h).2
      rw [hrest, hquote] at hsize
      exact Scan.le_of_quotedFrom hsize
    · intro t m h
      exact (leads_take_shorter hl hrest (fun size hsize => Scan.pos_of_symbol hsize) t m h).2

def Consumed (l : Lexer) (t : Token) (m : Lexer) : Prop :=
  m.Counted ∧ (m.cursor.unread < l.cursor.unread ∨
    t.type = .endOfFile ∧ m.cursor.unread ≤ l.cursor.unread ∧ m.queue = l.queue)

theorem leads_lexWithin {flags : ReadFlags} {fuel : Nat} (hl : l.Counted) :
    Leads (lexWithin .normal flags fuel) l fun t m => Consumed l t m := by
  induction fuel generalizing l with
  | zero => exact .get (.pure ⟨hl, Or.inr ⟨rfl, le_rfl, rfl⟩⟩)
  | succ fuel ih =>
    unfold lexWithin
    refine .get <| .bind leads_advance ?_
    rintro _ _ rfl
    have hgap := hl.advance (Scan.gapFrom 0 .plain l.cursor.rest).1
    have hle : (l.cursor.advance (Scan.gapFrom 0 .plain l.cursor.rest).1).unread ≤
        l.cursor.unread := Nat.sub_le _ _
    generalize l.cursor.advance (Scan.gapFrom 0 .plain l.cursor.rest).1 = cursor at hgap hle ⊢
    have hshorter {t : Token} {m : Lexer} (h : Shorter { l with cursor := cursor } m) :
        Consumed l t m := ⟨h.counted, Or.inl (Nat.lt_of_lt_of_le h.unread hle)⟩
    refine .get ?_
    split
    · exact .guard fun _ => .pure ⟨hgap, Or.inr ⟨rfl, hle, rfl⟩⟩
    · rename_i hrest
      intro t m h
      exact hshorter (leads_take_shorter hgap hrest (by simp) t m h).2
    · rename_i hne _
      obtain ⟨b, rest, hrest⟩ := List.exists_cons_of_ne_nil hne
      refine .bind (leads_lexNormal hgap hrest) ?_
      rintro ⟨token, body⟩ m hm
      dsimp only
      split
      · exact .pure (hshorter hm)
      · intro t n h
        obtain ⟨hcounted, hread⟩ := ih hm.counted t n h
        refine ⟨hcounted, Or.inl ?_⟩
        have hless := Nat.lt_of_lt_of_le hm.unread hle
        rcases hread with hread | ⟨-, hread, -⟩ <;> omega
      · refine .bind (P := fun _ n => n.cursor = m.cursor) ?_ fun _ n hn => .pure ⟨?_, Or.inl ?_⟩
        · rintro _ _ ⟨⟩
          rfl
        · rw [Counted, hn]
          exact hm.counted
        · rw [hn]
          exact Nat.lt_of_lt_of_le hm.unread hle

theorem leads_lex {flags : ReadFlags} (hl : l.Counted) :
    Leads (lex .normal flags) l fun t m => Consumed l t m :=
  .get (leads_lexWithin hl)

/-- What a read leaves is counted, and less unless it read the end of the file. -/
theorem next_spec (hl : l.Counted) (h : next l = .ok t m) :
    m.Counted ∧ m.remaining.AtMost l.remaining ∧
      (t.type ≠ .endOfFile → m.remaining.Less l.remaining) := by
  cases hqueue : l.queue with
  | cons first rest =>
    rw [next_cons hqueue] at h
    cases h
    refine ⟨hl, ?_, fun htype => Or.inr ⟨rfl, ?_⟩⟩
    · by_cases htype : t.type = .endOfFile
      · exact Or.inr (by simp [remaining, hqueue, htype])
      · exact Or.inl (Or.inr ⟨rfl, by simp [remaining, hqueue, htype]⟩)
    · simp [remaining, hqueue, htype]
  | nil =>
    rw [next_nil hqueue] at h
    obtain ⟨hcounted, hread⟩ := leads_lex hl t m h
    refine ⟨hcounted, ?_, fun htype => Or.inl ?_⟩
    · rcases hread with hread | ⟨-, hread, hsame⟩
      · exact Or.inl (Or.inl hread)
      · rcases Nat.lt_or_eq_of_le hread with hread | hread
        · exact Or.inl (Or.inl hread)
        · exact Or.inr (by simp [remaining, hread, hsame])
    · rcases hread with hread | ⟨hend, -⟩
      · exact hread
      · exact absurd hend htype

theorem peekNormal_atMost (hl : l.Counted) (h : peekNormal l = .ok t m) :
    m.Counted ∧ m.remaining.AtMost l.remaining := by
  cases hqueue : l.queue with
  | cons first rest =>
    obtain ⟨rfl, rfl⟩ : first = t ∧ l = m := by simpa [peekNormal_cons hqueue] using h
    exact ⟨hl, Or.inr rfl⟩
  | nil =>
    rw [peekNormal_nil hqueue] at h
    cases hnext : next l with
    | error e n => simp [bind, EStateM.bind, hnext] at h
    | ok token n =>
      simp only [bind, EStateM.bind, hnext] at h
      cases h
      rw [next_nil hqueue] at hnext
      obtain ⟨hcounted, hread⟩ := leads_lex hl t n hnext
      refine ⟨hcounted, ?_⟩
      rcases hread with hread | ⟨hend, hread, hsame⟩
      · exact Or.inl (Or.inl hread)
      · rcases Nat.lt_or_eq_of_le hread with hread | hread
        · exact Or.inl (Or.inl hread)
        · exact Or.inr (by simp [remaining, hread, hsame, hqueue, hend])

theorem Delivers.spec (h : Delivers l ts m) (hl : l.Counted) :
    m.Counted ∧ m.remaining.AtMost l.remaining := by
  induction h with
  | nil => exact ⟨hl, Or.inr rfl⟩
  | cons hnext _ ih =>
    obtain ⟨hcounted, hmost, -⟩ := next_spec hl hnext
    obtain ⟨hcounted, hmost'⟩ := ih hcounted
    exact ⟨hcounted, hmost'.trans hmost⟩

end Lexer

end ApeScript
