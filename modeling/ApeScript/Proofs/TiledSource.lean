import ApeScript.Proofs.LookAhead
import ApeScript.Proofs.TrackedLexer

/-!
# The text is read in tiles

A lexer stands at an offset of its text: its unread bytes are those from the offset on, and its
place is that of the offset. No call moves it back or past the end (`Lexer.Call.exists_ofOffset`).
What a read takes is a tile: fillers, and then the bytes of one token (`Lexer.leads_lex_tile`). A
token that names a macro is a tile as well, so the next read goes on right behind it.
-/

namespace ApeScript

variable {file src : Bytes} {p q s e size : Nat}

/-! ### Offsets -/

def Cursor.ofOffset (file src : Bytes) (p : Nat) : Cursor :=
  ⟨src.drop p, src.length - p, .ofOffset file src p⟩

theorem Cursor.ofOffset_advance (file src : Bytes) (p size : Nat) :
    (ofOffset file src p).advance size = ofOffset file src (p + size) := by
  simp only [ofOffset, advance, List.drop_drop, Nat.sub_sub, Location.ofOffset_advance]

theorem Cursor.ofOffset_min (file src : Bytes) (p : Nat) :
    ofOffset file src (min p src.length) = ofOffset file src p := by
  by_cases hp : p ≤ src.length
  · rw [Nat.min_eq_left hp]
  · have hlate : src.length ≤ p := by omega
    simp only [ofOffset, Nat.min_eq_right hlate, List.drop_length, List.drop_eq_nil_of_le hlate,
      Nat.sub_self, Nat.sub_eq_zero_of_le hlate, Location.ofOffset, List.take_length,
      List.take_of_length_le hlate]

/-- An advance ends at an offset no earlier, and at the end of the text at the latest. -/
theorem Cursor.exists_advance (hp : p ≤ src.length) (size : Nat) : ∃ q, p ≤ q ∧ q ≤ src.length ∧
    (ofOffset file src p).advance size = ofOffset file src q ∧
    ((ofOffset file src p).rest.take size = src.extract p q) := by
  refine ⟨min (p + size) src.length, by omega, Nat.min_le_right _ _, ?_, ?_⟩
  · rw [ofOffset_advance, ofOffset_min]
  · simp only [ofOffset, List.extract_eq_take_drop]
    rw [List.take_eq_take_iff, List.length_drop]
    omega

theorem Cursor.advance_advance (c : Cursor) (m n : Nat) :
    (c.advance m).advance n = c.advance (m + n) := by
  have hloc : (c.loc.advance (c.rest.take m)).advance ((c.rest.drop m).take n) =
      c.loc.advance (c.rest.take (m + n)) := by
    rw [List.take_add]
    exact List.foldl_append.symm
  simp only [advance, List.drop_drop, Nat.sub_sub, hloc]

namespace Lexer

variable {α β : Type} {l m : Lexer} {mode : ReadMode} {flags : ReadFlags} {t : Token}

/-! ### Calls -/

def after (x : Lex α) (l : Lexer) : Lexer :=
  match x l with
  | .ok _ m => m
  | .error _ m => m

/-- The reader passes over some bytes, or over none. -/
def Advances (x : Lex α) : Prop := ∀ l, ∃ size, (after x l).cursor = l.cursor.advance size

namespace Advances

variable {x y : Lex α} {f : α → Lex β} {loc : Location} {cause : Cause}

theorem pure (a : α) : Advances (pure a : Lex α) := fun _ => ⟨0, rfl⟩

theorem get : Advances get := fun _ => ⟨0, rfl⟩

theorem fail (loc : Location) (cause : Cause) : Advances (fail loc cause : Lex α) :=
  fun _ => ⟨0, rfl⟩

theorem modify {f : Lexer → Lexer} (h : ∀ l, (f l).cursor = l.cursor) :
    Advances (modify f) := by
  intro l
  exact ⟨0, h l⟩

theorem bind (hx : Advances x) (hf : ∀ a, Advances (f a)) : Advances (x >>= f) := by
  intro l
  obtain ⟨first, hfirst⟩ := hx l
  have hrun : (x >>= f) l = EStateM.bind x f l := rfl
  unfold after at hfirst ⊢
  rw [hrun, EStateM.bind]
  cases hxl : x l with
  | ok a m =>
    rw [hxl] at hfirst
    obtain ⟨second, hsecond⟩ := hf a m
    unfold after at hsecond
    refine ⟨first + second, ?_⟩
    rw [← Cursor.advance_advance, ← hfirst]
    exact hsecond
  | error e m =>
    rw [hxl] at hfirst
    exact ⟨first, hfirst⟩

theorem ite {p : Prop} [Decidable p] (hx : Advances x) (hy : Advances y) :
    Advances (if p then x else y) := by
  split
  · exact hx
  · exact hy

/-- What would follow a failure is not run. -/
theorem guard {p : Prop} [Decidable p] {z : Lex β} (hz : Advances z) :
    Advances (if p then Lexer.fail loc cause >>= f else z) :=
  .ite (fun _ => ⟨0, rfl⟩) hz

theorem dite {p : Prop} [Decidable p] {x : p → Lex α} {y : ¬ p → Lex α}
    (hx : ∀ h, Advances (x h)) (hy : ∀ h, Advances (y h)) :
    Advances (if h : p then x h else y h) := by
  split
  · apply hx
  · apply hy

end Advances

theorem advances_advance (size : Nat) : Advances (advance size) := fun _ => ⟨size, rfl⟩

theorem advances_location : Advances location := fun _ => ⟨0, rfl⟩

theorem advances_take (type : TokenType) (outcome : Scan.Outcome) :
    Advances (take type outcome) := by
  refine .bind .get fun l => ?_
  cases outcome with
  | done size => exact .bind (advances_advance size) fun _ => .pure _
  | failed size cause atStart =>
    refine .bind (advances_advance size) fun _ => .ite (.fail _ _) ?_
    exact .bind advances_location fun _ => .fail _ _

theorem advances_lexRaw (flags : ReadFlags) : Advances (lexRaw flags) := by
  refine .bind .get fun l => .bind (advances_take _ _) fun token => .ite (.pure _) ?_
  refine .bind .get fun l => ?_
  split
  · exact .pure _
  · exact .pure _

theorem advances_lexQuoted (flags : ReadFlags) : Advances (lexQuoted flags) :=
  .bind .get fun _ => advances_take _ _

theorem advances_lexNormal (flags : ReadFlags) : Advances (lexNormal flags) := by
  refine .bind .get fun l => ?_
  split
  · exact .pure _
  · refine .ite ?_ (.ite ?_ (.ite ?_ ?_))
    · exact .bind (advances_take _ _) fun _ => .pure _
    · exact .bind (advances_take _ _) fun _ => .pure _
    · exact .bind (advances_lexQuoted flags) fun _ => .pure _
    · exact .bind (advances_take _ _) fun _ => .pure _

theorem advances_lexWithin (mode : ReadMode) (flags : ReadFlags) (fuel : Nat) :
    Advances (lexWithin mode flags fuel) := by
  induction fuel generalizing mode with
  | zero => exact .bind advances_location fun _ => .pure _
  | succ fuel ih =>
    unfold lexWithin
    refine .bind .get fun l => .bind (advances_advance _) fun _ => .bind .get fun l => ?_
    split
    · exact .guard (.pure _)
    · exact advances_take _ _
    · cases mode with
      | raw => exact advances_lexRaw flags
      | quoted => exact advances_lexQuoted flags
      | normal =>
        refine .bind (advances_lexNormal flags) ?_
        rintro ⟨token, body⟩
        dsimp only
        split
        · exact .pure _
        · exact ih .normal
        · exact .bind (.modify fun _ => rfl) fun _ => .pure _

theorem advances_lex (mode : ReadMode) (flags : ReadFlags) : Advances (lex mode flags) :=
  .bind .get fun _ => advances_lexWithin mode flags _

theorem advances_read (mode : ReadMode) (flags : ReadFlags) : Advances (read mode flags) := by
  refine .bind .get fun l => ?_
  split
  · exact .bind (.modify fun _ => rfl) fun _ => .pure _
  · exact advances_lex mode flags

theorem advances_peek (mode : ReadMode) (flags : ReadFlags) : Advances (peek mode flags) := by
  refine .bind .get fun l => ?_
  split
  · exact .pure _
  · exact .bind (advances_lex mode flags) fun _ => .bind (.modify fun _ => rfl) fun _ => .pure _

theorem advances_consume : Advances consume := .modify fun _ => rfl

theorem advances_expect (type : TokenType) : Advances (expect type) :=
  .bind (advances_read _ _) fun _ => .ite (.pure _) (.fail _ _)

theorem advances_skipLineEnds : Advances skipLineEnds := by
  refine .bind .get fun l => ?_
  induction l.remaining using skipLineEndsWithin.induct with
  | case1 bound ih =>
    rw [skipLineEndsWithin]
    refine .bind (advances_peek _ _) fun token => .ite ?_ (.pure _)
    refine .bind advances_consume fun _ => .bind .get fun l => ?_
    exact .dite (fun less => ih l less) fun _ => .fail _ _

theorem advances_macroBodyWithin (bound : Remaining) : Advances (macroBodyWithin bound) := by
  induction bound using macroBodyWithin.induct with
  | case1 bound ih =>
    rw [macroBodyWithin]
    refine .bind (advances_peek _ _) fun token => .ite (.pure _) ?_
    refine .bind advances_consume fun _ => .bind .get fun l => ?_
    refine .dite (fun less => ?_) fun _ => .fail _ _
    exact .bind (ih l less) fun _ => .pure _

theorem advances_defineMacro : Advances defineMacro := by
  refine .bind (advances_read _ _) fun name => .guard (.bind .get fun l => .guard ?_)
  exact .bind .get fun l => .bind (advances_macroBodyWithin _) fun _ => .modify fun _ => rfl

inductive Call where
  | read (mode : ReadMode) (flags : ReadFlags)
  | peek (mode : ReadMode) (flags : ReadFlags)
  | consume
  | expect (type : TokenType)
  | skipLineEnds
  | defineMacro
  deriving DecidableEq, Repr

def Call.after : Call → Lexer → Lexer
  | read mode flags => Lexer.after (Lexer.read mode flags)
  | peek mode flags => Lexer.after (Lexer.peek mode flags)
  | consume => Lexer.after Lexer.consume
  | expect type => Lexer.after (Lexer.expect type)
  | skipLineEnds => Lexer.after Lexer.skipLineEnds
  | defineMacro => Lexer.after Lexer.defineMacro

def afterAll (calls : List Call) (l : Lexer) : Lexer := calls.foldl (fun l call => call.after l) l

theorem Call.exists_advance (call : Call) (l : Lexer) :
    ∃ size, (call.after l).cursor = l.cursor.advance size := by
  cases call with
  | read mode flags => exact advances_read mode flags l
  | peek mode flags => exact advances_peek mode flags l
  | consume => exact advances_consume l
  | expect type => exact advances_expect type l
  | skipLineEnds => exact advances_skipLineEnds l
  | defineMacro => exact advances_defineMacro l

/-- A call moves a lexer from one offset to another that is no earlier. -/
theorem Call.exists_ofOffset (call : Call) (hp : p ≤ src.length)
    (hl : l.cursor = Cursor.ofOffset file src p) :
    ∃ q, p ≤ q ∧ q ≤ src.length ∧ (call.after l).cursor = Cursor.ofOffset file src q := by
  obtain ⟨size, hsize⟩ := call.exists_advance l
  obtain ⟨q, hpq, hq, hadvance, -⟩ := Cursor.exists_advance hp size
  exact ⟨q, hpq, hq, by rw [hsize, hl, hadvance]⟩

theorem exists_ofOffset_afterAll (calls : List Call) (hp : p ≤ src.length)
    (hl : l.cursor = Cursor.ofOffset file src p) :
    ∃ q, p ≤ q ∧ q ≤ src.length ∧ (afterAll calls l).cursor = Cursor.ofOffset file src q := by
  induction calls generalizing l p with
  | nil => exact ⟨p, le_rfl, hp, hl⟩
  | cons call calls ih =>
    obtain ⟨q, hpq, hq, hcall⟩ := call.exists_ofOffset hp hl
    obtain ⟨r, hqr, hr, hcalls⟩ := ih hq hcall
    exact ⟨r, by omega, hr, hcalls⟩

/-! ### Tiles -/

/-- From one offset to another stand fillers, and from there to a third the bytes of a token. -/
structure Tile (src : Bytes) (p s e : Nat) : Prop where
  start : p ≤ s
  stop : s ≤ e
  bound : e ≤ src.length
  fillers : ∃ fs, Scan.Separates fs (src.drop p) (src.drop s)

inductive Tiles (src : Bytes) : Nat → List Bytes → Nat → Prop
  | nil {p : Nat} : Tiles src p [] p
  | cons {p s e q : Nat} {texts : List Bytes} (h : Tile src p s e) (hrest : Tiles src e texts q) :
      Tiles src p (src.extract s e :: texts) q

/-- The token is the name of a macro by which a read replaces it: an identifier by any macro, a raw
word by a macro of one token. -/
def Replaces (l : Lexer) (flags : ReadFlags) (k : Lexeme) : Prop :=
  flags.noMacros = false ∧ (k.1 = .identifier ∧ (∃ body, l.body? k.2 = some body) ∨
    k.1 = .raw ∧ ∃ only, l.body? k.2 = some [only])

/-- The first token of the unread text is replaced by a macro. -/
def Substitutes (l : Lexer) (mode : ReadMode) (flags : ReadFlags) : Prop :=
  ∃ k rest, firstToken? l.exponents mode flags l.cursor.rest = some (k, rest) ∧
    l.Replaces flags k

/-- The token at the cursor, where neither a blank nor a comment stands, and the lexer behind it. -/
def Scanned (l : Lexer) (mode : ReadMode) (flags : ReadFlags) (t : Token) (m : Lexer) : Prop :=
  ∃ size, firstTokenHere? l.exponents mode flags l.cursor.rest =
      some (t.lexeme, l.cursor.rest.drop size) ∧
    t = ⟨t.type, l.cursor.rest.take size, l.cursor.loc⟩ ∧
    m = { l with cursor := l.cursor.advance size }

section

variable {text more : Bytes} {b : UInt8}

theorem Scanned.body?_eq (h : Scanned l mode flags t m) (name : Bytes) :
    m.body? name = l.body? name := by
  obtain ⟨size, -, -, rfl⟩ := h
  rfl

theorem leads_take_scanned {type : TokenType} {outcome : Scan.Outcome}
    (hrest : l.cursor.rest = text)
    (h : firstTokenHere? l.exponents mode flags text = cut? type text outcome) :
    Leads (take type outcome) l fun t m => Scanned l mode flags t m ∧ t.type = type := by
  subst hrest
  intro t m ht
  obtain ⟨size, rfl, rfl, rfl⟩ := leads_take t m ht
  exact ⟨⟨size, h, rfl, rfl⟩, rfl⟩

theorem leads_lexQuoted_scanned (hrest : l.cursor.rest = text)
    (h : firstTokenHere? l.exponents mode flags text =
      cut? .string text (Scan.quoted flags text)) :
    Leads (lexQuoted flags) l fun t m => Scanned l mode flags t m ∧ t.type = .string := by
  subst hrest
  exact .get (leads_take_scanned rfl h)

theorem leads_lexRaw_scanned (hrest : l.cursor.rest = b :: more) (hb : b ≠ 10) :
    Leads (lexRaw flags) l fun t m => ∃ u, Scanned l .raw flags u m ∧
      (t = u ∨ l.Replaces flags u.lexeme) := by
  have hhere : firstTokenHere? l.exponents .raw flags (b :: more) =
      cut? .raw (b :: more) (Scan.raw flags (b :: more)) := by
    rw [firstTokenHere?, if_neg hb]
  refine .get ?_
  rw [hrest]
  refine .bind (leads_take_scanned hrest hhere) ?_
  rintro u m ⟨hu, htype⟩
  refine .ite (fun _ => .pure ⟨u, hu, .inl rfl⟩) fun hmacros => .get ?_
  rw [hu.body?_eq]
  split
  · rename_i only honly
    exact .pure ⟨u, hu, .inr ⟨Bool.eq_false_of_not_eq_true hmacros, .inr ⟨htype, only, honly⟩⟩⟩
  · exact .pure ⟨u, hu, .inl rfl⟩

theorem leads_lexNormal_scanned (hrest : l.cursor.rest = b :: more) (hb : b ≠ 10) :
    Leads (lexNormal flags) l fun r m => Scanned l .normal flags r.1 m ∧
      ∀ body, r.2 = some body → l.Replaces flags r.1.lexeme := by
  have hlone {type : TokenType} {token : Lex Token}
      (h : Leads token l fun t m => Scanned l .normal flags t m ∧ t.type = type) :
      Leads (token >>= fun t => pure (t, none)) l fun (r : Token × Option (List Token)) m =>
        Scanned l .normal flags r.1 m ∧ ∀ body, r.2 = some body → l.Replaces flags r.1.lexeme :=
    .bind h fun _ _ ht => .pure ⟨ht.1, by simp⟩
  refine .get ?_
  rw [hrest]
  dsimp only
  by_cases hdigit : Bytes.isDigit b = true
  · rw [if_pos hdigit]
    exact hlone (leads_take_scanned hrest (by simp [firstTokenHere?, hb, hdigit]))
  by_cases hword : isIdentifierByte b = true
  · have hhere : firstTokenHere? l.exponents .normal flags (b :: more) =
        cut? .identifier (b :: more) (.done (Scan.identifier (b :: more))) := by
      simp [firstTokenHere?, hb, hdigit, hword]
    rw [if_neg hdigit, if_pos hword]
    refine .bind (leads_take_scanned hrest hhere) ?_
    rintro u m ⟨hu, htype⟩
    refine .pure ⟨hu, fun body hbody => ?_⟩
    by_cases hmacros : flags.noMacros = true
    · rw [if_pos hmacros] at hbody
      cases hbody
    · rw [if_neg hmacros] at hbody
      exact ⟨Bool.eq_false_of_not_eq_true hmacros, .inl ⟨htype, body, hbody⟩⟩
  by_cases hquote : b = 34
  · rw [if_neg hdigit, if_neg hword, if_pos hquote]
    subst hquote
    exact hlone (leads_lexQuoted_scanned hrest rfl)
  · rw [if_neg hdigit, if_neg hword, if_neg hquote]
    exact hlone (leads_take_scanned hrest (by simp [firstTokenHere?, hb, hdigit, hword, hquote]))

end

/-- What a read takes from the text at an offset: the tile of its first token, and what the token
stands for. A token that no macro replaces is returned with its bytes and its place, and nothing
else changes; behind the name of a macro more tiles may be read. -/
def TakesTile (file src : Bytes) (l : Lexer) (mode : ReadMode) (flags : ReadFlags) (p : Nat)
    (t : Token) (m : Lexer) : Prop :=
  ∃ u s e, Tile src p s e ∧ u = ⟨u.type, src.extract s e, .ofOffset file src s⟩ ∧
    firstToken? l.exponents mode flags (src.drop p) = some (u.lexeme, src.drop e) ∧
    (t = u ∧ m = { l with cursor := .ofOffset file src e } ∨ l.Replaces flags u.lexeme ∧
      ∃ texts q, Tiles src e texts q ∧ m.cursor = .ofOffset file src q)

theorem TakesTile.exists_tiles (h : TakesTile file src l mode flags p t m) :
    ∃ texts q, Tiles src p texts q ∧ m.cursor = .ofOffset file src q := by
  obtain ⟨u, s, e, htile, -, -, ⟨-, rfl⟩ | ⟨-, texts, q, htexts, hm⟩⟩ := h
  · exact ⟨_, e, .cons htile .nil, rfl⟩
  · exact ⟨_, q, .cons htile htexts, hm⟩

theorem Scanned.exists_extract (h : Scanned l mode flags t m) (hs : s ≤ src.length)
    (hl : l.cursor = .ofOffset file src s) : ∃ e, s ≤ e ∧ e ≤ src.length ∧
      t = ⟨t.type, src.extract s e, .ofOffset file src s⟩ ∧ m = { l with cursor := .ofOffset file src e } ∧
      firstTokenHere? l.exponents mode flags (src.drop s) = some (t.lexeme, src.drop e) := by
  obtain ⟨size, hfirst, ht, rfl⟩ := h
  obtain ⟨e, hse, he, hadvance, htake⟩ := Cursor.exists_advance hs size
  have hdrop : (Cursor.ofOffset file src s).rest.drop size = src.drop e :=
    congrArg Cursor.rest hadvance
  rw [hl, hdrop] at hfirst
  rw [hl, htake] at ht
  rw [hl, hadvance]
  exact ⟨e, hse, he, ht, rfl, hfirst⟩

/-- A lexer that has passed over the blanks and comments behind an offset. -/
structure PastGap (file src : Bytes) (l : Lexer) (p s : Nat) (n : Lexer) : Prop where
  eq : n = { l with cursor := .ofOffset file src s }
  start : p ≤ s
  bound : s ≤ src.length
  bare : Scan.Bare (src.drop s)
  fillers : ∃ fs, Scan.Separates fs (src.drop p) (src.drop s)

namespace PastGap

variable {n : Lexer} {u : Token} {b : UInt8} {more : Bytes}

/-- A token behind a gap makes a tile with it. -/
theorem exists_tile (hn : PastGap file src l p s n) (h : Scanned n mode flags u m) :
    ∃ e, Tile src p s e ∧ u = ⟨u.type, src.extract s e, .ofOffset file src s⟩ ∧
      firstToken? l.exponents mode flags (src.drop p) = some (u.lexeme, src.drop e) ∧
      m = { l with cursor := .ofOffset file src e } := by
  obtain ⟨rfl, hps, hs, hbare, fs, hfs⟩ := hn
  obtain ⟨e, hse, he, hu, rfl, hfirst⟩ := h.exists_extract hs rfl
  refine ⟨e, ⟨hps, hse, he, fs, hfs⟩, hu, ?_, rfl⟩
  rw [firstToken?_eq_here hfs hbare]
  exact hfirst

/-- A token that is returned as it is. -/
theorem takesTile (hn : PastGap file src l p s n) (h : Scanned n mode flags u m) :
    TakesTile file src l mode flags p u m := by
  obtain ⟨e, htile, hu, hfirst, hm⟩ := hn.exists_tile h
  exact ⟨u, s, e, htile, hu, hfirst, .inl ⟨rfl, hm⟩⟩

/-- A token that a macro replaces, and what is read in its place. -/
theorem takesTile_of_replaces {m' : Lexer} (hn : PastGap file src l p s n)
    (h : Scanned n mode flags u m) (hreplaced : n.Replaces flags u.lexeme)
    (hmore : ∀ e, e ≤ src.length → m.cursor = .ofOffset file src e →
      ∃ texts q, Tiles src e texts q ∧ m'.cursor = .ofOffset file src q) :
    TakesTile file src l mode flags p t m' := by
  obtain ⟨e, htile, hu, hfirst, rfl⟩ := hn.exists_tile h
  rw [hn.eq] at hreplaced
  exact ⟨u, s, e, htile, hu, hfirst, .inr ⟨hreplaced, hmore e htile.bound rfl⟩⟩

theorem leads_lexRaw (hn : PastGap file src l p s n) (hrest : n.cursor.rest = b :: more)
    (hb : b ≠ 10) : Leads (lexRaw flags) n (TakesTile file src l .raw flags p) := by
  intro t m h
  obtain ⟨u, hu, rfl | hreplaced⟩ := leads_lexRaw_scanned hrest hb t m h
  · exact hn.takesTile hu
  · exact hn.takesTile_of_replaces hu hreplaced fun e _ hm => ⟨[], e, .nil, hm⟩

theorem leads_lexQuoted (hn : PastGap file src l p s n) (hrest : n.cursor.rest = b :: more)
    (hb : b ≠ 10) : Leads (lexQuoted flags) n (TakesTile file src l .quoted flags p) := by
  have hquoted : firstTokenHere? n.exponents .quoted flags (b :: more) =
      cut? .string (b :: more) (Scan.quoted flags (b :: more)) := by
    rw [firstTokenHere?, if_neg hb]
  intro t m h
  exact hn.takesTile (leads_lexQuoted_scanned hrest hquoted t m h).1

theorem counted (hn : PastGap file src l p s n) : n.Counted := by
  rw [hn.eq]
  exact (List.length_drop ..).symm

end PastGap

/-- Behind the gap stands a bare text, unless a comment is open at the end. -/
theorem exists_pastGap (hp : p ≤ src.length) (hl : l.cursor = .ofOffset file src p) : ∃ s,
    { l with cursor := l.cursor.advance (Scan.gap l.cursor.rest).1 } =
      ({ l with cursor := .ofOffset file src s } : Lexer) ∧
    (src.drop s ≠ [] ∨ (Scan.gap l.cursor.rest).2 ≠ .block →
      PastGap file src l p s { l with cursor := .ofOffset file src s }) := by
  have hrest : l.cursor.rest = src.drop p := by rw [hl]; rfl
  obtain ⟨s, hps, hs, hadvance, -⟩ := Cursor.exists_advance hp (Scan.gap (src.drop p)).1
  have hdrop : (src.drop p).drop (Scan.gap (src.drop p)).1 = src.drop s :=
    congrArg Cursor.rest hadvance
  have hgap := Scan.gap_sound (src.drop p)
  rw [hdrop] at hgap
  rw [hrest, hl, hadvance]
  refine ⟨s, rfl, fun hclosed => ?_⟩
  obtain ⟨hbare, hfs⟩ := hgap hclosed
  exact ⟨rfl, hps, hs, hbare, hfs⟩

theorem leads_lexWithin_tile {fuel : Nat} (hp : p ≤ src.length) (hl : l.cursor = .ofOffset file src p)
    (hfuel : src.length - p < fuel) :
    Leads (lexWithin mode flags fuel) l (TakesTile file src l mode flags p) := by
  induction fuel generalizing l p mode with
  | zero => exact absurd hfuel (Nat.not_lt_zero _)
  | succ fuel ih =>
    obtain ⟨s, hadvance, hgap⟩ := exists_pastGap hp hl
    unfold lexWithin
    refine .get (.bind leads_advance ?_)
    rintro _ _ rfl
    rw [← Scan.gap, hadvance]
    refine .get ?_
    have hrest : (Cursor.ofOffset file src s).rest = src.drop s := rfl
    dsimp only
    split
    · rename_i hend
      refine .guard fun hclosed => .pure ((hgap (.inr hclosed)).takesTile ⟨0, ?_, ?_, rfl⟩)
      · rw [hend]
        rfl
      · rw [hend]
        rfl
    · rename_i hline
      have hn := hgap (.inl (by rw [← hrest, hline]; simp))
      intro t m h
      exact hn.takesTile (leads_take_scanned hline rfl t m h).1
    · rename_i hne hline
      have hn := hgap (.inl hne)
      obtain ⟨b, more, hmore⟩ := List.exists_cons_of_ne_nil hne
      have hb : b ≠ 10 := by
        rintro rfl
        exact hline more hmore
      cases mode with
      | raw => exact hn.leads_lexRaw hmore hb
      | quoted => exact hn.leads_lexQuoted hmore hb
      | normal =>
        have hscanned : Leads (lexNormal flags) { l with cursor := .ofOffset file src s } _ :=
          leads_lexNormal_scanned hmore hb
        refine .bind (hscanned.and (leads_lexNormal hn.counted hmore)) ?_
        rintro ⟨u, body⟩ m ⟨⟨hu, hreplaced⟩, hshorter⟩
        dsimp only
        split
        · exact .pure (hn.takesTile hu)
        · intro t m' h
          refine hn.takesTile_of_replaces hu (hreplaced _ rfl) fun e he hm => ?_
          have hless : src.length - e < src.length - s := by
            have hunread := hshorter.unread
            rw [hm] at hunread
            exact hunread
          have := hn.start
          exact (ih he hm (by omega) t m' h).exists_tiles
        · refine .bind (P := fun _ m' => m'.cursor = m.cursor) ?_ fun _ m' hm' => .pure ?_
          · rintro _ _ ⟨⟩
            rfl
          · exact hn.takesTile_of_replaces hu (hreplaced _ rfl) fun e _ hm =>
              ⟨[], e, .nil, hm'.trans hm⟩

/-- A read of the text takes the tile of its first token. -/
theorem leads_lex_tile (hp : p ≤ src.length) (hl : l.cursor = .ofOffset file src p) :
    Leads (lex mode flags) l (TakesTile file src l mode flags p) := by
  refine .get (leads_lexWithin_tile hp hl ?_)
  rw [hl]
  exact Nat.lt_succ_self _

theorem afterAll_append (calls more : List Call) (l : Lexer) :
    afterAll (calls ++ more) l = afterAll more (afterAll calls l) :=
  List.foldl_append

/-- Whatever calls are made, a lexer stands at an offset of its text, whose place it has, and more
calls never move it back. A read from an offset takes tiles only, one after the other, and leaves
the lexer behind the last. Where no macro replaces the first token, the read returns that token:
between the offset and the token stand blanks other than newlines, line comments without their
newlines and closed block comments, the token has the bytes and the place of its offset, and
nothing but the offset changes. -/
theorem lexer_tiles_source (src file : Bytes) (exponents : Bool) :
    (∀ calls more, ∃ p q, p ≤ q ∧ q ≤ src.length ∧
      (afterAll calls (ofSource src file exponents)).cursor = .ofOffset file src p ∧
      (afterAll (calls ++ more) (ofSource src file exponents)).cursor = .ofOffset file src q) ∧
    ∀ l p mode flags t m, p ≤ src.length → l.cursor = .ofOffset file src p →
      lex mode flags l = .ok t m →
        (∃ texts q, Tiles src p texts q ∧ m.cursor = .ofOffset file src q) ∧
        (¬ l.Substitutes mode flags → ∃ s e, Tile src p s e ∧ t.text = src.extract s e ∧
          t.loc = .ofOffset file src s ∧ m = { l with cursor := .ofOffset file src e }) := by
  constructor
  · intro calls more
    obtain ⟨p, -, hp, hcalls⟩ := exists_ofOffset_afterAll calls (Nat.zero_le src.length)
      (l := ofSource src file exponents) rfl
    obtain ⟨q, hpq, hq, hmore⟩ := exists_ofOffset_afterAll more hp hcalls
    exact ⟨p, q, hpq, hq, hcalls, by rw [afterAll_append, hmore]⟩
  · intro l p mode flags t m hp hl h
    have htakes := leads_lex_tile hp hl t m h
    refine ⟨htakes.exists_tiles, fun hplain => ?_⟩
    obtain ⟨u, s, e, htile, htext, hfirst, ⟨rfl, hm⟩ | ⟨hreplaced, -⟩⟩ := htakes
    · rw [htext]
      exact ⟨s, e, htile, rfl, rfl, hm⟩
    · have hrest : l.cursor.rest = src.drop p := by rw [hl]; rfl
      exact absurd ⟨u.lexeme, src.drop e, hrest ▸ hfirst, hreplaced⟩ hplain

/-- Behind a word stand a blank and a line comment, and the next read takes the line end. -/
def commentedLine : Lexer := ⟨.ofOffset [] (utf8 "/*\n*/ a // b\n") 7, true, [], []⟩

theorem commentedLine_tile :
    lex .normal {} commentedLine = .ok ⟨.endOfLine, [10], ⟨[], 1, 9⟩⟩
      { commentedLine with cursor := .ofOffset [] (utf8 "/*\n*/ a // b\n") 13 } ∧
    ¬ commentedLine.Substitutes .normal {} ∧
    ∃ s e, Tile (utf8 "/*\n*/ a // b\n") 7 s e ∧
      [10] = (utf8 "/*\n*/ a // b\n").extract s e ∧
      ⟨[], 1, 9⟩ = Location.ofOffset [] (utf8 "/*\n*/ a // b\n") s := by
  have hlex : lex .normal {} commentedLine = .ok ⟨.endOfLine, [10], ⟨[], 1, 9⟩⟩
      { commentedLine with cursor := .ofOffset [] (utf8 "/*\n*/ a // b\n") 13 } := by
    rfl
  have hplain : ¬ commentedLine.Substitutes .normal {} := by
    rintro ⟨k, rest, -, -, ⟨-, body, hbody⟩ | ⟨-, only, hbody⟩⟩
    · cases hbody
    · cases hbody
  obtain ⟨-, htile⟩ := (lexer_tiles_source (utf8 "/*\n*/ a // b\n") [] true).2 commentedLine 7 .normal
    {} _ _ (by decide) rfl hlex
  obtain ⟨s, e, htile, htext, hloc, -⟩ := htile hplain
  exact ⟨hlex, hplain, s, e, htile, htext, hloc⟩

end Lexer

end ApeScript
