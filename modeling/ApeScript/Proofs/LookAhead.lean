import ApeScript.Proofs.ExpressionText
import ApeScript.Proofs.StrippedComments
import ApeScript.Proofs.TokenStream

/-!
# Looking ahead for a quote

What stands between two tokens is a list of fillers: blanks, line comments and block comments
(`Scan.Separates`). A scan of a gap stops exactly behind such a list. `nextIsQuote` looks past
blanks only: it foretells whether the next raw word starts with a quote if no comment stands before
the word, and says no after any comment. So a name and the text assigned to a string variable are
read as quoted behind any number of blanks, and a name behind a comment keeps its quotes.
-/

namespace ApeScript

namespace Scan

/-- A piece of what stands between two tokens: a blank, the text of a line comment after its
slashes, or the text of a block comment between its markers. -/
inductive Filler where
  | blank (b : UInt8)
  | line (text : Bytes)
  | block (inner : Bytes)

def Filler.isBlank : Filler → Bool
  | blank _ => true
  | _ => false

/-- The text is made of the fillers and then `rest`: a line comment reaches up to its newline or the
end, a block comment up to its first closing marker. -/
inductive Separates : List Filler → Bytes → Bytes → Prop
  | nil {rest : Bytes} : Separates [] rest rest
  | blank {b : UInt8} {fs : List Filler} {text rest : Bytes} (hblank : isBlankByte b = true)
      (hline : b ≠ 10) (h : Separates fs text rest) : Separates (.blank b :: fs) (b :: text) rest
  | line {text rest : Bytes} (htext : 10 ∉ text) (hrest : ∀ b ∈ rest.head?, b = 10) :
      Separates [.line text] (47 :: 47 :: (text ++ rest)) rest
  | block {inner text rest : Bytes} {fs : List Filler} (hinner : ¬ [42, 47] <:+: inner)
      (h : Separates fs text rest) :
      Separates (.block inner :: fs) (47 :: 42 :: (inner ++ 42 :: 47 :: text)) rest

/-- Nothing is passed over at the start of the text: it is empty or starts with a newline or with a
byte that is neither a blank nor the start of a comment. -/
def Bare : Bytes → Prop
  | [] => True
  | b :: rest => b = 10 ∨ isBlankByte b = false ∧
      (b = 47 → rest.head? ≠ some 47 ∧ rest.head? ≠ some 42)

variable {flags : ReadFlags} {b : UInt8} {s text rest inner : Bytes} {size n : Nat} {g : Gap}
  {fs : List Filler}

theorem gapFrom_add (size : Nat) (g : Gap) (s : Bytes) :
    gapFrom size g s = ((gapFrom 0 g s).1 + size, (gapFrom 0 g s).2) := by
  induction size with
  | zero => rfl
  | succ size ih => rw [gapFrom_succ, ih, Nat.add_assoc]

/-- What a scan finds that starts between tokens, in a line comment or in a block comment, when it
stops before `rest`. -/
def Leaves : Gap → Bytes → Bytes → Prop
  | .plain, text, rest => ∃ fs, Separates fs text rest
  | .line, text, rest => ∃ body, text = body ++ rest ∧ 10 ∉ body ∧ ∀ b ∈ rest.head?, b = 10
  | .block, text, rest => ∃ inner after fs, text = inner ++ 42 :: 47 :: after ∧
      (¬ [42, 47] <:+: inner) ∧ Separates fs after rest

/-- A byte of a block comment that does not start its closing marker. -/
theorem Leaves.block_cons (hb : ∀ rest, b = 42 → s = 47 :: rest → False)
    (h : Leaves .block s rest) : Leaves .block (b :: s) rest := by
  obtain ⟨inner, after, fs, rfl, hinner, hfs⟩ := h
  refine ⟨b :: inner, after, fs, rfl, ?_, hfs⟩
  rw [Preprocess.pair_infix_cons]
  rintro (⟨hstar, hslash⟩ | hmore)
  · cases inner with
    | nil => cases hslash
    | cons a inner =>
      cases hslash
      exact hb _ hstar.symm rfl
  · exact hinner hmore

/-- A scan that does not end in a block comment stops at a bare text. -/
theorem gapFrom_sound (h : (gapFrom size g s).2 ≠ .block) :
    ∃ n, (gapFrom size g s).1 = size + n ∧ Bare (s.drop n) ∧ Leaves g s (s.drop n) := by
  fun_induction gapFrom size g s
  case case1 size g =>
    refine ⟨0, rfl, trivial, ?_⟩
    cases g with
    | plain => exact ⟨[], .nil⟩
    | line => exact ⟨[], rfl, by simp, by simp⟩
    | block => exact absurd rfl h
  case case2 size rest ih =>
    obtain ⟨n, hn, hbare, fs, hfs⟩ := ih h
    exact ⟨n + 2, by omega, hbare, [], rest, fs, rfl, by simp, hfs⟩
  case case3 size b rest hb ih =>
    obtain ⟨n, hn, hbare, hleaves⟩ := ih h
    exact ⟨n + 1, by omega, hbare, hleaves.block_cons hb⟩
  case case4 size rest =>
    exact ⟨0, rfl, .inl rfl, [], rfl, by simp, by simp⟩
  case case5 size b rest hb ih =>
    obtain ⟨n, hn, hbare, body, hbody, hline, hrest⟩ := ih h
    refine ⟨n + 1, by omega, hbare, b :: body, ?_, ?_, hrest⟩
    · rw [List.cons_append, List.drop_succ_cons, ← hbody]
    · exact List.not_mem_cons_of_ne_of_not_mem (Ne.symm hb) hline
  case case6 size rest ih =>
    obtain ⟨n, hn, hbare, body, hbody, hline, hrest⟩ := ih h
    refine ⟨n + 2, by omega, hbare, [.line body], ?_⟩
    have hseparates := Separates.line hline hrest
    rw [← hbody] at hseparates
    exact hseparates
  case case7 size rest ih =>
    obtain ⟨n, hn, hbare, inner, after, fs, rfl, hinner, hfs⟩ := ih h
    exact ⟨n + 2, by omega, hbare, .block inner :: fs, .block hinner hfs⟩
  case case8 size b rest _ _ hb ih =>
    obtain ⟨n, hn, hbare, fs, hfs⟩ := ih h
    simp only [Bool.and_eq_true, bne_iff_ne] at hb
    exact ⟨n + 1, by omega, hbare, .blank b :: fs, .blank hb.1 hb.2 hfs⟩
  case case9 size b rest hslash hstar hb =>
    refine ⟨0, rfl, ?_, [], .nil⟩
    simp only [Bool.and_eq_true, bne_iff_ne, not_and, not_not] at hb
    cases hblank : isBlankByte b with
    | true => exact .inl (hb hblank)
    | false =>
      refine .inr ⟨hblank, fun h47 => ⟨fun h => ?_, fun h => ?_⟩⟩
      · obtain ⟨more, rfl⟩ := List.head?_eq_some_iff.1 h
        exact hslash more h47 rfl
      · obtain ⟨more, rfl⟩ := List.head?_eq_some_iff.1 h
        exact hstar more h47 rfl

/-- A scan that ends in a block comment has reached the end. -/
theorem gapFrom_unterminated (h : (gapFrom size g s).2 = .block) :
    (gapFrom size g s).1 = size + s.length := by
  fun_induction gapFrom size g s
  case case1 => rfl
  case case4 | case9 => cases h
  all_goals
    rename_i ih
    rw [ih h]
    simp only [List.length_cons]
    omega

/-- The gap at the start of a text, unless it is a block comment that never closes. -/
theorem gap_sound (text : Bytes) (h : text.drop (gap text).1 ≠ [] ∨ (gap text).2 ≠ .block) :
    Bare (text.drop (gap text).1) ∧ ∃ fs, Separates fs text (text.drop (gap text).1) := by
  have hclosed : (gap text).2 ≠ .block := by
    rcases h with h | h
    · intro hblock
      have hsize : (gap text).1 = 0 + text.length := gapFrom_unterminated hblock
      exact h (List.drop_eq_nil_of_le (by omega))
    · exact h
  obtain ⟨n, hn, hbare, hfs⟩ := gapFrom_sound hclosed
  rw [Nat.zero_add] at hn
  rw [gap, hn]
  exact ⟨hbare, hfs⟩

theorem gapFrom_bare (h : Bare (b :: rest)) (size : Nat) :
    gapFrom size .plain (b :: rest) = (size, .plain) := by
  have hstop : (isBlankByte b && b != 10) = false := by
    rcases h with rfl | ⟨hblank, -⟩
    · rfl
    · simp [hblank]
  have hslash (more : Bytes) (hb : b = 47) : rest ≠ 47 :: more ∧ rest ≠ 42 :: more := by
    rcases h with rfl | ⟨-, hopens⟩
    · cases hb
    · constructor
      · rintro rfl
        exact (hopens hb).1 rfl
      · rintro rfl
        exact (hopens hb).2 rfl
  rw [gapFrom.eq_7 size b rest (fun more hb => (hslash more hb).1)
    (fun more hb => (hslash more hb).2), hstop]
  rfl

theorem gapFrom_blank (hblank : isBlankByte b = true) (hline : b ≠ 10) (size : Nat) :
    gapFrom size .plain (b :: s) = gapFrom (size + 1) .plain s := by
  have hb : b ≠ 47 := by
    rintro rfl
    cases hblank
  rw [gapFrom.eq_7 size b s (fun _ h => absurd h hb) (fun _ h => absurd h hb)]
  simp [hblank, hline]

/-- The whole of a line comment's text is passed over. -/
theorem gapFrom_line (htext : 10 ∉ text) (hrest : ∀ b ∈ rest.head?, b = 10) :
    gapFrom 0 .line (text ++ rest) = (text.length, .line) := by
  induction text with
  | nil =>
    cases rest with
    | nil => rfl
    | cons b rest =>
      obtain rfl := hrest b rfl
      rfl
  | cons b text ih =>
    have hb : b ≠ 10 := (List.ne_of_not_mem_cons htext).symm
    rw [List.cons_append, gapFrom.eq_def]
    simp only [if_neg hb]
    rw [gapFrom_add, ih (List.not_mem_of_not_mem_cons htext), List.length_cons]

/-- The whole of a block comment is passed over, with its closing marker. -/
theorem gapFrom_block (hinner : ¬ [42, 47] <:+: inner) :
    gapFrom 0 .block (inner ++ 42 :: 47 :: text) =
      ((gap text).1 + (inner.length + 2), (gap text).2) := by
  induction inner with
  | nil => exact gapFrom_add 2 .plain text
  | cons b inner ih =>
    rw [Preprocess.pair_infix_cons, not_or] at hinner
    have hround : gapFrom 0 .block (b :: inner ++ 42 :: 47 :: text) =
        gapFrom 1 .block (inner ++ 42 :: 47 :: text) := by
      rw [List.cons_append]
      refine gapFrom.eq_3 0 b _ ?_
      intro more hb hmore
      cases inner with
      | nil => cases hmore
      | cons a inner =>
        cases hmore
        exact hinner.1 ⟨hb.symm, rfl⟩
    rw [hround, gapFrom_add, ih hinner.2, List.length_cons]
    simp only [Nat.add_assoc, Nat.reduceAdd]

/-- Fillers before a bare text are the gap at its start. -/
theorem Separates.gap_spec (h : Separates fs text rest) (hrest : Bare rest) :
    (gap text).2 ≠ .block ∧ text.drop (gap text).1 = rest := by
  induction h with
  | @nil rest =>
    have hgap : gap rest = (0, .plain) := by
      cases rest with
      | nil => rfl
      | cons b rest => exact gapFrom_bare hrest 0
    rw [hgap]
    exact ⟨by simp, rfl⟩
  | @blank b _ text _ hblank hline _ ih =>
    have hgap : gap (b :: text) = ((gap text).1 + 1, (gap text).2) := by
      rw [gap, gapFrom_blank hblank hline, gapFrom_add]
      rfl
    rw [hgap]
    exact ih hrest
  | @line text rest htext hhead =>
    have hgap : gap (47 :: 47 :: (text ++ rest)) = (text.length + 2, .line) := by
      change gapFrom 2 .line (text ++ rest) = _
      rw [gapFrom_add, gapFrom_line htext hhead]
    rw [hgap]
    exact ⟨by simp, by simp⟩
  | @block inner text rest _ hinner _ ih =>
    have hgap : gap (47 :: 42 :: (inner ++ 42 :: 47 :: text)) =
        ((gap text).1 + (inner.length + 2) + 2, (gap text).2) := by
      change gapFrom 2 .block (inner ++ 42 :: 47 :: text) = _
      rw [gapFrom_add, gapFrom_block hinner]
    obtain ⟨hplain, hdrop⟩ := ih hrest
    rw [hgap]
    refine ⟨hplain, ?_⟩
    rw [← hdrop, Nat.add_comm (gap text).1, ← List.drop_drop, ← List.drop_drop]
    simp

/-- Behind fillers a text goes on with a quote after any number of blanks exactly if the fillers are
blanks and the quote follows them. -/
theorem Separates.head?_dropWhile_iff (h : Separates fs text rest) (hrest : Bare rest) :
    (text.dropWhile fun b => isBlankByte b && b != 10).head? = some 34 ↔
      rest.head? = some 34 ∧ ∀ f ∈ fs, f.isBlank = true := by
  induction h with
  | @nil rest =>
    cases rest with
    | nil => simp
    | cons b rest =>
      have hstop : (isBlankByte b && b != 10) = false := by
        rcases hrest with rfl | ⟨hblank, -⟩
        · rfl
        · simp [hblank]
      simp [hstop]
  | blank hblank hline _ ih =>
    rw [List.dropWhile_cons_of_pos (by simp [hblank, hline]), ih hrest]
    simp [Filler.isBlank]
  | line =>
    rw [List.dropWhile_cons_of_neg (by decide)]
    simp [Filler.isBlank]
  | block =>
    rw [List.dropWhile_cons_of_neg (by decide)]
    simp [Filler.isBlank]

theorem le_of_rawFrom (h : rawFrom flags size s = .done n) : size ≤ n := by
  fun_induction rawFrom flags size s
  case case4 ih | case7 ih => exact Nat.le_trans (by omega) (ih h)
  all_goals cases h
  all_goals omega

/-- A raw word takes a quote that it starts with. -/
theorem pos_of_raw (h : raw flags (34 :: rest) = .done n) : 0 < n := by
  rw [raw, if_neg (by simp)] at h
  exact le_of_rawFrom h

end Scan

namespace Lexer

variable {l m : Lexer} {flags : ReadFlags} {mode : ReadMode} {e : Setting} {text rest : Bytes}
  {ks : List Lexeme} {fs : List Scan.Filler}

/-- The token that a scan found is what is missing from the text afterwards. -/
theorem leads_take_text {type : TokenType} {outcome : Scan.Outcome} :
    Leads (take type outcome) l fun t m => t.text ++ m.cursor.rest = l.cursor.rest ∧
      (m.queue = l.queue ∧ m.macros = l.macros) ∧
      ∃ size, outcome = .done size ∧ t.text = l.cursor.rest.take size := by
  intro t m h
  obtain ⟨size, houtcome, rfl, rfl⟩ := leads_take t m h
  exact ⟨List.take_append_drop size _, ⟨rfl, rfl⟩, size, houtcome, rfl⟩

structure TakenFrom (text : Bytes) (token : Token) (m : Lexer) : Prop where
  text_eq : token.text ++ m.cursor.rest = text
  quote : text.head? = some 34 → token.text.head? = some 34

theorem TakenFrom.head?_iff {token : Token} (h : TakenFrom text token m) :
    text.head? = some 34 ↔ token.text.head? = some 34 := by
  refine ⟨h.quote, fun hquote => ?_⟩
  rw [← h.text_eq, List.head?_append, hquote]
  rfl

theorem leads_lexRaw (hmacros : l.macros = []) :
    Leads (lexRaw flags) l (TakenFrom l.cursor.rest) := by
  refine .get (.bind leads_take_text ?_)
  rintro token m ⟨htext, ⟨-, hm⟩, size, hsize, htake⟩
  have hresult : TakenFrom l.cursor.rest token m := by
    refine ⟨htext, fun hquote => ?_⟩
    obtain ⟨rest, hrest⟩ := List.head?_eq_some_iff.1 hquote
    rw [hrest] at hsize htake
    obtain ⟨n, rfl⟩ := Nat.exists_eq_succ_of_ne_zero (Scan.pos_of_raw hsize).ne'
    rw [htake, List.take_succ_cons, List.head?_cons]
  refine .ite (fun _ => .pure hresult) fun _ => .get ?_
  have hbody : m.body? token.text = none := by
    simp [body?, hm, hmacros]
  rw [hbody]
  exact .pure hresult

/-- A raw word is read behind fillers. -/
theorem leads_readRaw (hqueue : l.queue = []) (hmacros : l.macros = []) :
    Leads (read .raw flags) l fun t m => ∃ fs rest, Scan.Separates fs l.cursor.rest rest ∧
      Scan.Bare rest ∧ TakenFrom rest t m := by
  unfold read
  refine .get ?_
  rw [hqueue]
  refine .get ?_
  unfold lexWithin
  refine .get (.bind leads_advance ?_)
  rintro _ _ rfl
  refine .get ?_
  have hgap := Scan.gap_sound l.cursor.rest
  have hrest : (l.cursor.advance (Scan.gapFrom 0 .plain l.cursor.rest).1).rest =
      l.cursor.rest.drop (Scan.gap l.cursor.rest).1 := rfl
  generalize l.cursor.advance (Scan.gapFrom 0 .plain l.cursor.rest).1 = cursor at hrest ⊢
  rw [← hrest] at hgap
  dsimp only
  split
  · rename_i hend
    refine .guard fun hclosed => ?_
    obtain ⟨hbare, fs, hfs⟩ := hgap (.inr hclosed)
    exact .pure ⟨fs, cursor.rest, hfs, hbare, rfl, by simp [hend]⟩
  · rename_i more hline
    obtain ⟨hbare, fs, hfs⟩ := hgap (.inl (by simp [hline]))
    intro t m h
    obtain ⟨htext, -⟩ := leads_take_text t m h
    exact ⟨fs, cursor.rest, hfs, hbare, htext, by simp [hline]⟩
  · rename_i hne _
    obtain ⟨hbare, fs, hfs⟩ := hgap (.inl hne)
    intro t m h
    have htaken := leads_lexRaw (l := { l with cursor := cursor }) hmacros t m h
    exact ⟨fs, cursor.rest, hfs, hbare, htaken⟩

/-- Looking ahead sees a quote exactly if nothing but blanks stands before it. -/
theorem nextIsQuote_iff (hqueue : l.queue = []) (hfs : Scan.Separates fs l.cursor.rest rest)
    (hrest : Scan.Bare rest) :
    l.nextIsQuote = true ↔ rest.head? = some 34 ∧ ∀ f ∈ fs, f.isBlank = true := by
  rw [← hfs.head?_dropWhile_iff hrest, nextIsQuote, hqueue]
  exact decide_eq_true_iff

/-- The first token stands behind the fillers. -/
theorem firstToken?_eq_here {exponents : Bool} (hfs : Scan.Separates fs text rest)
    (hrest : Scan.Bare rest) :
    firstToken? exponents mode flags text = firstTokenHere? exponents mode flags rest := by
  obtain ⟨htext, hdrop⟩ := hfs.gap_spec hrest
  rw [firstToken?, if_neg htext, hdrop]

/-- Fillers make no difference to the first token. -/
theorem firstToken?_separates {exponents : Bool} (hfs : Scan.Separates fs text rest)
    (hrest : Scan.Bare rest) :
    firstToken? exponents mode flags text = firstToken? exponents mode flags rest := by
  rw [firstToken?_eq_here hfs hrest, firstToken?_eq_here .nil hrest]

theorem bare_quote (s : Bytes) : Scan.Bare (34 :: s) := .inr ⟨rfl, by simp⟩

/-- A literal behind fillers is read as one token, if the scan of it ends at its closing quote. -/
theorem succeeds_readLiteral {body : Bytes}
    (hfs : Scan.Separates fs text (34 :: (body ++ 34 :: rest)))
    (hscan : Scan.quotedFrom flags 1 (body ++ 34 :: rest) = .done (1 + body.length + 1)) :
    Succeeds (read .quoted flags) (Stands e ⟨[], text⟩) (Stands e ⟨[], rest⟩)
      (·.lexeme = (.string, 34 :: (body ++ [34]))) := by
  have hfirst : firstToken? e.exponents .quoted flags text =
      some ((.string, 34 :: (body ++ [34])), rest) := by
    rw [firstToken?_separates hfs (bare_quote _), ← firstToken?_blank]
    exact firstToken?_of_first? (first?_literal .quoted flags (by simp) hscan) (by simp)
  exact Stands.succeeds_read hfirst fun h => by rcases h with h | h <;> cases h

end Lexer

namespace Compiler

open Lexer

variable {c : CompileContext} {e : Setting} {text rest : Bytes} {fs : List Scan.Filler}

/-- A name in quotes is read without them behind any blanks. -/
theorem readsFrom_parseName {name : Bytes} (hname : Script.Plain name)
    (hfs : Scan.Separates fs text (34 :: (name ++ 34 :: rest)))
    (hblank : ∀ f ∈ fs, f.isBlank = true) :
    ReadsFrom parseName c (Stands e ⟨[], text⟩) (Stands e ⟨[], rest⟩) (· = name) := by
  have hscan : Scan.quotedFrom { ignoreEscapes := true } 1 (name ++ 34 :: rest) =
      .done (1 + name.length + 1) := Scan.quotedFrom_plain rfl hname.quote hname.newline
  refine .bind .get fun s hs => ?_
  have hquote : s.lexer.nextIsQuote = true := by
    rw [nextIsQuote_iff hs.queue_eq_nil (by rwa [hs.rest]) (bare_quote _)]
    exact ⟨rfl, hblank⟩
  rw [if_pos hquote]
  refine .bind (.lift (succeeds_readLiteral hfs hscan)) fun token ht => ?_
  exact .pure (Token.unquoted_of_text (congrArg Prod.snd ht))

/-- A name in quotes, without blanks in it, keeps them behind a comment. -/
theorem readsFrom_parseName_comment {name : Bytes} {b : UInt8} (hname : ∀ a ∈ name, 32 < a)
    (hb : b ≤ 32) (hfs : Scan.Separates fs text (34 :: (name ++ 34 :: b :: rest)))
    (hcomment : ∃ f ∈ fs, f.isBlank = false) (hmacros : e.macros = []) :
    ReadsFrom parseName c (Stands e ⟨[], text⟩) (Stands e ⟨[], b :: rest⟩)
      (· = 34 :: (name ++ [34])) := by
  have hword : Script.Word (34 :: (name ++ [34])) := by
    constructor
    · simp
    · intro a ha
      rw [List.mem_cons, List.mem_append, List.mem_singleton] at ha
      rcases ha with rfl | ha | rfl
      · decide
      · exact hname a ha
      · decide
    · have hstart (a : UInt8) : ¬ [47, a] <+: 34 :: (name ++ [34]) := by
        simp [List.cons_prefix_cons]
      exact ⟨hstart 47, hstart 42⟩
  have hfirst : firstToken? e.exponents .raw { ignoreEscapes := true, ignoreQuotes := true } text =
      some ((.raw, 34 :: (name ++ [34])), b :: rest) := by
    have hraw : first? .raw { ignoreEscapes := true, ignoreQuotes := true }
        (34 :: (name ++ [34]) ++ b :: rest) = some ((.raw, 34 :: (name ++ [34])), b :: rest) :=
      first?_word hword (by simp [Scan.rawStops]) rfl rfl (.inl rfl) (.inl rfl) (.inr hb)
    rw [firstToken?_separates hfs (bare_quote _)]
    simpa using firstToken?_of_first? hraw (by simp)
  refine .bind .get fun s hs => ?_
  have hquote : ¬ s.lexer.nextIsQuote = true := by
    rw [nextIsQuote_iff hs.queue_eq_nil (by rwa [hs.rest]) (bare_quote _)]
    rintro ⟨-, hblank⟩
    obtain ⟨f, hf, hcomment⟩ := hcomment
    rw [hblank f hf] at hcomment
    cases hcomment
  rw [if_neg hquote]
  refine .bind (.lift (Stands.succeeds_read hfirst
    (Setting.literal_of_macros_nil hmacros _ _))) fun token ht => ?_
  have htype : token.type = .raw := congrArg Prod.fst ht
  have htext : token.text = 34 :: (name ++ [34]) := congrArg Prod.snd ht
  rw [htype]
  exact .pure htext

/-- A literal that is assigned to a string variable is read as one behind any blanks. -/
theorem readsFrom_parseAssigned {s : Bytes}
    (hfs : Scan.Separates fs text (34 :: (Script.escape s ++ 34 :: rest)))
    (hblank : ∀ f ∈ fs, f.isBlank = true) :
    ReadsFrom parseAssigned c (Stands e ⟨[], text⟩) (Stands e ⟨[], rest⟩)
      (· = 34 :: (s ++ [34])) := by
  refine .bind .get fun state hs => ?_
  have hquote : state.lexer.nextIsQuote = true := by
    rw [nextIsQuote_iff hs.queue_eq_nil (by rwa [hs.rest]) (bare_quote _)]
    exact ⟨rfl, hblank⟩
  rw [if_pos hquote]
  refine .bind (.lift (succeeds_readLiteral hfs (Scan.quotedFrom_escape rfl s))) fun token ht => ?_
  have hvalue : Escape.unescape true false token.unquoted = .ok s := by
    rw [Token.unquoted_of_text (congrArg Prod.snd ht)]
    exact Script.unescape_escape false s
  refine .bind (.located hvalue) ?_
  rintro _ rfl
  exact .pure rfl

end Compiler

open Lexer

/-- In a lexer without waiting tokens and macros from which a raw word is read, `nextIsQuote` holds
exactly if the word starts with a quote and nothing but blanks stands before it. So a quoted name,
and a literal assigned to a string variable, are read without their quotes and escapes behind any
number of blanks; a quoted name behind a comment keeps its quotes. -/
theorem nextIsQuote_iff_blanks (text : Bytes) :
    (∀ (l m : Lexer) (flags : ReadFlags) (token : Token), l.cursor.rest = text → l.queue = [] →
      l.macros = [] → l.read .raw flags = .ok token m → ∃ fs,
        Scan.Separates fs text (token.text ++ m.cursor.rest) ∧
        (l.nextIsQuote = true ↔ token.text.head? = some 34 ∧ ∀ f ∈ fs, f.isBlank = true)) ∧
    ∀ (c : CompileContext) (e : Setting) (fs : List Scan.Filler),
      ((∀ f ∈ fs, f.isBlank = true) →
        (∀ name rest, Script.Plain name → Scan.Separates fs text (34 :: (name ++ 34 :: rest)) →
          Compiler.ReadsFrom Compiler.parseName c (Stands e ⟨[], text⟩) (Stands e ⟨[], rest⟩)
            (· = name)) ∧
        ∀ s rest, Scan.Separates fs text (34 :: (Script.escape s ++ 34 :: rest)) →
          Compiler.ReadsFrom Compiler.parseAssigned c (Stands e ⟨[], text⟩) (Stands e ⟨[], rest⟩)
            (· = 34 :: (s ++ [34]))) ∧
      ((∃ f ∈ fs, f.isBlank = false) → e.macros = [] → ∀ name b rest, (∀ a ∈ name, 32 < a) →
        b ≤ 32 → Scan.Separates fs text (34 :: (name ++ 34 :: b :: rest)) →
          Compiler.ReadsFrom Compiler.parseName c (Stands e ⟨[], text⟩)
            (Stands e ⟨[], b :: rest⟩) (· = 34 :: (name ++ [34]))) := by
  constructor
  · rintro l m flags token rfl hqueue hmacros h
    obtain ⟨fs, rest, hfs, hbare, htaken⟩ := leads_readRaw hqueue hmacros token m h
    refine ⟨fs, by rwa [htaken.text_eq], ?_⟩
    rw [nextIsQuote_iff hqueue hfs hbare, htaken.head?_iff]
  · intro c e fs
    constructor
    · intro hblank
      constructor
      · intro name rest hname hfs
        exact Compiler.readsFrom_parseName hname hfs hblank
      · intro s rest hfs
        exact Compiler.readsFrom_parseAssigned hfs hblank
    · intro hcomment hmacros name b rest hname hb hfs
      exact Compiler.readsFrom_parseName_comment hname hb hfs hcomment hmacros

def tabbedWord : Lexer := .ofSource (9 :: utf8 "\"a\" b") [] true

theorem nextIsQuote_tabbedWord :
    (∃ fs, Scan.Separates fs tabbedWord.cursor.rest (utf8 "\"a\"" ++ utf8 " b") ∧
      (tabbedWord.nextIsQuote = true ↔
        (utf8 "\"a\"").head? = some 34 ∧ ∀ f ∈ fs, f.isBlank = true)) ∧
    tabbedWord.nextIsQuote = true := by
  have hread : tabbedWord.read .raw { ignoreQuotes := true } = .ok
      ⟨.raw, utf8 "\"a\"", ⟨[], 0, 1⟩⟩
      { tabbedWord with cursor := ⟨utf8 " b", 2, ⟨[], 0, 4⟩⟩ } := by
    rfl
  exact ⟨(nextIsQuote_iff_blanks _).1 tabbedWord _ _ _ rfl rfl rfl hread, by decide⟩

/-- Behind a block comment a word in quotes is read, but looking ahead sees no quote. -/
theorem nextIsQuote_after_comment :
    ¬ ∀ (l m : Lexer) (flags : ReadFlags) (token : Token), l.queue = [] → l.macros = [] →
      l.read .raw flags = .ok token m →
        (l.nextIsQuote = true ↔ token.text.head? = some 34) := by
  intro h
  have hread : (ofSource (utf8 "/**/\"a\"") [] true).read .raw {} = .ok
      ⟨.raw, utf8 "\"a\"", ⟨[], 0, 4⟩⟩
      { ofSource (utf8 "/**/\"a\"") [] true with cursor := ⟨[], 0, ⟨[], 0, 7⟩⟩ } := by
    rfl
  exact absurd ((h _ _ _ _ rfl rfl hread).2 rfl) (by decide)

end ApeScript
