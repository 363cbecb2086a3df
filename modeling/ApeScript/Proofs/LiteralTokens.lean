import ApeScript.Proofs.LexerProgress

/-!
# Numbers and quoted texts as tokens

A number is read as far as the text of one goes, and is a token if nothing that
could belong to it comes next; otherwise reading it fails (`Lexer.lex_longest_numeral`). A quoted
text is read up to its own closing quote, and what it was written from comes back
(`Lexer.read_quoted_text`).
-/

namespace ApeScript

/-! ### Tokens at an offset -/

namespace Lexer

variable {file src text rest : Bytes} {p : Nat} {l : Lexer} {mode : ReadMode} {flags : ReadFlags}
  {b : UInt8} {k : Lexeme} {e : Bool}

/-- The first token of the text from an offset on, which no macro can replace, is read if it stands
right there. -/
theorem lex_eq_ok (hp : p ≤ src.length) (hl : l.cursor = .ofOffset file src p)
    (hfirst : firstToken? l.exponents mode flags (src.drop p) = some (k, rest))
    (hsplit : src.drop p = k.2 ++ rest) (hkind : ¬ (k.1 = .identifier ∨ k.1 = .raw)) :
    lex mode flags l = .ok ⟨k.1, k.2, .ofOffset file src p⟩
      { l with cursor := .ofOffset file src (p + k.2.length) } := by
  have hstands : l.Stands ⟨l.exponents, l.macros⟩ ⟨l.queue.map Token.lexeme, src.drop p⟩ :=
    ⟨rfl, by rw [hl]; rfl, by rw [hl]; exact (List.length_drop ..).symm, rfl, rfl⟩
  obtain ⟨t, m, hlex, -⟩ := Stands.succeeds_lex (e := ⟨l.exponents, l.macros⟩) hfirst
    (fun h => absurd h hkind) l hstands
  obtain ⟨u, s, e, htile, hu, hread, ⟨rfl, rfl⟩ | ⟨hreplaced, -⟩⟩ := leads_lex_tile hp hl t m hlex
  · obtain ⟨htoken, hrest⟩ := Prod.mk.inj (Option.some.inj (hfirst.symm.trans hread))
    -- the token and what follows it have the lengths that fix both offsets
    have hlength := congrArg List.length hsplit
    have htext : k.2 = src.extract s e := (congrArg Prod.snd htoken).trans (congrArg Token.text hu)
    have hsize := congrArg List.length htext
    rw [hrest, List.length_append, List.length_drop, List.length_drop] at hlength
    rw [List.extract_eq_take_drop, List.length_take, List.length_drop] at hsize
    have := htile.start
    have := htile.stop
    have := htile.bound
    obtain rfl : e = p + k.2.length := by omega
    obtain rfl : s = p := by omega
    rw [hlex, hu, ← htext, ← show k.1 = t.type from congrArg Prod.fst htoken]
  · refine absurd (hreplaced.2.imp And.left And.left) ?_
    rwa [← (Prod.mk.inj (Option.some.inj (hfirst.symm.trans hread))).1]

/-- Reading fails where the text from an offset on has no first token. -/
theorem lex_fails (hp : p ≤ src.length) (hl : l.cursor = .ofOffset file src p)
    (hfirst : firstToken? l.exponents mode flags (src.drop p) = none) :
    ∃ err m, lex mode flags l = .error err m := by
  cases hlex : lex mode flags l with
  | error err m => exact ⟨err, m, rfl⟩
  | ok t m =>
    obtain ⟨u, s, e, -, -, hread, -⟩ := leads_lex_tile hp hl t m hlex
    rw [hfirst] at hread
    cases hread

/-- A number is scanned where its first digit stands. -/
theorem firstToken?_digit (hb : Bytes.isDigit b = true) (s : Bytes) :
    firstToken? e .normal flags (b :: s) = cut? .number (b :: s) (Scan.number e (b :: s)) := by
  obtain ⟨hsolid, hslash, hline⟩ := isIdentifierByte_solid (b := b) (by simp [isIdentifierByte, hb])
  have hgap : Scan.gap (b :: s) = (0, .plain) :=
    Scan.gapFrom_solid hsolid (fun h => absurd h hslash) 0
  simp [firstToken?, hgap, firstTokenHere?, hline, hb]

end Lexer

/-- A number token's number is out of range, or the token is read as a finite number. -/
theorem Compiler.floatOfToken_run {token : Token} (h : token.type = .number)
    (htext : Scan.Numeral true token.text) (c : CompileContext) (s : CompileState) :
    (∃ x, x.isFinite = true ∧ floatOfToken token c s = .ok x s) ∨
      floatOfToken token c s = .error ⟨token.loc, .floatRange token.text⟩ s := by
  obtain ⟨d, hd⟩ := htext.exists_ofText
  by_cases hfinite : d.toBinary32.isFinite = true
  · have hread : floatOfToken token = pure d.toBinary32 := by simp [floatOfToken, h, hd, hfinite]
    exact .inl ⟨d.toBinary32, hfinite, by rw [hread]; rfl⟩
  · have hread : floatOfToken token = fail token.loc (.floatRange token.text) := by
      simp [floatOfToken, h, hd, hfinite]
    exact .inr (by rw [hread]; rfl)

namespace Lexer

variable {file src rest : Bytes} {p : Nat} {l : Lexer} {flags : ReadFlags} {b : UInt8} {e : Bool}

/-- Where a digit stands, the longest text of a number from there on is read as a token if nothing
that follows continues it; if an identifier's byte or a point comes next, reading fails. Every number
token that any calls of the lexer lead to has the text of a number, and turning a token with such a
text into a number fails at most because it is out of range. -/
theorem lex_longest_numeral (flags : ReadFlags) (hb : src[p]? = some b)
    (hdigit : Bytes.isDigit b = true) (hl : l.cursor = .ofOffset file src p) :
    ∃ m rest, src.drop p = m ++ rest ∧ Scan.LongestNumeral l.exponents (src.drop p) m ∧
      (Compiler.EndsOperand rest → lex .normal flags l = .ok ⟨.number, m, .ofOffset file src p⟩
        { l with cursor := .ofOffset file src (p + m.length) }) ∧
      (¬ Compiler.EndsOperand rest → ∃ err m', lex .normal flags l = .error err m') ∧
      (∀ calls src file exponents mode flags t l',
        let l := afterAll calls (ofSource src file exponents)
        read mode flags l = .ok t l' ∨ peek mode flags l = .ok t l' →
        t.type = .number → Scan.Numeral true t.text) ∧
      ∀ (t : Token) c s, t.type = .number → Scan.Numeral true t.text →
        (∃ x, x.isFinite = true ∧ Compiler.floatOfToken t c s = .ok x s) ∨
        Compiler.floatOfToken t c s = .error ⟨t.loc, .floatRange t.text⟩ s := by
  obtain ⟨hp, hget⟩ := List.getElem?_eq_some_iff.1 hb
  have hdrop : src.drop p = b :: src.drop (p + 1) := by
    rw [List.drop_eq_getElem_cons hp, hget]
  obtain ⟨m, hm⟩ := Scan.LongestNumeral.exists_of_digit (e := l.exponents) hdigit
    (src.drop (p + 1))
  obtain ⟨rest, hrest⟩ := hm.start
  have hscan {n : Nat} := hm.number_eq_done_iff (n := n) hdigit hrest.symm
  refine ⟨m, rest, hdrop.trans hrest.symm, hdrop ▸ hm, fun hends => ?_, fun hends => ?_,
    fun calls src file exponents mode flags t l' => ?_, fun t c s ht htext => ?_⟩
  · refine lex_eq_ok (k := (.number, m)) hp.le hl ?_ (hdrop.trans hrest.symm) (by simp)
    rw [hdrop, firstToken?_digit hdigit, hscan.2 ⟨rfl, hends⟩, ← hrest]
    exact cut?_append .number m rest
  · refine lex_fails hp.le hl ?_
    rw [hdrop, firstToken?_digit hdigit]
    cases hnumber : Scan.number l.exponents (b :: src.drop (p + 1)) with
    | done n => exact absurd (hscan.1 hnumber).2 hends
    | failed => rfl
  · intro l hcall
    have hnamed : l.Named := (afterAll_sound calls src file exponents).1
    rcases hcall with hread | hpeek
    · exact (names_read.ok hnamed hread).number
    · exact (names_peek.ok hnamed hpeek).number
  · exact Compiler.floatOfToken_run ht htext c s

/-- An exponent ends before a plus sign. Where exponents are not allowed, its letter is refused. -/
theorem lex_longest_numeral_exponent :
    (utf8 "1.5e3+2")[0]? = some 49 ∧ Bytes.isDigit 49 = true ∧
    lex .normal {} (ofSource (utf8 "1.5e3+2") [] true) = .ok ⟨.number, utf8 "1.5e3", .start []⟩
      { ofSource (utf8 "1.5e3+2") [] true with cursor := .ofOffset [] (utf8 "1.5e3+2") 5 } ∧
    ∃ err m, lex .normal {} (ofSource (utf8 "1.5e3+2") [] false) = .error err m := by
  have hb : (utf8 "1.5e3+2")[0]? = some 49 := by decide
  have hdigit : Bytes.isDigit 49 = true := by decide
  obtain ⟨m, rest, hsplit, hm, hread, -⟩ :=
    lex_longest_numeral (l := ofSource (utf8 "1.5e3+2") [] true) {} hb hdigit rfl
  obtain ⟨m', rest', hsplit', hm', -, hfails, -⟩ :=
    lex_longest_numeral (l := ofSource (utf8 "1.5e3+2") [] false) {} hb hdigit rfl
  have hscan : Scan.number true (49 :: utf8 ".5e3+2") = .done 5 := by decide
  have hrefused : Scan.number false (49 :: utf8 ".5e3+2") = .failed 3 .numberCharacter true := by
    decide
  obtain ⟨hlength, hends⟩ := (hm.number_eq_done_iff hdigit hsplit).1 hscan
  obtain rfl : m = utf8 "1.5e3" := by
    have htake : (m ++ rest).take m.length = m := List.take_left
    rw [← htake, ← hsplit, ← hlength]
    rfl
  refine ⟨hb, hdigit, hread hends, hfails fun hends' => ?_⟩
  cases hrefused.symm.trans ((hm'.number_eq_done_iff hdigit hsplit').2 ⟨rfl, hends'⟩)

end Lexer

/-! ### Quoted texts -/

/-- A name that has a spelling is written between quotes as it is. -/
theorem Script.quoteName?_eq_some {s text : Bytes} (h : Script.quoteName? s = some text) :
    Script.Plain s ∧ 34 :: (s ++ [34]) = text := by
  rw [Script.quoteName?] at h
  split at h
  · cases h
  · rename_i hplain
    refine ⟨⟨fun hquote => hplain ?_, fun hnewline => hplain ?_⟩, Option.some.inj h⟩
    · exact List.any_eq_true.2 ⟨34, hquote, by decide⟩
    · exact List.any_eq_true.2 ⟨10, hnewline, by decide⟩

namespace Lexer

variable {file src rest : Bytes} {p : Nat} {l : Lexer} {flags : ReadFlags} {e : Bool}

/-- A quoted text is one token, if the scan of it ends at its closing quote. -/
theorem firstToken?_quoted {body : Bytes}
    (hscan : Scan.quotedFrom flags 1 (body ++ 34 :: rest) = .done (1 + body.length + 1)) :
    firstToken? e .quoted flags (34 :: (body ++ [34]) ++ rest) =
      some ((.string, 34 :: (body ++ [34])), rest) := by
  have hfirst := first?_literal .quoted flags (by simp) hscan
  rw [first?_blank] at hfirst
  simpa using firstToken?_of_first? hfirst (by simp)

/-- A read in quoted mode takes the text that stands at the lexer's offset, and nothing else. -/
def TakesQuoted (file src : Bytes) (p : Nat) (l : Lexer) (flags : ReadFlags) (t : Token) : Prop :=
  t.loc = .ofOffset file src p ∧
    read .quoted flags l = .ok t { l with cursor := .ofOffset file src (p + t.text.length) }

/-- Reading a quoted text in quoted mode takes its spelling and nothing else, and what it was
written from comes back: with escapes once they are resolved, whether newlines become spaces or
not, and without escapes, where it has a spelling, as it is. -/
theorem read_quoted_text (flags : ReadFlags) (hqueue : l.queue = []) (hp : p ≤ src.length)
    (hl : l.cursor = .ofOffset file src p) :
    (∀ s rest, flags.ignoreEscapes = false → src.drop p = Script.quote s ++ rest →
      ∃ t, TakesQuoted file src p l flags t ∧ t.text = Script.quote s ∧
        ∀ newlineToSpace, Escape.unescape true newlineToSpace t.unquoted = .ok s) ∧
    ∀ s text rest, flags.ignoreEscapes = true → Script.quoteName? s = some text →
      src.drop p = text ++ rest →
      ∃ t, TakesQuoted file src p l flags t ∧ t.text = text ∧ t.unquoted = s := by
  have htakes {body rest : Bytes} (hsplit : src.drop p = 34 :: (body ++ [34]) ++ rest)
      (hscan : Scan.quotedFrom flags 1 (body ++ 34 :: rest) = .done (1 + body.length + 1)) :
      ∃ t, TakesQuoted file src p l flags t ∧ t.text = 34 :: (body ++ [34]) := by
    refine ⟨⟨.string, 34 :: (body ++ [34]), .ofOffset file src p⟩, ⟨rfl, ?_⟩, rfl⟩
    rw [read_nil hqueue]
    refine lex_eq_ok (k := (.string, _)) hp hl ?_ hsplit (by simp)
    rw [hsplit]
    exact firstToken?_quoted hscan
  constructor
  · intro s rest hescapes hsplit
    obtain ⟨t, ht, htext⟩ := htakes hsplit (Scan.quotedFrom_escape hescapes s)
    refine ⟨t, ht, htext, fun newlineToSpace => ?_⟩
    rw [Token.unquoted_of_text htext]
    exact Script.unescape_escape newlineToSpace s
  · intro s text rest hescapes hname hsplit
    obtain ⟨hs, rfl⟩ := Script.quoteName?_eq_some hname
    obtain ⟨t, ht, htext⟩ := htakes hsplit (Scan.quotedFrom_plain hescapes hs.quote hs.newline)
    exact ⟨t, ht, htext, Token.unquoted_of_text htext⟩

/-- Backslashes before a quote, a newline and a backslash at the end: before the closing quote it is
escaped, and in a name it is not. -/
theorem read_quoted_text_backslashes :
    (∃ t, TakesQuoted [] (utf8 "\"\\\\\\\"\\n\\\\\";") 0
        (ofSource (utf8 "\"\\\\\\\"\\n\\\\\";") [] true) {} t ∧
      Escape.unescape true false t.unquoted = .ok (utf8 "\\\"\n\\")) ∧
    ∃ t, TakesQuoted [] (utf8 "\"dir\\\".") 0 (ofSource (utf8 "\"dir\\\".") [] true)
      { ignoreEscapes := true } t ∧ t.unquoted = utf8 "dir\\" := by
  have hstart (src : Bytes) : (ofSource src [] true).cursor = .ofOffset [] src 0 := rfl
  constructor
  · obtain ⟨t, ht, -, hback⟩ := (read_quoted_text (l := ofSource _ [] true) {} rfl (Nat.zero_le _)
      (hstart _)).1 (utf8 "\\\"\n\\") (utf8 ";") rfl rfl
    exact ⟨t, ht, hback false⟩
  · obtain ⟨t, ht, -, hback⟩ := (read_quoted_text (l := ofSource _ [] true) { ignoreEscapes := true }
      rfl (Nat.zero_le _) (hstart _)).2 (utf8 "dir\\") (utf8 "\"dir\\\"") (utf8 ".") rfl rfl rfl
    exact ⟨t, ht, hback⟩

end Lexer

end ApeScript
