import ApeScript.Proofs.FlagNames
import ApeScript.Proofs.RestoredLines

/-!
# Lines of images

An image is written with its position, its sizes and its flags, or as a background when the window
has no other. The background is read at the origin, whatever expressions put the image there, and
takes the image's name up to the first quote that no backslash stands before.
-/

namespace ApeScript

/-- An image that has a position, and flags with names only after both sizes. -/
structure Image.Stored (i : Image) : Prop where
  file : Script.Plain i.file
  x : ∃ e, i.area.x = some e
  y : ∃ e, i.area.y = some e
  exprs : ∀ e ∈ (Command.image i).exprs, e.Stored
  known : i.flags &&& ~~~ImageFlags.known = 0
  sized : i.flags = 0 ∨ i.area.width.isSome ∧ i.area.height.isSome

/-- The name of an image that the lexer reads as one literal. -/
structure Script.Closed (s : Bytes) : Prop where
  plain : Script.Plain s
  nonempty : s ≠ []
  closes : Scan.quotedFrom {} 1 (s ++ [34]) = .done (s.length + 2)

/-- Whether the name of an image is read as one literal. A backslash takes the next byte with it,
the closing quote if it comes last. -/
def Image.closes (i : Image) : Bool :=
  !i.file.isEmpty && Scan.quotedFrom {} 1 (i.file ++ [34]) = .done (i.file.length + 2)

theorem Image.closed_iff {i : Image} (hfile : Script.Plain i.file) :
    Script.Closed i.file ↔ i.closes = true := by
  simp only [closes, Bool.and_eq_true, Bool.not_eq_true', List.isEmpty_eq_false_iff,
    decide_eq_true_eq]
  exact ⟨fun h => ⟨h.nonempty, h.closes⟩, fun h => ⟨hfile, h.1, h.2⟩⟩

structure Image.Painted (i : Image) : Prop where
  file : Script.Closed i.file
  condition : ∀ e ∈ i.condition, e.Stored
  backdrop : i.isBackdrop = true
  exclusive : (ImageFlags.has i.flags ImageFlags.stretch &&
    ImageFlags.has i.flags ImageFlags.tile) = false

/-- What stands after a literal does not matter. -/
theorem Scan.quotedFrom_append {flags : ReadFlags} {s : Bytes} {size n : Nat}
    (h : quotedFrom flags size s = .done n) (rest : Bytes) :
    quotedFrom flags size (s ++ rest) = .done n := by
  fun_induction quotedFrom flags size s with
  | case1 | case3 | case5 => cases h
  | case2 size b s hstop =>
    rw [List.cons_append, quotedFrom.eq_def]
    simpa only [if_pos hstop] using h
  | case4 size s hstop hline =>
    rw [List.cons_append, quotedFrom.eq_def]
    simpa only [if_neg hstop, if_neg hline, if_true] using h
  | case6 size b hstop hline hquote hescape a s ih =>
    rw [List.cons_append, List.cons_append, quotedFrom.eq_def]
    simp only [if_neg hstop, if_neg hline, if_neg hquote, if_pos hescape]
    exact ih h
  | case7 size b s hstop hline hquote hescape ih =>
    rw [List.cons_append, quotedFrom.eq_def]
    simp only [if_neg hstop, if_neg hline, if_neg hquote, if_neg hescape]
    exact ih h

/-- A text without quotes and newlines ends where its closing quote does, unless its last backslash
takes the quote. -/
theorem Scan.quotedFrom_escaped {s : Bytes} (hs : Script.Plain s) (size : Nat) :
    (∀ rest, quotedFrom {} size (s ++ 34 :: rest) = .done (size + s.length + 1)) ∨
      ∀ rest, quotedFrom {} size (s ++ 34 :: rest) = quotedFrom {} (size + s.length + 1) rest := by
  generalize hn : s.length = n
  induction n using Nat.strong_induction_on generalizing s size with
  | _ n ih =>
  cases s with
  | nil =>
    left
    intro rest
    rw [List.nil_append, quotedFrom.eq_def]
    simp [← hn]
  | cons b s =>
    have hb : b ≠ 10 ∧ b ≠ 34 := by
      refine ⟨?_, ?_⟩ <;> rintro rfl
      · exact hs.newline List.mem_cons_self
      · exact hs.quote List.mem_cons_self
    have htail {t : Bytes} (ht : t <:+ s) : Script.Plain t :=
      ⟨fun h => hs.quote (List.mem_cons_of_mem _ (ht.subset h)),
        fun h => hs.newline (List.mem_cons_of_mem _ (ht.subset h))⟩
    by_cases hescape : b = 92
    · subst hescape
      cases s with
      | nil =>
        right
        intro rest
        rw [List.singleton_append, quotedFrom.eq_def]
        simp [← hn]
      | cons a s =>
        have hround (rest : Bytes) : quotedFrom {} size (92 :: a :: s ++ 34 :: rest) =
            quotedFrom {} (size + 2) (s ++ 34 :: rest) := by
          rw [List.cons_append, List.cons_append, quotedFrom.eq_def]
          simp
        have hlength : size + 2 + s.length + 1 = size + n + 1 := by
          simp only [List.length_cons] at hn
          omega
        simp only [hround, ← hlength]
        exact ih s.length (by simp only [List.length_cons] at hn; omega)
          (htail (List.suffix_cons a s)) (size + 2) rfl
    · have hround (rest : Bytes) : quotedFrom {} size (b :: s ++ 34 :: rest) =
          quotedFrom {} (size + 1) (s ++ 34 :: rest) := by
        rw [List.cons_append, quotedFrom.eq_def]
        simp [hb, hescape]
      have hlength : size + 1 + s.length + 1 = size + n + 1 := by
        simp only [List.length_cons] at hn
        omega
      simp only [hround, ← hlength]
      exact ih s.length (by simp only [List.length_cons] at hn; omega) (htail List.suffix_rfl)
        (size + 1) rfl

/-- A literal is not closed by what follows it on its line. -/
theorem Scan.quotedFrom_newline {words : Bytes} (hwords : 34 ∉ words ∧ 92 ∉ words) (size : Nat)
    (rest : Bytes) :
    ∃ size', quotedFrom {} size (words ++ 10 :: rest) = .failed size' .newlineInString false := by
  induction words generalizing size with
  | nil => exact ⟨size, by rw [List.nil_append, quotedFrom.eq_def]; simp⟩
  | cons b words ih =>
    simp only [List.mem_cons, not_or] at hwords
    obtain ⟨⟨hquote, hquotes⟩, hescape, hescapes⟩ := hwords
    rw [List.cons_append, quotedFrom.eq_def]
    by_cases hline : b = 10
    · exact ⟨size, by simp [hline]⟩
    · simp only [hline, Ne.symm hquote, Ne.symm hescape, decide_false, Bool.false_and,
        Bool.false_eq_true, if_false]
      exact ih ⟨hquotes, hescapes⟩ _

/-- The flags that a background directive says. -/
theorem ImageFlags.and_stretch_or_tile (flags : UInt32) : flags &&& (stretch ||| tile) =
    (if has flags stretch then stretch else 0) ||| (if has flags tile then tile else 0) := by
  rw [WindowFlags.and_or_distrib]
  exact congrArg₂ (· ||| ·) (ite_has (n := 0) (by decide)).symm (ite_has (n := 1) (by decide)).symm

namespace Compiler

open Lexer
open Script (conditionLine expressionSource)

variable {c : CompileContext} {w : WindowDraft} {width height : Option Expr} {e x y : Expr}
  {rest tail more : Bytes} {k : Lexeme}

/-! ### Images with a position -/

theorem reads_imageSize (hc : c.Plain) (he : e.Stored) (htail : EndsExpr tail k more) :
    Reads parseImageSize c (argumentSpot true (expressionSource e ++ tail)) ⟨[k], more⟩
      (· = some e.restored) := by
  refine .bind (.lift succeeds_peek_queued) fun token ht => ?_
  have htype : token.type = .comma := congrArg Prod.fst ht
  rw [if_neg (not_not.2 htype)]
  refine .bind (.lift succeeds_consume) fun _ _ => .bind .location fun loc _ => ?_
  refine .bind (reads_parseNumeric_stored he htail) ?_
  rintro v rfl
  have hexpr : Reads (do return some (← toExpr e.parsed loc)) c ⟨[k], more⟩ ⟨[k], more⟩
      (· = some e.restored) := by
    refine .bind (reads_toExpr_restored hc he loc) ?_
    rintro _ rfl
    exact .pure rfl
  -- a variable that has the name of a flag is warned about
  dsimp only
  split
  · split
    · exact .bind .warn fun _ _ => hexpr
    · exact hexpr
  · exact hexpr

def sizeSource : Option Expr → Bytes
  | some e => 44 :: 32 :: expressionSource e
  | none => []

/-- The sizes of an image and its flags. There is no second size without a first one, and there are
no flags without both. -/
theorem reads_sizes (hc : c.Plain) {l : List (Bytes × UInt32)} (hy : y.Stored)
    (hwidth : ∀ e ∈ width, e.Stored) (hheight : ∀ e ∈ height, e.Stored)
    (hsizes : width = none → height = none) (hflags : height = none → l = [])
    (hl : ∀ f ∈ l, f ∈ imageFlagNames) (hfresh : addsFlags 0 l = true) {α : Type} {P : α → Prop}
    {f : Option Expr → Option Expr → Option Expr → UInt32 → Compiler α}
    (hf : ∀ q, Reads (f (some y.restored) (width.map Expr.restored) (height.map Expr.restored)
      (l.foldl (fun bits g => bits ||| g.2) 0)) c q q P) :
    Reads (do
      let y ← parseArgument true
      let width ← parseImageSize
      let height ← if width.isSome then parseImageSize else pure none
      let flags ← if height.isSome then parseImageFlags else pure 0
      f y width height flags) c
        (argumentSpot true (expressionSource y ++ (sizeSource width ++ (sizeSource height ++
          (flagsText l ++ 10 :: rest))))) ⟨[(.endOfLine, [10])], rest⟩ P := by
  cases width with
  | none =>
    cases hsizes rfl
    cases hflags rfl
    refine .bind (reads_argument_line hc hy true) ?_
    rintro _ rfl
    refine .bind reads_parseImageSize_line ?_
    rintro _ rfl
    refine .bind (.pure rfl) ?_
    rintro _ rfl
    refine .bind (.pure rfl) ?_
    rintro _ rfl
    exact hf _
  | some width =>
    refine .bind (reads_argument_comma hc hy true) ?_
    rintro _ rfl
    cases height with
    | none =>
      cases hflags rfl
      refine .bind (reads_imageSize hc (hwidth width rfl) (endsExpr_line rest)) ?_
      rintro _ rfl
      refine .bind reads_parseImageSize_line ?_
      rintro _ rfl
      refine .bind (.pure rfl) ?_
      rintro _ rfl
      exact hf _
    | some height =>
      refine .bind (reads_imageSize hc (hwidth width rfl) (endsExpr_comma _)) ?_
      rintro _ rfl
      cases l with
      | nil =>
        refine .bind (reads_imageSize hc (hheight height rfl) (endsExpr_line rest)) ?_
        rintro _ rfl
        refine .bind reads_parseImageFlags_line ?_
        rintro _ rfl
        exact hf _
      | cons g l =>
        refine .bind (reads_imageSize hc (hheight height rfl) (endsExpr_comma _)) ?_
        rintro _ rfl
        refine .bind (reads_parseImageFlags hl hfresh) ?_
        rintro _ rfl
        exact hf _

def imageSource (i : Image) (x y : Expr) : Bytes :=
  34 :: (i.file ++ 34 :: 32 :: (expressionSource x ++ 44 :: 32 :: (expressionSource y ++
    (sizeSource i.area.width ++ (sizeSource i.area.height ++ flagsText (imageFlagsOf i.flags))))))

/-- The sizes are written in the order in which they come back. -/
theorem imageSource_reread (i : Image) (x y : Expr) : imageSource i.reread x y = imageSource i x y := by
  obtain ⟨cond, file, ⟨x, y, width, height⟩, flags⟩ := i
  cases width with
  | none => simp [imageSource, Image.reread, sizeSource]
  | some => rfl

theorem writeImage_stored {i : Image} (hi : i.Stored) {x y : Expr} (hx : i.area.x = some x)
    (hy : i.area.y = some y) {asBackground : Bool}
    (hplaced : (asBackground && i.isBackdrop) = false) :
    Script.writeImage asBackground i =
      .ok (conditionLine i.condition ++ (utf8 "image" ++ 32 :: imageSource i x y ++ [10])) := by
  obtain ⟨hempty, hunknown, hflags⟩ := names_spec hi.known
  have hsized : (!(ImageFlags.names i.flags).isEmpty && i.area.height.isNone) = false := by
    rcases hi.sized with hzero | ⟨-, hheight⟩
    · rw [hempty, hzero]
      rfl
    · rw [← Option.not_isSome, hheight, Bool.not_true, Bool.and_false]
  have hcomma : utf8 ", " = [44, 32] := rfl
  have hword : utf8 "image " = utf8 "image" ++ [32] := rfl
  rw [imageSource, ← hflags, Script.writeImage, Script.quoteName?_of_plain hi.file]
  simp only [pure_bind, hplaced, Bool.false_eq_true, if_false, hx, hy, hsized, hunknown]
  cases i.area.width <;> cases i.area.height <;>
    simp [sizeSource, hcomma, hword, utf8_blank, utf8_newline, pure, Except.pure]

theorem reads_image {i : Image} (hc : c.Plain) (hi : i.Stored) (hx : i.area.x = some x)
    (hy : i.area.y = some y) (hsizes : i.area.width = none → i.area.height = none)
    (hflags : i.area.height = none → i.flags = 0) (hblocks : Governs i.condition w.blocks) :
    Reads (parseImage w) c ⟨[], 32 :: (imageSource i x y ++ 10 :: rest)⟩ ⟨[(.endOfLine, [10])], rest⟩
      (· = { w with images := w.images ++ [.image (i.mapExpr Expr.restored)] }) := by
  obtain ⟨hfresh, hfold⟩ := addsFlags_imageFlagsOf hi.known
  have hnone : i.area.height = none → imageFlagsOf i.flags = [] := by
    intro h
    rw [hflags h]
    decide
  have hexprs := hi.exprs
  simp only [Command.exprs, List.forall_mem_append, Area.forall_mem_exprs,
    Option.mem_toList] at hexprs
  obtain ⟨hcond, hxs, hys, hwidth, hheight⟩ := hexprs
  have htext : 32 :: (imageSource i x y ++ 10 :: rest) =
      32 :: 34 :: (i.file ++ 34 :: 32 :: (expressionSource x ++ 44 :: 32 :: (expressionSource y ++
        (sizeSource i.area.width ++ (sizeSource i.area.height ++
          (flagsText (imageFlagsOf i.flags) ++ 10 :: rest)))))) := by
    simp [imageSource]
  rw [htext]
  refine .bind (reads_activeCondition_governed hc hcond hblocks) ?_
  rintro _ rfl
  refine .bind (reads_parseName hi.file) ?_
  rintro _ rfl
  refine .bind (reads_argument_comma hc (hxs x hx) false) ?_
  rintro _ rfl
  refine reads_sizes hc (hys y hy) hwidth hheight hsizes hnone
    (fun f hf => List.mem_of_mem_filter hf) hfresh fun q => ?_
  rw [hfold]
  exact .pure (by simp [Image.mapExpr, Area.mapExpr, hx, hy])

/-- As an image is read back it has no height without a width, and flags only after both. -/
theorem stored_reread {i : Image} (hi : i.Stored) : i.reread.Stored ∧
    (i.reread.area.width = none → i.reread.area.height = none) ∧
      (i.reread.area.height = none → i.reread.flags = 0) := by
  obtain ⟨cond, file, ⟨x, y, width, height⟩, flags⟩ := i
  cases width with
  | some width =>
    refine ⟨hi, by simp [Image.reread], fun hheight => hi.sized.resolve_right ?_⟩
    have hnone : height = none := hheight
    simp [hnone]
  | none =>
    have hflags : flags = 0 := hi.sized.resolve_right (by simp)
    refine ⟨⟨hi.file, hi.x, hi.y, ?_, hi.known, .inl hflags⟩, fun _ => rfl, fun _ => hflags⟩
    simpa [Command.exprs, Area.exprs, Image.reread, or_imp, forall_and] using hi.exprs

/-- An image that is not written as a background; its sizes come back in the order in which they
are written. -/
theorem conveys_image {i : Image} (hc : c.Plain) (hw : w.blocks = []) (hi : i.Stored)
    {asBackground : Bool} (hplaced : (asBackground && i.isBackdrop) = false) :
    Conveys c asBackground (.image i) w
      { w with images := w.images ++ [.image (i.reread.mapExpr Expr.restored)] } := by
  obtain ⟨x, hx⟩ := hi.x
  obtain ⟨y, hy⟩ := hi.y
  refine conveys_directive (utf8 "image") (32 :: imageSource i x y) i.condition hw
    hw ?_ rfl (.blank _) (writeImage_stored hi hx hy hplaced) (fun v _ => parseImage v)
    (fun _ _ => rfl) fun blocks hblocks loc rest => ⟨_, .seen, ?_⟩
  · exact fun e he => hi.exprs e (List.mem_append_left _ (Option.mem_toList.2 he))
  · obtain ⟨hreread, hsizes, hflags⟩ := stored_reread hi
    have hsame : i.reread.condition = i.condition ∧ i.reread.area.x = i.area.x ∧
        i.reread.area.y = i.area.y := by
      unfold Image.reread
      split <;> exact ⟨rfl, rfl, rfl⟩
    obtain ⟨hcond, hx', hy'⟩ := hsame
    rw [← imageSource_reread, List.cons_append]
    exact reads_image hc hreread (hx'.trans hx) (hy'.trans hy) hsizes hflags (hcond ▸ hblocks)

/-! ### Images as backgrounds -/

/-- A round that reads a name. -/
theorem reads_backdropRound_name {b : Backdrop} {file : Bytes} (hfile : Script.Closed file)
    {q : Spot} {ends : Bool} (hend : Reads atLineEnd c ⟨[], rest⟩ q (· = ends)) :
    Reads (parseBackdropRound b) c ⟨[], 32 :: 34 :: (file ++ 34 :: rest)⟩ q
      (· = if ends then .inr { b with name := some file } else .inl { b with name := some file }) := by
  have hscan : Scan.quotedFrom {} 1 (file ++ 34 :: rest) = .done (1 + file.length + 1) := by
    have h := Scan.quotedFrom_append hfile.closes rest
    rw [List.append_assoc, List.singleton_append] at h
    rw [h]
    congr 1
    omega
  refine .bind (.lift (succeeds_read (first?_literal .normal _ (by simp) hscan))) fun token ht => ?_
  have htype : token.type = .string := congrArg Prod.fst ht
  have htext : token.text = 34 :: (file ++ [34]) := congrArg Prod.snd ht
  have hnonempty : file.isEmpty = false := by simpa using hfile.nonempty
  rw [htype, Token.unquoted_of_text htext, hnonempty]
  refine .bind (.pure rfl) ?_
  rintro _ rfl
  refine .bind hend ?_
  rintro _ rfl
  split
  · exact .pure rfl
  · exact .pure rfl

/-- A literal that is not closed is not read. -/
theorem fails_next_quote {text : Bytes} {size : ℕ} {cause : Cause} {atStart : Bool} {l : Lexer}
    (hscan : Scan.quotedFrom {} 1 text = .failed size cause atStart)
    (hl : l.At ⟨[], 32 :: 34 :: text⟩) : ∃ e m, next l = .error e m := by
  have hleads : Leads (lex .normal {}) l fun _ _ => False := by
    refine .get ?_
    rw [lexWithin]
    refine .get (.bind leads_advance fun _ m hm => .get ?_)
    have hgap : Scan.gapFrom 0 .plain l.cursor.rest = (1, .plain) := by
      rw [hl.rest, Scan.gapFrom.eq_def]
      simp [isBlankByte, Scan.gapFrom_solid]
    have hrest : m.cursor.rest = 34 :: text := by
      rw [hm, hgap]
      exact congrArg (List.drop 1) hl.rest
    rw [hrest]
    refine .bind (P := fun _ _ => False) (.get ?_) fun _ _ h => h.elim
    rw [hrest]
    refine .bind (P := fun _ _ => False) (.get ?_) fun _ _ h => h.elim
    rw [hrest, Scan.quoted, hscan]
    rintro t n h
    obtain ⟨_, ⟨⟩, -⟩ := leads_take t n h
  rw [next_nil hl.queue_eq_nil]
  cases hlex : lex .normal {} l with
  | ok t m => exact (hleads t m hlex).elim
  | error e m => exact ⟨e, m, rfl⟩

/-- A name that is not read as one literal is refused. -/
theorem comesTo_backdropRound_none {b : Backdrop} {i : Image} {words : Bytes} {m : Inlined}
    (hfile : Script.Plain i.file) (hcloses : i.closes = false) (hwords : 34 ∉ words ∧ 92 ∉ words) :
    ComesTo (parseBackdropRound b) c m
      ⟨[], 32 :: 34 :: (i.file ++ 34 :: (words ++ 10 :: rest))⟩ none fun _ => True := by
  refine ⟨by rintro _ _ ⟨⟩, fun _ s hs => ?_⟩
  rcases Scan.quotedFrom_escaped hfile 1 with hdone | hgoes
  · -- the literal is read, so the name is empty
    have hempty : i.file.isEmpty = true := by
      simpa [Image.closes, hdone [], Nat.add_comm 1] using hcloses
    have hnext : Succeeds (next : Lex Token)
        (At ⟨[], 32 :: 34 :: (i.file ++ 34 :: (words ++ 10 :: rest))⟩)
        (At ⟨[], words ++ 10 :: rest⟩) (·.lexeme = (.string, 34 :: (i.file ++ [34]))) :=
      succeeds_read (first?_literal .normal _ (by simp) (hdone _))
    refine (ComesTo.after (Q := fun _ => True) ((Reads.lift hnext).standing m)
      fun token ht => ?_).fails rfl s hs
    have htype : token.type = .string := congrArg Prod.fst ht
    have htext : token.text = 34 :: (i.file ++ [34]) := congrArg Prod.snd ht
    rw [htype, Token.unquoted_of_text htext, hempty]
    exact ⟨by rintro _ _ ⟨⟩, fun _ s _ => ⟨_, s, rfl⟩⟩
  · obtain ⟨size, hscan⟩ := Scan.quotedFrom_newline hwords (1 + i.file.length + 1) rest
    obtain ⟨e, l, hfail⟩ := fails_next_quote ((hgoes _).trans hscan) hs.lexer
    exact ⟨e, { s with lexer := l }, bind_run_error (by rw [run_lift, hfail])⟩

/-- A round that reads a word before the end of the line. -/
theorem reads_backdropRound_word {b b' : Backdrop} {word : Bytes}
    (hparse : ∀ loc, parseBackdropWord b ⟨.identifier, word, loc⟩ = pure b') :
    Reads (parseBackdropRound b) c ⟨[(.identifier, word)], 10 :: rest⟩ ⟨[(.endOfLine, [10])], rest⟩
      (· = .inr b') := by
  refine .bind (.lift succeeds_read_queued) fun token ht => ?_
  obtain ⟨type, word, loc⟩ := token
  cases ht
  simp only [hparse]
  refine .bind (.pure rfl) ?_
  rintro _ rfl
  refine .bind (reads_atLineEnd .unread) ?_
  rintro _ rfl
  exact .pure rfl

def backdropWords (flags : UInt32) : Bytes :=
  (if ImageFlags.has flags ImageFlags.stretch then utf8 " stretch" else []) ++
    (if ImageFlags.has flags ImageFlags.tile then utf8 " tile" else [])

theorem reads_backdrop {corners : Corners} {file : Bytes} (hfile : Script.Closed file)
    {flags : UInt32} (hexclusive : (ImageFlags.has flags ImageFlags.stretch &&
      ImageFlags.has flags ImageFlags.tile) = false) :
    Reads (parseBackdrop corners) c
      ⟨[], 32 :: 34 :: (file ++ 34 :: (backdropWords flags ++ 10 :: rest))⟩
      ⟨[(.endOfLine, [10])], rest⟩
      (· = { name := some file, corners := corners,
             stretch := ImageFlags.has flags ImageFlags.stretch
             tile := ImageFlags.has flags ImageFlags.tile }) := by
  -- a word after the name
  have hword (word : Bytes) {b' : Backdrop} (hword : Script.Identifier word)
      (hparse : ∀ loc, parseBackdropWord { name := some file, corners := corners }
        ⟨.identifier, word, loc⟩ = pure b') :
      Reads (parseBackdrop corners) c ⟨[], 32 :: 34 :: (file ++ 34 :: 32 :: (word ++ 10 :: rest))⟩
        ⟨[(.endOfLine, [10])], rest⟩ (· = b') := by
    rw [parseBackdrop_eq]
    refine .repeatFrom (.goOn (reads_backdropRound_name hfile (reads_atLineEnd_word
      (first?_blank.trans (first?_identifier hword (by rintro _ ⟨⟩; rfl))))) ?_
      (.stop (reads_backdropRound_word hparse)))
    left
    simp only [Spot.remaining, List.length_cons, List.length_append]
    omega
  unfold backdropWords
  cases hstretch : ImageFlags.has flags ImageFlags.stretch with
  | false =>
    cases htile : ImageFlags.has flags ImageFlags.tile with
    | false =>
      rw [parseBackdrop_eq]
      exact .repeatFrom (.stop (reads_backdropRound_name hfile (reads_atLineEnd .unread)))
    | true => exact hword (utf8 "tile") (.of_all rfl) fun _ => rfl
  | true =>
    have htile : ImageFlags.has flags ImageFlags.tile = false := by simpa [hstretch] using hexclusive
    rw [htile]
    exact hword (utf8 "stretch") (.of_all rfl) fun _ => rfl

/-- The line of an image that is written as a background. -/
theorem writeCommand_backdrop {i : Image} (hfile : Script.Plain i.file)
    (hbackdrop : i.isBackdrop = true) : Script.writeCommand true (.image i) =
      .ok (Script.conditionLine i.condition ++ (utf8 "background" ++
        (32 :: 34 :: (i.file ++ 34 :: backdropWords i.flags)) ++ [10])) := by
  have hword : utf8 "background " = utf8 "background" ++ [32] := rfl
  have hwords {has : Bool} {word : String} : utf8 (if has then word else "") =
      if has then utf8 word else [] := by
    cases has <;> rfl
  rw [Script.writeCommand, Script.writeImage, Script.quoteName?_of_plain hfile]
  simp only [pure_bind, hbackdrop, Bool.and_true, if_true]
  simp [hword, hwords, backdropWords, utf8_newline, pure, Except.pure]

/-- A background with a name that is not read as one literal is refused. -/
theorem crossesIf_backdrop_false {i : Image} {w' : WindowDraft} {m m' : Inlined} (hc : c.Plain)
    (hw : w.blocks = []) (hw' : w'.blocks = []) (hfile : Script.Plain i.file)
    (hcond : ∀ e ∈ i.condition, e.Stored) (hcloses : i.closes = false) :
    CrossesIf parseWindowRound c (Script.conditionLine i.condition ++ (utf8 "background" ++
      (32 :: 34 :: (i.file ++ 34 :: backdropWords i.flags)) ++ [10])) false w.Over m w'.Over m' := by
  refine crossesIf_line i.condition hw hw' hcond rfl (.blank _) (fun v _ => parseBackground v)
    (fun _ _ => rfl) fun blocks hblocks loc rest => ⟨_, .seen, ?_⟩
  refine .after ((reads_activeCondition_governed hc hcond hblocks).standing m) ?_
  rintro _ rfl
  have htext : 32 :: 34 :: (i.file ++ 34 :: backdropWords i.flags) ++ 10 :: rest =
      32 :: 34 :: (i.file ++ 34 :: (backdropWords i.flags ++ 10 :: rest)) := by simp
  have hwords : 34 ∉ backdropWords i.flags ∧ 92 ∉ backdropWords i.flags := by
    unfold backdropWords
    constructor <;> split_ifs <;> decide
  have hround : LeapsIf parseBackdropRound c false (fun _ => True) m
      ⟨[], 32 :: 34 :: (i.file ++ 34 :: (backdropWords i.flags ++ 10 :: rest))⟩ (fun _ => False) m
      ⟨[], rest⟩ :=
    Breaks.round fun b _ => comesTo_backdropRound_none hfile hcloses hwords
  rw [htext]
  have hfails : ComesTo (parseBackdrop w.corners) c m
      ⟨[], 32 :: 34 :: (i.file ++ 34 :: (backdropWords i.flags ++ 10 :: rest))⟩
      (if (false : Bool) then some (m, ⟨[], rest⟩) else none) fun _ => True :=
    hround.comesTo trivial fun _ h => h.elim
  refine hfails.andThen ?_ fun _ => rfl
  rintro _ _ ⟨⟩

/-- An image that is written as a background. -/
theorem conveys_backdrop {i : Image} (hc : c.Plain) (hw : w.blocks = []) (hi : i.Painted) :
    Conveys c true (.image i) w
      { w with
        images := w.images ++ [.image (i.atOrigin.mapExpr Expr.restored)], hasBackground := true } := by
  refine conveys_directive (utf8 "background")
    (32 :: 34 :: (i.file ++ 34 :: backdropWords i.flags)) i.condition hw hw hi.condition rfl (.blank _)
    (writeCommand_backdrop hi.file.plain hi.backdrop)
    (fun v _ => parseBackground v) (fun _ _ => rfl) fun blocks hblocks loc rest => ⟨_, .seen, ?_⟩
  · refine .bind (reads_activeCondition_governed hc hi.condition hblocks) ?_
    rintro _ rfl
    have htext : 32 :: 34 :: (i.file ++ 34 :: backdropWords i.flags) ++ 10 :: rest =
        32 :: 34 :: (i.file ++ 34 :: (backdropWords i.flags ++ 10 :: rest)) := by simp
    rw [htext]
    refine .bind (reads_backdrop hi.file hi.exclusive) ?_
    rintro _ rfl
    have hmap : i.atOrigin.mapExpr Expr.restored = ⟨i.condition.map Expr.restored, i.file,
        ⟨some (.constant .zero), some (.constant .zero), none, none⟩,
        (if ImageFlags.has i.flags ImageFlags.stretch then ImageFlags.stretch else 0) |||
          (if ImageFlags.has i.flags ImageFlags.tile then ImageFlags.tile else 0) ||| 0⟩ := by
      rw [UInt32.or_zero, ← ImageFlags.and_stretch_or_tile]
      rfl
    have hexclusive := hi.exclusive
    rw [hmap]
    cases hstretch : ImageFlags.has i.flags ImageFlags.stretch with
    | false =>
      cases ImageFlags.has i.flags ImageFlags.tile with
      | false => exact .pure rfl
      | true => exact .pure rfl
    | true =>
      rw [hstretch, Bool.true_and] at hexclusive
      rw [hexclusive]
      exact .pure rfl

end Compiler

end ApeScript
