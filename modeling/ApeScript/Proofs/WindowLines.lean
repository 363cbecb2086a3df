import ApeScript.Proofs.Respelled

/-!
# Lines of a window

What each directive without expressions makes of the line it is written as: conversations, names,
consoles, the next window, sub-windows, switches, flags and backgrounds. Every line is read, and
what comes back is the command but for the parts that its spelling does not show: a stay flag is
read as zero or one, and a console text always ends in a newline.
-/

namespace ApeScript

theorem utf8_blank : utf8 " " = [32] := rfl

theorem utf8_newline : utf8 "\n" = [10] := rfl

theorem Script.quoteName?_of_plain {s : Bytes} (hs : Script.Plain s) :
    Script.quoteName? s = some (34 :: (s ++ [34])) := by
  rw [Script.quoteName?, if_neg]
  simp only [List.any_eq_true, Bool.or_eq_true, decide_eq_true_eq, not_exists, not_and]
  rintro b hb (rfl | rfl)
  · exact hs.quote hb
  · exact hs.newline hb

/-! ### What comes back -/

def Talk.stay (v : UInt32) : UInt32 := if v = 0 then 0 else 1

def Talk.reread (t : Talk) : Talk :=
  { t with stay1 := if t.anim2.isSome then stay t.stay1 else 1, stay2 := stay t.stay2 }

/-- A conversation that can be read back: its names and animations are words, and without a second
animation it is between the clicked character and the player. -/
def Talk.Legible (t : Talk) : Prop :=
  Script.Word t.anim1 ∧
    match t.anim2 with
    | some anim2 => Script.Word anim2 ∧ Script.Word t.name1 ∧ Script.Word t.name2
    | none => t.name1 = Compiler.npcName ∧ t.name2 = Compiler.playerName ∨
        t.name1 = Compiler.playerName ∧ t.name2 = Compiler.npcName

def Corners.pieces (c : Corners) : List (Fin 4 × UInt32) :=
  [(0, c.first), (1, c.second), (2, c.third), (3, c.fourth)]

def Corners.paint (c : Corners) (i : Fin 4) (v : UInt32) : Corners :=
  match i with
  | 0 => { c with first := v }
  | 1 => { c with second := v }
  | 2 => { c with third := v }
  | 3 => { c with fourth := v }

namespace WindowFlags

def settable : List (UInt32 × Bytes) := named.filter (·.2 ≠ utf8 "nobackground")

def mask (l : List (UInt32 × Bytes)) : UInt32 := l.foldr (fun f bits => f.1 ||| bits) 0

theorem settable_spec : ∀ f ∈ settable,
    (f.2.all isIdentifierByte && f.2.head?.any (!Bytes.isDigit ·)) = true ∧
      ofName? f.2 = some f.1 ∧ f.1 ≠ noBackground := by
  decide +kernel

theorem and_or_distrib (a b c : UInt32) : a &&& (b ||| c) = a &&& b ||| a &&& c := by
  apply UInt32.eq_of_toBitVec_eq
  simp [BitVec.and_or_distrib_left]

/-- A word has the bit of a flag or has it not. -/
theorem and_eq_zero_or (bits : UInt32) :
    ∀ f ∈ named, bits &&& f.1 = 0 ∨ bits &&& f.1 = f.1 := by
  have hbit (i : Nat) : bits &&& UInt32.ofBitVec (BitVec.twoPow 32 i) = 0 ∨
      bits &&& UInt32.ofBitVec (BitVec.twoPow 32 i) = UInt32.ofBitVec (BitVec.twoPow 32 i) := by
    have hand := BitVec.and_twoPow bits.toBitVec i
    split at hand
    · right
      exact congrArg UInt32.ofBitVec hand
    · left
      exact congrArg UInt32.ofBitVec hand
  have hall : ∀ f ∈ named, ∃ i ∈ List.range 32, f.1 = UInt32.ofBitVec (BitVec.twoPow 32 i) := by
    decide +kernel
  intro f hf
  obtain ⟨i, -, hi⟩ := hall f hf
  rw [hi]
  exact hbit i

/-- The flags of a word that are in a list have the word's bits among those of the list. -/
theorem foldl_filter_or {bits : UInt32} {l : List (UInt32 × Bytes)} (hl : ∀ f ∈ l, f ∈ named)
    (start : UInt32) : (l.filter fun f => bits &&& f.1 ≠ 0).foldl (fun b f => b ||| f.1) start =
      start ||| bits &&& mask l := by
  induction l generalizing start with
  | nil => simp [mask]
  | cons f l ih =>
    have ih := ih fun f hf => hl f (List.mem_cons_of_mem _ hf)
    have hmask : bits &&& mask (f :: l) = bits &&& f.1 ||| bits &&& mask l :=
      and_or_distrib bits f.1 (mask l)
    rw [hmask]
    by_cases hzero : bits &&& f.1 = 0
    · rw [List.filter_cons_of_neg (by simp [hzero]), ih, hzero, UInt32.zero_or]
    · have hbit := (and_eq_zero_or bits f (hl f List.mem_cons_self)).resolve_left hzero
      rw [List.filter_cons_of_pos (by simp [hzero]), List.foldl_cons, ih, hbit, UInt32.or_assoc]

theorem unnamed_eq (bits : UInt32) : unnamed bits = bits &&& ~~~mask named := by
  have hmask : ~~~mask named = ~~~1 &&& (~~~2 &&& (~~~4 &&& (~~~8 &&& (~~~16 &&& (~~~32 &&&
      (~~~0x20000000 &&& ~~~0x40000000)))))) := by decide
  rw [hmask]
  simp only [unnamed, named, List.foldl_cons, List.foldl_nil, UInt32.and_assoc]

theorem unnamed_or {a b : UInt32} (ha : unnamed a = 0) (hb : unnamed b = 0) :
    unnamed (a ||| b) = 0 := by
  rw [unnamed_eq, UInt32.and_comm, and_or_distrib, UInt32.and_comm, ← unnamed_eq, ha,
    UInt32.and_comm, ← unnamed_eq, hb, UInt32.or_zero]

theorem and_mask_named {bits : UInt32} (h : unnamed bits = 0) : bits &&& mask named = bits := by
  have hall : bits &&& mask named ||| bits &&& ~~~mask named = bits := by
    rw [← and_or_distrib, UInt32.or_not_self, UInt32.and_neg_one]
  rwa [← unnamed_eq, h, UInt32.or_zero] at hall

/-- The flags that a script sets are those of the word but for the one that it cannot set. -/
theorem or_noBackground {bits : UInt32} (h : unnamed bits = 0) :
    (if bits &&& noBackground = 0 then bits &&& mask settable
      else bits &&& mask settable ||| noBackground) = bits := by
  have hnamed : mask named = mask settable ||| noBackground := by decide
  have hall := and_mask_named h
  rw [hnamed, and_or_distrib] at hall
  have hmem : (noBackground, utf8 "nobackground") ∈ named := by decide
  rcases and_eq_zero_or bits _ hmem with hzero | hbit
  · rw [if_pos hzero]
    rwa [hzero, UInt32.or_zero] at hall
  · simp only at hbit
    rw [hbit] at hall
    rw [hbit, if_neg (by decide), hall]

end WindowFlags

namespace Compiler

open Lexer

variable {c : CompileContext} {p q : Spot} {w : WindowDraft} {rest tail : Bytes}

theorem reads_checkUnconditional (hw : w.Flat) (loc : Location) :
    Reads (checkUnconditional w loc) c p p fun _ => True := by
  rw [checkUnconditional, hw.blocks]
  exact .pure trivial

theorem reads_checkUnset {α : Type} {slot : Option α} (h : slot = none) (loc : Location)
    (cause : Cause) : Reads (checkUnset slot loc cause) c p p fun _ => True := by
  rw [checkUnset, h]
  exact .pure trivial

/-- The line does not end before a word. -/
theorem reads_atLineEnd_word {word : Bytes}
    (h : first? .normal {} rest = some ((.identifier, word), tail)) :
    Reads atLineEnd c ⟨[], rest⟩ ⟨[(.identifier, word)], tail⟩ (· = false) := by
  refine .bind (.lift (succeeds_peek h)) fun token ht => ?_
  have htype : token.type = .identifier := congrArg Prod.fst ht
  rw [htype]
  exact .pure rfl

/-! ### Conversations -/

theorem reads_parseStayWord {v : UInt32} (h : Succeeds next (At p) (At q)
    (·.lexeme = (.identifier, Script.stayWord v))) :
    Reads parseStayWord c p q (· = Talk.stay v) := by
  refine .bind (.lift (succeeds_expect h)) fun token ht => ?_
  have htext : token.text = Script.stayWord v := congrArg Prod.snd ht
  rw [htext, Script.stayWord, Talk.stay]
  split
  · exact .pure rfl
  · exact .pure rfl

/-- What follows the words of a conversation between two named characters. -/
def stayText (t : Talk) : Bytes :=
  if t.stay1 = 0 ∨ t.stay2 = 0 then
    32 :: (Script.stayWord t.stay1 ++ 32 :: Script.stayWord t.stay2)
  else []

theorem identifier_stayWord (v : UInt32) : Script.Identifier (Script.stayWord v) := by
  unfold Script.stayWord
  split
  · exact .of_all rfl
  · exact .of_all rfl

/-- The stay flags of both characters up to the end of the line; they stay if nothing is said. -/
theorem reads_stays {α : Type} {P : α → Prop} {k : UInt32 × UInt32 → Compiler α} (t : Talk)
    (hk : ∀ q, Reads (k (Talk.stay t.stay1, Talk.stay t.stay2)) c q q P) :
    ∃ q, Spot.EndsLine rest q ∧
      Reads (do
        if ← atLineEnd then k (1, 1) else do
          let stay1 ← parseStayWord
          let stay2 ← parseStayWord
          k (stay1, stay2)) c ⟨[], stayText t ++ 10 :: rest⟩ q P := by
  by_cases hstay : t.stay1 = 0 ∨ t.stay2 = 0
  · have htext : stayText t ++ 10 :: rest =
        32 :: (Script.stayWord t.stay1 ++ 32 :: (Script.stayWord t.stay2 ++ 10 :: rest)) := by
      simp [stayText, hstay]
    refine ⟨_, .unread, ?_⟩
    rw [htext]
    refine .bind (reads_atLineEnd_word (first?_blank.trans
      (first?_identifier (identifier_stayWord _) (by rintro _ ⟨⟩; rfl)))) ?_
    rintro _ rfl
    refine .bind (reads_parseStayWord succeeds_read_queued) ?_
    rintro _ rfl
    refine .bind (reads_parseStayWord (succeeds_read (first?_blank.trans
      (first?_identifier (identifier_stayWord _) (by rintro _ ⟨⟩; rfl))))) ?_
    rintro _ rfl
    exact hk _
  · refine ⟨_, .seen, ?_⟩
    rw [stayText, if_neg hstay]
    refine .bind (reads_atLineEnd .unread) ?_
    rintro _ rfl
    have hread := hk ⟨[(.endOfLine, [10])], rest⟩
    rw [not_or] at hstay
    rw [Talk.stay, Talk.stay, if_neg hstay.1, if_neg hstay.2] at hread
    exact hread

theorem reads_parseTalkEx {t : Talk} {anim2 : Bytes} (hw : w.Flat) (hslot : w.talk = none)
    (ht : t.anim2 = some anim2) (hname1 : Script.Word t.name1) (hname2 : Script.Word t.name2)
    (hanim1 : Script.Word t.anim1) (hanim2 : Script.Word anim2) (loc : Location) :
    ∃ q, Spot.EndsLine rest q ∧ Reads (parseTalkEx w loc) c
      ⟨[], 32 :: (t.name1 ++ 32 :: (t.name2 ++ 32 :: (t.anim1 ++ 32 :: (anim2 ++
        (stayText t ++ 10 :: rest)))))⟩ q (· = { w with talk := some t.reread }) := by
  let finish (stays : UInt32 × UInt32) : Compiler WindowDraft :=
    pure { w with talk := some ⟨t.anim1, some anim2, t.name1, t.name2, stays.1, stays.2⟩ }
  have hfinish (q : Spot) : Reads (finish (Talk.stay t.stay1, Talk.stay t.stay2)) c q q
      (· = { w with talk := some t.reread }) := .pure (by simp [Talk.reread, ht])
  obtain ⟨q, hq, hstays⟩ := reads_stays t hfinish
  refine ⟨q, hq, ?_⟩
  refine .bind (reads_checkUnconditional hw loc) fun _ _ => ?_
  refine .bind (reads_checkUnset hslot loc _) fun _ _ => ?_
  refine .bind (reads_parseWord hname1.bare (.inr (by decide))) ?_
  rintro _ rfl
  refine .bind (reads_parseWord hname2.bare (.inr (by decide))) ?_
  rintro _ rfl
  refine .bind (reads_parseWord hanim1.bare (.inr (by decide))) ?_
  rintro _ rfl
  have hword : Reads (parseWord false) c ⟨[], 32 :: (anim2 ++ (stayText t ++ 10 :: rest))⟩
      ⟨[], stayText t ++ 10 :: rest⟩ (· = anim2) := by
    unfold stayText
    split
    · exact reads_parseWord hanim2.bare (.inr (by decide))
    · exact reads_parseWord hanim2.bare (.inr (by decide))
  refine .bind hword ?_
  rintro _ rfl
  exact hstays

/-- One round of reading whether the second character stays. -/
def parseStayRound (stay : Option UInt32) : Compiler (Option UInt32 ⊕ UInt32) := do
  if ← atLineEnd then return .inr (stay.getD 1)
  let token ← Lexer.expect .identifier
  if token.text ≠ utf8 "stay" ∧ token.text ≠ utf8 "nostay" then fail token.loc .talkFlag
  if stay.isSome then fail token.loc .stayRepeated
  return .inl (some (if token.text = utf8 "nostay" then 0 else 1))

theorem finishes_parseStayRound (v : UInt32) :
    Finishes parseStayRound c (if v = 0 then utf8 " nostay" else []) none (Talk.stay v) := by
  have hstop {stay : Option UInt32} : Finishes parseStayRound c [] stay (stay.getD 1) := by
    refine .stop fun rest => .bind (reads_atLineEnd .unread) ?_
    rintro _ rfl
    exact .pure rfl
  rw [Talk.stay]
  split
  · have hround (rest : Bytes) : Reads (parseStayRound none) c ⟨[], utf8 " nostay" ++ 10 :: rest⟩
        ⟨[], 10 :: rest⟩ (· = .inl (some 0)) := by
      refine .bind (reads_atLineEnd_word rfl) ?_
      rintro _ rfl
      refine .bind (.lift (succeeds_expect succeeds_read_queued)) fun token ht => ?_
      have htext : token.text = utf8 "nostay" := congrArg Prod.snd ht
      rw [htext]
      exact .pure rfl
    exact .round (by decide) hround hstop
  · exact hstop

theorem reads_parseTalk {t : Talk} {target : Bytes} (hw : w.Flat) (hslot : w.talk = none)
    (ht : t.anim2 = none) (htarget : target = utf8 "npc" ∧ t.name1 = npcName ∧
      t.name2 = playerName ∨ target = utf8 "player" ∧ t.name1 = playerName ∧ t.name2 = npcName)
    (hanim : Script.Word t.anim1) (loc : Location) :
    Reads (parseTalk w loc) c
      ⟨[], 32 :: (target ++ 32 :: (t.anim1 ++ ((if t.stay2 = 0 then utf8 " nostay" else []) ++
        10 :: rest)))⟩ ⟨[(.endOfLine, [10])], rest⟩ (· = { w with talk := some t.reread }) := by
  have hword : Reads (parseWord false) c
      ⟨[], 32 :: (t.anim1 ++ ((if t.stay2 = 0 then utf8 " nostay" else []) ++ 10 :: rest))⟩
      ⟨[], (if t.stay2 = 0 then utf8 " nostay" else []) ++ 10 :: rest⟩ (· = t.anim1) := by
    split
    · exact reads_parseWord hanim.bare (.inr (by decide))
    · exact reads_parseWord hanim.bare (.inr (by decide))
  have htail : Reads (do
      let anim ← parseWord false
      let stay ← parseStay
      return { w with talk := some ⟨anim, none, t.name1, t.name2, 1, stay⟩ }) c
      ⟨[], 32 :: (t.anim1 ++ ((if t.stay2 = 0 then utf8 " nostay" else []) ++ 10 :: rest))⟩
      ⟨[(.endOfLine, [10])], rest⟩ (· = { w with talk := some t.reread }) := by
    refine .bind hword ?_
    rintro _ rfl
    refine .bind ((finishes_parseStayRound t.stay2).reads rest) ?_
    rintro _ rfl
    exact .pure (by simp [Talk.reread, ht])
  refine .bind (reads_checkUnconditional hw loc) fun _ _ => ?_
  refine .bind (reads_checkUnset hslot loc _) fun _ _ => ?_
  have hidentifier : Script.Identifier target := by
    rcases htarget with ⟨rfl, -⟩ | ⟨rfl, -⟩
    · exact .of_all rfl
    · exact .of_all rfl
  refine .bind (.lift (succeeds_expect (succeeds_read (first?_blank.trans
    (first?_identifier hidentifier (by rintro _ ⟨⟩; rfl)))))) fun token htoken => ?_
  have htext : token.text = target := congrArg Prod.snd htoken
  rw [htext]
  rcases htarget with ⟨rfl, hname1, hname2⟩ | ⟨rfl, hname1, hname2⟩
  · rw [hname1, hname2] at htail
    refine .bind (.pure rfl) ?_
    rintro _ rfl
    exact htail
  · rw [hname1, hname2] at htail
    refine .bind (.pure rfl) ?_
    rintro _ rfl
    exact htail

/-! ### Names, consoles and the next window -/

theorem reads_parseName {s : Bytes} (hs : Script.Plain s) :
    Reads parseName c ⟨[], 32 :: 34 :: (s ++ 34 :: rest)⟩ ⟨[], rest⟩ (· = s) := by
  have hscan : Scan.quotedFrom { ignoreEscapes := true } 1 (s ++ 34 :: rest) =
      .done (1 + s.length + 1) := Scan.quotedFrom_plain rfl hs.quote hs.newline
  refine .bind .get fun state hstate => ?_
  have hquote : nextIsQuote state.lexer = true := by
    rw [nextIsQuote, hstate.queue_eq_nil, hstate.rest]
    rfl
  rw [hquote]
  refine .bind (.lift (succeeds_read (first?_literal .quoted _ nofun hscan))) fun token ht => ?_
  exact .pure (Token.unquoted_of_text (congrArg Prod.snd ht))

theorem reads_parseNamed {s : Bytes} (hs : Script.Plain s) (hw : w.Flat) {slot : Option Bytes}
    (hslot : slot = none) (loc : Location) (repeated : Cause) :
    Reads (parseNamed w loc slot repeated) c ⟨[], 32 :: 34 :: (s ++ 34 :: rest)⟩ ⟨[], rest⟩
      (· = s) :=
  .bind (reads_checkUnconditional hw loc) fun _ _ =>
    .bind (reads_checkUnset hslot loc repeated) fun _ _ => reads_parseName hs

theorem reads_parseConsole {s : Bytes} (hw : w.Flat) {slot : Option Bytes} (hslot : slot = none)
    (loc : Location) : Reads (parseConsole w loc slot) c ⟨[], 32 :: (Script.quote s ++ rest)⟩
      ⟨[], rest⟩ (· = s ++ [10]) := by
  refine .bind (reads_checkUnconditional hw loc) fun _ _ => ?_
  refine .bind (reads_checkUnset hslot loc _) fun _ _ => .bind .warn fun _ _ => ?_
  refine .bind reads_parseText ?_
  rintro _ rfl
  exact .pure rfl

theorem reads_parseNextWindow {s : Bytes} (hs : Script.RawWord {} s) (hw : w.Flat) (hslot : w.nextWindow = none) (loc : Location) :
    Reads (parseNextWindow w loc false) c ⟨[], 32 :: (s ++ 10 :: rest)⟩ ⟨[], 10 :: rest⟩
      (· = { w with nextWindow := some s }) := by
  have hfirst : first? .raw {} (32 :: (s ++ 10 :: rest)) = some ((.raw, s), 10 :: rest) :=
    first?_blank.trans (first?_raw hs (.inr ⟨rfl, by decide⟩))
  refine .bind (reads_checkUnconditional hw loc) fun _ _ => ?_
  refine .bind (reads_checkUnset hslot loc _) fun _ _ => ?_
  refine .bind (.lift (succeeds_read hfirst)) fun token ht => ?_
  obtain ⟨type, text, loc⟩ := token
  cases ht
  exact .pure rfl

theorem reads_parseSubWindow {label : Label} (hlabel : label.isInline = false) (hw : w.Flat)
    (loc : Location) : Reads (parseSubWindow w loc) c ⟨[], 32 :: (label.text ++ 10 :: rest)⟩
      ⟨[], 10 :: rest⟩ (· = { w with subWindows := w.subWindows ++ [.subWindow label] }) := by
  refine .bind (reads_checkUnconditional hw loc) fun _ _ => ?_
  refine .bind (reads_parseLabel hlabel (succeeds_read (first?_label label))) ?_
  rintro _ rfl
  exact .pure rfl

theorem reads_parseSwitchRef {label : Label} (hlabel : label.isInline = false) (hw : w.Flat)
    {slot : Option Label} (hslot : slot = none) (loc : Location) :
    Reads (parseSwitchRef w loc slot) c ⟨[], 32 :: (label.text ++ 10 :: rest)⟩ ⟨[], 10 :: rest⟩
      (· = label) := by
  refine .bind (reads_checkUnconditional hw loc) fun _ _ => ?_
  refine .bind (reads_checkUnset hslot loc _) fun _ _ => ?_
  refine .bind (.lift (succeeds_peek (first?_label label))) fun token ht => ?_
  have htype : token.type = .number := congrArg Prod.fst ht
  rw [htype, if_pos (by simp)]
  exact reads_parseLabel hlabel succeeds_read_queued

/-! ### Backgrounds -/

def cornerWord (i : Fin 4) : Bytes := utf8 "color" ++ Bytes.ofNat (i.val + 1)

def cornerText (corner : Fin 4 × UInt32) : Bytes :=
  32 :: (cornerWord corner.1 ++ 61 :: colorText corner.2)

theorem identifier_cornerWord (i : Fin 4) : Script.Identifier (cornerWord i) := by
  fin_cases i
  · exact .of_all rfl
  · exact .of_all rfl
  · exact .of_all rfl
  · exact .of_all rfl

def parseBackdropRound (b : Backdrop) : Compiler (Backdrop ⊕ Backdrop) := do
  let token ← Lexer.next
  let b ← match token.type with
    | .string => do
      if token.unquoted.isEmpty then fail token.loc .backgroundName
      pure { b with name := some token.unquoted }
    | .identifier => parseBackdropWord b token
    | _ => fail token.loc .expectedBackgroundFlag
  if ← atLineEnd then return .inr b
  return .inl b

theorem parseBackdrop_eq (corners : Corners) :
    parseBackdrop corners = repeatFrom { corners := corners } parseBackdropRound := rfl

theorem reads_parseBackdropWord (b : Backdrop) (i : Fin 4) {v : UInt32} {a : UInt8} (ha : a ≤ 32)
    (loc : Location) :
    Reads (parseBackdropWord b ⟨.identifier, cornerWord i, loc⟩) c
      ⟨[], 61 :: (colorText v ++ a :: rest)⟩ ⟨[], a :: rest⟩
      (· = { b with corners := b.corners.paint i v }) := by
  fin_cases i
  all_goals
    refine .bind (reads_parseColor ha) ?_
    rintro _ rfl
    exact .pure rfl

/-- A round that reads a corner, from a spot before its keyword, and the end of the line. -/
theorem reads_backdropRound_last {b : Backdrop} {i : Fin 4} {v : UInt32}
    (hnext : Succeeds next (At p) (At ⟨[], 61 :: (colorText v ++ 10 :: rest)⟩)
      (·.lexeme = (.identifier, cornerWord i))) :
    Reads (parseBackdropRound b) c p ⟨[(.endOfLine, [10])], rest⟩
      (· = .inr { b with corners := b.corners.paint i v }) := by
  refine .bind (.lift hnext) fun token ht => ?_
  obtain ⟨type, word, loc⟩ := token
  cases ht
  refine .bind (reads_parseBackdropWord b i (by decide) loc) ?_
  rintro _ rfl
  refine .bind (reads_atLineEnd .unread) ?_
  rintro _ rfl
  exact .pure rfl

/-- A round that reads a corner before another one. -/
theorem reads_backdropRound_next {b : Backdrop} {i j : Fin 4} {v v' : UInt32}
    (hnext : Succeeds next (At p) (At ⟨[], 61 :: (colorText v ++ (cornerText (j, v') ++ rest))⟩)
      (·.lexeme = (.identifier, cornerWord i))) :
    Reads (parseBackdropRound b) c p
      ⟨[(.identifier, cornerWord j)], 61 :: (colorText v' ++ rest)⟩
      (· = .inl { b with corners := b.corners.paint i v }) := by
  refine .bind (.lift hnext) fun token ht => ?_
  obtain ⟨type, word, loc⟩ := token
  cases ht
  refine .bind (reads_parseBackdropWord b i (by decide) loc) ?_
  rintro _ rfl
  have hword : first? .normal {} (cornerText (j, v') ++ rest) =
      some ((.identifier, cornerWord j), 61 :: (colorText v' ++ rest)) := by
    have htext : cornerText (j, v') ++ rest =
        32 :: (cornerWord j ++ 61 :: (colorText v' ++ rest)) := by simp [cornerText]
    rw [htext, first?_blank]
    exact first?_identifier (identifier_cornerWord j) (by rintro _ ⟨⟩; rfl)
  refine .bind (reads_atLineEnd_word hword) ?_
  rintro _ rfl
  exact .pure rfl

def paintAll (corners : Corners) (l : List (Fin 4 × UInt32)) : Corners :=
  l.foldl (fun c k => c.paint k.1 k.2) corners

theorem reads_corners_queued (l : List (Fin 4 × UInt32)) (b : Backdrop) (i : Fin 4) (v : UInt32) :
    Reads (repeatWithin parseBackdropRound (Spot.mk [(.identifier, cornerWord i)]
        (61 :: (colorText v ++ (l.flatMap cornerText ++ 10 :: rest)))).remaining b) c
      ⟨[(.identifier, cornerWord i)], 61 :: (colorText v ++ (l.flatMap cornerText ++ 10 :: rest))⟩
      ⟨[(.endOfLine, [10])], rest⟩
      (· = { b with corners := paintAll b.corners ((i, v) :: l) }) := by
  induction l generalizing b i v with
  | nil => exact .stop (reads_backdropRound_last succeeds_read_queued)
  | cons k l ih =>
    obtain ⟨j, v'⟩ := k
    have htext : ((j, v') :: l).flatMap cornerText ++ 10 :: rest =
        cornerText (j, v') ++ (l.flatMap cornerText ++ 10 :: rest) := by simp
    rw [htext]
    refine .goOn (reads_backdropRound_next succeeds_read_queued) ?_ (ih _ j v')
    left
    simp [Spot.remaining, cornerText]
    omega

/-- The corners of a list that is not empty, up to the end of the line. -/
theorem reads_parseBackdrop (corners : Corners) (k : Fin 4 × UInt32) (l : List (Fin 4 × UInt32)) :
    Reads (parseBackdrop corners) c ⟨[], (k :: l).flatMap cornerText ++ 10 :: rest⟩
      ⟨[(.endOfLine, [10])], rest⟩ (· = { corners := paintAll corners (k :: l) }) := by
  obtain ⟨i, v⟩ := k
  have htext : ((i, v) :: l).flatMap cornerText ++ 10 :: rest =
      32 :: (cornerWord i ++ 61 :: (colorText v ++ (l.flatMap cornerText ++ 10 :: rest))) := by
    simp [cornerText]
  have hnext : Succeeds next
      (At ⟨[], 32 :: (cornerWord i ++ 61 :: (colorText v ++ (l.flatMap cornerText ++ 10 :: rest)))⟩)
      (At ⟨[], 61 :: (colorText v ++ (l.flatMap cornerText ++ 10 :: rest))⟩)
      (·.lexeme = (.identifier, cornerWord i)) :=
    succeeds_read (first?_blank.trans (first?_identifier (identifier_cornerWord i)
      (by rintro _ ⟨⟩; rfl)))
  rw [parseBackdrop_eq, htext]
  refine .repeatFrom ?_
  cases l with
  | nil => exact .stop (reads_backdropRound_last hnext)
  | cons k l =>
    obtain ⟨j, v'⟩ := k
    have htail : ((j, v') :: l).flatMap cornerText ++ 10 :: rest =
        cornerText (j, v') ++ (l.flatMap cornerText ++ 10 :: rest) := by simp
    rw [htail] at hnext ⊢
    refine .goOn (reads_backdropRound_next hnext) ?_ (reads_corners_queued l _ j v')
    left
    simp [Spot.remaining, cornerText]
    omega

theorem reads_parseBackground (hw : w.Flat) (k : Fin 4 × UInt32) (l : List (Fin 4 × UInt32)) :
    Reads (parseBackground w) c ⟨[], (k :: l).flatMap cornerText ++ 10 :: rest⟩
      ⟨[(.endOfLine, [10])], rest⟩
      (· = { w with corners := paintAll w.corners (k :: l), hasBackground := true }) := by
  have hcondition : Reads (activeCondition w) c ⟨[], (k :: l).flatMap cornerText ++ 10 :: rest⟩
      ⟨[], (k :: l).flatMap cornerText ++ 10 :: rest⟩ (· = (none, true)) := by
    rw [activeCondition, hw.blocks]
    exact .pure rfl
  refine .bind hcondition ?_
  rintro _ rfl
  refine .bind (reads_parseBackdrop w.corners k l) ?_
  rintro _ rfl
  exact .pure rfl

def writtenCorners (corners : Corners) : List (Fin 4 × UInt32) :=
  if (corners.pieces.filter (·.2 ≠ 0)).isEmpty then [(0, 0)]
  else corners.pieces.filter (·.2 ≠ 0)

theorem exists_writtenCorners (corners : Corners) : ∃ k l, writtenCorners corners = k :: l := by
  unfold writtenCorners
  split
  · exact ⟨_, _, rfl⟩
  · rename_i hcolors
    rw [List.isEmpty_iff] at hcolors
    exact List.exists_cons_of_ne_nil hcolors

theorem paintAll_writtenCorners (corners : Corners) :
    paintAll ⟨0, 0, 0, 0⟩ (writtenCorners corners) = corners := by
  obtain ⟨a, b, c, d⟩ := corners
  by_cases ha : a = 0 <;> by_cases hb : b = 0 <;> by_cases hc : c = 0 <;> by_cases hd : d = 0 <;>
    simp [writtenCorners, Corners.pieces, paintAll, Corners.paint, ha, hb, hc, hd]

theorem isEmpty_flatMap_cornerText (l : List (Fin 4 × UInt32)) :
    (l.flatMap cornerText).isEmpty = l.isEmpty := by
  cases l with
  | nil => rfl
  | cons => rfl

theorem writeCorners_eq (corners : Corners) : Script.writeCorners corners =
    utf8 "background" ++ (writtenCorners corners).flatMap cornerText ++ [10] := by
  have hcolor (i : Fin 4) (v : UInt32) : (if v = 0 then [] else
      utf8 " color" ++ Bytes.ofNat (i.val + 1) ++ utf8 "=" ++ colorText v) =
        (([(i, v)] : List (Fin 4 × UInt32)).filter (·.2 ≠ 0)).flatMap cornerText := by
    have htext : utf8 " color" = 32 :: utf8 "color" := rfl
    by_cases hv : v = 0
    · simp [hv]
    · simp [hv, cornerText, cornerWord, htext, show utf8 "=" = [61] from rfl]
  have hblack : utf8 " color1=00000000" = [(0, 0)].flatMap cornerText := rfl
  have hpieces : (corners.pieces.filter (·.2 ≠ 0)).flatMap cornerText =
      ([(0, corners.first)].filter (·.2 ≠ 0)).flatMap cornerText ++
      ([(1, corners.second)].filter (·.2 ≠ 0)).flatMap cornerText ++
      ([(2, corners.third)].filter (·.2 ≠ 0)).flatMap cornerText ++
      ([(3, corners.fourth)].filter (·.2 ≠ 0)).flatMap cornerText := by
    simp only [← List.flatMap_append, ← List.filter_append]
    rfl
  have hcolors : Script.writeCorners corners = utf8 "background" ++
      (if ((corners.pieces.filter (·.2 ≠ 0)).flatMap cornerText).isEmpty then
        utf8 " color1=00000000" else (corners.pieces.filter (·.2 ≠ 0)).flatMap cornerText) ++
      utf8 "\n" := by
    rw [hpieces, ← hcolor, ← hcolor, ← hcolor, ← hcolor]
    rfl
  rw [hcolors, isEmpty_flatMap_cornerText, hblack, writtenCorners,
    apply_ite (List.flatMap cornerText)]
  rfl

/-! ### Flags -/

def parseFlagsRound (flags : UInt32) : Compiler (UInt32 ⊕ UInt32) := do
  if ← atLineEnd then return .inr flags
  let token ← Lexer.expect .identifier
  match WindowFlags.ofName? token.text with
  | some flag =>
    if flag = WindowFlags.noBackground then fail token.loc .invalidFlag
    return .inl (flags ||| flag)
  | none => fail token.loc .invalidFlag

theorem finishes_parseFlagsRound {f : UInt32 × Bytes} (hf : f ∈ WindowFlags.settable)
    (flags : UInt32) : Finishes parseFlagsRound c (32 :: f.2 ++ []) flags (flags ||| f.1) := by
  obtain ⟨hword, hname, hbit⟩ := WindowFlags.settable_spec f hf
  have hround (rest : Bytes) : Reads (parseFlagsRound flags) c ⟨[], 32 :: f.2 ++ ([] ++ 10 :: rest)⟩
      ⟨[], [] ++ 10 :: rest⟩ (· = .inl (flags ||| f.1)) := by
    refine .bind (reads_atLineEnd_word (first?_blank.trans
      (first?_identifier (.of_all hword) (by rintro _ ⟨⟩; rfl)))) ?_
    rintro _ rfl
    refine .bind (.lift (succeeds_expect succeeds_read_queued)) fun token ht => ?_
    have htext : token.text = f.2 := congrArg Prod.snd ht
    simp only [htext, hname, if_neg hbit]
    exact .pure rfl
  refine .round (List.cons_ne_nil _ _) hround (.stop fun rest => ?_)
  refine .bind (reads_atLineEnd .unread) ?_
  rintro _ rfl
  exact .pure rfl

theorem rounds_flag {f : UInt32 × Bytes} (hf : f ∈ WindowFlags.settable) (hw : w.Flat) :
    Rounds parseWindowRound c (utf8 "flags " ++ f.2 ++ utf8 "\n") w
      { w with flags := w.flags ||| f.1 } := by
  have hline : Rounds parseWindowRound c (utf8 "flags" ++ (32 :: f.2) ++ [10]) w
      { w with flags := w.flags ||| f.1 } := by
    have hflat : { w with flags := w.flags ||| f.1 }.Flat := ⟨hw.blocks, hw.closed⟩
    refine rounds_directive hw hflat rfl (parseFlags w) (fun _ => rfl) (.blank _)
      fun loc rest => ⟨_, .seen, ?_⟩
    have hloop := (finishes_parseFlagsRound (c := c) hf w.flags).reads rest
    rw [List.append_nil] at hloop
    refine .bind (reads_checkUnconditional hw loc) fun _ _ => .bind hloop ?_
    rintro _ rfl
    exact .pure rfl
  have htext : utf8 "flags " ++ f.2 ++ utf8 "\n" = utf8 "flags" ++ (32 :: f.2) ++ [10] := by
    simp [show utf8 "flags " = utf8 "flags" ++ [32] from rfl, show utf8 "\n" = [10] from rfl]
  rw [htext]
  exact hline

theorem rounds_flags {l : List (UInt32 × Bytes)} (hl : ∀ f ∈ l, f ∈ WindowFlags.settable)
    (hw : w.Flat) :
    Rounds parseWindowRound c (l.flatMap fun f => utf8 "flags " ++ f.2 ++ utf8 "\n") w
      { w with flags := l.foldl (fun bits f => bits ||| f.1) w.flags } := by
  induction l generalizing w with
  | nil => exact .nil
  | cons f l ih =>
    rw [List.flatMap_cons]
    exact .append (rounds_flag (hl f List.mem_cons_self) hw)
      (ih (w := { w with flags := w.flags ||| f.1 }) (fun f hf => hl f (List.mem_cons_of_mem _ hf))
        ⟨hw.blocks, hw.closed⟩)

theorem writeFlags_eq {bits : UInt32} (h : WindowFlags.unnamed bits = 0) :
    Script.writeFlags bits = .ok ((WindowFlags.settable.filter fun f => bits &&& f.1 ≠ 0).flatMap
      fun f => utf8 "flags " ++ f.2 ++ utf8 "\n") := by
  have hnames : WindowFlags.names bits =
      (WindowFlags.named.filter fun f => bits &&& f.1 ≠ 0).map (·.2) := by
    simp [WindowFlags.names, h]
  have hunknown :
      (WindowFlags.names bits).find? (Bytes.startsWith (utf8 "UnknownFlag")) = none := by
    have hall : ∀ f ∈ WindowFlags.named, Bytes.startsWith (utf8 "UnknownFlag") f.2 = false := by
      decide +kernel
    rw [hnames, List.find?_eq_none]
    intro name hname
    obtain ⟨f, hf, rfl⟩ := List.mem_map.1 hname
    simp [hall f (List.mem_of_mem_filter hf)]
  rw [Script.writeFlags, hunknown]
  simp only [hnames, WindowFlags.settable, List.filter_map, List.flatMap_map, List.filter_filter]
  refine congrArg Except.ok (congrArg _ (List.filter_congr fun f _ => ?_))
  simp [Bool.and_comm]

end Compiler

/-! ### Windows that say nothing of their background -/

def plainLine : Bytes := utf8 "background color1=00000000\n"

namespace Compiler

variable {c : CompileContext} {w : WindowDraft}

theorem flat_empty : WindowDraft.Flat {} := ⟨rfl, rfl⟩

theorem paintAll_black {corners : Corners} (h : corners.first = 0) :
    paintAll corners [(0, 0)] = corners := by
  rw [← h]
  rfl

theorem rounds_plainLine (hw : w.Flat) (hcorners : w.corners.first = 0) :
    Rounds parseWindowRound c plainLine w { w with hasBackground := true } := by
  have hflat : { w with hasBackground := true }.Flat := ⟨hw.blocks, hw.closed⟩
  have hline : plainLine = utf8 "background" ++ [(0, 0)].flatMap cornerText ++ [10] := rfl
  have hpainted : { w with hasBackground := true } =
      { w with corners := paintAll w.corners [(0, 0)], hasBackground := true } := by
    rw [paintAll_black hcorners]
  rw [hline]
  refine rounds_directive hw hflat rfl (fun _ => parseBackground w) (fun _ => rfl) (.blank _)
    fun loc rest => ⟨_, .seen, ?_⟩
  rw [hpainted]
  exact reads_parseBackground hw (0, 0) []

end Compiler

end ApeScript
