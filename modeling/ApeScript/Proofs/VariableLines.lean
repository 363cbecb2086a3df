import ApeScript.Proofs.WindowLines

/-!
# Variables and the flags of images

A variable is read up to the token after it, which is looked at, and comes back as the expression it
was. The flags of an image stand at the end of its line, each of them once.
-/

namespace ApeScript

/-- A variable as an expression: zero plus the variable, under the root position. -/
def Expr.variable (name : Bytes) : Expr :=
  ⟨Operator.add.code, ⟨OperandType.floatConst.code, 5, .float .zero⟩,
    ⟨OperandType.floatVar.code, 6, .name name⟩⟩

structure Script.Variable (s : Bytes) : Prop where
  identifier : Script.Identifier s
  number : s.getLast? ≠ some 36

namespace Compiler

open Lexer

variable {c : CompileContext} {p q : Spot} {w : WindowDraft} {name rest tail : Bytes} {k : Lexeme}

/-! ### Variables as expressions -/

theorem reads_parseOperand (hname : Script.Variable name) (tiers : List (List Operator))
    (bound : Remaining) : Reads (parseOperand tiers bound) c ⟨[(.identifier, name)], rest⟩
      ⟨[], rest⟩ (· = .floatVar name) := by
  rw [parseOperand]
  refine .bind (.lift succeeds_peek_queued) fun token ht => ?_
  have htype : token.type = .identifier := congrArg Prod.fst ht
  have htext : token.text = name := congrArg Prod.snd ht
  rw [htype, htext]
  refine .bind (.lift succeeds_consume) fun _ _ => .pure ?_
  rw [Value.ofName, if_neg hname.number]

theorem reads_parseTier_zero (hname : Script.Variable name)
    (hrest : ∀ b ∈ rest.head?, isIdentifierByte b = false) (tiers : List (List Operator))
    (bound : Remaining) : Reads (parseTier tiers bound 0) c ⟨[], 32 :: (name ++ rest)⟩ ⟨[], rest⟩
      (· = .floatVar name) := by
  rw [parseTier, parseNegation]
  refine .bind (.lift (succeeds_peek (first?_blank.trans
    (first?_identifier hname.identifier hrest)))) fun token ht => ?_
  have htype : token.type = .identifier := congrArg Prod.fst ht
  rw [htype, if_neg (by simp)]
  exact reads_parseOperand hname tiers bound

/-- A variable before a token that is no operator, which is looked at. -/
theorem reads_parseTier (hname : Script.Variable name)
    (hrest : ∀ b ∈ rest.head?, isIdentifierByte b = false)
    (hstop : first? .normal {} rest = some (k, tail)) (hk : k.1 ≠ .operator)
    (tiers : List (List Operator)) (bound : Remaining) (level : Nat) :
    Reads (parseTier tiers bound (level + 1)) c ⟨[], 32 :: (name ++ rest)⟩ ⟨[k], tail⟩
      (· = .floatVar name) := by
  have hend {p : Spot} {level : Nat}
      (hpeek : Succeeds peekNormal (At p) (At ⟨[k], tail⟩) (·.lexeme = k)) :
      Reads (parseTierRest tiers bound level (.floatVar name)) c p ⟨[k], tail⟩
        (· = .floatVar name) := by
    rw [parseTierRest]
    refine .bind (.lift hpeek) fun token ht => ?_
    have htype : token.type ≠ .operator := fun h => hk (ht ▸ h)
    have hnone (tier : List Operator) : operatorOf? tier token = none := by
      rw [operatorOf?, if_neg htype]
    rw [hnone]
    exact .pure rfl
  induction level with
  | zero =>
    rw [parseTier]
    refine .bind (reads_parseTier_zero hname hrest tiers bound) ?_
    rintro _ rfl
    exact hend (succeeds_peek hstop)
  | succ level ih =>
    rw [parseTier]
    refine .bind ih ?_
    rintro _ rfl
    exact hend succeeds_peek_queued

theorem reads_parseExpr (hname : Script.Variable name)
    (hrest : ∀ b ∈ rest.head?, isIdentifierByte b = false)
    (hstop : first? .normal {} rest = some (k, tail)) (hk : k.1 ≠ .operator) :
    Reads parseExpr c ⟨[], 32 :: (name ++ rest)⟩ ⟨[k], tail⟩ (· = .floatVar name) := by
  refine .bind .options ?_
  rintro _ rfl
  refine .bind .remaining fun bound _ => ?_
  split
  · exact reads_parseTier hname hrest hstop hk _ bound 12
  · exact reads_parseTier hname hrest hstop hk _ bound 6

/-! ### Arguments -/

/-- A spot before an argument; before every argument but the first there is a comma, which has been
looked at. -/
def argumentSpot (comma : Bool) (text : Bytes) : Spot :=
  ⟨if comma then [(.comma, [44])] else [], 32 :: text⟩

/-! ### Images -/

/-- No size follows at the end of the line. -/
theorem reads_parseImageSize_line : Reads parseImageSize c ⟨[(.endOfLine, [10])], rest⟩
    ⟨[(.endOfLine, [10])], rest⟩ (· = none) := by
  refine .bind (.lift succeeds_peek_queued) fun token ht => ?_
  have htype : token.type = .endOfLine := congrArg Prod.fst ht
  rw [htype]
  exact .pure rfl

def parseImageFlagsRound (flags : UInt32) : Compiler (UInt32 ⊕ UInt32) := do
  let token ← Lexer.expect .identifier
  match imageFlag? token.text with
  | none => fail token.loc .unknownImageFlag
  | some flag =>
    if ImageFlags.has flags flag then fail token.loc .imageFlagRepeated
    if ← atLineEnd then return .inr (flags ||| flag)
    return .inl (flags ||| flag)

def addsFlags : UInt32 → List (Bytes × UInt32) → Bool
  | _, [] => true
  | flags, f :: l => !ImageFlags.has flags f.2 && addsFlags (flags ||| f.2) l

theorem imageFlagNames_spec : ∀ f ∈ imageFlagNames,
    (f.1.all isIdentifierByte && f.1.head?.any (!Bytes.isDigit ·)) = true ∧
      imageFlag? f.1 = some f.2 := by
  decide +kernel

/-- A round that reads a flag and looks at what follows it. -/
theorem reads_imageFlagsRound {f : Bytes × UInt32} (hf : f ∈ imageFlagNames) {flags : UInt32}
    (hfresh : ImageFlags.has flags f.2 = false) {ends : Bool}
    (hnext : Succeeds next (At p) (At ⟨[], rest⟩) (·.lexeme = (.identifier, f.1)))
    (hend : Reads atLineEnd c ⟨[], rest⟩ q (· = ends)) :
    Reads (parseImageFlagsRound flags) c p q
      (· = if ends then .inr (flags ||| f.2) else .inl (flags ||| f.2)) := by
  refine .bind (.lift (succeeds_expect hnext)) fun token ht => ?_
  have htext : token.text = f.1 := congrArg Prod.snd ht
  simp only [htext, (imageFlagNames_spec f hf).2, hfresh, Bool.false_eq_true, if_false]
  refine .bind hend ?_
  rintro _ rfl
  split
  · exact .pure rfl
  · exact .pure rfl

def imageFlagsText (l : List (Bytes × UInt32)) : Bytes := l.flatMap fun f => 32 :: f.1

/-- The flags of a list, from a spot where the first of them comes next, up to the end of the
line. -/
theorem reads_imageFlags {l : List (Bytes × UInt32)} {f : Bytes × UInt32} {flags : UInt32}
    {bound : Remaining} (hl : ∀ g ∈ f :: l, g ∈ imageFlagNames)
    (hfresh : addsFlags flags (f :: l) = true)
    (hnext : Succeeds next (At p) (At ⟨[], imageFlagsText l ++ 10 :: rest⟩)
      (·.lexeme = (.identifier, f.1)))
    (hbound : (imageFlagsText l).length + rest.length < bound.unread) :
    Reads (repeatWithin parseImageFlagsRound bound flags) c p ⟨[(.endOfLine, [10])], rest⟩
      (· = (f :: l).foldl (fun bits g => bits ||| g.2) flags) := by
  induction l generalizing f flags p bound with
  | nil =>
    simp only [addsFlags, Bool.and_true, Bool.not_eq_true'] at hfresh
    exact .stop (reads_imageFlagsRound (hl f List.mem_cons_self) hfresh hnext
      (reads_atLineEnd .unread))
  | cons g l ih =>
    obtain ⟨hf, hl⟩ := List.forall_mem_cons.1 hl
    rw [addsFlags, Bool.and_eq_true, Bool.not_eq_true'] at hfresh
    have hspaced : Spaced (imageFlagsText l) := by
      cases l with
      | nil => exact .nil
      | cons => exact .blank _
    have htext : imageFlagsText (g :: l) ++ 10 :: rest =
        32 :: (g.1 ++ (imageFlagsText l ++ 10 :: rest)) := by simp [imageFlagsText]
    have hlength : (imageFlagsText (g :: l)).length =
        1 + g.1.length + (imageFlagsText l).length := by
      simp [imageFlagsText]
      omega
    rw [htext] at hnext
    have hword : first? .normal {} (32 :: (g.1 ++ (imageFlagsText l ++ 10 :: rest))) =
        some ((.identifier, g.1), imageFlagsText l ++ 10 :: rest) :=
      first?_blank.trans (first?_identifier (.of_all (imageFlagNames_spec g
        (hl g List.mem_cons_self)).1) (hspaced.delimits rest))
    refine .goOn (reads_imageFlagsRound hf hfresh.1 hnext (reads_atLineEnd_word hword)) (.inl ?_)
      (ih hl hfresh.2 succeeds_read_queued ?_)
    · simp only [Spot.remaining, List.length_append, List.length_cons]
      omega
    · simp only [Spot.remaining, List.length_append, List.length_cons]
      omega

def imageFlagsOf (flags : UInt32) : List (Bytes × UInt32) :=
  imageFlagNames.filter (ImageFlags.has flags ·.2)

def flagsText (l : List (Bytes × UInt32)) : Bytes :=
  if l.isEmpty then [] else 44 :: imageFlagsText l

/-- There are eight words of known flags. -/
theorem exists_ofNat_of_known {flags : UInt32} (h : flags &&& ~~~ImageFlags.known = 0) :
    ∃ n < 8, flags = UInt32.ofNat n := by
  have hknown : flags &&& ImageFlags.known = flags := by
    have hsplit : flags &&& ImageFlags.known ||| flags &&& ~~~ImageFlags.known = flags := by
      rw [← WindowFlags.and_or_distrib, UInt32.or_not_self, UInt32.and_neg_one]
    rwa [h, UInt32.or_zero] at hsplit
  refine ⟨flags.toNat, ?_, UInt32.ofNat_toNat.symm⟩
  rw [← hknown, UInt32.toNat_and]
  exact Nat.lt_succ_of_le Nat.and_le_right

theorem addsFlags_imageFlagsOf {flags : UInt32} (h : flags &&& ~~~ImageFlags.known = 0) :
    addsFlags 0 (imageFlagsOf flags) = true ∧
      (imageFlagsOf flags).foldl (fun bits f => bits ||| f.2) 0 = flags := by
  obtain ⟨n, hn, rfl⟩ := exists_ofNat_of_known h
  clear h
  revert n
  decide +kernel

/-- The names of known flags are written as they are read. -/
theorem names_spec {flags : UInt32} (h : flags &&& ~~~ImageFlags.known = 0) :
    (ImageFlags.names flags).isEmpty = (flags == 0) ∧
      (ImageFlags.names flags).find? (Bytes.startsWith (utf8 "Unknown")) = none ∧
      (if (ImageFlags.names flags).isEmpty then [] else
        utf8 ", " ++ Bytes.joinWith (utf8 " ") (ImageFlags.names flags)) =
          flagsText (imageFlagsOf flags) := by
  obtain ⟨n, hn, rfl⟩ := exists_ofNat_of_known h
  clear h
  revert n
  decide +kernel

theorem reads_parseImageFlags {l : List (Bytes × UInt32)} {f : Bytes × UInt32}
    (hl : ∀ g ∈ f :: l, g ∈ imageFlagNames) (hfresh : addsFlags 0 (f :: l) = true) :
    Reads parseImageFlags c ⟨[(.comma, [44])], imageFlagsText (f :: l) ++ 10 :: rest⟩
      ⟨[(.endOfLine, [10])], rest⟩ (· = (f :: l).foldl (fun bits g => bits ||| g.2) 0) := by
  have hspaced : Spaced (imageFlagsText l) := by
    cases l with
    | nil => exact .nil
    | cons => exact .blank _
  have htext : imageFlagsText (f :: l) ++ 10 :: rest =
      32 :: (f.1 ++ (imageFlagsText l ++ 10 :: rest)) := by simp [imageFlagsText]
  refine .bind (.lift succeeds_peek_queued) fun token ht => ?_
  have htype : token.type = .comma := congrArg Prod.fst ht
  rw [if_neg (not_not.2 htype)]
  refine .bind (.lift succeeds_consume) fun _ _ => ?_
  rw [htext]
  refine .repeatFrom (reads_imageFlags hl hfresh (succeeds_read (first?_blank.trans
    (first?_identifier (.of_all (imageFlagNames_spec f (hl f List.mem_cons_self)).1)
      (hspaced.delimits rest)))) ?_)
  simp only [Spot.remaining, List.length_append, List.length_cons]
  omega

theorem reads_parseImageFlags_line : Reads parseImageFlags c ⟨[(.endOfLine, [10])], rest⟩
    ⟨[(.endOfLine, [10])], rest⟩ (· = 0) := by
  refine .bind (.lift succeeds_peek_queued) fun token ht => ?_
  have htype : token.type = .endOfLine := congrArg Prod.fst ht
  rw [htype]
  exact .pure rfl

end Compiler

end ApeScript
