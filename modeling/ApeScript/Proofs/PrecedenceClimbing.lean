import ApeScript.Proofs.CompilerRun
import ApeScript.Proofs.Contract
import ApeScript.Proofs.ExpressionTree
import ApeScript.Proofs.TokenStream

/-!
# Precedence climbing

The parser of expressions reads what `Climb.Reads` describes and nothing else: what it returns is
the value of a tree that is read from the tokens delivered to it (`Climb.gives_parsed`), and every
such tree is returned if no operator that continues it follows (`Climb.Reads.runs`). With the trees
of `ExprTree.Ordered` this says which value an expression has in either table of tiers.
-/

namespace ApeScript

open Lexer (Delivers SameNext Remaining)

/-! ### Tables of tiers -/

namespace Operator

def tierIn (tiers : List (List Operator)) (op : Operator) : Nat := tiers.findIdx (·.contains op)

structure Partition (tiers : List (List Operator)) : Prop where
  total : ∀ op : Operator, ∃ tier ∈ tiers, op ∈ tier
  disjoint : tiers.Pairwise fun tier tier' => ∀ op ∈ tier, op ∉ tier'

theorem partition_tiers : Partition tiers where
  total op := by cases op <;> decide
  disjoint := by decide

theorem partition_legacyTiers : Partition legacyTiers where
  total op := by cases op <;> decide
  disjoint := by decide

namespace Partition

variable {tiers : List (List Operator)} {op : Operator} {level : Nat} {t : Token}

theorem tierIn_lt (h : Partition tiers) : tierIn tiers op < tiers.length := by
  obtain ⟨tier, htier, hop⟩ := h.total op
  exact List.findIdx_lt_length_of_exists ⟨tier, htier, by simpa using hop⟩

theorem contains_getD (h : Partition tiers) :
    (tiers.getD level []).contains op = true ↔ tierIn tiers op = level := by
  constructor
  · intro hop
    have hlevel : level < tiers.length := by
      by_contra hge
      rw [List.getD_eq_default _ _ (Nat.le_of_not_lt hge)] at hop
      cases hop
    rw [List.getD_eq_getElem _ _ hlevel] at hop
    refine (List.findIdx_eq hlevel).2 ⟨hop, fun i hi => ?_⟩
    have hdisjoint := List.pairwise_iff_getElem.1 h.disjoint i level (hi.trans hlevel) hlevel hi
    simpa using fun hmem => hdisjoint op hmem (by simpa using hop)
  · rintro rfl
    rw [List.getD_eq_getElem _ _ h.tierIn_lt]
    exact List.findIdx_getElem

/-- The operator of a tier is the operator of the token, if its tier is this one. -/
theorem operatorOf?_eq_some (h : Partition tiers) :
    Compiler.operatorOf? (tiers.getD level []) t = some op ↔
      t.operator? = some op ∧ tierIn tiers op = level := by
  have hfilter : Compiler.operatorOf? (tiers.getD level []) t =
      t.operator?.filter (tiers.getD level []).contains := by
    unfold Compiler.operatorOf? Token.operator?
    split <;> rfl
  rw [hfilter, Option.filter_eq_some_iff, h.contains_getD]

end Partition

end Operator

def Options.tierOf (o : Options) (op : Operator) : Nat :=
  op.tierIn (if o.legacyPrecedence then Operator.legacyTiers else Operator.tiers)

/-! ### What a tree stands for -/

def Token.wordValue (t : Token) : Value :=
  match t.type with
  | .number => .const (((Decimal.ofText t.text).map Decimal.toBinary32).getD .zero)
  | .string => .stringConst t.unquoted
  | _ => .ofName t.text

namespace ExprTree

/-- The value of a tree. A negated constant is a constant, and everything else that is negated is
taken from zero. -/
def value : ExprTree → Value
  | word t => t.wordValue
  | group e => e.value
  | negation e =>
    match e.value with
    | .const x => .const x.neg
    | v => .binary .sub (.const .zero) v
  | join op l r => .binary op l.value r.value

/-- The numbers of a tree are in range, and only numbers are negated. -/
def Valid : ExprTree → Prop
  | word t => t.type = .number → ∃ d, Decimal.ofText t.text = some d ∧ d.toBinary32.isFinite = true
  | group e => e.Valid
  | negation e => e.Valid ∧ e.value.isFloat = true
  | join _ l r => l.Valid ∧ r.Valid

end ExprTree

namespace Climb

variable {rank : Operator → Nat} {top n : Nat} {p : Climb} {e l : ExprTree} {ts : List Token}

theorem Reads.valid_left (h : Reads rank top (after n l) ts e) (he : e.Valid) : l.Valid := by
  generalize hp : after n l = p at h
  induction h generalizing l with
  | done =>
    cases hp
    exact he
  | more _ _ _ _ _ ih =>
    cases hp
    exact (ih he rfl).1
  | word | group | negation | lone | chain => cases hp

theorem Reads.ne_nil (h : Reads rank top single ts e) : ts ≠ [] := by
  cases h <;> simp

/-! ### Where a phrase ends -/

/-- The next token does not continue a phrase of the tiers below a level. -/
def Quiet (rank : Operator → Nat) (level : Nat) (l : Lexer) : Prop :=
  ∀ t m, Lexer.peekNormal l = .ok t m → ∀ op, t.operator? = some op → level ≤ rank op

/-- A phrase that reaches up to some tier ends with a look at the token after it, which does not
continue it; an operand ends without one. -/
def Ends (rank : Operator → Nat) : Nat → Lexer → Lexer → Prop
  | 0, l, m => m = l
  | level + 1, l, m =>
    ∃ t, Lexer.peekNormal l = .ok t m ∧ ∀ op, t.operator? = some op → level + 1 ≤ rank op

variable {level : Nat} {a b m m' o : Lexer}

theorem Ends.sameNext (h : Ends rank level a b) : SameNext a b := by
  cases level with
  | zero =>
    obtain rfl : b = a := h
    exact .refl
  | succ level =>
    obtain ⟨t, hpeek, -⟩ := h
    exact (Lexer.peekNormal_spec hpeek).1

theorem Ends.quiet (h : Ends rank level a b) : Quiet rank level b := by
  intro t m hpeek op hop
  cases level with
  | zero => exact Nat.zero_le _
  | succ level =>
    obtain ⟨t', hpeek', hstop⟩ := h
    have hsame := (Lexer.peekNormal_spec hpeek').1.peek
    rw [hpeek', hpeek] at hsame
    cases hsame
    exact hstop op hop

theorem Ends.counted (h : Ends rank level a b) (ha : a.Counted) :
    b.Counted ∧ b.remaining.AtMost a.remaining := by
  cases level with
  | zero =>
    obtain rfl : b = a := h
    exact ⟨ha, Or.inr rfl⟩
  | succ level =>
    obtain ⟨t, hpeek, -⟩ := h
    exact Lexer.peekNormal_atMost ha hpeek

/-- Tokens are delivered after a look at the first of them as they are before it. -/
theorem Ends.of_sameNext (hsame : SameNext a b) (h : Delivers b ts m)
    (hends : Ends rank (level + 1) m o) :
    ∃ m', Delivers a ts m' ∧ Ends rank (level + 1) m' o := by
  obtain ⟨m', hm', hlike⟩ := h.of_sameNext hsame
  obtain ⟨t, hpeek, hstop⟩ := hends
  exact ⟨m', hm', t, hlike.peek.trans hpeek, hstop⟩

/-! ### What is returned is read -/

def parser (tiers : List (List Operator)) (bound : Remaining) : Climb → Compiler Value
  | single => Compiler.parseNegation tiers bound
  | within level => Compiler.parseTier tiers bound level
  | after level left => Compiler.parseTierRest tiers bound level left.value

/-- The value is that of a tree that is read from the next tokens, and nothing but the lexer has
changed. -/
def Parsed (tiers : List (List Operator)) (p : Climb) (s : CompileState) (v : Value)
    (s' : CompileState) : Prop :=
  ∃ ts e l, Delivers s.lexer ts l ∧
    Reads (Operator.tierIn tiers) tiers.length p ts e ∧ e.Valid ∧ e.value = v ∧
    Ends (Operator.tierIn tiers) p.level l s'.lexer ∧ s' = { s with lexer := s'.lexer }

end Climb

namespace Compiler

variable {c : CompileContext} {s : CompileState}

theorem gives_peekNormal : Gives (liftM Lexer.peekNormal : Compiler Token) c s fun t s' =>
    ∃ l n, s' = { s with lexer := l } ∧ Lexer.peekNormal s.lexer = .ok t l ∧
      SameNext s.lexer l ∧ Lexer.next s.lexer = .ok t n ∧ Lexer.consume l = .ok () n := by
  refine .mono .lift ?_
  rintro t _ ⟨l, hpeek, rfl⟩
  obtain ⟨hsame, n, hnext, hconsume⟩ := Lexer.peekNormal_spec hpeek
  exact ⟨l, n, rfl, hpeek, hsame, hnext, hconsume⟩

theorem gives_consume_of {n : Lexer} (hn : Lexer.consume s.lexer = .ok () n) :
    Gives (liftM Lexer.consume : Compiler Unit) c s fun _ s' => s' = { s with lexer := n } := by
  refine .mono .lift ?_
  rintro _ _ ⟨l, hl, rfl⟩
  cases hn.symm.trans hl
  rfl

theorem run_peekNormal {t : Token} {m : Lexer}
    (h : Lexer.peekNormal s.lexer = .ok t m) :
    (liftM Lexer.peekNormal : Compiler Token) c s = .ok t { s with lexer := m } := by
  rw [run_lift, h]

theorem run_consume {m : Lexer} (h : Lexer.consume s.lexer = .ok () m) :
    (liftM Lexer.consume : Compiler Unit) c s = .ok () { s with lexer := m } := by
  rw [run_lift, h]

theorem run_remaining :
    (remaining : Compiler Remaining) c s = .ok s.lexer.remaining s := rfl

/-- Where no minus sign is next, an operand is read. -/
theorem parseNegation_run {tiers : List (List Operator)} {bound : Remaining} {t : Token} {o : Lexer}
    (hnext : Lexer.next s.lexer = .ok t o) (ht : ¬ t.IsMinus) :
    ∃ n, Lexer.peekNormal n = .ok t n ∧ Lexer.consume n = .ok () o ∧
      parseNegation tiers bound c s = parseOperand tiers bound c { s with lexer := n } := by
  obtain ⟨n, hpeek, hagain, hconsume⟩ := Lexer.exists_peekNormal hnext
  refine ⟨n, hagain, hconsume, ?_⟩
  rw [parseNegation, bind_run (run_peekNormal hpeek), if_neg (show ¬ (_ ∧ _) from ht)]

end Compiler

namespace Climb

open Compiler

variable {c : CompileContext} {tiers : List (List Operator)}

/-- An expression of some tiers is returned as the value of a tree that is read, and so is whatever
else is read on the way to it. -/
theorem gives_parsed (htiers : Operator.Partition tiers) {bound : Remaining} {level : Nat}
    {s : CompileState} :
    Gives (parseTier tiers bound level) c s (Parsed tiers (within level) s) := by
  refine parseTier.induct tiers
    (fun bound level => ∀ s,
      Gives (parseTier tiers bound level) c s (Parsed tiers (within level) s))
    (fun bound level left => ∀ s (e : ExprTree), e.Valid → e.value = left →
      Quiet (Operator.tierIn tiers) level s.lexer →
      Gives (parseTierRest tiers bound level left) c s (Parsed tiers (after level e) s))
    (fun bound => ∀ s, Gives (parseNegation tiers bound) c s (Parsed tiers single s))
    (fun bound => ∀ s, Gives (parseOperand tiers bound) c s (Parsed tiers single s))
    ?zero ?succ ?rest ?negation ?operand bound level s
  case zero =>
    intro bound hnegation s
    rw [parseTier]
    refine (hnegation s).mono ?_
    rintro v s' ⟨ts, e, l, hts, hreads, hrest⟩
    exact ⟨ts, e, l, hts, .lone hreads, hrest⟩
  case succ =>
    intro bound level hleft hrest s
    rw [parseTier]
    refine .bind (hleft s) ?_
    rintro _ s₁ ⟨ls, l, m, hls, hl, hvalid, rfl, hends, hs₁⟩
    refine (hrest _ s₁ l hvalid rfl hends.quiet).mono ?_
    rintro v s' ⟨ts, e, o, hts, he, hvalid', hvalue, hends', hs'⟩
    obtain ⟨o', ho', hends'⟩ := Ends.of_sameNext hends.sameNext hts hends'
    refine ⟨ls ++ ts, e, o', hls.append ho', .chain hl he, hvalid', hvalue, hends', ?_⟩
    rw [hs', hs₁]
  case rest =>
    intro bound level _ hright hrest s l hvalid hvalue hquiet
    subst hvalue
    rw [parseTierRest]
    refine .bind gives_peekNormal ?_
    rintro t _ ⟨m, n, rfl, hpeek, hsame, hnext, hconsume⟩
    split
    · rename_i hnone
      refine .pure ⟨[], l, s.lexer, .nil, .done, hvalid, rfl, ⟨t, hpeek, fun op hop => ?_⟩, rfl⟩
      refine Nat.lt_of_le_of_ne (hquiet t m hpeek op hop) fun hrank => ?_
      rw [htiers.operatorOf?_eq_some.2 ⟨hop, hrank.symm⟩] at hnone
      cases hnone
    · rename_i op hop
      obtain ⟨hop, hrank⟩ := htiers.operatorOf?_eq_some.1 hop
      refine .bind (gives_consume_of hconsume) ?_
      rintro _ _ rfl
      refine .bind gives_remaining ?_
      rintro now _ ⟨-, rfl⟩
      split
      · rename_i less
        refine .bind (hright now less _) ?_
        rintro _ s₁ ⟨rs, r, m', hrs, hr, hvalid', rfl, hends, hs₁⟩
        refine (hrest op now less _ s₁ (.join op l r) ⟨hvalid, hvalid'⟩ rfl hends.quiet).mono ?_
        rintro v s' ⟨ts, e, o, hts, he, hvalid', hvalue, hends', hs'⟩
        obtain ⟨o', ho', hends'⟩ := Ends.of_sameNext hends.sameNext hts hends'
        refine ⟨t :: (rs ++ ts), e, o', .cons hnext (hrs.append ho'), .more hop hrank hr he,
          hvalid', hvalue, hends', ?_⟩
        rw [hs', hs₁]
      · exact .fail
  case negation =>
    intro bound hnegation hoperand s
    rw [parseNegation]
    refine .bind gives_peekNormal ?_
    rintro t _ ⟨m, n, rfl, -, hsame, hnext, hconsume⟩
    refine .ite (fun hminus => ?_) fun _ => ?_
    · refine .bind (gives_consume_of hconsume) ?_
      rintro _ _ rfl
      refine .bind gives_remaining ?_
      rintro now _ ⟨-, rfl⟩
      split
      · rename_i less
        refine .bind (hnegation now less _) ?_
        rintro _ s₁ ⟨ts, e, l, hts, he, hvalid, rfl, hends, hs₁⟩
        refine .guard fun hfloat => ?_
        have hparsed : Parsed tiers single s (ExprTree.negation e).value s₁ :=
          ⟨t :: ts, .negation e, l, .cons hnext hts, .negation hminus he,
            ⟨hvalid, by simpa using hfloat⟩, rfl, hends, hs₁⟩
        split
        · rename_i hvalue
          exact .pure (by simpa only [ExprTree.value, hvalue] using hparsed)
        · rename_i hvalue
          refine .pure ?_
          simpa only [ExprTree.value] using hparsed
      · exact .fail
    · refine (hoperand _).mono ?_
      rintro v s' ⟨ts, e, l, hts, he, hrest⟩
      exact ⟨ts, e, l, hts.of_sameNext_of_ne_nil hsame he.ne_nil, he, hrest⟩
  case operand =>
    intro bound hinner s
    rw [parseOperand]
    refine .bind gives_peekNormal ?_
    rintro t _ ⟨m, n, rfl, -, -, hnext, hconsume⟩
    have hword (hword : t.IsWord) (hvalid : (ExprTree.word t).Valid) {v : Value}
        (hv : t.wordValue = v) : Parsed tiers single s v { s with lexer := n } :=
      ⟨[t], .word t, n, .cons hnext .nil, .word hword, hvalid, hv, rfl, rfl⟩
    split
    · rename_i hopen
      refine .bind (gives_consume_of hconsume) ?_
      rintro _ _ rfl
      refine .bind gives_remaining ?_
      rintro now _ ⟨-, rfl⟩
      split
      · rename_i less
        refine .bind (hinner now less _) ?_
        rintro _ s₁ ⟨ts, e, l, hts, he, hvalid, rfl, hends, hs₁⟩
        refine .bind .lift ?_
        rintro closing _ ⟨o, hclosing, rfl⟩
        refine .guard fun hclose => .pure ?_
        refine ⟨t :: (ts ++ [closing]), .group e, o,
          .cons hnext (hts.append (.cons (hends.sameNext.next.trans hclosing) .nil)),
          .group hopen (by simpa using hclose) he, hvalid, rfl, rfl, ?_⟩
        rw [hs₁]
      · exact .fail
    · rename_i htype
      refine .bind (gives_consume_of hconsume) ?_
      rintro _ _ rfl
      exact .pure (hword (Or.inr (Or.inl htype)) (by simp [ExprTree.Valid, htype])
        (by simp [Token.wordValue, htype]))
    · rename_i htype
      refine .bind (gives_consume_of hconsume) ?_
      rintro _ _ rfl
      refine .bind gives_floatOfToken ?_
      rintro x _ ⟨⟨d, hd, rfl, hfinite⟩, rfl⟩
      exact .pure (hword (Or.inl htype) (fun _ => ⟨d, hd, hfinite⟩)
        (by simp [Token.wordValue, htype, hd]))
    · rename_i htype
      refine .bind (gives_consume_of hconsume) ?_
      rintro _ _ rfl
      exact .pure (hword (Or.inr (Or.inr htype)) (by simp [ExprTree.Valid, htype])
        (by simp [Token.wordValue, htype]))
    · exact .fail

/-! ### What is read is returned -/

/-- The reader returns the value of the tree from wherever the tokens are delivered, if they end
where the phrase does. -/
def Runs (c : CompileContext) (tiers : List (List Operator)) (p : Climb) (ts : List Token)
    (e : ExprTree) : Prop :=
  ∀ (bound : Remaining) (s : CompileState) (l m : Lexer), s.lexer.Counted →
    s.lexer.remaining.AtMost bound → Delivers s.lexer ts l →
    Ends (Operator.tierIn tiers) p.level l m → e.Valid →
    p.parser tiers bound c s = .ok e.value { s with lexer := m }

/-- A phrase, and the operators of the next tier after it: where the phrase ends, the operators are
looked for. -/
theorem Reads.exists_ends {rank : Operator → Nat} {top n : Nat} {a o o' : Lexer} {l e : ExprTree}
    {ls ts : List Token} (ha : a.Counted) (hdelivers : Delivers a (ls ++ ts) o)
    (h : Reads rank top (after n l) ts e) (hends : Ends rank (n + 1) o o') :
    ∃ m m' k, Delivers a ls m ∧ Ends rank n m m' ∧ (m'.Counted ∧ m'.remaining.AtMost a.remaining) ∧
      Delivers m' ts k ∧ Ends rank (n + 1) k o' := by
  obtain ⟨m, hls, hts⟩ := hdelivers.exists_of_append
  obtain ⟨m', hm'⟩ : ∃ m', Ends rank n m m' := by
    cases n with
    | zero => exact ⟨m, rfl⟩
    | succ n =>
      cases h with
      | done =>
        cases hts
        obtain ⟨t, hpeek, hstop⟩ := hends
        exact ⟨o', t, hpeek, fun op hop => Nat.le_of_succ_le (hstop op hop)⟩
      | more ht hrank _ _ =>
        cases hts with
        | cons hnext _ =>
          obtain ⟨m', hpeek, -⟩ := Lexer.exists_peekNormal hnext
          refine ⟨m', _, hpeek, fun op hop => ?_⟩
          cases ht.symm.trans hop
          exact Nat.le_of_eq hrank.symm
  obtain ⟨hcounted, hmost⟩ := hls.spec ha
  obtain ⟨hcounted', hmost'⟩ := hm'.counted hcounted
  obtain ⟨k, hk, hends'⟩ := Ends.of_sameNext hm'.sameNext.symm hts hends
  exact ⟨m, m', k, hls, hm', ⟨hcounted', hmost'.trans hmost⟩, hk, hends'⟩

/-- Every tree that is read is returned. -/
theorem Reads.runs (htiers : Operator.Partition tiers) {p : Climb} {e : ExprTree} {ts : List Token}
    (h : Reads (Operator.tierIn tiers) tiers.length p ts e) : Runs c tiers p ts e := by
  induction h with
  | @word t h =>
    intro bound s o _ hs hbound hts hends hvalid
    cases hends
    obtain ⟨_, hnext, hrest⟩ := hts.exists_next
    cases hrest
    have hminus : ¬ t.IsMinus := fun hminus => by
      rcases h with h | h | h <;> rw [hminus.1] at h <;> cases h
    obtain ⟨n, hpeek, hconsume, hrun⟩ := parseNegation_run (c := c) hnext hminus
    refine hrun.trans ?_
    rw [parseOperand, bind_run (run_peekNormal hpeek), ExprTree.value, Token.wordValue]
    rcases h with htype | htype | htype
    · obtain ⟨d, hd, hfinite⟩ := hvalid htype
      have hfloat : floatOfToken t = (pure d.toBinary32 : Compiler Binary32) := by
        simp [floatOfToken, htype, hd, hfinite]
      rw [htype]
      dsimp only
      rw [bind_run (run_consume hconsume), hfloat, hd]
      rfl
    · rw [htype]
      dsimp only
      rw [bind_run (run_consume hconsume)]
      rfl
    · rw [htype]
      dsimp only
      rw [bind_run (run_consume hconsume)]
      rfl
  | @group t closing e ts ho hc h ih =>
    intro bound s l _ hs hbound hts hends hvalid
    cases hends
    obtain ⟨o, hnext, hrest⟩ := hts.exists_next
    obtain ⟨m, hm, hclosing⟩ := hrest.exists_of_append
    obtain ⟨_, hclosing, hend⟩ := hclosing.exists_next
    cases hend
    have hminus : ¬ t.IsMinus := fun hminus => by
      rw [hminus.1] at ho
      cases ho
    obtain ⟨n, hpeek, hconsume, hrun⟩ := parseNegation_run (c := c) hnext hminus
    obtain ⟨ho', -, hless⟩ := Lexer.next_spec hs hnext
    have less : o.remaining.Less bound := Lexer.Remaining.AtMost.less (hless (by simp [ho])) hbound
    -- the closing parenthesis is looked at as what might continue the expression
    obtain ⟨m', hm'⟩ : ∃ m', Ends (Operator.tierIn tiers) tiers.length m m' := by
      cases tiers.length with
      | zero => exact ⟨m, rfl⟩
      | succ level =>
        obtain ⟨m', hpeek, -⟩ := Lexer.exists_peekNormal hclosing
        refine ⟨m', closing, hpeek, fun op hop => ?_⟩
        have htype := Token.type_of_operator? hop
        rw [hc] at htype
        cases htype
    have hinner : parseTier tiers o.remaining tiers.length c { s with lexer := o } =
        .ok e.value { s with lexer := m' } :=
      ih o.remaining { s with lexer := o } m m' ho' (.inr rfl) hm hm' hvalid
    have hafter : (liftM Lexer.next : Compiler Token) c { s with lexer := m' } =
        .ok closing { s with lexer := l } := by
      rw [run_lift, ← hm'.sameNext.next, hclosing]
    refine hrun.trans ?_
    rw [parseOperand, bind_run (run_peekNormal hpeek), ho]
    dsimp only
    rw [bind_run (run_consume hconsume), bind_run run_remaining]
    dsimp only
    rw [dif_pos less, bind_run hinner, bind_run hafter, if_neg (by simp [hc])]
    rfl
  | @negation t e ts hm h ih =>
    intro bound s l m hs hbound hts hends hvalid
    obtain ⟨o, hnext, hrest⟩ := hts.exists_next
    obtain ⟨n, hpeek, -, hconsume⟩ := Lexer.exists_peekNormal hnext
    obtain ⟨ho, -, hless⟩ := Lexer.next_spec hs hnext
    have less : o.remaining.Less bound :=
      Lexer.Remaining.AtMost.less (hless (by simp [hm.1])) hbound
    have hinner : parseNegation tiers o.remaining c { s with lexer := o } =
        .ok e.value { s with lexer := m } :=
      ih o.remaining { s with lexer := o } l m ho (.inr rfl) hrest hends hvalid.1
    change parseNegation tiers bound c s = _
    rw [parseNegation, bind_run (run_peekNormal hpeek), if_pos (show _ ∧ _ from hm),
      bind_run (run_consume hconsume), bind_run run_remaining]
    dsimp only
    rw [dif_pos less, bind_run hinner, hvalid.2, ExprTree.value]
    cases e.value <;> rfl
  | lone h ih =>
    intro bound s l m hs hbound hts hends hvalid
    change parseTier tiers bound 0 c s = _
    rw [parseTier]
    exact ih bound s l m hs hbound hts hends hvalid
  | @chain n l e ls ts hl h ihl ih =>
    intro bound s o o' hs hbound hts hends hvalid
    obtain ⟨m, m', k, hls, hm', ⟨hcounted, hmost⟩, hk, hends'⟩ := h.exists_ends hs hts hends
    have hleft : parseTier tiers bound n c s = .ok l.value { s with lexer := m' } :=
      ihl bound s m m' hs hbound hls hm' (h.valid_left hvalid)
    change parseTier tiers bound (n + 1) c s = _
    rw [parseTier, bind_run hleft]
    exact ih bound { s with lexer := m' } k o' hcounted (hmost.trans hbound) hk hends' hvalid
  | @done n l =>
    intro bound s o o' hs hbound hts hends hvalid
    cases hts
    obtain ⟨t, hpeek, hstop⟩ := hends
    have hnone : operatorOf? (tiers.getD n []) t = none := by
      refine Option.eq_none_iff_forall_ne_some.2 fun op hop => ?_
      obtain ⟨hop, hrank⟩ := htiers.operatorOf?_eq_some.1 hop
      exact absurd (hstop op hop) (by omega)
    change parseTierRest tiers bound n l.value c s = _
    rw [parseTierRest, bind_run (run_peekNormal hpeek), hnone]
    rfl
  | @more n l r e t op rs ts ht hrank hr h ihr ih =>
    intro bound s o o' hs hbound hts hends hvalid
    obtain ⟨b, hnext, hrest⟩ := hts.exists_next
    obtain ⟨a, hpeek, -, hconsume⟩ := Lexer.exists_peekNormal hnext
    obtain ⟨hb, -, hless⟩ := Lexer.next_spec hs hnext
    have less : b.remaining.Less bound :=
      Lexer.Remaining.AtMost.less (hless (by simp [Token.type_of_operator? ht])) hbound
    obtain ⟨m, m', k, hrs, hm', ⟨hcounted, hmost⟩, hk, hends'⟩ := h.exists_ends hb hrest hends
    have hright : parseTier tiers b.remaining n c { s with lexer := b } =
        .ok r.value { s with lexer := m' } :=
      ihr b.remaining { s with lexer := b } m m' hb (.inr rfl) hrs hm' (h.valid_left hvalid).2
    change parseTierRest tiers bound n l.value c s = _
    rw [parseTierRest, bind_run (run_peekNormal hpeek),
      htiers.operatorOf?_eq_some.2 ⟨ht, hrank⟩]
    dsimp only
    rw [bind_run (run_consume hconsume), bind_run run_remaining]
    dsimp only
    rw [dif_pos less, bind_run hright]
    exact ih b.remaining { s with lexer := m' } k o' hcounted hmost hk hends' hvalid

end Climb

/-! ### Expressions -/

theorem Options.exists_tiers (o : Options) : ∃ tiers, Operator.Partition tiers ∧
    tiers = (if o.legacyPrecedence then Operator.legacyTiers else Operator.tiers) ∧
    o.tierOf = Operator.tierIn tiers := by
  refine ⟨_, ?_, rfl, rfl⟩
  split
  · exact Operator.partition_legacyTiers
  · exact Operator.partition_tiers

/-- In the table of tiers that the options choose, the tokens of an expression have one tree whose
operators are ordered by their tiers. An expression is read exactly if the next tokens are those of
an expression before a token that is no operator, its numbers are in range and only numbers are
negated. Its value is that of the one tree, and its tokens are all that is taken. -/
theorem Compiler.parseExpr_eq_ok_iff (c : CompileContext) (s : CompileState)
    (hs : s.lexer.Counted) :
    (∀ ts, ExprPhrase.expression.Has ts →
      ∃! e : ExprTree, e.Spells ts ∧ e.Ordered c.options.tierOf) ∧
    ∀ v s', parseExpr c s = .ok v s' ↔
      ∃ (ts : List Token) (l : Lexer) (follow : Token) (e : ExprTree),
        (Delivers s.lexer ts l ∧ Lexer.peekNormal l = .ok follow s'.lexer ∧
          s' = { s with lexer := s'.lexer }) ∧
        (ExprPhrase.expression.Has ts ∧ follow.operator? = none) ∧
        e.Spells ts ∧ e.Ordered c.options.tierOf ∧ e.Valid ∧ e.value = v := by
  obtain ⟨tiers, htiers, heq, htier⟩ := c.options.exists_tiers
  rw [htier]
  have hrun : parseExpr c s = parseTier tiers s.lexer.remaining tiers.length c s := by
    rw [heq]
    rfl
  have htop (op : Operator) : Operator.tierIn tiers op < tiers.length := htiers.tierIn_lt
  obtain ⟨top, hlength⟩ : ∃ top, tiers.length = top + 1 :=
    Nat.exists_eq_succ_of_ne_zero (Nat.ne_of_gt (Nat.lt_of_le_of_lt (Nat.zero_le _) (htop .or)))
  refine ⟨fun ts h => ExprTree.existsUnique_ordered htop h, fun v s' => ?_⟩
  rw [hrun]
  constructor
  · intro h
    obtain ⟨ts, e, l, hts, hreads, hvalid, hvalue, hends, hs'⟩ := Climb.gives_parsed htiers v s' h
    obtain ⟨hspells, hordered, -⟩ := hreads.describes
    rw [Climb.level, hlength] at hends
    obtain ⟨follow, hpeek, hstop⟩ := hends
    refine ⟨ts, l, follow, e, ⟨hts, hpeek, hs'⟩, ⟨(hspells.has hordered).2, ?_⟩, hspells, hordered,
      hvalid, hvalue⟩
    refine Option.eq_none_iff_forall_ne_some.2 fun op hop => ?_
    have hle := hstop op hop
    rw [← hlength] at hle
    exact absurd (htop op) (Nat.not_lt_of_le hle)
  · rintro ⟨ts, l, follow, e, ⟨hts, hpeek, hs'⟩, ⟨-, hfollow⟩, hspells, hordered, hvalid, rfl⟩
    have hreads := (Climb.reads_of_ordered hspells hordered htop).2 tiers.length fun op _ => htop op
    have hends : Climb.Ends (Operator.tierIn tiers) tiers.length l s'.lexer := by
      rw [hlength]
      exact ⟨follow, hpeek, by simp [hfollow]⟩
    rw [hs']
    exact hreads.runs htiers s.lexer.remaining s l s'.lexer hs (.inr rfl) hts hends hvalid

/-- Two differences around a product, whose left side is negated. -/
def mixedState : CompileState := ⟨.ofSource (utf8 "a - -b * (c < d) - e") [] true, [], 0, []⟩

def mixedValue : Value :=
  .binary .sub
    (.binary .sub (.floatVar (utf8 "a"))
      (.binary .mul (.binary .sub (.const .zero) (.floatVar (utf8 "b")))
        (.binary .lt (.floatVar (utf8 "c")) (.floatVar (utf8 "d")))))
    (.floatVar (utf8 "e"))

theorem Compiler.parseExpr_eq_ok_iff_mixed :
    mixedState.lexer.Counted ∧ ∃ s' ts e, parseExpr ⟨Options.defaults, 0⟩ mixedState =
      .ok mixedValue s' ∧ e.Spells ts ∧ e.Ordered Options.defaults.tierOf ∧
      e.value = mixedValue ∧ ∀ e' : ExprTree,
        e'.Spells ts → e'.Ordered Options.defaults.tierOf → e' = e := by
  have hcounted := Lexer.counted_ofSource (utf8 "a - -b * (c < d) - e") [] true
  have hrun : parseExpr ⟨Options.defaults, 0⟩ mixedState = .ok mixedValue
      { mixedState with lexer :=
        ⟨⟨[], 0, ⟨[], 0, 20⟩⟩, true, [⟨.endOfFile, [], ⟨[], 0, 20⟩⟩], []⟩ } := by cbv
  obtain ⟨hunique, hread⟩ := parseExpr_eq_ok_iff ⟨Options.defaults, 0⟩ mixedState hcounted
  obtain ⟨ts, l, follow, e, -, ⟨hts, -⟩, hspells, hordered, -, hvalue⟩ := (hread _ _).1 hrun
  refine ⟨hcounted, _, ts, e, hrun, hspells, hordered, hvalue, fun e' he hordered' => ?_⟩
  exact (hunique ts hts).unique ⟨he, hordered'⟩ ⟨hspells, hordered⟩

end ApeScript
