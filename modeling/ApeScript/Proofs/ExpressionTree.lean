import ApeScript.Compile.Expression
import Mathlib.Tactic.Common
import Mathlib.Logic.ExistsUnique

/-!
# Trees over the operands of an expression

The tokens of an expression spell many trees; a table of ranks leaves one of them. An operator's
left side may have operators of its rank or below, its right side only those below, and a minus sign
before an operand has no operator below it but in parentheses (`ExprTree.Ordered`).
`Climb.Reads` follows the way in which such a tree is read, one tier above the other.
-/

namespace ApeScript

/-! ### Tokens -/

namespace Token

variable {t : Token}

def operator? (t : Token) : Option Operator :=
  if t.type = .operator then Operator.ofSymbol? t.text else none

def IsWord (t : Token) : Prop := t.type = .number ∨ t.type = .string ∨ t.type = .identifier

def IsMinus (t : Token) : Prop := t.type = .operator ∧ t.text = Operator.sub.symbol

theorem operator?_of_ne (h : t.type ≠ .operator) : t.operator? = none := if_neg h

theorem type_of_operator? {op : Operator} (h : t.operator? = some op) : t.type = .operator := by
  by_contra hne
  rw [operator?_of_ne hne] at h
  cases h

end Token

/-! ### Expressions as tokens -/

inductive ExprPhrase where
  | operand
  | expression

/-- The tokens of a phrase: operands are words and expressions in parentheses, with minus signs
before them, and an expression is one operand or several with operators between them. -/
inductive ExprPhrase.Has : ExprPhrase → List Token → Prop where
  | word {t : Token} (h : t.IsWord) : Has operand [t]
  | parentheses {o c : Token} {ts : List Token} (ho : o.type = .openParen)
      (hc : c.type = .closeParen) (h : Has expression ts) : Has operand (o :: (ts ++ [c]))
  | minus {m : Token} {ts : List Token} (hm : m.IsMinus) (h : Has operand ts) :
      Has operand (m :: ts)
  | lone {ts : List Token} (h : Has operand ts) : Has expression ts
  | joined {ls rs : List Token} {t : Token} {op : Operator} (hl : Has operand ls)
      (ht : t.operator? = some op) (hr : Has expression rs) : Has expression (ls ++ t :: rs)

theorem ExprPhrase.Has.join {ls rs : List Token} {t : Token} {op : Operator}
    (hl : Has expression ls) (ht : t.operator? = some op) (hr : Has expression rs) :
    Has expression (ls ++ t :: rs) := by
  generalize hp : expression = p at hl
  induction hl with
  | word | parentheses | minus => cases hp
  | lone h => exact .joined h ht hr
  | joined hl ht' _ _ ih =>
    rw [List.append_assoc]
    exact .joined hl ht' (ih rfl)

/-! ### Trees -/

inductive ExprTree where
  | word (t : Token)
  | group (e : ExprTree)
  | negation (e : ExprTree)
  | join (op : Operator) (left right : ExprTree)

namespace ExprTree

/-- The operator at the root, unless it is in parentheses or below a minus sign. -/
def root? : ExprTree → Option Operator
  | join op _ _ => some op
  | _ => none

/-- The tokens of a tree, with parentheses where it has groups and nowhere else. -/
inductive Spells : ExprTree → List Token → Prop where
  | word {t : Token} (h : t.IsWord) : Spells (.word t) [t]
  | group {o c : Token} {e : ExprTree} {ts : List Token} (ho : o.type = .openParen)
      (hc : c.type = .closeParen) (h : Spells e ts) : Spells (.group e) (o :: (ts ++ [c]))
  | negation {m : Token} {e : ExprTree} {ts : List Token} (hm : m.IsMinus) (h : Spells e ts) :
      Spells (.negation e) (m :: ts)
  | join {op : Operator} {l r : ExprTree} {t : Token} {ls rs : List Token} (hl : Spells l ls)
      (ht : t.operator? = some op) (hr : Spells r rs) : Spells (.join op l r) (ls ++ t :: rs)

/-- Without parentheses, what stands to the left of an operator has operators of its tier or a
tighter one, what stands to its right only those of a tighter one, and what stands after a minus
sign has none. -/
def Ordered (rank : Operator → Nat) : ExprTree → Prop
  | word _ => True
  | group e => e.Ordered rank
  | negation e => e.Ordered rank ∧ e.root? = none
  | join op l r => (l.Ordered rank ∧ ∀ o ∈ l.root?, rank o ≤ rank op) ∧
      r.Ordered rank ∧ ∀ o ∈ r.root?, rank o < rank op

variable {rank : Operator → Nat} {e u : ExprTree} {ts us : List Token} {t : Token} {op : Operator}

theorem Spells.has (h : e.Spells ts) (hordered : e.Ordered rank) :
    (e.root? = none → ExprPhrase.operand.Has ts) ∧ ExprPhrase.expression.Has ts := by
  induction h with
  | word h => exact ⟨fun _ => .word h, .lone (.word h)⟩
  | group ho hc _ ih =>
    have hgroup := ExprPhrase.Has.parentheses ho hc (ih hordered).2
    exact ⟨fun _ => hgroup, .lone hgroup⟩
  | negation hm _ ih =>
    have hminus := ExprPhrase.Has.minus hm ((ih hordered.1).1 hordered.2)
    exact ⟨fun _ => hminus, .lone hminus⟩
  | join _ ht _ ihl ihr =>
    obtain ⟨⟨hl, -⟩, hr, -⟩ := hordered
    exact ⟨fun h => (by cases h), .join (ihl hl).2 ht (ihr hr).2⟩

/-! ### Every expression has a tree -/

def graft (rank : Operator → Nat) (u : ExprTree) (op : Operator) : ExprTree → ExprTree
  | join op' l r =>
    if rank op ≤ rank op' then join op' (graft rank u op l) r else join op u (join op' l r)
  | e => join op u e

theorem spells_graft (hu : u.Spells us) (ht : t.operator? = some op) (h : e.Spells ts) :
    (graft rank u op e).Spells (us ++ t :: ts) := by
  induction e generalizing ts with
  | join op' l r ihl _ =>
    unfold graft
    split
    · cases h with
      | join hl ht' hr =>
        rw [← List.cons_append, ← List.append_assoc]
        exact .join (ihl hl) ht' hr
    · exact .join hu ht h
  | word | group | negation => exact .join hu ht h

theorem root?_graft {o : Operator} (h : o ∈ (graft rank u op e).root?) :
    o = op ∨ o ∈ e.root? := by
  unfold graft at h
  split at h
  · split at h
    · exact Or.inr h
    · exact Or.inl (Option.some.inj h).symm
  · exact Or.inl (Option.some.inj h).symm

theorem ordered_graft (hu : u.Ordered rank) (hroot : u.root? = none) (h : e.Ordered rank) :
    (graft rank u op e).Ordered rank := by
  have hplain {e : ExprTree} (he : e.Ordered rank) (hless : ∀ o ∈ e.root?, rank o < rank op) :
      (join op u e).Ordered rank := ⟨⟨hu, by simp [hroot]⟩, he, hless⟩
  induction e with
  | join op' l r ihl _ =>
    obtain ⟨⟨hl, hleft⟩, hr⟩ := h
    unfold graft
    split_ifs with hle
    · refine ⟨⟨ihl hl, fun o ho => ?_⟩, hr⟩
      rcases root?_graft ho with rfl | ho
      · exact hle
      · exact hleft o ho
    · refine hplain ⟨⟨hl, hleft⟩, hr⟩ fun o ho => ?_
      obtain rfl : op' = o := Option.some.inj ho
      exact Nat.lt_of_not_le hle
  | word | group | negation => exact hplain h (by simp [root?])

theorem exists_ordered {p : ExprPhrase} (h : p.Has ts) :
    ∃ e : ExprTree, e.Spells ts ∧ e.Ordered rank ∧ (p = .operand → e.root? = none) := by
  induction h with
  | word h => exact ⟨_, .word h, trivial, fun _ => rfl⟩
  | parentheses ho hc _ ih =>
    obtain ⟨e, hspells, hordered, -⟩ := ih
    exact ⟨_, .group ho hc hspells, hordered, fun _ => rfl⟩
  | minus hm _ ih =>
    obtain ⟨e, hspells, hordered, hroot⟩ := ih
    exact ⟨_, .negation hm hspells, ⟨hordered, hroot rfl⟩, fun _ => rfl⟩
  | lone _ ih =>
    obtain ⟨e, hspells, hordered, -⟩ := ih
    exact ⟨e, hspells, hordered, by simp⟩
  | joined _ ht _ ihl ihr =>
    obtain ⟨u, hu, huordered, hroot⟩ := ihl
    obtain ⟨e, he, hordered, -⟩ := ihr
    exact ⟨_, spells_graft hu ht he, ordered_graft huordered (hroot rfl) hordered, by simp⟩

end ExprTree

/-! ### Climbing -/

/-- What is read at once: an operand, an expression of the tiers below a level, or what follows the
left side of an operator at a level. -/
inductive Climb where
  | single
  | within (level : Nat)
  | after (level : Nat) (left : ExprTree)

namespace Climb

def level : Climb → Nat
  | single => 0
  | within level => level
  | after level _ => level + 1

/-- How trees are read: an expression of some tiers is one of the tighter tiers, and the operators
of the last tier after it, each with an expression of the tighter tiers to its right. -/
inductive Reads (rank : Operator → Nat) (top : Nat) : Climb → List Token → ExprTree → Prop where
  | word {t : Token} (h : t.IsWord) : Reads rank top single [t] (.word t)
  | group {o c : Token} {e : ExprTree} {ts : List Token} (ho : o.type = .openParen)
      (hc : c.type = .closeParen) (h : Reads rank top (within top) ts e) :
      Reads rank top single (o :: (ts ++ [c])) (.group e)
  | negation {m : Token} {e : ExprTree} {ts : List Token} (hm : m.IsMinus)
      (h : Reads rank top single ts e) : Reads rank top single (m :: ts) (.negation e)
  | lone {e : ExprTree} {ts : List Token} (h : Reads rank top single ts e) :
      Reads rank top (within 0) ts e
  | chain {n : Nat} {l e : ExprTree} {ls ts : List Token} (hl : Reads rank top (within n) ls l)
      (h : Reads rank top (after n l) ts e) : Reads rank top (within (n + 1)) (ls ++ ts) e
  | done {n : Nat} {l : ExprTree} : Reads rank top (after n l) [] l
  | more {n : Nat} {l r e : ExprTree} {t : Token} {op : Operator} {rs ts : List Token}
      (ht : t.operator? = some op) (hrank : rank op = n) (hr : Reads rank top (within n) rs r)
      (h : Reads rank top (after n (.join op l r)) ts e) :
      Reads rank top (after n l) (t :: (rs ++ ts)) e

variable {rank : Operator → Nat} {top n : Nat} {p : Climb} {e e' l r : ExprTree}
  {ts ts' ls rs follow follow' : List Token} {t : Token} {op : Operator}

def Describes (rank : Operator → Nat) : Climb → List Token → ExprTree → Prop
  | single, ts, e => e.Spells ts ∧ e.Ordered rank ∧ e.root? = none
  | within n, ts, e => e.Spells ts ∧ e.Ordered rank ∧ ∀ o ∈ e.root?, rank o < n
  | after n l, ts, e => ∀ ls, l.Spells ls → l.Ordered rank → (∀ o ∈ l.root?, rank o < n + 1) →
      e.Spells (ls ++ ts) ∧ e.Ordered rank ∧ ∀ o ∈ e.root?, rank o < n + 1

theorem Reads.describes (h : Reads rank top p ts e) : Describes rank p ts e := by
  induction h with
  | word h => exact ⟨.word h, trivial, rfl⟩
  | group ho hc _ ih => exact ⟨.group ho hc ih.1, ih.2.1, rfl⟩
  | negation hm _ ih => exact ⟨.negation hm ih.1, ih.2, rfl⟩
  | lone _ ih => exact ⟨ih.1, ih.2.1, by simp [ih.2.2]⟩
  | chain _ _ ihl ih => exact ih _ ihl.1 ihl.2.1 fun o ho => Nat.lt_succ_of_lt (ihl.2.2 o ho)
  | done =>
    intro ls hspells hordered htight
    exact ⟨by simpa using hspells, hordered, htight⟩
  | @more n l r e t op rs ts ht hrank _ _ ihr ih =>
    intro ls hspells hordered htight
    subst hrank
    have hroot : ∀ o ∈ (ExprTree.join op l r).root?, rank o < rank op + 1 := by
      intro o ho
      obtain rfl : op = o := Option.some.inj ho
      exact Nat.lt_succ_self _
    have hjoin := ih (ls ++ t :: rs) (.join hspells ht ihr.1)
      ⟨⟨hordered, fun o ho => Nat.le_of_lt_succ (htight o ho)⟩, ihr.2⟩ hroot
    simpa using hjoin

theorem Reads.raise {m : Nat} (h : Reads rank top (within n) ts e) (hle : n ≤ m) :
    Reads rank top (within m) ts e := by
  induction hle with
  | refl => exact h
  | step _ ih => simpa using Reads.chain ih .done

/-- One more operator of the tier. -/
theorem Reads.snoc (h : Reads rank top (after n l) ts e) (ht : t.operator? = some op)
    (hrank : rank op = n) (hr : Reads rank top (within n) rs r) :
    Reads rank top (after n l) (ts ++ t :: rs) (.join op e r) := by
  generalize hp : after n l = p at h
  induction h generalizing l with
  | done =>
    cases hp
    simpa using Reads.more ht hrank hr .done
  | more ht' hrank' hr' _ _ ih =>
    cases hp
    rw [List.cons_append, List.append_assoc]
    exact .more ht' hrank' hr' (ih rfl)
  | word | group | negation | lone | chain => cases hp

/-- An ordered tree is read from its tokens. -/
theorem reads_of_ordered (hspells : e.Spells ts) (hordered : e.Ordered rank)
    (htop : ∀ op, rank op < top) :
    (e.root? = none → Reads rank top single ts e) ∧
      ∀ n, (∀ o ∈ e.root?, rank o < n) → Reads rank top (within n) ts e := by
  have hboth {e : ExprTree} {ts : List Token} (h : Reads rank top single ts e) :
      (e.root? = none → Reads rank top single ts e) ∧
        ∀ n, (∀ o ∈ e.root?, rank o < n) → Reads rank top (within n) ts e :=
    ⟨fun _ => h, fun n _ => (Reads.lone h).raise (Nat.zero_le n)⟩
  induction hspells with
  | word h => exact hboth (.word h)
  | group ho hc _ ih => exact hboth (.group ho hc ((ih hordered).2 top fun o _ => htop o))
  | negation hm _ ih => exact hboth (.negation hm ((ih hordered.1).1 hordered.2))
  | @join op l r t ls rs _ ht _ ihl ihr =>
    refine ⟨fun h => (by cases h), fun n htight => ?_⟩
    obtain ⟨⟨hl, hleft⟩, hr, hright⟩ := hordered
    have hlevel : Reads rank top (within (rank op + 1)) (ls ++ t :: rs) (.join op l r) := by
      cases (ihl hl).2 (rank op + 1) fun o ho => Nat.lt_succ_of_le (hleft o ho) with
      | chain hl hrest =>
        rw [List.append_assoc]
        exact .chain hl (hrest.snoc ht rfl ((ihr hr).2 (rank op) hright))
    exact hlevel.raise (htight op rfl)

/-! ### Trees are read in one way -/

def Stops (rank : Operator → Nat) (level : Nat) (follow : List Token) : Prop :=
  ∀ t ∈ follow.head?, ∀ op, t.operator? = some op → level ≤ rank op

theorem Stops.of_le {m : Nat} (h : Stops rank m follow) (hle : n ≤ m) : Stops rank n follow :=
  fun t ht op hop => Nat.le_trans hle (h t ht op hop)

theorem stops_cons (ht : t.operator? = some op) (hle : n ≤ rank op) :
    Stops rank n (t :: follow) := by
  rintro _ ⟨⟩ op' hop
  cases ht.symm.trans hop
  exact hle

theorem stops_of_ne_operator (ht : t.type ≠ .operator) : Stops rank n (t :: follow) := by
  rintro _ ⟨⟩ op hop
  exact absurd (Token.type_of_operator? hop) ht

theorem Reads.stops (h : Reads rank top (after n l) ts e) (hfollow : Stops rank (n + 1) follow) :
    Stops rank n (ts ++ follow) := by
  cases h with
  | done => exact hfollow.of_le (Nat.le_succ n)
  | more ht hrank _ _ => exact stops_cons ht (Nat.le_of_eq hrank.symm)

theorem Reads.unique (h : Reads rank top p ts e) (hfollow : Stops rank p.level follow)
    (h' : Reads rank top p ts' e') (hfollow' : Stops rank p.level follow')
    (heq : ts ++ follow = ts' ++ follow') : ts = ts' ∧ e = e' := by
  induction h generalizing ts' e' follow follow' with
  | word h =>
    cases h' with
    | word =>
      obtain ⟨rfl, -⟩ := List.cons.inj heq
      exact ⟨rfl, rfl⟩
    | group ho' =>
      obtain ⟨rfl, -⟩ := List.cons.inj heq
      simp [Token.IsWord, ho'] at h
    | negation hm' =>
      obtain ⟨rfl, -⟩ := List.cons.inj heq
      simp [Token.IsWord, hm'.1] at h
  | group ho hc _ ih =>
    cases h' with
    | word h' =>
      obtain ⟨rfl, -⟩ := List.cons.inj heq
      simp [Token.IsWord, ho] at h'
    | group ho' hc' h' =>
      simp only [List.cons_append, List.append_assoc, List.cons.injEq] at heq
      obtain ⟨rfl, heq⟩ := heq
      obtain ⟨rfl, rfl⟩ := ih (stops_of_ne_operator (by simp [hc])) h'
        (stops_of_ne_operator (by simp [hc'])) heq
      obtain ⟨rfl, -⟩ := List.cons.inj (List.append_cancel_left heq)
      exact ⟨rfl, rfl⟩
    | negation hm' =>
      obtain ⟨rfl, -⟩ := List.cons.inj heq
      simp [Token.IsMinus, ho] at hm'
  | negation hm _ ih =>
    cases h' with
    | word h' =>
      obtain ⟨rfl, -⟩ := List.cons.inj heq
      simp [Token.IsWord, hm.1] at h'
    | group ho' =>
      obtain ⟨rfl, -⟩ := List.cons.inj heq
      simp [Token.IsMinus, ho'] at hm
    | negation _ h' =>
      simp only [List.cons_append, List.cons.injEq] at heq
      obtain ⟨rfl, heq⟩ := heq
      obtain ⟨rfl, rfl⟩ := ih hfollow h' hfollow' heq
      exact ⟨rfl, rfl⟩
  | lone _ ih =>
    cases h' with
    | lone h' => exact ih hfollow h' hfollow' heq
  | chain hl hrest ihl ih =>
    cases h' with
    | chain hl' hrest' =>
      rw [List.append_assoc, List.append_assoc] at heq
      obtain ⟨rfl, rfl⟩ := ihl (hrest.stops hfollow) hl' (hrest'.stops hfollow') heq
      obtain ⟨rfl, rfl⟩ := ih hfollow hrest' hfollow' (List.append_cancel_left heq)
      exact ⟨rfl, rfl⟩
  | done =>
    cases h' with
    | done => exact ⟨rfl, rfl⟩
    | more ht hrank =>
      -- what follows the first phrase would have to continue it
      rw [List.nil_append] at heq
      have hle : _ + 1 ≤ rank _ := hfollow _ (by simp [heq]) _ ht
      omega
  | more ht hrank hr hrest ihr ih =>
    cases h' with
    | done =>
      rw [List.nil_append] at heq
      have hle : _ + 1 ≤ rank _ := hfollow' _ (by simp [← heq]) _ ht
      omega
    | more ht' hrank' hr' hrest' =>
      simp only [List.cons_append, List.append_assoc, List.cons.injEq] at heq
      obtain ⟨rfl, heq⟩ := heq
      cases ht.symm.trans ht'
      obtain ⟨rfl, rfl⟩ := ihr (hrest.stops hfollow) hr' (hrest'.stops hfollow') heq
      obtain ⟨rfl, rfl⟩ := ih hfollow hrest' hfollow' (List.append_cancel_left heq)
      exact ⟨rfl, rfl⟩

end Climb

/-- Every expression has one ordered tree. -/
theorem ExprTree.existsUnique_ordered {rank : Operator → Nat} {top : Nat}
    (htop : ∀ op, rank op < top) {ts : List Token} (h : ExprPhrase.expression.Has ts) :
    ∃! e : ExprTree, e.Spells ts ∧ e.Ordered rank := by
  obtain ⟨e, hspells, hordered, -⟩ : ∃ e : ExprTree, e.Spells ts ∧ e.Ordered rank ∧ _ :=
    exists_ordered h
  refine ⟨e, ⟨hspells, hordered⟩, ?_⟩
  rintro e' ⟨hspells', hordered'⟩
  have hread := (Climb.reads_of_ordered hspells hordered htop).2 top fun o _ => htop o
  have hread' := (Climb.reads_of_ordered hspells' hordered' htop).2 top fun o _ => htop o
  have hend : Climb.Stops rank top [] := by simp [Climb.Stops]
  exact (hread'.unique hend hread hend rfl).2

end ApeScript
