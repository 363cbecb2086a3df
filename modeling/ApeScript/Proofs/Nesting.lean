import Mathlib

/-!
# How blocks nest

A body is a list of signs: directives, the `if` and `else` of branches, and closing braces. By the
usual grammar the signs are those of a `Passage`, in which an `else` belongs to the nearest `if`
before it that has none. A `Nest` reads signs one after the other; it keeps the open branches, and
those that ended just before, of which an `else` continues the innermost and opens the others again.

A nest accepts the signs of a passage exactly if every branch without braces that has an `else` is a
single directive, and it meets each directive inside the branches that the passage puts it in
(`Nest.run?_signs`). Whatever a nest accepts, with nothing left open, is a passage
(`exists_passage`).
-/

namespace ApeScript

/-- What a body says at one point. An `if` or `else` is followed by an opening brace or not. -/
inductive Sign (γ δ : Type) where
  | plain (d : δ)
  | opening (condition : γ) (braced : Bool)
  | otherwise (braced : Bool)
  | closing
  deriving DecidableEq, Repr

namespace Sign

variable {γ δ : Type}

def isOtherwise : Sign γ δ → Bool
  | otherwise _ => true
  | _ => false

def isStart : Sign γ δ → Bool
  | plain _ => true
  | opening _ _ => true
  | _ => false

end Sign

/-- A part of a body: directives and branches, one after the other. -/
inductive Passage (γ δ : Type) where
  | done
  | plain (d : δ) (rest : Passage γ δ)
  | ifThen (condition : γ) (braced : Bool) (branch rest : Passage γ δ)
  | ifElse (condition : γ) (braced : Bool) (branch : Passage γ δ) (braced' : Bool)
      (alternative rest : Passage γ δ)
  deriving DecidableEq, Repr

structure Guard (γ : Type) where
  condition : γ
  braced : Bool
  isElse : Bool
  deriving DecidableEq, Repr

/-- The open branches, and those that ended just before, the innermost first. -/
structure Nest (γ : Type) where
  opened : List (Guard γ)
  closed : List (Guard γ)
  deriving DecidableEq, Repr

variable {γ δ : Type}

def closers (braced : Bool) : List (Sign γ δ) := if braced then [.closing] else []

namespace Passage

def signs : Passage γ δ → List (Sign γ δ)
  | done => []
  | plain d rest => .plain d :: rest.signs
  | ifThen c b p rest => .opening c b :: (p.signs ++ closers b ++ rest.signs)
  | ifElse c b p b' q rest =>
    .opening c b :: (p.signs ++ closers b ++ .otherwise b' :: (q.signs ++ closers b' ++ rest.signs))

def isDone : Passage γ δ → Bool
  | done => true
  | _ => false

/-- A directive, or an `if` with its branches, and nothing after it. -/
def isSingle : Passage γ δ → Bool
  | done => false
  | plain _ rest => rest.isDone
  | ifThen _ _ _ rest => rest.isDone
  | ifElse _ _ _ _ _ rest => rest.isDone

def isPlain : Passage γ δ → Bool
  | plain _ _ => true
  | _ => false

/-- Whether an `else` that follows would belong to an `if` of the passage, which is single. -/
def lacksElse : Passage γ δ → Bool
  | ifThen _ _ _ _ => true
  | ifElse _ _ _ b' q _ => !b' && q.lacksElse
  | _ => false

/-- A branch without braces is single, and an `else` belongs to the nearest `if` that has none. -/
def Grammatical : Passage γ δ → Prop
  | done => True
  | plain _ rest => rest.Grammatical
  | ifThen _ b p rest => (b = true ∨ p.isSingle = true) ∧ p.Grammatical ∧ rest.Grammatical
  | ifElse _ b p b' q rest =>
    (b = true ∨ p.isSingle = true ∧ p.lacksElse = false) ∧ (b' = true ∨ q.isSingle = true) ∧
      p.Grammatical ∧ q.Grammatical ∧ rest.Grammatical

/-- Every branch without braces that has an `else` is a directive. -/
def isDirect : Passage γ δ → Bool
  | done => true
  | plain _ rest => rest.isDirect
  | ifThen _ _ p rest => p.isDirect && rest.isDirect
  | ifElse _ b p _ q rest => (b || p.isPlain) && p.isDirect && q.isDirect && rest.isDirect

/-- The directives, each with the conditions of the branches around it, the outermost first. An
alternative has the negated condition of its `if`. -/
def enclosed (negate : γ → γ) : Passage γ δ → List γ → List (δ × List γ)
  | done, _ => []
  | plain d rest, outer => (d, outer) :: rest.enclosed negate outer
  | ifThen c _ p rest, outer => p.enclosed negate (outer ++ [c]) ++ rest.enclosed negate outer
  | ifElse c _ p _ q rest, outer =>
    p.enclosed negate (outer ++ [c]) ++
      (q.enclosed negate (outer ++ [negate c]) ++ rest.enclosed negate outer)

def append : Passage γ δ → Passage γ δ → Passage γ δ
  | done, r => r
  | plain d rest, r => plain d (rest.append r)
  | ifThen c b p rest, r => ifThen c b p (rest.append r)
  | ifElse c b p b' q rest, r => ifElse c b p b' q (rest.append r)

theorem append_done {p : Passage γ δ} : p.append .done = p := by
  induction p with
  | done => rfl
  | plain d rest ih => exact congrArg _ ih
  | ifThen c b p rest _ ih => exact congrArg _ ih
  | ifElse c b p b' q rest _ _ ih => exact congrArg _ ih

theorem append_assoc {p q r : Passage γ δ} : (p.append q).append r = p.append (q.append r) := by
  induction p with
  | done => rfl
  | plain d rest ih => exact congrArg _ ih
  | ifThen c b p rest _ ih => exact congrArg _ ih
  | ifElse c b p b' q rest _ _ ih => exact congrArg _ ih

theorem signs_append {p r : Passage γ δ} : (p.append r).signs = p.signs ++ r.signs := by
  induction p with
  | done => rfl
  | plain d rest ih => simp [append, signs, ih]
  | ifThen c b p rest _ ih => simp [append, signs, ih]
  | ifElse c b p b' q rest _ _ ih => simp [append, signs, ih]

theorem signs_ne_nil {p : Passage γ δ} (hp : p.isSingle = true) : p.signs ≠ [] := by
  cases p with
  | done => cases hp
  | _ => simp [signs]

theorem Grammatical.append {p r : Passage γ δ} (hp : p.Grammatical) (hr : r.Grammatical) :
    (p.append r).Grammatical := by
  induction p with
  | done => exact hr
  | plain d rest ih => exact ih hp
  | ifThen c b p rest _ ih => exact ⟨hp.1, hp.2.1, ih hp.2.2⟩
  | ifElse c b p b' q rest _ _ ih => exact ⟨hp.1, hp.2.1, hp.2.2.1, hp.2.2.2.1, ih hp.2.2.2.2⟩

/-- What comes first in a passage, and the rest of it. -/
theorem Grammatical.exists_append {p : Passage γ δ} (hp : p.Grammatical) : p = .done ∨
    ∃ head rest : Passage γ δ, p = head.append rest ∧ head.isSingle = true ∧ head.Grammatical ∧
      rest.Grammatical := by
  cases p with
  | done => exact Or.inl rfl
  | plain d rest => exact Or.inr ⟨.plain d .done, rest, rfl, rfl, trivial, hp⟩
  | ifThen c b p rest =>
    exact Or.inr ⟨.ifThen c b p .done, rest, rfl, rfl, ⟨hp.1, hp.2.1, trivial⟩, hp.2.2⟩
  | ifElse c b p b' q rest =>
    obtain ⟨hbranch, hother, hp, hq, hrest⟩ := hp
    exact Or.inr ⟨.ifElse c b p b' q .done, rest, rfl, rfl,
      ⟨hbranch, hother, hp, hq, trivial⟩, hrest⟩

/-- The branches that have just ended with a branch that adds the guard `g`, from those that have
just ended with its last part. -/
def ended (g : Guard γ) (closed : List (Guard γ)) : List (Guard γ) :=
  (if g.braced then [] else closed) ++ [g]

/-- The branches of the passage that have just ended where it ends. -/
def edge (negate : γ → γ) : Passage γ δ → List (Guard γ) → List (Guard γ)
  | done, closed => closed
  | plain _ rest, _ => rest.edge negate []
  | ifThen c b p rest, _ => rest.edge negate (ended ⟨c, b, false⟩ (p.edge negate []))
  | ifElse c _ _ b' q rest, _ =>
    rest.edge negate (ended ⟨negate c, b', true⟩ (q.edge negate []))

end Passage

namespace Nest

def leave (n : Nest γ) : Nest γ :=
  ⟨n.opened.dropWhile (!·.braced), n.closed ++ n.opened.takeWhile (!·.braced)⟩

def conditions (n : Nest γ) : List γ := n.opened.reverse.map (·.condition)

def step? (negate : γ → γ) (n : Nest γ) : Sign γ δ → Option (Nest γ)
  | .plain _ => some (leave ⟨n.opened, []⟩)
  | .opening c b => some ⟨⟨c, b, false⟩ :: n.opened, []⟩
  | .otherwise b =>
    match n.closed with
    | [] => none
    | inner :: outer =>
      if inner.isElse then none
      else some ⟨⟨negate inner.condition, b, true⟩ :: (outer ++ n.opened), []⟩
  | .closing =>
    match n.opened with
    | [] => none
    | top :: rest => if top.braced then some (leave ⟨rest, [top]⟩) else none

def record (n : Nest γ) : Sign γ δ → List (δ × List γ)
  | .plain d => [(d, n.conditions)]
  | _ => []

/-- The nest after all signs, and the directives among them with the conditions around them. -/
def run? (negate : γ → γ) : Nest γ → List (Sign γ δ) → Option (Nest γ × List (δ × List γ))
  | n, [] => some (n, [])
  | n, sign :: rest =>
    (n.step? negate sign).bind fun m =>
      (m.run? negate rest).map fun r => (r.1, n.record sign ++ r.2)

variable {negate : γ → γ} {n m k : Nest γ} {sign : Sign γ δ} {l l₁ l₂ : List (Sign γ δ)}
  {found : List (δ × List γ)} {g : Guard γ} {opened closed : List (Guard γ)} {p : Passage γ δ}

theorem run?_append : n.run? negate (l₁ ++ l₂) = (n.run? negate l₁).bind fun r =>
    (r.1.run? negate l₂).map fun t => (t.1, r.2 ++ t.2) := by
  induction l₁ generalizing n with
  | nil => simp [run?]
  | cons sign rest ih =>
    rw [List.cons_append, run?, run?]
    cases n.step? negate sign with
    | none => rfl
    | some m =>
      simp only [Option.bind_some, ih]
      cases m.run? negate rest with
      | none => rfl
      | some r => simp [Function.comp_def]

theorem run?_append_eq_some : n.run? negate (l₁ ++ l₂) = some (m, found) ↔
    ∃ k before after, n.run? negate l₁ = some (k, before) ∧
      k.run? negate l₂ = some (m, after) ∧ found = before ++ after := by
  rw [run?_append]
  constructor
  · intro h
    obtain ⟨⟨k, before⟩, hbefore, h⟩ := Option.bind_eq_some_iff.1 h
    obtain ⟨⟨last, after⟩, hafter, h⟩ := Option.map_eq_some_iff.1 h
    cases h
    exact ⟨k, before, after, hbefore, hafter, rfl⟩
  · rintro ⟨k, before, after, hbefore, hafter, rfl⟩
    simp [hbefore, hafter]

theorem run?_cons_eq_some : n.run? negate (sign :: l) = some (m, found) ↔
    ∃ k after, n.step? negate sign = some k ∧ k.run? negate l = some (m, after) ∧
      found = n.record sign ++ after := by
  rw [run?]
  constructor
  · intro h
    obtain ⟨k, hk, h⟩ := Option.bind_eq_some_iff.1 h
    obtain ⟨⟨last, after⟩, hafter, h⟩ := Option.map_eq_some_iff.1 h
    cases h
    exact ⟨k, after, hk, hafter, rfl⟩
  · rintro ⟨k, after, hk, hafter, rfl⟩
    simp [hk, hafter]

def Settled (n : Nest γ) : Prop := n.opened.takeWhile (!·.braced) = []

theorem settled_cons (hg : g.braced = true) : Settled ⟨g :: opened, closed⟩ := by
  simp [Settled, hg]

theorem Settled.leave_eq (h : n.Settled) : leave ⟨n.opened, closed⟩ = ⟨n.opened, closed⟩ := by
  have happend := List.takeWhile_append_dropWhile (p := (!·.braced)) (l := n.opened)
  unfold Settled at h
  rw [h, List.nil_append] at happend
  simp [leave, h, happend]

def pass (negate : γ → γ) (n : Nest γ) (p : Passage γ δ) : Nest γ :=
  leave ⟨n.opened, p.edge negate n.closed⟩

/-- What a nest does with the signs of a passage: it accepts them if the passage is direct, and
meets its directives inside the branches that the passage puts them in. -/
def Traced (negate : γ → γ) (p : Passage γ δ) : Prop :=
  ∀ n : Nest γ, p.isSingle = true ∨ n.Settled → n.run? negate p.signs =
    if p.isDirect then some (n.pass negate p, p.enclosed negate n.conditions) else none

/-- A branch, from the nest that its `if` or `else` opens: its passage, and the brace that ends
it. -/
theorem run?_branch (h : Traced negate p) (hp : g.braced = true ∨ p.isSingle = true) :
    run? negate ⟨g :: opened, []⟩ (p.signs ++ closers g.braced) =
      if p.isDirect then some (leave ⟨opened, Passage.ended g (p.edge negate [])⟩,
          p.enclosed negate (opened.reverse.map (·.condition) ++ [g.condition]))
      else none := by
  have hconditions : conditions ⟨g :: opened, []⟩ =
      opened.reverse.map (·.condition) ++ [g.condition] := by simp [conditions]
  obtain ⟨c, b, e⟩ := g
  cases b with
  | true =>
    have hsettled : Settled ⟨⟨c, true, e⟩ :: opened, []⟩ := settled_cons rfl
    rw [run?_append, h _ (Or.inr hsettled), hconditions]
    split
    · simp [run?, closers, step?, leave, record, pass, Passage.ended]
    · rfl
  | false =>
    have hsingle : p.isSingle = true := hp.resolve_left nofun
    rw [run?_append, h _ (Or.inl hsingle), hconditions]
    split
    · simp [run?, closers, pass, leave, Passage.ended]
    · rfl

/-- What follows a directive or a branch. -/
theorem run?_rest (h : Traced negate p) (hrest : p.isDone = true ∨ n.Settled) :
    (leave ⟨n.opened, closed⟩).run? negate p.signs =
      if p.isDirect then
        some (leave ⟨n.opened, p.edge negate closed⟩, p.enclosed negate n.conditions)
      else none := by
  rcases hrest with hdone | hsettled
  · cases p with
    | done => simp [Passage.signs, run?, Passage.isDirect, Passage.edge, Passage.enclosed]
    | _ => cases hdone
  · rw [hsettled.leave_eq]
    exact h ⟨n.opened, closed⟩ (Or.inr hsettled)

end Nest

namespace Passage

variable {p : Passage γ δ}

/-- No `else` can follow a single passage that lacks none: it is a directive, or it ends with an
alternative. -/
theorem edge_of_not_lacksElse (negate : γ → γ) (hp : p.Grammatical) (hsingle : p.isSingle = true)
    (helse : p.lacksElse = false) (closed : List (Guard γ)) :
    (p.isPlain = true ∧ p.edge negate closed = []) ∨
      (p.isPlain = false ∧ ∃ g gs, p.edge negate closed = g :: gs ∧ g.isElse = true) := by
  induction p generalizing closed with
  | done => cases hsingle
  | plain d rest _ =>
    cases rest with
    | done => exact Or.inl ⟨rfl, rfl⟩
    | _ => cases hsingle
  | ifThen c b p rest _ _ => cases helse
  | ifElse c b p b' q rest _ ihq _ =>
    cases rest with
    | done =>
      apply Or.inr
      obtain ⟨-, hq, -, hqs, -⟩ := hp
      cases b' with
      | true => exact ⟨rfl, _, _, rfl, rfl⟩
      | false =>
        rcases ihq hqs (hq.resolve_left nofun) helse [] with ⟨-, hedge⟩ | ⟨-, g, gs, hedge, hg⟩
        · simp [isPlain, edge, ended, hedge]
        · simp [isPlain, edge, ended, hedge, hg]
    | _ => cases hsingle

end Passage

namespace Nest

variable {negate : γ → γ} {p q : Passage γ δ} {c : γ} {b b' : Bool} {n : Nest γ}

/-- The `else` after a branch, which continues its `if` unless the branch is an `if` with an `else`
itself. -/
theorem step?_otherwise (hp : p.Grammatical)
    (hbranch : b = true ∨ p.isSingle = true ∧ p.lacksElse = false) :
    (leave ⟨n.opened, Passage.ended ⟨c, b, false⟩ (p.edge negate [])⟩).step? negate
        (.otherwise b' : Sign γ δ) =
      if b || p.isPlain then some ⟨⟨negate c, b', true⟩ :: n.opened, []⟩ else none := by
  have hopened := List.takeWhile_append_dropWhile (p := (!·.braced)) (l := n.opened)
  rcases hbranch with rfl | ⟨hsingle, helse⟩
  · simp [leave, Passage.ended, step?, hopened]
  · cases b with
    | true => simp [leave, Passage.ended, step?, hopened]
    | false =>
      rcases Passage.edge_of_not_lacksElse negate hp hsingle helse [] with
        ⟨hplain, hedge⟩ | ⟨hplain, g, gs, hedge, hg⟩
      · simp [leave, Passage.ended, step?, hedge, hplain, hopened]
      · simp [leave, Passage.ended, step?, hedge, hplain, hg]

theorem run?_signs (hp : p.Grammatical) : Traced negate p := by
  induction p with
  | done =>
    intro n hfits
    have hsettled : n.Settled := hfits.resolve_left nofun
    simp [Passage.signs, run?, Passage.isDirect, pass, Passage.edge, Passage.enclosed,
      hsettled.leave_eq]
  | plain d rest ih =>
    intro n hfits
    have hrest : rest.isDone = true ∨ n.Settled := hfits
    rw [Passage.signs, run?]
    simp only [step?, Option.bind_some, run?_rest (ih hp) hrest, Passage.isDirect, pass,
      Passage.edge, Passage.enclosed]
    by_cases hdirect : rest.isDirect = true
    · simp [hdirect, record]
    · simp [hdirect]
  | ifThen c b p rest ihp ih =>
    intro n hfits
    have hrest : rest.isDone = true ∨ n.Settled := hfits
    obtain ⟨hbranch, hp, hrests⟩ := hp
    rw [Passage.signs, run?]
    simp only [step?, Option.bind_some]
    rw [run?_append, run?_branch (g := ⟨c, b, false⟩) (ihp hp) hbranch]
    by_cases hdirect : p.isDirect = true
    · simp only [hdirect, if_true, Option.bind_some, run?_rest (ih hrests) hrest,
        Passage.isDirect, Bool.true_and, pass, Passage.edge, Passage.enclosed]
      split
      · simp [record, conditions]
      · rfl
    · simp [hdirect, Passage.isDirect]
  | ifElse c b p b' q rest ihp ihq ih =>
    intro n hfits
    have hrest : rest.isDone = true ∨ n.Settled := hfits
    obtain ⟨hbranch, hother, hp, hq, hrests⟩ := hp
    have hsingle : b = true ∨ p.isSingle = true := hbranch.imp_right And.left
    rw [Passage.signs, run?]
    simp only [step?, Option.bind_some]
    rw [run?_append, run?_branch (g := ⟨c, b, false⟩) (ihp hp) hsingle]
    by_cases hdirect : p.isDirect = true
    · simp only [hdirect, if_true, Option.bind_some]
      rw [run?, step?_otherwise hp hbranch]
      by_cases hplain : (b || p.isPlain) = true
      · simp only [hplain, if_true, Option.bind_some]
        rw [run?_append, run?_branch (g := ⟨negate c, b', true⟩) (ihq hq) hother]
        by_cases hdirect' : q.isDirect = true
        · simp only [hdirect', if_true, Option.bind_some, run?_rest (ih hrests) hrest,
            Passage.isDirect, hplain, hdirect, Bool.true_and, pass, Passage.edge,
            Passage.enclosed]
          split
          · simp [record, conditions]
          · rfl
        · simp [hdirect', Passage.isDirect]
      · simp [hplain, Passage.isDirect]
    · simp [hdirect, Passage.isDirect]

/-! ### Whatever a nest accepts is a passage -/

section

variable {m : Nest γ} {sign : Sign γ δ} {l l₁ l₂ : List (Sign γ δ)} {g : Guard γ}
  {opened closed : List (Guard γ)}

def Completes (negate : γ → γ) (n : Nest γ) (l : List (Sign γ δ)) : Prop :=
  ∃ m found, n.run? negate l = some (m, found) ∧ m.opened = []

theorem Completes.nil (h : Completes negate n ([] : List (Sign γ δ))) : n.opened = [] := by
  obtain ⟨m, found, hrun, hm⟩ := h
  cases hrun
  exact hm

theorem Completes.cons (h : Completes negate n (sign :: l)) :
    ∃ k, n.step? negate sign = some k ∧ Completes negate k l := by
  obtain ⟨m, found, hrun, hm⟩ := h
  obtain ⟨k, after, hk, hafter, -⟩ := run?_cons_eq_some.1 hrun
  exact ⟨k, hk, m, after, hafter, hm⟩

theorem Completes.append (h : Completes negate n (l₁ ++ l₂)) :
    ∃ k, Completes negate k l₂ ∧ ∃ found, n.run? negate l₁ = some (k, found) := by
  obtain ⟨m, found, hrun, hm⟩ := h
  obtain ⟨k, before, after, hbefore, hafter, -⟩ := run?_append_eq_some.1 hrun
  exact ⟨k, ⟨m, after, hafter, hm⟩, before, hbefore⟩

theorem Completes.passage (h : Completes negate n (p.signs ++ l)) (hp : p.Grammatical)
    (hfits : p.isSingle = true ∨ n.Settled) : Completes negate (n.pass negate p) l := by
  obtain ⟨k, hk, found, hrun⟩ := h.append
  rw [run?_signs hp n hfits] at hrun
  split at hrun
  · cases hrun
    exact hk
  · cases hrun

theorem exists_otherwise (h : l.head?.any Sign.isOtherwise = true) :
    ∃ b rest, l = .otherwise b :: rest := by
  cases l with
  | nil => cases h
  | cons sign rest =>
    cases sign with
    | otherwise b => exact ⟨b, rest, rfl⟩
    | _ => cases h

theorem step?_otherwise_eq_some (h : n.step? negate (.otherwise b : Sign γ δ) = some m) :
    ∃ g opened, m = ⟨g :: opened, []⟩ ∧ g.braced = b := by
  simp only [step?] at h
  split at h
  · cases h
  · split at h
    · cases h
    · cases h
      exact ⟨_, _, rfl, rfl⟩

/-- An `else` follows only what it can belong to. -/
theorem Completes.no_otherwise (h : Completes negate n l)
    (hclosed : n.closed = [] ∨ ∃ g gs, n.closed = g :: gs ∧ g.isElse = true) :
    l.head?.any Sign.isOtherwise = false := by
  apply Bool.eq_false_of_not_eq_true
  intro helse
  obtain ⟨b, rest, rfl⟩ := exists_otherwise helse
  obtain ⟨k, hk, -⟩ := h.cons
  rcases hclosed with hclosed | ⟨g, gs, hclosed, hg⟩
  · simp [step?, hclosed] at hk
  · simp [step?, hclosed, hg] at hk

/-- The signs begin with those of a single passage that takes every `else` it can. -/
def BeginsSingle (l : List (Sign γ δ)) : Prop :=
  ∃ (p : Passage γ δ) (rest : List (Sign γ δ)), l = p.signs ++ rest ∧ p.Grammatical ∧
    p.isSingle = true ∧ (rest.head?.any Sign.isOtherwise = true → p.lacksElse = false)

def BeginsPassage (l : List (Sign γ δ)) : Prop :=
  ∃ (p : Passage γ δ) (rest : List (Sign γ δ)), l = p.signs ++ rest ∧ p.Grammatical ∧
    (rest = [] ∨ ∃ more, rest = .closing :: more)

theorem Completes.branch (h : Completes negate ⟨g :: opened, []⟩ l)
    (hsingle : l.head?.any Sign.isStart = true → BeginsSingle l)
    (hpassage : g.braced = true → l.head?.any Sign.isOtherwise = false → BeginsPassage l) :
    ∃ (p : Passage γ δ) (rest : List (Sign γ δ)), l = p.signs ++ closers g.braced ++ rest ∧
      p.Grammatical ∧ (g.braced = true ∨ p.isSingle = true) ∧
      (rest.head?.any Sign.isOtherwise = true →
        g.braced = true ∨ p.isSingle = true ∧ p.lacksElse = false) := by
  obtain ⟨c, braced, e⟩ := g
  cases braced with
  | true =>
    obtain ⟨p, rest, rfl, hp, hrest⟩ := hpassage rfl (h.no_otherwise (Or.inl rfl))
    have hpass := h.passage hp (Or.inr (settled_cons rfl))
    rcases hrest with rfl | ⟨more, rfl⟩
    · exact absurd hpass.nil (by simp [pass, leave])
    · exact ⟨p, more, by simp [closers], hp, Or.inl rfl, fun _ => Or.inl rfl⟩
  | false =>
    have hstart : l.head?.any Sign.isStart = true := by
      cases l with
      | nil => cases h.nil
      | cons sign rest =>
        obtain ⟨k, hk, -⟩ := h.cons
        cases sign with
        | plain d => rfl
        | opening c' b => rfl
        | otherwise b => cases hk
        | closing => simp [step?] at hk
    obtain ⟨p, rest, rfl, hp, hp', hmax⟩ := hsingle hstart
    exact ⟨p, rest, by simp [closers], hp, Or.inr hp', fun helse => Or.inr ⟨hp', hmax helse⟩⟩

/-- The signs after an `if`: its branch, and the `else` with its alternative if one follows. -/
theorem Completes.opening (h : Completes negate n (.opening c b :: l))
    (ih : ∀ (k : Nest γ) (l' : List (Sign γ δ)), l'.length ≤ l.length → Completes negate k l' →
      (l'.head?.any Sign.isStart = true → BeginsSingle l') ∧
        (k.Settled → l'.head?.any Sign.isOtherwise = false → BeginsPassage l')) :
    BeginsSingle (.opening c b :: l) := by
  obtain ⟨k, hk, hbranch⟩ := h.cons
  cases hk
  obtain ⟨hsingle, hpassage⟩ := ih _ l le_rfl hbranch
  obtain ⟨p, rest, rfl, hp, hbraced, hmax⟩ :=
    hbranch.branch hsingle fun hb => hpassage (settled_cons hb)
  by_cases helse : rest.head?.any Sign.isOtherwise = true
  · obtain ⟨b', l', rfl⟩ := exists_otherwise helse
    obtain ⟨k, hrest, -⟩ := hbranch.append
    obtain ⟨k', hk', hother⟩ := hrest.cons
    obtain ⟨g, opened, rfl, rfl⟩ := step?_otherwise_eq_some hk'
    obtain ⟨hsingle, hpassage⟩ := ih _ l' (by simp; omega) hother
    obtain ⟨q, rest, rfl, hq, hbraced', hmax'⟩ :=
      hother.branch hsingle fun hb => hpassage (settled_cons hb)
    refine ⟨.ifElse c b p g.braced q .done, rest, by simp [Passage.signs],
      ⟨hmax rfl, hbraced', hp, hq, trivial⟩, rfl, fun helse => ?_⟩
    rcases hmax' helse with hb | ⟨-, hq⟩
    · simp [Passage.lacksElse, hb]
    · simp [Passage.lacksElse, hq]
  · exact ⟨.ifThen c b p .done, rest, by simp [Passage.signs], ⟨hbraced, hp, trivial⟩, rfl,
      fun h => absurd h helse⟩

/-- After a single passage, where no branch without braces is open, no `else` follows. -/
theorem Completes.after_single (h : Completes negate n (p.signs ++ l)) (hp : p.Grammatical)
    (hsingle : p.isSingle = true) (hmax : l.head?.any Sign.isOtherwise = true → p.lacksElse = false)
    (hn : n.Settled) : l.head?.any Sign.isOtherwise = false ∧
      Completes negate ⟨n.opened, p.edge negate n.closed⟩ l := by
  have hpass := h.passage hp (Or.inl hsingle)
  have hnext : n.pass negate p = ⟨n.opened, p.edge negate n.closed⟩ := hn.leave_eq
  rw [hnext] at hpass
  refine ⟨Bool.eq_false_of_not_eq_true fun helse => ?_, hpass⟩
  have hedge := Passage.edge_of_not_lacksElse negate hp hsingle (hmax helse) n.closed
  have hnone := hpass.no_otherwise (hedge.imp And.right And.right)
  exact absurd helse (by simp [hnone])

/-- By induction on the signs: a branch is shorter than what it is in, and so is what follows a
single passage. -/
theorem Completes.begins (h : Completes negate n l) :
    (l.head?.any Sign.isStart = true → BeginsSingle l) ∧
      (n.Settled → l.head?.any Sign.isOtherwise = false → BeginsPassage l) := by
  induction hlength : l.length using Nat.strong_induction_on generalizing l n with
  | _ size ih =>
    subst hlength
    have hsingle : l.head?.any Sign.isStart = true → BeginsSingle l := by
      intro hstart
      cases l with
      | nil => cases hstart
      | cons sign l =>
        cases sign with
        | plain d => exact ⟨.plain d .done, l, rfl, trivial, rfl, fun _ => rfl⟩
        | opening c b =>
          exact h.opening fun k l' hl' h => ih l'.length (Nat.lt_succ_of_le hl') h rfl
        | otherwise b => cases hstart
        | closing => cases hstart
    refine ⟨hsingle, fun hsettled hother => ?_⟩
    by_cases hstart : l.head?.any Sign.isStart = true
    · obtain ⟨p, rest, rfl, hp, hp', hmax⟩ := hsingle hstart
      have hpos := List.length_pos_iff.2 (Passage.signs_ne_nil hp')
      obtain ⟨hother', hrest⟩ := h.after_single hp hp' hmax hsettled
      obtain ⟨q, more, rfl, hq, hmore⟩ :=
        (ih rest.length (by simp; omega) hrest rfl).2 hsettled hother'
      exact ⟨p.append q, more, by simp [Passage.signs_append], hp.append hq, hmore⟩
    · cases l with
      | nil => exact ⟨.done, [], rfl, trivial, Or.inl rfl⟩
      | cons sign l =>
        cases sign with
        | plain d => exact absurd rfl hstart
        | opening c b => exact absurd rfl hstart
        | otherwise b => cases hother
        | closing => exact ⟨.done, _, rfl, trivial, Or.inr ⟨l, rfl⟩⟩

end

/-- The signs of a whole body that a nest accepts are those of a passage. -/
theorem exists_passage {l : List (Sign γ δ)} (h : Completes negate ⟨[], []⟩ l) :
    ∃ p : Passage γ δ, p.Grammatical ∧ p.signs = l := by
  obtain ⟨p, rest, rfl, hp, hrest⟩ := h.begins.2 rfl (h.no_otherwise (Or.inl rfl))
  have hpass := h.passage hp (Or.inr rfl)
  rcases hrest with rfl | ⟨more, rfl⟩
  · exact ⟨p, hp, by simp⟩
  · obtain ⟨k, hk, -⟩ := hpass.cons
    cases hk

end Nest

/-! ### Conditions replaced -/

section

variable {γ δ ε : Type} (f : γ → ε)

def Sign.map : Sign γ δ → Sign ε δ
  | plain d => plain d
  | opening c b => opening (f c) b
  | otherwise b => otherwise b
  | closing => closing

namespace Passage

def map : Passage γ δ → Passage ε δ
  | done => done
  | plain d rest => plain d rest.map
  | ifThen c b p rest => ifThen (f c) b p.map rest.map
  | ifElse c b p b' q rest => ifElse (f c) b p.map b' q.map rest.map

variable {f} {p : Passage γ δ}

theorem signs_map : (p.map f).signs = p.signs.map (Sign.map f) := by
  have hclosers (b : Bool) : (closers b).map (Sign.map f) = (closers b : List (Sign ε δ)) := by
    cases b <;> rfl
  induction p with
  | done => rfl
  | plain d rest ih => simp [map, signs, ih, Sign.map]
  | ifThen c b p rest ihp ih => simp [map, signs, ihp, ih, hclosers, Sign.map]
  | ifElse c b p b' q rest ihp ihq ih => simp [map, signs, ihp, ihq, ih, hclosers, Sign.map]

theorem isSingle_map : (p.map f).isSingle = p.isSingle := by
  have hdone (q : Passage γ δ) : (q.map f).isDone = q.isDone := by cases q <;> rfl
  cases p with
  | done => rfl
  | plain d rest => exact hdone rest
  | ifThen c b p rest => exact hdone rest
  | ifElse c b p b' q rest => exact hdone rest

theorem lacksElse_map : (p.map f).lacksElse = p.lacksElse := by
  induction p with
  | done => rfl
  | plain d rest _ => rfl
  | ifThen c b p rest _ _ => rfl
  | ifElse c b p b' q rest _ ihq _ => simp [map, lacksElse, ihq]

theorem Grammatical.map (hp : p.Grammatical) : (p.map f).Grammatical := by
  induction p with
  | done => trivial
  | plain d rest ih => exact ih hp
  | ifThen c b p rest ihp ih =>
    obtain ⟨hbranch, hp, hrest⟩ := hp
    exact ⟨by rwa [isSingle_map], ihp hp, ih hrest⟩
  | ifElse c b p b' q rest ihp ihq ih =>
    obtain ⟨hbranch, hother, hp, hq, hrest⟩ := hp
    exact ⟨by rwa [isSingle_map, lacksElse_map], by rwa [isSingle_map], ihp hp, ihq hq, ih hrest⟩

theorem isDirect_map : (p.map f).isDirect = p.isDirect := by
  have hplain (q : Passage γ δ) : (q.map f).isPlain = q.isPlain := by cases q <;> rfl
  induction p with
  | done => rfl
  | plain d rest ih => exact ih
  | ifThen c b p rest ihp ih => simp [Passage.map, isDirect, ihp, ih]
  | ifElse c b p b' q rest ihp ihq ih => simp [Passage.map, isDirect, ihp, ihq, ih, hplain]

end Passage

end

end ApeScript
