import ApeScript.Work.Pool
import Mathlib.Algebra.BigOperators.Fin
import Mathlib.Data.List.Perm.Subperm
import Mathlib.Logic.Relation
import Mathlib.Tactic.Ring

/-!
# Runs of a worker pool

A sender offers the indices of the inputs one after another, and any number of workers receive
them. A hand-over takes place when the sender offers and a worker waits; only afterwards the sender
marks the input as started, while the worker may be done with it. When the last input is handed
over the sender closes the channel, and workers that wait then stop. `Step` has one case for each
thing that can happen next, so a run is any interleaving of sender and workers.

The work on an input is a sequence of actions on a state that all workers share. The invariant
`Coherent` says that every index that was handed over is either with one worker or processed, and
never both or twice. Every run ends, and where it ends every worker has stopped and every input is
processed.
-/

namespace ApeScript.Work

/-- How inputs are worked on: what a worker has in hand when it receives an input, and what one
action makes of the shared state and of the work in hand. The rank bounds the actions to come. -/
structure Tasks (σ α κ ρ : Type) where
  start : α → κ
  advance : κ → σ → σ × (κ ⊕ ρ)
  rank : κ → Nat
  rank_lt : ∀ {k k' s}, (advance k s).2 = .inl k' → rank k' < rank k

/-- Work that is one action and leaves the shared state alone. -/
def Tasks.plain {ε α β : Type} (process : α → Except ε β) : Tasks Unit α α (Except ε β) where
  start := id
  advance a s := (s, .inr (process a))
  rank _ := 0
  rank_lt h := by cases h

inductive Sender where
  | offering (index : Nat)
  | marking (index : Nat)
  | closed

/-- How many of `count` inputs have been handed over. -/
def Sender.handed (count : Nat) : Sender → Nat
  | offering i => i
  | marking i => i + 1
  | closed => count

/-- How many of `count` inputs have been marked as started. -/
def Sender.marked (count : Nat) : Sender → Nat
  | offering i => i
  | marking i => i
  | closed => count

inductive Worker (κ ρ : Type) where
  | waiting
  | working (index : Nat) (k : κ)
  | storing (index : Nat) (result : ρ)
  | stopped

def Worker.inHand? {κ ρ : Type} : Worker κ ρ → Option Nat
  | working i _ => some i
  | _ => none

/-- A pool of `n` workers. The slots hold the results by index; `processed` lists the indices in
the order in which the work on them ended. -/
structure Pool (n : Nat) (σ α κ ε β : Type) where
  shared : σ
  sender : Sender
  started : List Bool
  slots : List (Result ε α β)
  workers : Fin n → Worker κ (Except ε β)
  processed : List Nat

namespace Pool

variable {n : Nat} {σ α κ ε β : Type}

/-- The pool before its first step; `blank` is what an empty slot holds. -/
def initial (n : Nat) (inputs : List α) (s : σ) (blank : Result ε α β) : Pool n σ α κ ε β where
  shared := s
  sender := .offering 0
  started := List.replicate inputs.length false
  slots := List.replicate inputs.length blank
  workers _ := .waiting
  processed := []

def Stopped (p : Pool n σ α κ ε β) : Prop := ∀ w, p.workers w = .stopped

/-- The results once all workers have stopped. An input that was never started gets an error. -/
def results (inputs : List α) (cancelled : ε) (p : Pool n σ α κ ε β) : List (Result ε α β) :=
  (inputs.zip (p.started.zip p.slots)).map fun (a, started, slot) =>
    if started then slot else ⟨a, .error cancelled⟩

def assign (p : Pool n σ α κ ε β) (w : Fin n) (x : Worker κ (Except ε β)) : Pool n σ α κ ε β :=
  { p with workers := Function.update p.workers w x }

section

variable (p : Pool n σ α κ ε β) (w : Fin n) (x : Worker κ (Except ε β))

@[simp] theorem shared_assign : (p.assign w x).shared = p.shared := rfl
@[simp] theorem sender_assign : (p.assign w x).sender = p.sender := rfl
@[simp] theorem started_assign : (p.assign w x).started = p.started := rfl
@[simp] theorem slots_assign : (p.assign w x).slots = p.slots := rfl
@[simp] theorem processed_assign : (p.assign w x).processed = p.processed := rfl

@[simp] theorem workers_assign (v : Fin n) :
    (p.assign w x).workers v = if v = w then x else p.workers v := by
  simp [assign, Function.update_apply]

end

end Pool

variable {n : Nat} {σ α κ ε β : Type} (tasks : Tasks σ α κ (Except ε β)) (inputs : List α)

inductive Step : Pool n σ α κ ε β → Pool n σ α κ ε β → Prop
  | hand {p w i a} (hsender : p.sender = .offering i) (hinput : inputs[i]? = some a)
      (hw : p.workers w = .waiting) :
      Step p ({ p with sender := .marking i }.assign w (.working i (tasks.start a)))
  | mark {p i} (hsender : p.sender = .marking i) :
      Step p { p with sender := .offering (i + 1), started := p.started.set i true }
  | close {p} (hsender : p.sender = .offering inputs.length) : Step p { p with sender := .closed }
  | act {p w i k s k'} (hw : p.workers w = .working i k)
      (hact : tasks.advance k p.shared = (s, .inl k')) :
      Step p ({ p with shared := s }.assign w (.working i k'))
  | finish {p w i k s r} (hw : p.workers w = .working i k)
      (hact : tasks.advance k p.shared = (s, .inr r)) :
      Step p ({ p with shared := s, processed := p.processed ++ [i] }.assign w (.storing i r))
  | store {p w i r a} (hw : p.workers w = .storing i r) (hinput : inputs[i]? = some a) :
      Step p ({ p with slots := p.slots.set i ⟨a, r⟩ }.assign w .waiting)
  | stop {p w} (hsender : p.sender = .closed) (hw : p.workers w = .waiting) :
      Step p (p.assign w .stopped)

abbrev Reaches : Pool n σ α κ ε β → Pool n σ α κ ε β → Prop :=
  Relation.ReflTransGen (Step tasks inputs)

/-- The indices below `count` are divided between the hands of the workers and those that are
done: each is in one hand or done, and done once. -/
structure Divided (hands : Fin n → Option Nat) (done : List Nat) (count : Nat) : Prop where
  nodup : done.Nodup
  fresh : ∀ {w i}, hands w = some i → i ∉ done
  single : ∀ {v w i}, hands v = some i → hands w = some i → v = w
  lt_iff : ∀ i, i < count ↔ i ∈ done ∨ ∃ w, hands w = some i

namespace Divided

variable {hands : Fin n → Option Nat} {done : List Nat} {count : Nat}

theorem take (h : Divided hands done count) {w : Fin n} (hw : hands w = none) :
    Divided (Function.update hands w (some count)) done (count + 1) := by
  obtain ⟨hdone, hheld⟩ : count ∉ done ∧ ∀ v, hands v ≠ some count := by
    simpa using (h.lt_iff count).not.1 (Nat.lt_irrefl count)
  have hhand (v : Fin n) (i : Nat) : Function.update hands w (some count) v = some i ↔
      (v = w ∧ i = count) ∨ hands v = some i := by
    by_cases hv : v = w
    · subst hv
      simp [hw, eq_comm]
    · simp [hv]
  constructor
  · exact h.nodup
  · intro v i hv
    rcases (hhand v i).1 hv with ⟨-, rfl⟩ | hv
    · exact hdone
    · exact h.fresh hv
  · intro u v i hu hv
    rcases (hhand u i).1 hu with ⟨hu, hi⟩ | hu' <;> rcases (hhand v i).1 hv with ⟨hv, hi'⟩ | hv'
    · rw [hu, hv]
    · exact absurd (hi ▸ hv') (hheld v)
    · exact absurd (hi' ▸ hu') (hheld u)
    · exact h.single hu' hv'
  · intro i
    have hlt : i < count + 1 ↔ i = count ∨ i < count := by omega
    simp only [hlt, h.lt_iff i, hhand, exists_or, exists_eq_left]
    tauto

theorem finish (h : Divided hands done count) {w : Fin n} {i : Nat} (hw : hands w = some i) :
    Divided (Function.update hands w none) (done ++ [i]) count := by
  have hhand (v : Fin n) (j : Nat) : Function.update hands w none v = some j ↔
      v ≠ w ∧ hands v = some j := by
    by_cases hv : v = w
    · subst hv
      simp
    · simp [hv]
  constructor
  · exact List.nodup_append.2 ⟨h.nodup, List.nodup_singleton i, fun j hj k hk hjk =>
      h.fresh hw (List.mem_singleton.1 hk ▸ hjk ▸ hj)⟩
  · intro v j hv hj
    obtain ⟨hne, hv⟩ := (hhand v j).1 hv
    rcases List.mem_append.1 hj with hj | hj
    · exact h.fresh hv hj
    · rw [List.mem_singleton.1 hj] at hv
      exact hne (h.single hv hw)
  · intro u v j hu hv
    exact h.single ((hhand u j).1 hu).2 ((hhand v j).1 hv).2
  · intro j
    rw [h.lt_iff j]
    simp only [hhand, List.mem_append, List.mem_singleton]
    constructor
    · rintro (hj | ⟨v, hv⟩)
      · exact Or.inl (Or.inl hj)
      · by_cases hvw : v = w
        · subst hvw
          exact Or.inl (Or.inr (Option.some.inj (hv.symm.trans hw)))
        · exact Or.inr ⟨v, hvw, hv⟩
    · rintro ((hj | rfl) | ⟨v, -, hv⟩)
      · exact Or.inl hj
      · exact Or.inr ⟨w, hw⟩
      · exact Or.inr ⟨v, hv⟩

theorem perm_range (h : Divided hands done count) (hidle : ∀ w, hands w = none) :
    done.Perm (List.range count) := by
  apply (List.perm_ext_iff_of_nodup h.nodup List.nodup_range).2
  intro i
  simp [h.lt_iff i, hidle]

end Divided

def Pool.hands (p : Pool n σ α κ ε β) (w : Fin n) : Option Nat := (p.workers w).inHand?

@[simp] theorem Pool.hands_assign (p : Pool n σ α κ ε β) (w : Fin n)
    (x : Worker κ (Except ε β)) :
    (p.assign w x).hands = Function.update p.hands w x.inHand? := by
  funext v
  by_cases hv : v = w
  · subst hv
    simp [hands]
  · simp [hands, hv]

/-- A worker stores the result of an input that is processed, and it stops only once the sender has
closed. -/
def Worker.Suits {κ ρ : Type} (sender : Sender) (processed : List Nat) : Worker κ ρ → Prop
  | storing i _ => i ∈ processed
  | stopped => sender = .closed
  | _ => True

theorem Worker.Suits.mono {κ ρ : Type} {x : Worker κ ρ} {sender sender' : Sender}
    {done done' : List Nat} (h : x.Suits sender done)
    (hsender : sender = .closed → sender' = .closed) (hdone : done ⊆ done') :
    x.Suits sender' done' := by
  cases x with
  | storing i r => exact hdone h
  | stopped => exact hsender h
  | waiting => trivial
  | working i k => trivial

/-- What holds of a pool at any time: the inputs that were handed over are divided between its
workers and those processed, and those marked are as many as the sender has got to. -/
structure Pool.Coherent (p : Pool n σ α κ ε β) : Prop where
  handed_le : p.sender.handed inputs.length ≤ inputs.length
  divided : Divided p.hands p.processed (p.sender.handed inputs.length)
  suits : ∀ w, (p.workers w).Suits p.sender p.processed
  started_eq : p.started =
    (List.range inputs.length).map fun i => decide (i < p.sender.marked inputs.length)

theorem Pool.coherent_initial (s : σ) (blank : Result ε α β) :
    (Pool.initial n inputs s blank : Pool n σ α κ ε β).Coherent inputs := by
  constructor
  · exact Nat.zero_le _
  · constructor
    · exact List.nodup_nil
    · intro w i hw
      cases hw
    · intro v w i hv
      cases hv
    · intro i
      simp [Pool.hands, initial, Sender.handed, Worker.inHand?]
  · intro w
    trivial
  · simp [initial, Sender.marked]

theorem started_mark (count i : Nat) :
    ((List.range count).map fun j => decide (j < i)).set i true =
      (List.range count).map fun j => decide (j < i + 1) := by
  apply List.ext_getElem
  · simp
  · intro j hj hj'
    by_cases h : i = j
    · subst h
      simp
    · have : j < i ↔ j < i + 1 := by omega
      simp [h, this]

theorem Pool.forall_workers_assign {P : Worker κ (Except ε β) → Prop} {p : Pool n σ α κ ε β}
    {w : Fin n} {x : Worker κ (Except ε β)} (hx : P x) (hp : ∀ v, P (p.workers v)) (v : Fin n) :
    P ((p.assign w x).workers v) := by
  rw [workers_assign]
  split
  · exact hx
  · exact hp v

/-- A worker that goes on with the input in its hand, or with none, leaves the division alone. -/
theorem Pool.hands_assign_of_eq {p : Pool n σ α κ ε β} {w : Fin n} {x : Worker κ (Except ε β)}
    (hx : x.inHand? = (p.workers w).inHand?) : (p.assign w x).hands = p.hands := by
  rw [hands_assign, hx]
  exact Function.update_eq_self w p.hands

variable {tasks inputs}

theorem Step.coherent {p q : Pool n σ α κ ε β} (h : Step tasks inputs p q)
    (hp : p.Coherent inputs) : q.Coherent inputs := by
  obtain ⟨hle, hdiv, hsuits, hstarted⟩ := hp
  cases h with
  | @hand w i a hsender hinput hw =>
    have hi : i < inputs.length := (List.getElem?_eq_some_iff.1 hinput).1
    have hidle : p.hands w = none := by simp [Pool.hands, hw, Worker.inHand?]
    rw [hsender] at hdiv hstarted
    constructor
    · exact hi
    · rw [Pool.hands_assign]
      exact hdiv.take hidle
    · have hopen (v : Fin n) : (p.workers v).Suits (.marking i) p.processed :=
        (hsuits v).mono (by rw [hsender]; intro hclosed; cases hclosed) (List.Subset.refl _)
      exact Pool.forall_workers_assign trivial hopen
    · exact hstarted
  | @mark i hsender =>
    rw [hsender] at hle hdiv hstarted
    constructor
    · exact hle
    · exact hdiv
    · refine fun v => (hsuits v).mono ?_ (List.Subset.refl _)
      rw [hsender]
      intro hclosed
      cases hclosed
    · exact hstarted ▸ started_mark inputs.length i
  | close hsender =>
    rw [hsender] at hdiv hstarted
    exact ⟨le_rfl, hdiv, fun v => (hsuits v).mono (fun _ => rfl) (List.Subset.refl _), hstarted⟩
  | @act w i k s k' hw hact =>
    refine ⟨hle, ?_, Pool.forall_workers_assign trivial hsuits, hstarted⟩
    rw [Pool.hands_assign_of_eq (by rw [hw]; rfl)]
    exact hdiv
  | @finish w i k s r hw hact =>
    have hhand : p.hands w = some i := by simp [Pool.hands, hw, Worker.inHand?]
    have hmem : i ∈ p.processed ++ [i] := by simp
    refine ⟨hle, ?_, ?_, hstarted⟩
    · rw [Pool.hands_assign]
      exact hdiv.finish hhand
    · have hmore (v : Fin n) : (p.workers v).Suits p.sender (p.processed ++ [i]) :=
        (hsuits v).mono id (List.subset_append_left _ _)
      exact Pool.forall_workers_assign hmem hmore
  | @store w i r a hw hinput =>
    refine ⟨hle, ?_, Pool.forall_workers_assign trivial hsuits, hstarted⟩
    rw [Pool.hands_assign_of_eq (by rw [hw]; rfl)]
    exact hdiv
  | @stop w hsender hw =>
    refine ⟨hle, ?_, Pool.forall_workers_assign hsender hsuits, hstarted⟩
    rw [Pool.hands_assign_of_eq (by rw [hw]; rfl)]
    exact hdiv

theorem Reaches.coherent {s : σ} {blank : Result ε α β} {p : Pool n σ α κ ε β}
    (h : Reaches tasks inputs (.initial n inputs s blank) p) : p.Coherent inputs := by
  induction h with
  | refl => exact Pool.coherent_initial inputs s blank
  | tail _ hstep ih => exact hstep.coherent ih

theorem Pool.Coherent.sender_closed {p : Pool n σ α κ ε β} (hp : p.Coherent inputs) (hn : 0 < n)
    (hstop : p.Stopped) : p.sender = .closed := by
  have hsuits := hp.suits ⟨0, hn⟩
  rwa [hstop] at hsuits

theorem Pool.Coherent.perm_range {p : Pool n σ α κ ε β} (hp : p.Coherent inputs) (hn : 0 < n)
    (hstop : p.Stopped) : p.processed.Perm (List.range inputs.length) := by
  have hidle (w : Fin n) : p.hands w = none := by simp [hands, hstop w, Worker.inHand?]
  simpa [hp.sender_closed hn hstop, Sender.handed] using hp.divided.perm_range hidle

/-! ### Runs go on until all workers have stopped, and end there -/

/-- Unless all workers have stopped something can happen next. -/
theorem Pool.Coherent.exists_step {p : Pool n σ α κ ε β} (hp : p.Coherent inputs)
    (hstop : ¬ p.Stopped) : ∃ q, Step tasks inputs p q := by
  obtain ⟨w, hw⟩ : ∃ w, p.workers w ≠ .stopped := by simpa [Stopped] using hstop
  cases hworker : p.workers w with
  | stopped => exact absurd hworker hw
  | working i k =>
    cases hact : tasks.advance k p.shared with
    | mk s next =>
      cases next with
      | inl k' => exact ⟨_, .act hworker hact⟩
      | inr r => exact ⟨_, .finish hworker hact⟩
  | storing i r =>
    have hmem : i ∈ p.processed := by simpa [hworker, Worker.Suits] using hp.suits w
    have hi : i < inputs.length :=
      lt_of_lt_of_le ((hp.divided.lt_iff i).2 (Or.inl hmem)) hp.handed_le
    exact ⟨_, .store hworker (List.getElem?_eq_getElem hi)⟩
  | waiting =>
    cases hsender : p.sender with
    | marking i => exact ⟨_, .mark hsender⟩
    | closed => exact ⟨_, .stop hsender hworker⟩
    | offering i =>
      have hi : i ≤ inputs.length := by simpa [hsender, Sender.handed] using hp.handed_le
      by_cases hlast : i = inputs.length
      · exact ⟨_, .close (hlast ▸ hsender)⟩
      · exact ⟨_, .hand hsender (List.getElem?_eq_getElem (by omega)) hworker⟩

variable (tasks) in
/-- A bound on the steps that a worker still takes. -/
def Worker.cost : Worker κ (Except ε β) → Nat
  | waiting => 1
  | working _ k => tasks.rank k + 3
  | storing _ _ => 2
  | stopped => 0

variable (tasks inputs) in
/-- A bound on the steps that the inputs not yet handed over still cause. -/
def Sender.cost : Sender → Nat
  | offering i => ((inputs.drop i).map fun a => tasks.rank (tasks.start a) + 4).sum + 1
  | marking i => ((inputs.drop (i + 1)).map fun a => tasks.rank (tasks.start a) + 4).sum + 2
  | closed => 0

variable (tasks) in
def labour (workers : Fin n → Worker κ (Except ε β)) : Nat := ∑ w, (workers w).cost tasks

variable (tasks) in
theorem labour_update (workers : Fin n → Worker κ (Except ε β)) (w : Fin n)
    (x : Worker κ (Except ε β)) :
    labour tasks (Function.update workers w x) + (workers w).cost tasks =
      labour tasks workers + x.cost tasks := by
  have hrest : ∑ v ∈ Finset.univ.erase w, (Function.update workers w x v).cost tasks =
      ∑ v ∈ Finset.univ.erase w, (workers v).cost tasks := by
    apply Finset.sum_congr rfl
    intro v hv
    rw [Function.update_of_ne (Finset.ne_of_mem_erase hv)]
  rw [labour, labour, ← Finset.add_sum_erase _ _ (Finset.mem_univ w), hrest,
    ← Finset.add_sum_erase Finset.univ (fun v => (workers v).cost tasks) (Finset.mem_univ w),
    Function.update_self]
  omega

variable (tasks inputs) in
def Pool.cost (p : Pool n σ α κ ε β) : Nat := p.sender.cost tasks inputs + labour tasks p.workers

/-- Every step brings the end of the run nearer. -/
theorem Step.cost_lt {p q : Pool n σ α κ ε β} (h : Step tasks inputs p q) :
    q.cost tasks inputs < p.cost tasks inputs := by
  cases h with
  | @hand w i a hsender hinput hw =>
    obtain ⟨hi, ha⟩ := List.getElem?_eq_some_iff.1 hinput
    have hdrop : inputs.drop i = a :: inputs.drop (i + 1) := by
      rw [List.drop_eq_getElem_cons hi, ha]
    have hlabour := labour_update tasks p.workers w (.working i (tasks.start a))
    simp only [hw, Worker.cost] at hlabour
    simp only [Pool.cost, Pool.assign, hsender, Sender.cost, hdrop, List.map_cons, List.sum_cons]
    omega
  | mark hsender =>
    simp only [Pool.cost, hsender, Sender.cost]
    omega
  | close hsender =>
    simp only [Pool.cost, hsender, Sender.cost]
    omega
  | @act w i k s k' hw hact =>
    have hrank : tasks.rank k' < tasks.rank k := tasks.rank_lt (by rw [hact])
    have hlabour := labour_update tasks p.workers w (.working i k')
    simp only [hw, Worker.cost] at hlabour
    simp only [Pool.cost, Pool.assign]
    omega
  | @finish w i k s r hw hact =>
    have hlabour := labour_update tasks p.workers w (.storing i r)
    simp only [hw, Worker.cost] at hlabour
    simp only [Pool.cost, Pool.assign]
    omega
  | @store w i r a hw hinput =>
    have hlabour := labour_update tasks p.workers w .waiting
    simp only [hw, Worker.cost] at hlabour
    simp only [Pool.cost, Pool.assign]
    omega
  | @stop w hsender hw =>
    have hlabour := labour_update tasks p.workers w .stopped
    simp only [hw, Worker.cost] at hlabour
    simp only [Pool.cost, Pool.assign]
    omega

variable (tasks inputs) in
theorem wellFounded_step :
    WellFounded fun q p : Pool n σ α κ ε β => Step tasks inputs p q :=
  Subrelation.wf Step.cost_lt (measure (Pool.cost tasks inputs)).wf

/-- However a run has begun, it can be carried on to its end. -/
theorem Pool.Coherent.exists_stopped {p : Pool n σ α κ ε β} (hp : p.Coherent inputs) :
    ∃ q, Reaches tasks inputs p q ∧ q.Stopped := by
  induction p using (wellFounded_step tasks inputs).induction with
  | _ p ih =>
    by_cases hstop : p.Stopped
    · exact ⟨p, .refl, hstop⟩
    · obtain ⟨q, hstep⟩ : ∃ q, Step tasks inputs p q := hp.exists_step hstop
      obtain ⟨q', hreach, hq'⟩ := ih q hstep (hstep.coherent hp)
      exact ⟨q', .head hstep hreach, hq'⟩

/-! ### Working through the inputs in their order -/

variable (tasks) in
/-- The work in hand, done without anything else happening, takes the shared state to another. -/
inductive Completes : κ → σ → σ → Except ε β → Prop
  | last {k s s' r} (hact : tasks.advance k s = (s', .inr r)) : Completes k s s' r
  | next {k s s₁ k' s' r} (hact : tasks.advance k s = (s₁, .inl k'))
      (hrest : Completes k' s₁ s' r) : Completes k s s' r

variable (tasks) in
/-- The inputs, one after another, take the shared state to another. -/
inductive WorksThrough : List α → σ → σ → Prop
  | nil {s} : WorksThrough [] s s
  | cons {a rest s s₁ s' r} (hfirst : Completes tasks (tasks.start a) s s₁ r)
      (hrest : WorksThrough rest s₁ s') : WorksThrough (a :: rest) s s'

theorem Completes.exists_reaches {k : κ} {s s' : σ} {r : Except ε β}
    (h : Completes tasks k s s' r) {p : Pool n σ α κ ε β} {w : Fin n} {i : Nat}
    (hshared : p.shared = s) (hw : p.workers w = .working i k) :
    ∃ q, Reaches tasks inputs p q ∧ q.shared = s' ∧ q.sender = p.sender ∧
      q.workers w = .storing i r ∧ ∀ v ≠ w, q.workers v = p.workers v := by
  induction h generalizing p with
  | last hact =>
    subst hshared
    refine ⟨_, .single (.finish hw hact), rfl, rfl, by simp, fun v hv => by simp [hv]⟩
  | @next k s s₁ k' s' r hact _ ih =>
    subst hshared
    have hstep : Step tasks inputs p ({ p with shared := s₁ }.assign w (.working i k')) :=
      .act hw hact
    obtain ⟨q, hq, hs, hsender, hwq, hrest⟩ :=
      ih (p := { p with shared := s₁ }.assign w (.working i k')) rfl (by simp)
    refine ⟨q, .head hstep hq, hs, hsender, hwq, fun v hv => ?_⟩
    rw [hrest v hv]
    simp [hv]

/-- Nothing is handed over or in hand. -/
def Pool.Idle (p : Pool n σ α κ ε β) : Prop := ∀ w, p.workers w = .waiting

theorem Completes.exists_reaches_idle {a : α} {s s' : σ} {r : Except ε β}
    (h : Completes tasks (tasks.start a) s s' r) {p : Pool n σ α κ ε β} (w : Fin n) {i : Nat}
    (hidle : p.Idle) (hshared : p.shared = s) (hsender : p.sender = .offering i)
    (hinput : inputs[i]? = some a) :
    ∃ q, Reaches tasks inputs p q ∧ q.Idle ∧ q.shared = s' ∧ q.sender = .offering (i + 1) := by
  let given := { p with sender := .marking i }.assign w (.working i (tasks.start a))
  have hhand : Step tasks inputs p given := .hand hsender hinput (hidle w)
  obtain ⟨q, hq, hs, hmarking, hwq, hrest⟩ : ∃ q, Reaches tasks inputs given q ∧ q.shared = s' ∧
      q.sender = .marking i ∧ q.workers w = .storing i r ∧
        ∀ v ≠ w, q.workers v = given.workers v :=
    h.exists_reaches hshared (by simp [given])
  have hmark : Step tasks inputs q
      { q with sender := .offering (i + 1), started := q.started.set i true } := .mark hmarking
  refine ⟨_, .head hhand (hq.trans (.head hmark (.single (.store hwq hinput)))), fun v => ?_, hs,
    rfl⟩
  by_cases hv : v = w
  · simp [hv]
  · simpa [given, hv, hrest v hv] using hidle v

theorem WorksThrough.exists_reaches {rest : List α} {s s' : σ}
    (h : WorksThrough tasks rest s s') {p : Pool n σ α κ ε β} (w : Fin n) {i : Nat}
    (hinputs : inputs.drop i = rest) (hi : i ≤ inputs.length) (hidle : p.Idle)
    (hshared : p.shared = s) (hsender : p.sender = .offering i) :
    ∃ q, Reaches tasks inputs p q ∧ q.Idle ∧ q.shared = s' ∧ q.sender = .closed := by
  induction h generalizing p i with
  | nil =>
    have hlast : i = inputs.length := Nat.le_antisymm hi (List.drop_eq_nil_iff.1 hinputs)
    exact ⟨_, .single (.close (hlast ▸ hsender)), hidle, hshared, rfl⟩
  | @cons a rest s s₁ s' r hfirst _ ih =>
    have hlt : i < inputs.length := by
      by_contra hnot
      rw [List.drop_eq_nil_of_le (Nat.le_of_not_lt hnot)] at hinputs
      cases hinputs
    rw [List.drop_eq_getElem_cons hlt, List.cons.injEq] at hinputs
    obtain ⟨q, hq, hqidle, hqshared, hqsender⟩ := hfirst.exists_reaches_idle w hidle hshared hsender
      (by rw [List.getElem?_eq_getElem hlt, hinputs.1])
    obtain ⟨q', hq', hrest⟩ := ih hinputs.2 hlt hqidle hqshared hqsender
    exact ⟨q', hq.trans hq', hrest⟩

/-- With nothing left to hand over and nothing in hand the workers stop one by one. -/
theorem Reaches.shared_eq {p q : Pool n σ α κ ε β} (h : Reaches tasks inputs p q)
    (hidle : p.Idle) (hsender : p.sender = .closed) : q.shared = p.shared := by
  have hdone : q.shared = p.shared ∧ q.sender = .closed ∧
      ∀ w, q.workers w = .waiting ∨ q.workers w = .stopped := by
    induction h with
    | refl => exact ⟨rfl, hsender, fun w => Or.inl (hidle w)⟩
    | tail _ hstep ih =>
      obtain ⟨hshared, hclosed, hworkers⟩ := ih
      cases hstep with
      | hand hopen => simp [hclosed] at hopen
      | mark hopen => simp [hclosed] at hopen
      | close hopen => simp [hclosed] at hopen
      | @act w i k s k' hw => simpa [hw] using hworkers w
      | @finish w i k s r hw => simpa [hw] using hworkers w
      | @store w i r a hw => simpa [hw] using hworkers w
      | @stop w _ hw =>
        refine ⟨hshared, hclosed, fun v => ?_⟩
        by_cases hv : v = w
        · simp [hv]
        · simpa [hv] using hworkers v
  exact hdone.1

/-- Working through the inputs in their order is one of the runs. -/
theorem WorksThrough.exists_stopped {s s' : σ} (h : WorksThrough tasks inputs s s') (hn : 0 < n)
    (blank : Result ε α β) : ∃ p : Pool n σ α κ ε β,
      Reaches tasks inputs (.initial n inputs s blank) p ∧ p.Stopped ∧ p.shared = s' := by
  obtain ⟨q, hq, hidle, hshared, hclosed⟩ := h.exists_reaches ⟨0, hn⟩
    (p := .initial n inputs s blank) (i := 0) rfl (Nat.zero_le _) (fun _ => rfl) rfl rfl
  obtain ⟨q', hq', hstop⟩ : ∃ q', Reaches tasks inputs q q' ∧ q'.Stopped :=
    (hq.coherent).exists_stopped
  exact ⟨q', hq.trans hq', hstop, (hq'.shared_eq hidle hclosed).trans hshared⟩

/-! ### Results -/

section Results

variable {process : α → Except ε β}

def Worker.Faithful (process : α → Except ε β) (inputs : List α) : Worker α (Except ε β) → Prop
  | working i a => inputs[i]? = some a
  | storing i r => ∃ a, inputs[i]? = some a ∧ r = process a
  | _ => True

/-- The result of each input that is processed is in its slot, or a worker is about to store it. -/
structure Pool.Recorded (process : α → Except ε β) (inputs : List α)
    (p : Pool n Unit α α ε β) : Prop where
  faithful : ∀ w, (p.workers w).Faithful process inputs
  length_slots : p.slots.length = inputs.length
  filled : ∀ i ∈ p.processed, (∃ w r, p.workers w = .storing i r) ∨
    p.slots[i]? = (inputs[i]?).map fun a => ⟨a, process a⟩

theorem Pool.exists_storing_assign {p : Pool n σ α κ ε β} {w : Fin n}
    {x : Worker κ (Except ε β)} {i : Nat} (hw : ∀ r, p.workers w ≠ .storing i r)
    (h : ∃ v r, p.workers v = .storing i r) : ∃ v r, (p.assign w x).workers v = .storing i r := by
  obtain ⟨v, r, hv⟩ := h
  have hne : v ≠ w := fun hvw => hw r (hvw ▸ hv)
  exact ⟨v, r, by rw [workers_assign, if_neg hne, hv]⟩

theorem Step.recorded {p q : Pool n Unit α α ε β} (h : Step (.plain process) inputs p q)
    (hp : p.Recorded process inputs) : q.Recorded process inputs := by
  obtain ⟨hfaithful, hlength, hfilled⟩ := hp
  cases h with
  | @hand w i a hsender hinput hw =>
    refine ⟨Pool.forall_workers_assign hinput hfaithful, hlength, fun j hj => ?_⟩
    exact (hfilled j hj).imp_left (Pool.exists_storing_assign (by simp [hw]))
  | mark hsender => exact ⟨hfaithful, hlength, hfilled⟩
  | close hsender => exact ⟨hfaithful, hlength, hfilled⟩
  | act hw hact => cases hact
  | @finish w i a s r hw hact =>
    cases hact
    have ha : inputs[i]? = some a := by simpa [hw, Worker.Faithful] using hfaithful w
    refine ⟨Pool.forall_workers_assign ⟨a, ha, rfl⟩ hfaithful, hlength, fun j hj => ?_⟩
    rcases List.mem_append.1 hj with hj | hj
    · exact (hfilled j hj).imp_left (Pool.exists_storing_assign (by simp [hw]))
    · rw [List.mem_singleton.1 hj]
      exact Or.inl ⟨w, process a, by simp⟩
  | @store w i r a hw hinput =>
    obtain ⟨b, hb, rfl⟩ : ∃ b, inputs[i]? = some b ∧ r = process b := by
      simpa [hw, Worker.Faithful] using hfaithful w
    obtain rfl : a = b := Option.some.inj (hinput.symm.trans hb)
    refine ⟨Pool.forall_workers_assign trivial hfaithful, by simpa using hlength,
      fun j hj => ?_⟩
    by_cases hij : i = j
    · subst hij
      have hi : i < p.slots.length := hlength ▸ (List.getElem?_eq_some_iff.1 hinput).1
      exact Or.inr (by simp [hinput, hi])
    · refine (hfilled j hj).imp (Pool.exists_storing_assign (by simp [hw, hij])) fun hslot => ?_
      simpa [List.getElem?_set_ne hij] using hslot
  | @stop w hsender hw =>
    refine ⟨Pool.forall_workers_assign trivial hfaithful, hlength, fun j hj => ?_⟩
    exact (hfilled j hj).imp_left (Pool.exists_storing_assign (by simp [hw]))

theorem Reaches.recorded {blank : Result ε α β} {p : Pool n Unit α α ε β}
    (h : Reaches (.plain process) inputs (.initial n inputs () blank) p) :
    p.Recorded process inputs := by
  induction h with
  | refl => exact ⟨fun _ => trivial, by simp [Pool.initial], by simp [Pool.initial]⟩
  | tail _ hstep ih => exact hstep.recorded ih

/-- Once all workers have stopped every slot is filled and every input is marked. -/
theorem Pool.Recorded.results_eq {p : Pool n Unit α α ε β} (hp : p.Recorded process inputs)
    (hc : p.Coherent inputs) (hn : 0 < n) (hstop : p.Stopped) (cancelled : ε) :
    p.results inputs cancelled = execute process inputs := by
  have hstarted : p.started = List.replicate inputs.length true := by
    apply List.ext_getElem
    · simp [hc.started_eq]
    · intro i hi hi'
      have : i < inputs.length := by simpa using hi'
      simp [hc.started_eq, hc.sender_closed hn hstop, Sender.marked, this]
  have hslot (i : Nat) : p.slots[i]? = (execute process inputs)[i]? := by
    by_cases hi : i < inputs.length
    · have hmem : i ∈ p.processed := (hc.perm_range hn hstop).mem_iff.2 (List.mem_range.2 hi)
      rcases hp.filled i hmem with ⟨w, r, hw⟩ | hslot
      · rw [hstop w] at hw
        cases hw
      · simp [hslot, execute]
    · have hi' : ¬ i < p.slots.length := by rw [hp.length_slots]; exact hi
      simp [execute, hi, hi']
  have hslots : p.slots = execute process inputs := List.ext_getElem? hslot
  apply List.ext_getElem
  · simp [results, hstarted, hslots, execute]
  · intro i hi hi'
    simp [results, hstarted, hslots]

theorem failed_execute (process : α → Except ε β) (inputs : List α) :
    failed (execute process inputs) = inputs.countP fun a => !(process a).isOk := by
  rw [failed, execute, List.filter_map, List.length_map, List.countP_eq_length_filter]
  congr 2
  funext a
  simp only [Function.comp_apply, Result.isFailure]
  cases process a <;> rfl

theorem workerCount_pos (wanted : Int) : 0 < workerCount wanted :=
  lt_of_lt_of_le Nat.zero_lt_one (Nat.le_max_left 1 wanted.toNat)

/-- Whatever sender and workers do in whatever order, no input is processed twice, and the run goes
on until all workers have stopped, which it reaches after finitely many steps. Then each input is
processed once, and its result stands at its place. -/
theorem Reaches.eq_execute (process : α → Except ε β) (inputs : List α) (wanted : Int)
    (blank : Result ε α β) (cancelled : ε) {p : Pool (workerCount wanted) Unit α α ε β}
    (h : Reaches (.plain process) inputs (.initial (workerCount wanted) inputs () blank) p) :
    (p.processed.Nodup ∧ ∀ i ∈ p.processed, i < inputs.length) ∧
    (p.Stopped →
      p.processed.Perm (List.range inputs.length) ∧
      p.results inputs cancelled = execute process inputs ∧
      failed (p.results inputs cancelled) = inputs.countP fun a => !(process a).isOk) ∧
    (¬ p.Stopped → ∃ q, Step (.plain process) inputs p q) ∧
    Acc (fun q p => Step (.plain process) inputs p q) p := by
  have hc := h.coherent
  have hn := workerCount_pos wanted
  refine ⟨⟨hc.divided.nodup, fun i hi => ?_⟩, fun hstop => ?_, hc.exists_step,
    (wellFounded_step _ inputs).apply p⟩
  · exact lt_of_lt_of_le ((hc.divided.lt_iff i).2 (Or.inl hi)) hc.handed_le
  · have hresults := h.recorded.results_eq hc hn hstop cancelled
    exact ⟨hc.perm_range hn hstop, hresults, hresults ▸ failed_execute process inputs⟩

def squareUnlessThree (a : Nat) : Except Unit Nat := if a = 3 then .error () else .ok (a * a)

theorem eq_execute_squares :
    let inputs := [1, 2, 3, 4, 5]
    let start : Pool (workerCount 4) Unit Nat Nat Unit Nat :=
      .initial (workerCount 4) inputs () ⟨0, .ok 0⟩
    ∃ p, Reaches (.plain squareUnlessThree) inputs start p ∧ p.Stopped ∧
      p.results inputs () =
        [⟨1, .ok 1⟩, ⟨2, .ok 4⟩, ⟨3, .error ()⟩, ⟨4, .ok 16⟩, ⟨5, .ok 25⟩] ∧
      failed (p.results inputs ()) = 1 := by
  intro inputs start
  have hstart : start.Coherent inputs := Pool.coherent_initial inputs () _
  obtain ⟨p, hp, hstop⟩ := hstart.exists_stopped
  obtain ⟨-, hresults, hfailed⟩ :=
    (Reaches.eq_execute squareUnlessThree inputs 4 ⟨0, .ok 0⟩ () hp).2.1 hstop
  exact ⟨p, hp, hstop, hresults, hfailed⟩

end Results

/-! ### Batches -/

section Batches

variable {α : Type} {size fuel : Nat} {items : List α}

theorem flatten_batchesFrom (hsize : 0 < size) (hfuel : items.length ≤ fuel) :
    (batchesFrom size fuel items).flatten = items := by
  induction fuel generalizing items with
  | zero => rw [List.length_eq_zero_iff.1 (Nat.le_zero.1 hfuel), batchesFrom, List.flatten_nil]
  | succ fuel ih =>
    rw [batchesFrom]
    split
    · exact (List.isEmpty_iff.1 ‹_›).symm
    · rw [List.flatten_cons, ih, List.take_append_drop]
      rw [List.length_drop]
      omega

theorem length_batchesFrom (hsize : 0 < size) (hfuel : items.length ≤ fuel) :
    (∀ piece ∈ batchesFrom size fuel items, 0 < piece.length ∧ piece.length ≤ size) ∧
      ∀ piece ∈ (batchesFrom size fuel items).dropLast, piece.length = size := by
  induction fuel generalizing items with
  | zero => exact ⟨by simp [batchesFrom], by simp [batchesFrom]⟩
  | succ fuel ih =>
    rw [batchesFrom]
    split
    · exact ⟨by simp, by simp⟩
    · rename_i hitems
      have hpos : 0 < items.length := List.length_pos_iff.2 (by simpa using hitems)
      have hfewer : (items.drop size).length ≤ fuel := by
        rw [List.length_drop]
        omega
      obtain ⟨hlength, hlast⟩ := ih hfewer
      refine ⟨List.forall_mem_cons.2 ⟨?_, hlength⟩, ?_⟩
      · rw [List.length_take]
        omega
      · -- a piece that another one follows left items to follow it
        cases hrest : batchesFrom size fuel (items.drop size) with
        | nil => simp
        | cons next more =>
          rw [List.dropLast_cons_cons]
          rw [hrest] at hlast
          refine List.forall_mem_cons.2 ⟨?_, hlast⟩
          have hmore : 0 < (items.drop size).length := by
            by_contra hnone
            rw [List.length_eq_zero_iff.1 (Nat.eq_zero_of_not_pos hnone)] at hrest
            cases fuel <;> cases hrest
          rw [List.length_drop] at hmore
          rw [List.length_take]
          omega

/-- Batches are the items in order, cut into pieces of the size. Only the last may be shorter, and
none is empty. -/
theorem batches_spec (items : List α) (size : Int) :
    (batches items size).flatten = items ∧
    (∀ piece ∈ batches items size, 0 < piece.length ∧ piece.length ≤ max 1 size.toNat) ∧
    ∀ piece ∈ (batches items size).dropLast, piece.length = max 1 size.toNat :=
  ⟨flatten_batchesFrom (by omega) (Nat.le_refl _), length_batchesFrom (by omega) (Nat.le_refl _)⟩

end Batches

end ApeScript.Work
