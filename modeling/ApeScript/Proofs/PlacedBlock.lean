import ApeScript.Switch.Block
import Mathlib

/-!
# Places of statements

`Block.placed` lists the statements of a block: each statement, then the block it governs, its
alternative and what follows it. `Block.LaidFrom` says that every statement has the place which
its position in the block gives it, and `Block.Suited` that every statement governs the blocks its
type asks for. The places of such a block are distinct, and `Block.ofPlaced` rebuilds the block
from the list of its statements.
-/

namespace ApeScript

/-! ### Places below a place -/

/-- A place at or below another: going up from the first leads to the second. -/
def Under (n m : Nat) : Prop := ∃ k, m / 4 ^ k = n

namespace Under

variable {n m i j : Nat}

theorem refl (n : Nat) : Under n n := ⟨0, by simp⟩

theorem of_child (hi : i < 4) (h : Under (4 * n + i) m) : Under n m := by
  obtain ⟨k, hk⟩ := h
  refine ⟨k + 1, ?_⟩
  rw [pow_succ, ← Nat.div_div_eq_div_mul, hk]
  omega

theorem not_child (hi : 0 < i) : ¬ Under (4 * n + i) n := by
  rintro ⟨k, hk⟩
  have := Nat.div_le_self n (4 ^ k)
  omega

/-- No place is below two of the places that hang on one. -/
theorem child_inj (hi : 0 < i ∧ i < 4) (hj : 0 < j ∧ j < 4) (h : Under (4 * n + i) m)
    (h' : Under (4 * n + j) m) : i = j := by
  obtain ⟨k, hk⟩ := h
  obtain ⟨l, hl⟩ := h'
  -- going up further from one child leads to their parent or higher, never to another child
  have hup {a b p q : Nat} (hp : m / 4 ^ a = 4 * n + p) (hq : m / 4 ^ b = 4 * n + q) (hp' : p < 4)
      (hq' : 0 < q) (hab : a ≤ b) : a = b := by
    obtain ⟨c, rfl⟩ := Nat.exists_eq_add_of_le hab
    cases c with
    | zero => rfl
    | succ c =>
      have hparent : m / 4 ^ (a + (c + 1)) = (4 * n + p) / 4 / 4 ^ c := by
        rw [← hp, Nat.div_div_eq_div_mul, Nat.div_div_eq_div_mul]
        congr 1
        ring
      have := Nat.div_le_self ((4 * n + p) / 4) (4 ^ c)
      omega
  have hkl : k = l := by
    rcases Nat.le_total k l with hle | hle
    · exact hup hk hl hi.2 hj.1 hle
    · exact (hup hl hk hj.2 hi.1 hle).symm
  subst hkl
  omega

end Under

namespace Block

def placed : Block → List Placed
  | done => []
  | step p inner alt rest => p :: (inner.placed ++ alt.placed ++ rest.placed)

def LaidFrom : (place : Nat) → Block → Prop
  | _, done => True
  | n, step p inner alt rest => p.cc.toNat = n ∧ inner.LaidFrom (4 * n + 1) ∧
      alt.LaidFrom (4 * n + 2) ∧ rest.LaidFrom (4 * n + 3)

end Block

/-- The blocks that a statement governs suit its type: a statement that governs others has a
condition and something to govern, only an `if` has an alternative. -/
structure Placed.Governs (p : Placed) (inner alt : Block) : Prop where
  control : StatementType.isControl p.statement.type = true →
    inner ≠ .done ∧ p.statement.expr.isSome = true
  simple : StatementType.isControl p.statement.type = false → inner = .done ∧ alt = .done
  loop : p.statement.type = StatementType.while.code → alt = .done

namespace Block

def Suited : Block → Prop
  | done => True
  | step p inner alt rest => p.Governs inner alt ∧ inner.Suited ∧ alt.Suited ∧ rest.Suited

variable {commands : List Placed} {p q : Placed} {inner alt rest b : Block} {n : Nat}

theorem mem_placed_step : q ∈ (step p inner alt rest).placed ↔
    q = p ∨ q ∈ inner.placed ∨ q ∈ alt.placed ∨ q ∈ rest.placed := by
  simp [placed]

theorem LaidFrom.under (h : b.LaidFrom n) (hq : q ∈ b.placed) : Under n q.cc.toNat := by
  induction b generalizing n with
  | done => cases hq
  | step p inner alt rest ihi iha ihr =>
    obtain ⟨hp, hi, ha, hr⟩ := h
    rcases mem_placed_step.1 hq with rfl | hq | hq | hq
    · exact hp ▸ .refl _
    · exact (ihi hi hq).of_child (by decide)
    · exact (iha ha hq).of_child (by decide)
    · exact (ihr hr hq).of_child (by decide)

/-- Every statement but the first hangs on another of the block. -/
theorem LaidFrom.parent (h : b.LaidFrom n) (hq : q ∈ b.placed) : q.cc.toNat = n ∨
    q.cc.toNat % 4 ≠ 0 ∧ ∃ p ∈ b.placed, p.cc.toNat = q.cc.toNat / 4 := by
  induction b generalizing n with
  | done => cases hq
  | step p inner alt rest ihi iha ihr =>
    obtain ⟨hp, hi, ha, hr⟩ := h
    have hhead : p ∈ (step p inner alt rest).placed := mem_placed_step.2 (Or.inl rfl)
    -- the first statement of each of the three blocks hangs on the head, the others in their block
    have hchild {sub : Block} {i : Nat} (hi : 0 < i ∧ i < 4)
        (hsub : ∀ r ∈ sub.placed, r ∈ (step p inner alt rest).placed)
        (hparent : q.cc.toNat = 4 * n + i ∨
          q.cc.toNat % 4 ≠ 0 ∧ ∃ r ∈ sub.placed, r.cc.toNat = q.cc.toNat / 4) :
        q.cc.toNat % 4 ≠ 0 ∧
          ∃ r ∈ (step p inner alt rest).placed, r.cc.toNat = q.cc.toNat / 4 := by
      rcases hparent with hfirst | ⟨hmod, r, hr, hrq⟩
      · exact ⟨by omega, p, hhead, by omega⟩
      · exact ⟨hmod, r, hsub r hr, hrq⟩
    rcases mem_placed_step.1 hq with rfl | hq | hq | hq
    · exact Or.inl hp
    · exact Or.inr (hchild (by decide)
        (fun r hr => mem_placed_step.2 (Or.inr (Or.inl hr))) (ihi hi hq))
    · exact Or.inr (hchild (by decide)
        (fun r hr => mem_placed_step.2 (Or.inr (Or.inr (Or.inl hr)))) (iha ha hq))
    · exact Or.inr (hchild (by decide)
        (fun r hr => mem_placed_step.2 (Or.inr (Or.inr (Or.inr hr)))) (ihr hr hq))

theorem LaidFrom.nodup (h : b.LaidFrom n) : (b.placed.map (·.cc)).Nodup := by
  induction b generalizing n with
  | done => exact List.nodup_nil
  | step p inner alt rest ihi iha ihr =>
    obtain ⟨hp, hi, ha, hr⟩ := h
    have hhead {sub : Block} {i : Nat} (hi : 0 < i) (hsub : sub.LaidFrom (4 * n + i)) :
        ∀ q ∈ sub.placed, p.cc ≠ q.cc := by
      intro q hq heq
      have hunder := hsub.under hq
      rw [← heq, hp] at hunder
      exact Under.not_child hi hunder
    have hapart {s t : Block} {i j : Nat} (hi : 0 < i ∧ i < 4) (hj : 0 < j ∧ j < 4)
        (hij : i ≠ j) (hs : s.LaidFrom (4 * n + i)) (ht : t.LaidFrom (4 * n + j)) :
        ∀ q ∈ s.placed, ∀ r ∈ t.placed, q.cc ≠ r.cc := by
      intro q hq r hr heq
      have hunder := hs.under hq
      rw [heq] at hunder
      exact hij (Under.child_inj hi hj hunder (ht.under hr))
    simp only [placed, List.map_cons, List.map_append, List.nodup_cons, List.nodup_append,
      List.mem_append, List.mem_map]
    refine ⟨?_, ⟨ihi hi, iha ha, ?_⟩, ihr hr, ?_⟩
    · rintro ((⟨q, hq, heq⟩ | ⟨q, hq, heq⟩) | ⟨q, hq, heq⟩)
      · exact hhead (by decide) hi q hq heq.symm
      · exact hhead (by decide) ha q hq heq.symm
      · exact hhead (by decide) hr q hq heq.symm
    · rintro _ ⟨q, hq, rfl⟩ _ ⟨r, hr', rfl⟩
      exact hapart (by decide) (by decide) (by decide) hi ha q hq r hr'
    · rintro _ (⟨q, hq, rfl⟩ | ⟨q, hq, rfl⟩) _ ⟨r, hr', rfl⟩
      · exact hapart (by decide) (by decide) (by decide) hi hr q hq r hr'
      · exact hapart (by decide) (by decide) (by decide) ha hr q hq r hr'

theorem LaidFrom.ne_zero (h : b.LaidFrom n) (hn : n ≠ 0) (hq : q ∈ b.placed) : q.cc ≠ 0 := by
  intro hzero
  obtain ⟨k, hk⟩ := h.under hq
  rw [hzero, UInt64.toNat_zero, Nat.zero_div] at hk
  exact hn hk.symm

/-! ### Rebuilding -/

theorem find?_of_mem (hnodup : (commands.map (·.cc)).Nodup) (hp : p ∈ commands) :
    find? commands p.cc.toNat = some p := by
  induction commands with
  | nil => cases hp
  | cons q commands ih =>
    obtain ⟨hq, hnodup⟩ := List.nodup_cons.1 hnodup
    rcases List.mem_cons.1 hp with rfl | hp
    · simp [find?]
    · have hne : q.cc.toNat ≠ p.cc.toNat := fun heq =>
        hq (List.mem_map.2 ⟨p, hp, (UInt64.toNat_inj.1 heq).symm⟩)
      rw [find?, List.find?_cons_of_neg (by simpa using hne)]
      exact ih hnodup hp

theorem find?_eq_some (h : find? commands n = some p) : p ∈ commands ∧ p.cc.toNat = n :=
  ⟨List.mem_of_find?_eq_some h, by simpa using List.find?_some h⟩

structure Covers (commands : List Placed) (n : Nat) (b : Block) : Prop where
  mem : ∀ q ∈ b.placed, q ∈ commands
  under : ∀ q ∈ commands, Under n q.cc.toNat → q ∈ b.placed

theorem Covers.find?_done (h : Covers commands n done) : find? commands n = none := by
  cases hfind : find? commands n with
  | none => rfl
  | some p =>
    obtain ⟨hp, rfl⟩ := find?_eq_some hfind
    exact absurd (h.under p hp (.refl _)) List.not_mem_nil

theorem Covers.isSome_find? (hnodup : (commands.map (·.cc)).Nodup) (h : Covers commands n b)
    (hlaid : b.LaidFrom n) : (find? commands n).isSome = !b.isDone := by
  cases b with
  | done => simp [h.find?_done, isDone]
  | step p inner alt rest =>
    obtain ⟨rfl, -⟩ := hlaid
    have hp : p ∈ commands := h.mem p (mem_placed_step.2 (Or.inl rfl))
    simp [find?_of_mem hnodup hp, isDone]

/-- The three blocks that hang on a statement are covered from their own places on. -/
theorem Covers.children (h : Covers commands n (step p inner alt rest))
    (hlaid : (step p inner alt rest).LaidFrom n) : Covers commands (4 * n + 1) inner ∧
      Covers commands (4 * n + 2) alt ∧ Covers commands (4 * n + 3) rest := by
  obtain ⟨hp, hi, ha, hr⟩ := hlaid
  have hmem {q : Placed} {i : Nat} (hi' : i < 4) (hq : q ∈ commands)
      (hunder : Under (4 * n + i) q.cc.toNat) :
      q = p ∨ q ∈ inner.placed ∨ q ∈ alt.placed ∨ q ∈ rest.placed :=
    mem_placed_step.1 (h.under q hq (hunder.of_child hi'))
  have hself {q : Placed} {i : Nat} (hi' : 0 < i) (hunder : Under (4 * n + i) q.cc.toNat) :
      q ≠ p := by
    rintro rfl
    rw [hp] at hunder
    exact Under.not_child hi' hunder
  -- a statement below one child cannot belong to the block of another
  have hother {q : Placed} {sub : Block} {i j : Nat} (hi : 0 < i ∧ i < 4) (hj : 0 < j ∧ j < 4)
      (hij : i ≠ j) (hunder : Under (4 * n + i) q.cc.toNat)
      (hsub : sub.LaidFrom (4 * n + j)) : q ∉ sub.placed := fun hq =>
    hij (Under.child_inj hi hj hunder (hsub.under hq))
  refine ⟨⟨fun q hq => h.mem q (mem_placed_step.2 (Or.inr (Or.inl hq))), fun q hq hunder => ?_⟩,
    ⟨fun q hq => h.mem q (mem_placed_step.2 (Or.inr (Or.inr (Or.inl hq)))),
      fun q hq hunder => ?_⟩,
    fun q hq => h.mem q (mem_placed_step.2 (Or.inr (Or.inr (Or.inr hq)))), fun q hq hunder => ?_⟩
  · rcases hmem (by decide) hq hunder with hq | hq | hq | hq
    · exact absurd hq (hself (by decide) hunder)
    · exact hq
    · exact absurd hq (hother (by decide) (by decide) (by decide) hunder ha)
    · exact absurd hq (hother (by decide) (by decide) (by decide) hunder hr)
  · rcases hmem (by decide) hq hunder with hq | hq | hq | hq
    · exact absurd hq (hself (by decide) hunder)
    · exact absurd hq (hother (by decide) (by decide) (by decide) hunder hi)
    · exact hq
    · exact absurd hq (hother (by decide) (by decide) (by decide) hunder hr)
  · rcases hmem (by decide) hq hunder with hq | hq | hq | hq
    · exact absurd hq (hself (by decide) hunder)
    · exact absurd hq (hother (by decide) (by decide) (by decide) hunder hi)
    · exact absurd hq (hother (by decide) (by decide) (by decide) hunder ha)
    · exact hq

theorem isDone_eq_false : b.isDone = false ↔ b ≠ done := by
  cases b <;> simp [isDone]

theorem checkBlocks_ok (hnodup : (commands.map (·.cc)).Nodup)
    (hcovers : Covers commands n (step p inner alt rest))
    (hlaid : (step p inner alt rest).LaidFrom n) (hgoverns : p.Governs inner alt) :
    checkBlocks commands p = .ok () := by
  obtain ⟨hci, hca, -⟩ := hcovers.children hlaid
  obtain ⟨hp, hi, ha, -⟩ := hlaid
  have hinner := hci.isSome_find? hnodup hi
  have halt := hca.isSome_find? hnodup ha
  unfold checkBlocks
  simp only [hp, hinner, halt]
  cases hcontrol : StatementType.isControl p.statement.type with
  | false =>
    obtain ⟨rfl, rfl⟩ := hgoverns.simple hcontrol
    simp [isDone]
  | true =>
    obtain ⟨hne, hexpr⟩ := hgoverns.control hcontrol
    have hdone : inner.isDone = false := isDone_eq_false.2 hne
    have hpresent : p.statement.expr.isNone = false := by simpa using hexpr
    have hloop : (p.statement.type = StatementType.while.code && !alt.isDone) = false := by
      by_cases htype : p.statement.type = StatementType.while.code
      · simp [hgoverns.loop htype, isDone]
      · simp [htype]
    simp [hdone, hpresent, hloop]

theorem build_eq (hnodup : (commands.map (·.cc)).Nodup) {levels : Nat} (hlaid : b.LaidFrom n)
    (hsuited : b.Suited) (hcovers : Covers commands n b) (hlevels : 4 ^ 32 ≤ n * 4 ^ levels) :
    build commands levels n = .ok b := by
  induction levels generalizing n b with
  | zero =>
    cases b with
    | done => rfl
    | step p inner alt rest =>
      -- no place is that large
      have := p.cc.toNat_lt
      have := hlaid.1
      omega
  | succ levels ih =>
    cases b with
    | done => simp [build, hcovers.find?_done]
    | step p inner alt rest =>
      obtain ⟨hgoverns, hsi, hsa, hsr⟩ := hsuited
      obtain ⟨hci, hca, hcr⟩ := hcovers.children hlaid
      have hcheck := checkBlocks_ok hnodup hcovers hlaid hgoverns
      have hp : p ∈ commands := hcovers.mem p (mem_placed_step.2 (Or.inl rfl))
      obtain ⟨hn, hi, ha, hr⟩ := hlaid
      have hfind : find? commands n = some p := hn ▸ find?_of_mem hnodup hp
      have hchild (i : Nat) : 4 ^ 32 ≤ (4 * n + i) * 4 ^ levels := by
        calc 4 ^ 32 ≤ n * 4 ^ (levels + 1) := hlevels
          _ = 4 * n * 4 ^ levels := by ring
          _ ≤ (4 * n + i) * 4 ^ levels := Nat.mul_le_mul_right _ (Nat.le_add_right _ _)
      simp only [build, hfind, hcheck, ih hi hsi hci (hchild 1), ih ha hsa hca (hchild 2),
        ih hr hsr hcr (hchild 3)]
      rfl

theorem firstRepeat?_eq_none {seen : List UInt64} (hnodup : (commands.map (·.cc)).Nodup)
    (hseen : ∀ q ∈ commands, q.cc ∉ seen) : firstRepeat? seen commands = none := by
  induction commands generalizing seen with
  | nil => rfl
  | cons q commands ih =>
    obtain ⟨hq, hnodup⟩ := List.nodup_cons.1 hnodup
    obtain ⟨hfirst, hrest⟩ := List.forall_mem_cons.1 hseen
    rw [firstRepeat?, if_neg (by simpa using hfirst)]
    refine ih hnodup fun r hr => ?_
    refine List.not_mem_cons_of_ne_of_not_mem (fun heq => hq ?_) (hrest r hr)
    exact List.mem_map.2 ⟨r, hr, heq⟩

theorem forM_ok {ε α : Type} {check : α → Except ε Unit} {as : List α}
    (h : ∀ a ∈ as, check a = .ok ()) : as.forM check = .ok () := by
  induction as with
  | nil => rfl
  | cons a as ih =>
    obtain ⟨ha, has⟩ := List.forall_mem_cons.1 h
    change check a >>= (fun _ => as.forM check) = .ok ()
    rw [ha]
    exact ih has

theorem checkPlace_ok (hlaid : b.LaidFrom 1) (hq : q ∈ b.placed) :
    checkPlace b.placed q = .ok () := by
  unfold checkPlace
  by_cases hone : q.cc = 1
  · rw [if_pos hone]
  · have hne : q.cc.toNat ≠ 1 := fun h => hone (UInt64.toNat_inj.1 h)
    obtain ⟨hmod, p, hp, hpq⟩ := (hlaid.parent hq).resolve_left hne
    rw [if_neg hone, ← hpq, find?_of_mem hlaid.nodup hp, if_neg (by simp), if_neg hmod]

/-- The statements of a block that is laid out from the first place describe that block. -/
theorem ofPlaced_placed (hlaid : b.LaidFrom 1) (hsuited : b.Suited) :
    ofPlaced b.placed = .ok b := by
  have hnodup := hlaid.nodup
  have hrepeat : firstRepeat? [] b.placed = none :=
    firstRepeat?_eq_none hnodup fun _ _ => List.not_mem_nil
  have hplaces : b.placed.forM (checkPlace b.placed) = .ok () :=
    forM_ok fun q hq => checkPlace_ok hlaid hq
  have hcovers : Covers b.placed 1 b := ⟨fun _ hq => hq, fun _ hq _ => hq⟩
  have hbuild : build b.placed 32 1 = .ok b :=
    build_eq hnodup hlaid hsuited hcovers (by norm_num)
  unfold ofPlaced
  rw [hrepeat, hplaces]
  cases b with
  | done => rfl
  | step p inner alt rest =>
    have hfind : (find? (step p inner alt rest).placed 1).isNone = false := by
      have := hcovers.isSome_find? hnodup hlaid
      simpa [isDone] using this
    change (if (find? (step p inner alt rest).placed 1).isNone = true then _ else _) = _
    rw [hfind]
    exact hbuild

end Block

end ApeScript
