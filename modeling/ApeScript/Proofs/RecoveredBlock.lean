import ApeScript.Proofs.CompilerRun
import ApeScript.Proofs.PlacedBlock

/-!
# Blocks recovered from places

Which lists of statements `Block.ofPlaced` accepts, and what it makes of them. `Block.Describes`
says of a list, without building anything, that its places are those of a program. Such a list is
rebuilt with nothing lost and nothing repeated, whatever the order in which it comes: every
statement hangs on the one above its place, so from the first place all of them are reached.
-/

namespace ApeScript

/-- A statement suits what stands below it in a list of statements. The places below it are
numbers without a bound: none of them stands for one that it exceeds by `2 ^ 64`. -/
structure Placed.Fits (commands : List Placed) (p : Placed) : Prop where
  control : p.statement.type = StatementType.ifThen.code ∨
    p.statement.type = StatementType.while.code →
      p.statement.expr.isSome = true ∧ ∃ q ∈ commands, q.cc.toNat = 4 * p.cc.toNat + 1
  loop : p.statement.type = StatementType.while.code →
    ∀ q ∈ commands, q.cc.toNat ≠ 4 * p.cc.toNat + 2
  simple : p.statement.type ≠ StatementType.ifThen.code →
    p.statement.type ≠ StatementType.while.code →
      ∀ q ∈ commands, q.cc.toNat ≠ 4 * p.cc.toNat + 1 ∧ q.cc.toNat ≠ 4 * p.cc.toNat + 2

namespace Block

/-- The places of the statements are those of a program: they are distinct, there is a first one,
all others hang on a statement, and every statement suits what stands below it. -/
structure Describes (commands : List Placed) : Prop where
  distinct : (commands.map (·.cc)).Nodup
  first : ∃ p ∈ commands, p.cc = 1
  hangs : ∀ p ∈ commands, p.cc ≠ 1 → p.cc &&& 3 ≠ 0 ∧ ∃ q ∈ commands, q.cc = p.cc >>> 2
  fits : ∀ p ∈ commands, p.Fits commands

variable {commands commands' : List Placed} {p q : Placed} {b : Block} {n levels : Nat}

/-! ### The checks -/

theorem isSome_find?_iff : (find? commands n).isSome = true ↔ ∃ p ∈ commands, p.cc.toNat = n := by
  simp [find?]

theorem firstRepeat?_eq_none_iff {seen : List UInt64} : firstRepeat? seen commands = none ↔
    (commands.map (·.cc)).Nodup ∧ ∀ q ∈ commands, q.cc ∉ seen := by
  refine ⟨fun h => ?_, fun h => firstRepeat?_eq_none h.1 h.2⟩
  induction commands generalizing seen with
  | nil => simp
  | cons q commands ih =>
    by_cases hseen : q.cc ∈ seen
    · simp [firstRepeat?, hseen] at h
    · obtain ⟨hnodup, hrest⟩ := ih (by simpa [firstRepeat?, hseen] using h)
      have hfresh : q.cc ∉ commands.map (·.cc) := fun hmem => by
        obtain ⟨r, hr, heq⟩ := List.mem_map.1 hmem
        exact hrest r hr (heq ▸ List.mem_cons_self)
      refine ⟨List.nodup_cons.2 ⟨hfresh, hnodup⟩, List.forall_mem_cons.2 ⟨hseen, ?_⟩⟩
      exact fun r hr hmem => hrest r hr (List.mem_cons_of_mem _ hmem)

theorem forM_eq_ok_iff {ε α : Type} {check : α → Except ε Unit} {as : List α} :
    as.forM check = .ok () ↔ ∀ a ∈ as, check a = .ok () := by
  refine ⟨fun h => ?_, forM_ok⟩
  induction as with
  | nil => simp
  | cons a as ih =>
    obtain ⟨u, ha, h⟩ := bind_eq_ok.1 (show check a >>= (fun _ => as.forM check) = .ok () from h)
    exact List.forall_mem_cons.2 ⟨ha, ih h⟩

theorem and_three_ne_zero {cc : UInt64} : cc &&& 3 ≠ 0 ↔ cc.toNat % 4 ≠ 0 := by
  have hmod : (cc &&& 3).toNat = cc.toNat % 4 := by
    rw [UInt64.toNat_and]
    exact Nat.and_two_pow_sub_one_eq_mod cc.toNat 2
  rw [← hmod, ← UInt64.toNat_zero, Ne, Ne, UInt64.toNat_inj]

theorem eq_shiftRight_two {cc parent : UInt64} :
    parent = cc >>> 2 ↔ parent.toNat = cc.toNat / 4 := by
  have hdiv : (cc >>> 2).toNat = cc.toNat / 4 := by
    rw [UInt64.toNat_shiftRight]
    exact Nat.shiftRight_eq_div_pow cc.toNat 2
  rw [← hdiv, UInt64.toNat_inj]

theorem checkPlace_eq_ok_iff : checkPlace commands p = .ok () ↔
    (p.cc ≠ 1 → p.cc &&& 3 ≠ 0 ∧ ∃ q ∈ commands, q.cc = p.cc >>> 2) := by
  simp only [and_three_ne_zero, eq_shiftRight_two, ← isSome_find?_iff]
  unfold checkPlace
  by_cases hone : p.cc = 1
  · simp [hone]
  · cases hfind : find? commands (p.cc.toNat / 4) with
    | none => simp [hone]
    | some q => by_cases hmod : p.cc.toNat % 4 = 0 <;> simp [hone, hmod]

theorem isControl_eq_true {code : UInt8} : StatementType.isControl code = true ↔
    code = StatementType.ifThen.code ∨ code = StatementType.while.code := by
  simp [StatementType.isControl]

theorem checkBlocks_eq_ok_iff : checkBlocks commands p = .ok () ↔ p.Fits commands := by
  have hnone {m : Nat} : (∀ q ∈ commands, q.cc.toNat ≠ m) ↔ (find? commands m).isSome = false := by
    rw [Bool.eq_false_iff, Ne, isSome_find?_iff]
    simp
  have hfits : p.Fits commands ↔
      (StatementType.isControl p.statement.type = true → p.statement.expr.isSome = true ∧
        (find? commands (4 * p.cc.toNat + 1)).isSome = true) ∧
      (p.statement.type = StatementType.while.code →
        (find? commands (4 * p.cc.toNat + 2)).isSome = false) ∧
      (StatementType.isControl p.statement.type = false →
        (find? commands (4 * p.cc.toNat + 1)).isSome = false ∧
          (find? commands (4 * p.cc.toNat + 2)).isSome = false) := by
    simp only [isSome_find?_iff, isControl_eq_true, ← hnone, Bool.eq_false_iff, ne_eq, not_or,
      ← forall₂_and, and_imp]
    exact ⟨fun h => ⟨h.control, h.loop, h.simple⟩, fun h => ⟨h.1, h.2.1, h.2.2⟩⟩
  rw [hfits]
  unfold checkBlocks
  by_cases htype : p.statement.type = StatementType.while.code
  · have hcontrol : StatementType.isControl StatementType.while.code = true := by decide
    cases (find? commands (4 * p.cc.toNat + 1)).isSome <;>
      cases (find? commands (4 * p.cc.toNat + 2)).isSome <;>
      cases p.statement.expr <;> simp [htype, hcontrol]
  · cases StatementType.isControl p.statement.type <;>
      cases (find? commands (4 * p.cc.toNat + 1)).isSome <;>
      cases (find? commands (4 * p.cc.toNat + 2)).isSome <;>
      cases p.statement.expr <;> simp [htype]

/-! ### What is built -/

/-- What `build` returns from a place on: the statements of the list that are reached from there
by going from a statement to those that hang on it, each checked. -/
structure BuiltFrom (commands : List Placed) (n : Nat) (b : Block) : Prop where
  laid : b.LaidFrom n
  fits : ∀ p ∈ b.placed, p ∈ commands ∧ p.Fits commands
  first : ∀ q ∈ commands, q.cc.toNat = n → q ∈ b.placed
  below : ∀ p ∈ b.placed, ∀ q ∈ commands, q.cc.toNat / 4 = p.cc.toNat → q.cc.toNat % 4 ≠ 0 →
    q ∈ b.placed

theorem BuiltFrom.done (h : find? commands n = none) : BuiltFrom commands n done := by
  refine ⟨trivial, by simp [placed], fun q hq hn => ?_, by simp [placed]⟩
  have hsome : (find? commands n).isSome = true := isSome_find?_iff.2 ⟨q, hq, hn⟩
  simp [h] at hsome

theorem BuiltFrom.step {inner alt rest : Block} (hnodup : (commands.map (·.cc)).Nodup)
    (hp : p ∈ commands) (hn : p.cc.toNat = n) (hfits : p.Fits commands)
    (hi : BuiltFrom commands (4 * n + 1) inner) (ha : BuiltFrom commands (4 * n + 2) alt)
    (hr : BuiltFrom commands (4 * n + 3) rest) :
    BuiltFrom commands n (step p inner alt rest) where
  laid := ⟨hn, hi.laid, ha.laid, hr.laid⟩
  fits q hq := by
    rcases mem_placed_step.1 hq with rfl | hq | hq | hq
    · exact ⟨hp, hfits⟩
    · exact hi.fits q hq
    · exact ha.fits q hq
    · exact hr.fits q hq
  first q hq hqn := by
    have hfind := find?_of_mem hnodup hq
    rw [hqn, ← hn, find?_of_mem hnodup hp] at hfind
    exact mem_placed_step.2 (Or.inl (Option.some.inj hfind).symm)
  below r hr' q hq hqr hmod := by
    refine mem_placed_step.2 (Or.inr ?_)
    rcases mem_placed_step.1 hr' with rfl | hin | hin | hin
    · -- what hangs on the head is the first statement of one of the three blocks
      have hcases : q.cc.toNat = 4 * n + 1 ∨ q.cc.toNat = 4 * n + 2 ∨
        q.cc.toNat = 4 * n + 3 := by omega
      rcases hcases with h | h | h
      · exact Or.inl (hi.first q hq h)
      · exact Or.inr (Or.inl (ha.first q hq h))
      · exact Or.inr (Or.inr (hr.first q hq h))
    · exact Or.inl (hi.below r hin q hq hqr hmod)
    · exact Or.inr (Or.inl (ha.below r hin q hq hqr hmod))
    · exact Or.inr (Or.inr (hr.below r hin q hq hqr hmod))

theorem builtFrom_build (hnodup : (commands.map (·.cc)).Nodup)
    (hlevels : 4 ^ 32 ≤ n * 4 ^ levels) (h : build commands levels n = .ok b) :
    BuiltFrom commands n b := by
  induction levels generalizing n b with
  | zero =>
    obtain rfl : done = b := by simpa [build] using h
    refine BuiltFrom.done ?_
    cases hfind : find? commands n with
    | none => rfl
    | some p =>
      -- no place is that large
      have := p.cc.toNat_lt
      have := (find?_eq_some hfind).2
      omega
  | succ levels ih =>
    unfold build at h
    cases hfind : find? commands n with
    | none =>
      obtain rfl : done = b := by simpa [hfind] using h
      exact .done hfind
    | some p =>
      obtain ⟨hp, hn⟩ := find?_eq_some hfind
      have hchild (i : Nat) : 4 ^ 32 ≤ (4 * n + i) * 4 ^ levels := by
        calc 4 ^ 32 ≤ n * 4 ^ (levels + 1) := hlevels
          _ = 4 * n * 4 ^ levels := by ring
          _ ≤ (4 * n + i) * 4 ^ levels := Nat.mul_le_mul_right _ (Nat.le_add_right _ _)
      simp only [hfind] at h
      obtain ⟨u, hcheck, h⟩ := bind_eq_ok.1 h
      obtain ⟨inner, hinner, h⟩ := bind_eq_ok.1 h
      obtain ⟨alt, halt, h⟩ := bind_eq_ok.1 h
      obtain ⟨rest, hrest, h⟩ := bind_eq_ok.1 h
      obtain rfl : Block.step p inner alt rest = b := Except.ok.inj h
      exact .step hnodup hp hn (checkBlocks_eq_ok_iff.1 hcheck) (ih (hchild 1) hinner)
        (ih (hchild 2) halt) (ih (hchild 3) hrest)

theorem exists_build (hfits : ∀ p ∈ commands, p.Fits commands) :
    ∃ b, build commands levels n = .ok b := by
  induction levels generalizing n with
  | zero => exact ⟨done, rfl⟩
  | succ levels ih =>
    unfold build
    cases hfind : find? commands n with
    | none => exact ⟨done, rfl⟩
    | some p =>
      have hcheck := checkBlocks_eq_ok_iff.2 (hfits p (find?_eq_some hfind).1)
      obtain ⟨inner, hinner⟩ := ih (n := 4 * n + 1)
      obtain ⟨alt, halt⟩ := ih (n := 4 * n + 2)
      obtain ⟨rest, hrest⟩ := ih (n := 4 * n + 3)
      refine ⟨.step p inner alt rest, ?_⟩
      simp only [hcheck, hinner, halt, hrest]
      rfl

/-- Everything is reached from the first place when everything else hangs on a statement. -/
theorem BuiltFrom.mem_of_hangs (h : BuiltFrom commands 1 b)
    (hangs : ∀ p ∈ commands, p.cc ≠ 1 → p.cc &&& 3 ≠ 0 ∧ ∃ q ∈ commands, q.cc = p.cc >>> 2)
    (hq : q ∈ commands) : q ∈ b.placed := by
  -- on the place, which is larger than that of the statement it hangs on
  induction hm : q.cc.toNat using Nat.strongRecOn generalizing q with
  | ind m ih =>
    by_cases hone : q.cc = 1
    · exact h.first q hq (by simp [hone])
    · obtain ⟨hmod, p, hp, hpq⟩ := hangs q hq hone
      rw [and_three_ne_zero] at hmod
      rw [eq_shiftRight_two] at hpq
      have hless : p.cc.toNat < m := by omega
      exact h.below p (ih _ hless hp rfl) q hq hpq.symm hmod

/-! ### Rebuilding from a list of statements -/

theorem ofPlaced_eq_ok_iff : ofPlaced commands = .ok b ↔ (commands.map (·.cc)).Nodup ∧
    (∀ p ∈ commands, p.cc ≠ 1 → p.cc &&& 3 ≠ 0 ∧ ∃ q ∈ commands, q.cc = p.cc >>> 2) ∧
    (commands ≠ [] → ∃ p ∈ commands, p.cc = 1) ∧ build commands 32 1 = .ok b := by
  have hnodup : firstRepeat? [] commands = none ↔ (commands.map (·.cc)).Nodup := by
    simp [firstRepeat?_eq_none_iff]
  have hplaces : commands.forM (checkPlace commands) = .ok () ↔
      ∀ p ∈ commands, p.cc ≠ 1 → p.cc &&& 3 ≠ 0 ∧ ∃ q ∈ commands, q.cc = p.cc >>> 2 := by
    simp only [forM_eq_ok_iff, checkPlace_eq_ok_iff]
  have hfirst : (∃ p ∈ commands, p.cc = 1) ↔ (find? commands 1).isSome = true := by
    simp only [isSome_find?_iff, ← UInt64.toNat_inj, UInt64.toNat_one]
  rw [← hnodup, ← hplaces, hfirst]
  unfold ofPlaced
  cases firstRepeat? [] commands with
  | some cc => simp [throw, throwThe, MonadExceptOf.throw, bind, Except.bind]
  | none =>
    cases commands.forM (checkPlace commands) with
    | error e => simp [bind, Except.bind]
    | ok u =>
      cases commands with
      | nil => simp [bind, Except.bind, pure, Except.pure, build, find?]
      | cons p commands =>
        cases (find? (p :: commands) 1) with
        | none => simp [throw, throwThe, MonadExceptOf.throw, bind, Except.bind]
        | some q => simp [bind, Except.bind]

theorem BuiltFrom.of_ofPlaced (h : ofPlaced commands = .ok b) :
    BuiltFrom commands 1 b ∧ ∀ p ∈ commands, p ∈ b.placed := by
  obtain ⟨hnodup, hhangs, -, hbuild⟩ := ofPlaced_eq_ok_iff.1 h
  have hbuilt := builtFrom_build hnodup (by norm_num) hbuild
  exact ⟨hbuilt, fun p hp => hbuilt.mem_of_hangs hhangs hp⟩

theorem exists_ofPlaced_iff :
    (∃ b, ofPlaced commands = .ok b) ↔ commands = [] ∨ Describes commands := by
  constructor
  · rintro ⟨b, h⟩
    obtain ⟨hnodup, hhangs, hfirst, -⟩ := ofPlaced_eq_ok_iff.1 h
    obtain ⟨hbuilt, hall⟩ := BuiltFrom.of_ofPlaced h
    rcases eq_or_ne commands [] with hnil | hne
    · exact Or.inl hnil
    · exact Or.inr ⟨hnodup, hfirst hne, hhangs, fun p hp => (hbuilt.fits p (hall p hp)).2⟩
  · rintro (rfl | h)
    · exact ⟨done, rfl⟩
    · obtain ⟨b, hb⟩ := exists_build h.fits
      exact ⟨b, ofPlaced_eq_ok_iff.2 ⟨h.distinct, h.hangs, fun _ => h.first, hb⟩⟩

theorem placed_perm_of_ofPlaced (h : ofPlaced commands = .ok b) : b.placed.Perm commands := by
  obtain ⟨hbuilt, hall⟩ := BuiltFrom.of_ofPlaced h
  have hnodup : (commands.map (·.cc)).Nodup := (ofPlaced_eq_ok_iff.1 h).1
  refine (List.perm_ext_iff_of_nodup hbuilt.laid.nodup.of_map hnodup.of_map).2 fun p => ?_
  exact ⟨fun hp => (hbuilt.fits p hp).1, hall p⟩

/-! ### The order of the list -/

theorem find?_perm (hperm : commands'.Perm commands) (hnodup : (commands.map (·.cc)).Nodup) :
    find? commands' n = find? commands n := by
  have hnodup' : (commands'.map (·.cc)).Nodup := (hperm.map _).nodup_iff.2 hnodup
  cases hfind : find? commands n with
  | none =>
    rw [Option.eq_none_iff_forall_ne_some]
    intro p hp
    obtain ⟨hmem, rfl⟩ := find?_eq_some hp
    simp [find?_of_mem hnodup (hperm.mem_iff.1 hmem)] at hfind
  | some p =>
    obtain ⟨hmem, rfl⟩ := find?_eq_some hfind
    exact find?_of_mem hnodup' (hperm.mem_iff.2 hmem)

theorem build_congr (hfind : ∀ m, find? commands' m = find? commands m) :
    build commands' levels n = build commands levels n := by
  have hcheck (p : Placed) : checkBlocks commands' p = checkBlocks commands p := by
    simp only [checkBlocks, hfind]
  induction levels generalizing n with
  | zero => rfl
  | succ levels ih => simp only [build, hfind, hcheck, ih]

theorem ofPlaced_perm (hperm : commands'.Perm commands) (h : ofPlaced commands = .ok b) :
    ofPlaced commands' = .ok b := by
  obtain ⟨hnodup, hhangs, hfirst, hbuild⟩ := ofPlaced_eq_ok_iff.1 h
  have hsame : build commands' 32 1 = build commands 32 1 :=
    build_congr fun _ => find?_perm hperm hnodup
  refine ofPlaced_eq_ok_iff.2 ⟨(hperm.map _).nodup_iff.2 hnodup, ?_, ?_, hsame.trans hbuild⟩
  · simpa only [hperm.mem_iff] using hhangs
  · intro hne
    simpa only [hperm.mem_iff] using hfirst fun hnil => hne (hnil ▸ hperm).eq_nil

/-- A list of statements is rebuilt exactly when its places describe a program, and then into a
block that has every statement once, at the position that its place says, and that does not depend
on the order of the list. -/
theorem ofPlaced_recovers (commands : List Placed) :
    ((∃ b, ofPlaced commands = .ok b) ↔ commands = [] ∨ Describes commands) ∧
      ∀ b, ofPlaced commands = .ok b → b.placed.Perm commands ∧ b.LaidFrom 1 ∧
        ∀ commands', commands'.Perm commands → ofPlaced commands' = .ok b := by
  refine ⟨exists_ofPlaced_iff, fun b h => ⟨placed_perm_of_ofPlaced h, ?_, ?_⟩⟩
  · exact (BuiltFrom.of_ofPlaced h).1.laid
  · exact fun commands' hperm => ofPlaced_perm hperm h

/-- Three statements out of order: an `if` at the first place, what it governs and what follows. -/
theorem ofPlaced_recovers_branch :
    let condition : Placed :=
      ⟨1, ⟨StatementType.ifThen.code, none, [], some (Expr.constant .zero)⟩⟩
    let inner : Placed := ⟨5, ⟨StatementType.closeWindow.code, none, [], none⟩⟩
    let next : Placed := ⟨7, ⟨StatementType.closeWindow.code, none, [], none⟩⟩
    let b : Block := .step condition (.step inner .done .done .done) .done
      (.step next .done .done .done)
    ofPlaced [next, inner, condition] = .ok b ∧ b.placed.Perm [next, inner, condition] ∧
      ofPlaced [inner, condition, next] = .ok b := by
  intro condition inner next b
  have hb : ofPlaced [next, inner, condition] = .ok b := by cbv
  obtain ⟨hperm, -, horder⟩ := (ofPlaced_recovers [next, inner, condition]).2 b hb
  exact ⟨hb, hperm, horder _ (by decide)⟩

end Block

end ApeScript
