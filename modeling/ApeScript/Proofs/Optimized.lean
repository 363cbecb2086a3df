import ApeScript.Proofs.PairedWindow
import ApeScript.Proofs.SimplifiedSwitch

/-!
# Optimizing

A script that compiles with and without optimizing gives the same windows and the same switches, in
the same order. The windows show the same under every assignment. The switches run alike on every
machine, unless an `if` with an alternative asks for a variable that stands alone among the terms of
its condition: if nothing is left of its first block, the condition is inverted, and the inverse of
a variable alone asks for the variable again.
-/

namespace ApeScript

/-- Optimizing does not change what a window shows: the windows have the same numbers in the same
order, and under every assignment the same commands show, with the same numbers in them. -/
theorem shown_optimized (src : Bytes) (o : Options) (f₀ f₁ : File)
    (h₀ : (compile src { o with optimize := false }).result = .ok f₀)
    (h₁ : (compile src { o with optimize := true }).result = .ok f₁) :
    f₀.windows.map (·.id) = f₁.windows.map (·.id) ∧
      ∀ A ρ, f₀.windows.map (·.shown A ρ) = f₁.windows.map (·.shown A ρ) := by
  have hmap {γ : Type} {f : Window → γ} (A : Arithmetic) (ρ : Assignment)
      (hf : ∀ w w', Twins.Windows A ρ w w' → f w = f w') :
      f₀.windows.map f = f₁.windows.map f := by
    rw [← List.forall₂_eq_eq_eq, List.forall₂_map_left_iff, List.forall₂_map_right_iff]
    exact (paired_files h₀ h₁ A ρ).1.imp hf
  exact ⟨hmap default default fun _ _ h => h.1, fun A ρ => hmap A ρ fun _ _ h => h.2⟩

/-- A title that never shows, a body that always shows, and a position that is a comparison. -/
def constantChoices : Bytes :=
  utf8 "#window 1:1\nif (0 > 0)\ntitle \"a\"\nif (x || 0 == 0)\nbody \"b\"\nxpos 0 >= 0\n"

def constantChoicesKept : File where
  windows := [⟨10001,
    [.formattedText CommandCode.title
       (some ⟨4, ⟨4, 5, .float .zero⟩, ⟨4, 6, .float .zero⟩⟩) [97] [],
     .formattedText CommandCode.body (some ⟨1, ⟨5, 5, .name [120]⟩,
       ⟨0, 6, .nested 8 4 25 (.float .zero) 4 26 (.float .zero)⟩⟩) [98] [],
     .flags WindowFlags.noBackground,
     .dimensions ⟨some ⟨6, ⟨4, 5, .float .zero⟩, ⟨4, 6, .float .zero⟩⟩, none, none, none⟩]⟩]
  switches := []

def constantChoicesFolded : File where
  windows := [⟨10001,
    [.formattedText CommandCode.body
       (some ⟨1, ⟨5, 5, .name [120]⟩, ⟨4, 6, .float ⟨0x3f800000⟩⟩⟩) [98] [],
     .flags WindowFlags.noBackground,
     .dimensions ⟨some (Expr.constant ⟨0x3f800000⟩), none, none, none⟩]⟩]
  switches := []

theorem shown_optimized_constantChoices :
    (compile constantChoices { Options.defaults with optimize := false }).result =
        .ok constantChoicesKept ∧
      (compile constantChoices { Options.defaults with optimize := true }).result =
        .ok constantChoicesFolded ∧
      ∀ A ρ, constantChoicesKept.windows.map (·.shown A ρ) =
        constantChoicesFolded.windows.map (·.shown A ρ) := by
  have hkept : (compile constantChoices { Options.defaults with optimize := false }).result =
      .ok constantChoicesKept := by cbv
  have hfolded : (compile constantChoices { Options.defaults with optimize := true }).result =
      .ok constantChoicesFolded := by cbv
  exact ⟨hkept, hfolded, (shown_optimized _ _ _ _ hkept hfolded).2⟩

namespace Switch.Paired

variable {o o' : Options} {w w' : Switch}

/-- Two switches that are emitted for one draft run alike. -/
theorem run_eq (h : w.Paired o o' w') (ho : o.optimize = false) (ho' : o'.optimize = true)
    (hescapes : o.allowExprEscapes = o'.allowExprEscapes) :
    ∃ b₀ b₁, Block.ofPlaced w.commands = .ok b₀ ∧ Block.ofPlaced w'.commands = .ok b₁ ∧
      ∀ (σ : Type) (A : Arithmetic) (M : Machine σ), A.Definite → (∀ s, (M.memory s).Definite) →
        ∀ bound, b₀.Negatable A M bound → ∀ s, b₀.run A M bound s = b₁.run A M bound s := by
  obtain ⟨d, hd, ⟨d₀, b₀, hsimple₀, hps₀, hlaid₀, hsuited₀, hemitted₀⟩,
    ⟨d₁, b₁, hsimple₁, hps₁, hlaid₁, hsuited₁, hemitted₁⟩⟩ := h.commands
  rw [ho] at hsimple₀
  rw [ho'] at hsimple₁
  have hf₀ : d₀.Finite := hd.finite.simplify hsimple₀
  refine ⟨b₀, b₁, ?_, ?_, fun σ A M hA hM bound hn s => ?_⟩
  · rw [hps₀, Block.ofPlaced_placed hlaid₀ hsuited₀]
  · rw [hps₁, Block.ofPlaced_placed hlaid₁ hsuited₁]
  · have hnegatable := hemitted₀.negatable ho hf₀ hn
    have hruns := Draft.run_simplify hA hM hd.finite hsimple₀ hsimple₁ hnegatable
    rw [hemitted₀.run_eq hf₀, hemitted₁.run_eq (hd.finite.simplify hsimple₁), ← hescapes, hruns]

end Switch.Paired

/-- Optimizing does not change what a switch does, unless an `if` with an alternative asks for a
variable that stands alone: the switches have the same labels in the same order, and run alike on
every machine from every state. -/
theorem run_optimized (src : Bytes) (o : Options) (f₀ f₁ : File)
    (h₀ : (compile src { o with optimize := false }).result = .ok f₀)
    (h₁ : (compile src { o with optimize := true }).result = .ok f₁) :
    List.Forall₂ (fun w₀ w₁ => w₀.label = w₁.label ∧ ∃ b₀ b₁,
      Block.ofPlaced w₀.commands = .ok b₀ ∧ Block.ofPlaced w₁.commands = .ok b₁ ∧
      ∀ (σ : Type) (A : Arithmetic) (M : Machine σ), A.Definite → (∀ s, (M.memory s).Definite) →
        ∀ bound, b₀.Negatable A M bound → ∀ s, b₀.run A M bound s = b₁.run A M bound s)
      f₀.switches f₁.switches := by
  refine (paired_files h₀ h₁ default default).2.imp fun w₀ w₁ hw => ?_
  exact ⟨hw.label, hw.run_eq rfl rfl rfl⟩

/-- An `if` of whose first block nothing is left once constants are folded. -/
def emptied (condition : String) : Bytes :=
  utf8 ("#switch 1:1\nif (" ++ condition ++
    ") \x7b\nif (0)\necho \"e\"\n\x7d else \x7b\necho \"b\"\n\x7d\n")

def emptiedKept (condition : Expr) : Switch where
  label := 10001
  commands := [⟨1, 1, none, [], some condition⟩, ⟨5, 1, none, [], some (Expr.constant .zero)⟩,
    ⟨21, 7, some [101], [], none⟩, ⟨6, 7, some [98], [], none⟩]

/-- Only the alternative of `emptied` is left, under the inverse of its condition. -/
def emptiedFolded (inverse : Expr) : Switch where
  label := 10001
  commands := [⟨1, 1, none, [], some inverse⟩, ⟨5, 7, some [98], [], none⟩]

/-- The variable `x` under an operator that compares it with zero. -/
def comparedWithZero (op : Operator) : Expr :=
  ⟨op.code, ⟨5, 5, .name [120]⟩, ⟨4, 6, .float .zero⟩⟩

def variableAlone : Expr := ⟨9, ⟨4, 5, .float .zero⟩, ⟨5, 6, .name [120]⟩⟩

def emptiedBlock (condition : Expr) : Block :=
  .step ⟨1, 1, none, [], some condition⟩
    (.step ⟨5, 1, none, [], some (Expr.constant .zero)⟩
      (.step ⟨21, 7, some [101], [], none⟩ .done .done .done) .done .done)
    (.step ⟨6, 7, some [98], [], none⟩ .done .done .done) .done

theorem run_optimized_emptied :
    (compile (emptied "x > 0") { Options.defaults with optimize := false }).result =
        .ok ⟨[], [emptiedKept (comparedWithZero .gt)]⟩ ∧
      (compile (emptied "x > 0") { Options.defaults with optimize := true }).result =
        .ok ⟨[], [emptiedFolded (comparedWithZero .le)]⟩ ∧
      ∃ b₁, Block.ofPlaced (emptiedKept (comparedWithZero .gt)).commands =
          .ok (emptiedBlock (comparedWithZero .gt)) ∧
        Block.ofPlaced (emptiedFolded (comparedWithZero .le)).commands = .ok b₁ ∧
        ∀ (σ : Type) (A : Arithmetic) (M : Machine σ), A.Definite → (∀ s, (M.memory s).Definite) →
          ∀ bound s,
            (emptiedBlock (comparedWithZero .gt)).run A M bound s = b₁.run A M bound s := by
  have hkept : (compile (emptied "x > 0") { Options.defaults with optimize := false }).result =
      .ok ⟨[], [emptiedKept (comparedWithZero .gt)]⟩ := by cbv
  have hfolded : (compile (emptied "x > 0") { Options.defaults with optimize := true }).result =
      .ok ⟨[], [emptiedFolded (comparedWithZero .le)]⟩ := by cbv
  have hblock : Block.ofPlaced (emptiedKept (comparedWithZero .gt)).commands =
      .ok (emptiedBlock (comparedWithZero .gt)) := by cbv
  obtain ⟨-, b₀, b₁, hb₀, hb₁, hruns⟩ := List.forall₂_cons.1
    (run_optimized _ _ _ _ hkept hfolded) |>.1
  -- the block that the theorem gives is the one that is read back
  rw [hblock] at hb₀
  cases hb₀
  refine ⟨hkept, hfolded, b₁, hblock, hb₁, fun σ A M hA hM bound s => hruns σ A M hA hM bound ?_ s⟩
  have hnegatable : (comparedWithZero .gt).Negatable := by
    constructor
    · intro hjoined
      exact absurd hjoined (by decide)
    · intro hsum
      exact absurd hsum (by decide)
  simp only [emptiedBlock, Block.Negatable, ne_eq, not_true_eq_false, false_implies, implies_true,
    and_true, Option.mem_some_iff, forall_eq']
  exact fun _ _ _ => hnegatable

/-- Where the condition is a variable alone, the alternative runs exactly when it should not. -/
theorem run_optimized_variable :
    (compile (emptied "x") { Options.defaults with optimize := false }).result =
        .ok ⟨[], [emptiedKept variableAlone]⟩ ∧
      (compile (emptied "x") { Options.defaults with optimize := true }).result =
        .ok ⟨[], [emptiedFolded (comparedWithZero .neq)]⟩ ∧
      ∃ b₀ b₁, Block.ofPlaced (emptiedKept variableAlone).commands = .ok b₀ ∧
        Block.ofPlaced (emptiedFolded (comparedWithZero .neq)).commands = .ok b₁ ∧
        Arithmetic.plain.Definite ∧ ∃ M : Machine Unit, (∀ s, (M.memory s).Definite) ∧
          (b₀.run .plain M 0 ()).actions = [] ∧
          (b₁.run .plain M 0 ()).actions = [⟨7, some [98], [], none⟩] := by
  refine ⟨by cbv, by cbv, emptiedBlock _, .step _ (.step _ .done .done .done) .done .done, by cbv,
    by cbv, Arithmetic.definite_plain, ⟨fun _ => ⟨fun _ => .one, fun _ => []⟩, fun _ s => s⟩,
    fun _ _ => ?_, ?_, ?_⟩
  · change Binary32.one.isNaN = false
    decide
  · decide
  · decide

end ApeScript
