import ApeScript.Proofs.CompiledFile
import ApeScript.Proofs.PairedWindow
import ApeScript.Proofs.WrittenSwitch

/-!
# Switches that are written and read again

A compiled switch is written if the literals that its string variables are set to have their closing
quotes (`exists_writeStatements_iff`), and then its statements are those of a text from which it is
restated (`Switch.exists_restates`). What it can lose are the formatting strings that are escaped
once more (`Switch.alike_restated_iff`).
-/

namespace ApeScript

theorem CompileContext.Plain.stored {c : CompileContext} (hc : c.Plain) {e : Expr}
    (he : e.Compiled c.options) : e.Stored := by
  rw [hc] at he
  exact he

theorem CompileContext.Plain.plainly {c : CompileContext} (hc : c.Plain) : c.options.Plainly :=
  ⟨hc.legacySetNaming, hc.legacyLabeledCommands⟩

/-! ### What a switch can lose -/

structure Placed.Alike (p q : Placed) : Prop where
  cc : p.cc = q.cc
  type : p.statement.type = q.statement.type
  str : p.statement.str = q.statement.str
  format : p.statement.format = q.statement.format
  expr : Option.Rel Expr.Same p.statement.expr q.statement.expr

structure Switch.Alike (s t : Switch) : Prop where
  label : s.label = t.label
  commands : List.Forall₂ Placed.Alike s.commands t.commands

theorem Placed.alike_restated_iff {p : Placed} (hexpr : ∀ e ∈ p.statement.expr, e.Stored) :
    p.Alike p.restated ↔ Command.Unescaped p.statement.format := by
  have hsame : Option.Rel Expr.Same p.statement.expr p.restated.statement.expr := by
    rw [restated, Statement.restated]
    cases hexpr' : p.statement.expr with
    | none => exact .none
    | some e => exact .some (.inl (hexpr e hexpr').alike)
  have hformat : p.statement.format = p.restated.statement.format ↔
      Command.Unescaped p.statement.format := by
    rw [eq_comm]
    exact FormatValue.map_reread_eq_self_iff
  exact ⟨fun h => hformat.1 h.format, fun h => ⟨rfl, rfl, rfl, hformat.2 h, hsame⟩⟩

/-- A switch comes back if none of its formatting strings is escaped, and only then. -/
theorem Switch.alike_restated_iff {s : Switch}
    (hexprs : ∀ p ∈ s.commands, ∀ e ∈ p.statement.expr, e.Stored) :
    s.Alike s.restated ↔ ∀ p ∈ s.commands, Command.Unescaped p.statement.format := by
  have hall : s.Alike s.restated ↔ ∀ p ∈ s.commands, p.Alike p.restated := by
    have hlists : List.Forall₂ Placed.Alike s.commands s.restated.commands ↔ _ :=
      List.forall₂_map_right_iff.trans List.forall₂_same
    exact ⟨fun h => hlists.1 h.commands, fun h => ⟨rfl, hlists.2 h⟩⟩
  rw [hall]
  exact forall₂_congr fun p hp => Placed.alike_restated_iff (hexprs p hp)

/-! ### Statements that are written -/

/-- A literal that a string variable is set to has its closing quote. -/
def Statement.Closed (s : Statement) : Prop :=
  s.type = StatementType.setString.code → ∀ str ∈ s.str, ∀ name value,
    Bytes.cut? 61 str = some (name, 34 :: value) → value.getLast? = some 34

namespace Compiler

open Script (indentation writeBlock writeSimple writeStatements)

variable {c : CompileContext} {type : StatementType} {str : Option Bytes} {vs : List FormatValue}
  {expr : Option Expr} {b : Block} {s : Switch}

theorem closed_of_ne (h : type ≠ .setString) : Statement.Closed ⟨type.code, str, vs, expr⟩ :=
  fun hcode => absurd (StatementType.code_inj.1 hcode) h

/-- A text without an assignment unsets its variable. -/
theorem closed_of_cut?_eq_none {s : Bytes} (h : Bytes.cut? 61 s = none) :
    Statement.Closed ⟨type.code, some s, vs, expr⟩ := by
  rintro - _ ⟨⟩ name value hcut
  rw [h] at hcut
  cases hcut

theorem exists_writeSetString_iff {name assigned : Bytes} (hname : Script.Identifier name) :
    (∃ line, writeSimple ⟨StatementType.setString.code, some (name ++ 61 :: assigned), vs, none⟩ =
      .ok line) ↔
      Statement.Closed ⟨StatementType.setString.code, some (name ++ 61 :: assigned), vs, none⟩ := by
  have hassign : 61 ∉ name := not_mem_assign hname
  have hcut := Bytes.cut?_append (t := assigned) hassign
  have hclosed : Statement.Closed
      ⟨StatementType.setString.code, some (name ++ 61 :: assigned), vs, none⟩ ↔
        ∀ value, assigned = 34 :: value → value.getLast? = some 34 := by
    constructor
    · rintro h value rfl
      exact h rfl _ rfl name value hcut
    · rintro h - _ ⟨⟩ name' value hcut'
      rw [hcut] at hcut'
      cases hcut'
      exact h value rfl
  have hwrite : writeSimple
      ⟨StatementType.setString.code, some (name ++ 61 :: assigned), vs, none⟩ =
        Script.writeSetString ⟨StatementType.setString.code, some (name ++ 61 :: assigned), vs, none⟩
          (name ++ 61 :: assigned) := rfl
  rw [hclosed, hwrite]
  by_cases hopen : assigned.head? = some 34
  · obtain ⟨value, rfl⟩ := List.head?_eq_some_iff.1 hopen
    rw [writeSetString_quoted hassign]
    split
    · simp [*]
    · simp [*]
  · rw [writeSetString_word hassign hopen]
    refine iff_of_true ⟨_, rfl⟩ ?_
    rintro value rfl
    exact absurd rfl hopen

/-- The statements that a compilation makes are written, but for literals without their end. -/
theorem exists_writeSimple_iff (hsaid : Said type str vs expr.isSome)
    (hcontrol : StatementType.isControl type.code = false) :
    (∃ line, writeSimple ⟨type.code, str, vs, expr⟩ = .ok line) ↔
      Statement.Closed ⟨type.code, str, vs, expr⟩ := by
  have hform {word : Bytes} {isQuoted : Bool}
      (h : Script.statementForm? type = some (word, isQuoted)) :
      (∃ line, writeSimple ⟨type.code, str, vs, expr⟩ = .ok line) ↔
        Statement.Closed ⟨type.code, str, vs, expr⟩ := by
    refine iff_of_true ⟨_, writeSimple_form h str vs expr⟩ (closed_of_ne ?_)
    rintro rfl
    cases h
  have hnone (h : expr.isSome = false) : expr = none := by simpa using h
  generalize hsome : expr.isSome = isSome at hsaid
  cases hsaid with
  | control h => rcases h with rfl | rfl <;> cases hcontrol
  | bare h => exact hform (line_of_mem_wordStatements h).1
  | word h => exact hform (line_of_mem_wordStatements h).1
  | quoted h => exact hform (line_of_mem_quotedStatements h).1
  | setFloat => exact iff_of_true ⟨_, rfl⟩ (closed_of_ne (by decide))
  | setString hname =>
    cases hnone hsome
    exact exists_writeSetString_iff hname
  | @unset name hname =>
    have hcut := Bytes.cut?_eq_none (not_mem_assign hname)
    refine iff_of_true ?_ (closed_of_cut?_eq_none hcut)
    split
    · have hwrite : writeSimple ⟨StatementType.setString.code, some name, [], expr⟩ =
          Script.writeSetString ⟨StatementType.setString.code, some name, [], expr⟩ name := rfl
      rw [hwrite, Script.writeSetString, hcut]
      exact ⟨_, rfl⟩
    · exact ⟨_, rfl⟩
  | @labeled _ label h =>
    rcases h with rfl | rfl | rfl
    · refine iff_of_true ?_ (closed_of_ne (by decide))
      have hwrite : writeSimple ⟨StatementType.goto.code, some label.text, [], expr⟩ =
          if label.text = utf8 "0:0" then .ok (utf8 "return")
          else .ok (utf8 "goto " ++ label.text ++ Script.formatSource []) := rfl
      rw [hwrite]
      split
      · exact ⟨_, rfl⟩
      · exact ⟨_, rfl⟩
    · exact hform rfl
    · exact hform rfl
  | rest => exact hform rfl

/-! ### Blocks that are written -/

theorem exists_bind_iff {α β : Type} {x : Except Script.Unwritable α}
    {f : α → Except Script.Unwritable β} {p : Prop} (hf : ∀ a, (∃ y, f a = .ok y) ↔ p) :
    (∃ y, x >>= f = .ok y) ↔ (∃ a, x = .ok a) ∧ p := by
  constructor
  · rintro ⟨y, h⟩
    obtain ⟨a, ha, hy⟩ := bind_eq_ok.1 h
    exact ⟨⟨a, ha⟩, (hf a).1 ⟨y, hy⟩⟩
  · rintro ⟨⟨a, ha⟩, hp⟩
    obtain ⟨y, hy⟩ := (hf a).2 hp
    exact ⟨y, bind_eq_ok.2 ⟨a, ha, hy⟩⟩

theorem exists_join_iff {lead : Bytes} {level : ℕ} (f : Bytes → Bytes) :
    (∃ text, (writeBlock lead level b >>= fun here => pure (f here)) = .ok text) ↔
      ∃ text, writeBlock lead level b = .ok text :=
  (exists_bind_iff fun here => iff_of_true ⟨f here, rfl⟩ trivial).trans (and_iff_left trivial)

/-- What every statement of a block asks for that governs no other. -/
def EachSimple (P : Statement → Prop) (b : Block) : Prop :=
  ∀ p ∈ b.placed, StatementType.isControl p.statement.type = false → P p.statement

theorem eachSimple_done {P : Statement → Prop} : EachSimple P .done := by
  rintro _ ⟨⟩

theorem eachSimple_step {P : Statement → Prop} {p : Placed} {inner alt rest : Block} :
    EachSimple P (.step p inner alt rest) ↔
      (StatementType.isControl p.statement.type = false → P p.statement) ∧ EachSimple P inner ∧
        EachSimple P alt ∧ EachSimple P rest := by
  simp only [EachSimple, Block.mem_placed_step, or_imp, forall_and, forall_eq]

/-- A block is written if all of its statements are that govern no other. -/
theorem exists_writeBlock_iff {lead : Bytes} {level : ℕ} (hsuited : b.Suited)
    (hidle : ∀ p ∈ b.placed, p.statement.type ≠ StatementType.noOp.code) :
    (∃ text, writeBlock lead level b = .ok text) ↔
      EachSimple (fun s => ∃ line, writeSimple s = .ok line) b := by
  induction b generalizing lead level with
  | done => exact iff_of_true ⟨_, rfl⟩ eachSimple_done
  | step p inner alt rest ihi iha ihr =>
    obtain ⟨hgoverns, hi, ha, hr⟩ := hsuited
    simp only [Block.mem_placed_step, or_imp, forall_and, forall_eq] at hidle
    obtain ⟨hp, hidleInner, hidleAlt, hidleRest⟩ := hidle
    rw [eachSimple_step]
    have hmore : (∃ more, writeBlock (indentation level) level rest = .ok more) ↔ _ :=
      ihr hr hidleRest
    have hrest (here : Bytes) := (exists_join_iff (here ++ ·)).trans hmore
    cases hcontrol : StatementType.isControl p.statement.type with
    | true =>
      have halt (body : Bytes) : (∃ text, (do
          if alt.isDone then
            return lead ++ (Script.writeHead p.statement ++
              governedText level inner.isSingleSimple body)
          let branch := Script.writeHead p.statement ++
            (firstText level inner.isSingleSimple body ++ utf8 "else")
          if alt.isSingleIf then return lead ++ (branch ++ 32 :: (← writeBlock [] level alt))
          let other ← writeBlock (indentation (level + 1)) (level + 1) alt
          return lead ++ (branch ++ governedText level alt.isSingleSimple other) :
            Script.Written) = .ok text) ↔
          EachSimple (fun s => ∃ line, writeSimple s = .ok line) alt := by
        by_cases hdone : alt = .done
        · subst hdone
          exact iff_of_true ⟨_, rfl⟩ eachSimple_done
        rw [if_neg (by simp [Block.isDone_eq_false.2 hdone])]
        dsimp only
        split
        · exact (exists_join_iff _).trans (iha ha hidleAlt)
        · exact (exists_join_iff _).trans (iha ha hidleAlt)
      rw [writeBlock_control hp hcontrol, writeControl_eq]
      refine (exists_bind_iff hrest).trans ?_
      rw [exists_bind_iff halt, ihi hi hidleInner]
      simp [and_assoc]
    | false =>
      obtain ⟨rfl, rfl⟩ := hgoverns.simple hcontrol
      rw [writeBlock, if_neg hp, if_neg (by simp [hcontrol])]
      simp only [eachSimple_done, true_and, forall_const]
      cases hline : writeSimple p.statement with
      | ok line =>
        exact (hrest (lead ++ line ++ utf8 "\n")).trans (by simp)
      | error cause =>
        refine iff_of_false ?_ (by simp)
        rintro ⟨_, ⟨⟩⟩

end Compiler

/-! ### Compiled switches -/

namespace Switch.Compiled

open Compiler (Restates restates_idle restates_placed exists_writeBlock_iff exists_writeSimple_iff
  closed_of_ne word_simple quoted_simple)

variable {c : CompileContext} {o : Options} {s : Switch} {d : Draft}

/-- A switch does nothing, or its statements are those of a block. -/
theorem eq_placed (hs : s.Compiled o) (hd : d.Compiles o s.commands) :
    s.commands = Block.idle.placed ∨ ∃ b : Block, b ≠ .done ∧ s.commands = b.placed ∧
      b.LaidFrom 1 ∧ b.Suited ∧ ∀ p ∈ b.placed, p.statement.Spoken o := by
  rcases hs.spoken with hidle | hspoken
  · exact .inl hidle
  obtain ⟨d', b, -, hcommands, hlaid, hsuited, hemitted⟩ := hd
  rw [hcommands] at hspoken ⊢
  cases d' with
  | done =>
    cases hemitted
    exact .inl rfl
  | step =>
    have hne : b ≠ .done := by
      intro h
      cases hemitted.eq_done_iff.2 h
    exact .inr ⟨b, hne, rfl, hlaid, hsuited, hspoken⟩

theorem exprs_stored (hc : c.Plain) (hs : s.Compiled c.options) :
    ∀ p ∈ s.commands, ∀ e ∈ p.statement.expr, e.Stored := fun p hp e he =>
  hc.stored ((hs.commands p hp).exprs e (Option.mem_toList.2 he))

/-- What is written for a compiled switch is read again, if its words are. -/
theorem exists_restates (hc : c.Plain) (hs : s.Compiled c.options)
    (hd : d.Compiles c.options s.commands) (hworded : ∀ p ∈ s.commands, p.statement.Worded) :
    ∃ b, Restates c s b := by
  have hexprs := hs.exprs_stored hc
  have hformats : ∀ p ∈ s.commands, ∀ v ∈ p.statement.format, v.Compiled :=
    fun p hp => (hs.commands p hp).formats
  obtain ⟨label, commands⟩ := s
  obtain rfl | ⟨b, hne, rfl, hlaid, hsuited, hspoken⟩ := hs.eq_placed hd
  · exact ⟨.done, restates_idle hc⟩
  refine ⟨b, restates_placed hc hne hlaid hsuited fun p hp => ?_⟩
  obtain ⟨type, htype, hsaid⟩ := hspoken p hp hc.plainly
  have hexpr := hexprs p hp
  have hformat := hformats p hp
  have hworded := hworded p hp
  obtain ⟨cc, code, str, vs, expr⟩ := p
  cases htype
  exact .of_said hc hsaid hexpr hformat hworded

theorem not_idle_of_said {type : StatementType} {str : Option Bytes} {vs : List FormatValue}
    {b : Bool} (h : Said type str vs b) : type ≠ .noOp := by
  cases h with
  | control h => rcases h with rfl | rfl <;> simp
  | bare h => exact (word_simple h).1
  | word h => exact (word_simple h).1
  | quoted h => exact (quoted_simple h).1
  | unset => split <;> simp
  | labeled h => rcases h with rfl | rfl | rfl <;> simp
  | _ => simp

/-- A compiled switch is written if its literals have their closing quotes, and only then. -/
theorem exists_writeStatements_iff {level : ℕ} (hc : c.Plain) (hs : s.Compiled c.options)
    (hd : d.Compiles c.options s.commands) :
    (∃ text, Script.writeStatements level s.commands = .ok text) ↔
      ∀ p ∈ s.commands, p.statement.Closed := by
  obtain hidle | ⟨b, -, hcommands, hlaid, hsuited, hspoken⟩ := hs.eq_placed hd
  · rw [hidle]
    refine iff_of_true ⟨_, rfl⟩ ?_
    simp [Block.idle, Block.placed, Statement.Closed]
  rw [hcommands, Script.writeStatements, Block.ofPlaced_placed hlaid hsuited]
  have hsaid (p : Placed) (hp : p ∈ b.placed) := hspoken p hp hc.plainly
  refine (exists_writeBlock_iff hsuited fun p hp => ?_).trans (forall₂_congr fun p hp => ?_)
  · obtain ⟨type, htype, hsaid⟩ := hsaid p hp
    rw [htype, ne_eq, StatementType.code_inj]
    exact not_idle_of_said hsaid
  · obtain ⟨type, htype, hsaid⟩ := hsaid p hp
    obtain ⟨cc, code, str, vs, expr⟩ := p
    have hcode : code = type.code := htype
    subst hcode
    cases hcontrol : StatementType.isControl type.code with
    | true =>
      refine iff_of_true (by simp) (closed_of_ne ?_)
      rintro rfl
      cases hcontrol
    | false => simpa using exists_writeSimple_iff hsaid hcontrol

end Switch.Compiled

/-- The switches of a compiled file are compiled switches, each emitted for a draft. -/
theorem compile_switches {src : Bytes} {o : Options} {f : File}
    (h : (compile src o).result = .ok f) :
    ∀ s ∈ f.switches, s.Compiled o.effective ∧ ∃ d : Draft, d.Compiles o.effective s.commands := by
  have hcompiled : f.Compiled o.effective := by
    have hyields := compile_yields_compiled src o
    rw [h] at hyields
    exact hyields
  -- a compilation is its own twin
  obtain ⟨-, hpaired⟩ := paired_files (a := o.optimize) (b := o.optimize) h h .plain
    ⟨fun _ => .zero, fun _ => []⟩
  intro s hs
  obtain ⟨d, -, hd, -⟩ := (List.forall₂_same.1 hpaired s hs).commands
  exact ⟨hcompiled.switches s hs, d, hd⟩

end ApeScript
