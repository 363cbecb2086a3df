import ApeScript.Proofs.OptionalBraces
import ApeScript.Proofs.StatementLines

/-!
# Switches that are written

The statements of a written switch are read one after the other, up to what comes after them, and
the switch that is emitted for them has the same statements at the same places, each as
`Statement.restated` says. Whether they are read at all is told by `Block.parted`.
-/

namespace ApeScript

def Statement.restated (s : Statement) : Statement :=
  { s with format := s.format.map FormatValue.reread, expr := s.expr.map Expr.restored }

def Placed.restated (p : Placed) : Placed := ⟨p.cc, p.statement.restated⟩

def Switch.restated (s : Switch) : Switch := ⟨s.label, s.commands.map Placed.restated⟩

/-- The statements of the switch are read back, up to the end of the script or a closing brace, or
up to another directive. -/
def Switch.parted (closes : Bool) (s : Switch) : Bool :=
  match Block.ofPlaced s.commands with
  | .ok b => b.parted closes
  | .error _ => false

namespace Compiler

open Grammar (Lead NoElse keywords_plain runs_switchRound_word isSome_out skips_of_out)
open Lexer (Stands Reaches Skips Remaining)
open Script (indentation writeStatements)

variable {c : CompileContext} {s : CompileState} {b inner alt rest : Block} {p : Placed} {d : Draft}
  {head : DraftStatement} {loc : Location} {cc : UInt64} {inline afterHash : Bool}
  {lead text more : Bytes} {level : ℕ} {k : Lexeme} {J K : Lexer → Prop} {label : Label}

/-! ### Emitting what is read -/

/-- A statement that is read from the text of another one, at some place. -/
theorem eq_of_alike_head (h : head.AlikeBy (fun _ _ => True) p.head) :
    head = { p.head with loc := head.loc } := by
  rw [h.eq]

theorem code_head (h : Legible c p) : p.head.type.code = p.statement.type := by
  obtain ⟨type, htype⟩ := h.known
  rw [Placed.head, htype, StatementType.ofCode?_code]
  rfl

theorem simplify_drafted (hsuited : b.Suited) (hlegible : ∀ p ∈ b.placed, Legible c p)
    (h : d.Alike b.drafted) : d.simplify false = .ok d := by
  induction b generalizing d with
  | done =>
    cases h
    rfl
  | step p inner alt rest ihi iha ihr =>
    obtain ⟨hgoverns, hi, ha, hr⟩ := hsuited
    have hp := hlegible p (Block.mem_placed_step.2 (.inl rfl))
    have hmem {q : Placed} (hq : q ∈ inner.placed ∨ q ∈ alt.placed ∨ q ∈ rest.placed) :
        Legible c q := hlegible q (Block.mem_placed_step.2 (.inr hq))
    cases h with
    | @step head _ inner' _ alt' _ rest' _ hhead hinner halt hrest =>
      have hinner' := ihi hi (fun q hq => hmem (.inl hq)) hinner
      have halt' := iha ha (fun q hq => hmem (.inr (.inl hq))) halt
      have hrest' := ihr hr (fun q hq => hmem (.inr (.inr hq))) hrest
      rw [eq_of_alike_head hhead]
      cases hcontrol : StatementType.isControl p.statement.type with
      | false =>
        have htype : p.head.type ≠ .ifThen ∧ p.head.type ≠ .while := by
          rw [← code_head hp, ← Bool.not_eq_true, StatementType.isControl_code] at hcontrol
          exact not_or.1 hcontrol
        rw [Draft.simplify]
        split
        · exact absurd ‹_› htype.1
        · exact absurd ‹_› htype.2
        · rw [hrest']
          rfl
      | true =>
        obtain ⟨e, -, hstatement⟩ := hp.control hcontrol
        obtain ⟨hne, -⟩ := hgoverns.control hcontrol
        have hne' : inner' ≠ .done := by
          rintro rfl
          cases inner with
          | done => exact hne rfl
          | step => cases hinner
        rcases control_code hcontrol with htype | htype
        · have hhead : p.head = ⟨.ifThen, none, [], some e.parsed, .start []⟩ := by
            rw [Placed.head, hstatement, htype]
            rfl
          rw [hhead]
          have hkept : Draft.simplifyIf ⟨.ifThen, none, [], some e.parsed, head.loc⟩ e.parsed inner'
              alt' = .ok (.step ⟨.ifThen, none, [], some e.parsed, head.loc⟩ inner' alt' .done) := by
            cases inner' with
            | done => exact absurd rfl hne'
            | step => rfl
          simp only [Draft.simplify, hinner', halt', hrest']
          change (Draft.simplifyIf _ _ _ _ >>= fun here => Except.ok (here ++ rest')) = _
          rw [hkept]
          rfl
        · have hhead : p.head = ⟨.while, none, [], some e.parsed, .start []⟩ := by
            rw [Placed.head, hstatement, htype]
            rfl
          rw [hhead]
          have hdone : alt' = .done := by
            rw [hgoverns.loop htype] at halt
            cases halt
            rfl
          subst hdone
          simp only [Draft.simplify, hinner', hrest']
          change (if inner'.isDone then _ else _) = _
          rw [if_neg (by simp [Draft.isDone_eq_false.2 hne'])]
          rfl

theorem toExpr?_restored (hc : c.Plain) {expr : Option Expr} (h : ∀ e ∈ expr, e.Stored) :
    toExpr? (expr.map Expr.parsed) loc c s = .ok (expr.map Expr.restored) s := by
  cases expr with
  | none => rfl
  | some e =>
    have he := h e rfl
    have hrun : toExpr e.parsed loc c s = .ok e.restored s :=
      toExpr_run hc.optimize he.isFloat (hc.allowExprEscapes ▸ he.layout)
    exact bind_run hrun

/-- What is read from the text of a block is emitted at the places of its statements. -/
theorem emit_drafted (hc : c.Plain) (hlegible : ∀ p ∈ b.placed, Legible c p)
    (hlaid : b.LaidFrom cc.toNat) (h : d.Alike b.drafted) :
    emit cc d c s = .ok (b.placed.map Placed.restated) s := by
  induction b generalizing d cc with
  | done =>
    cases h
    rfl
  | step p inner alt rest ihi iha ihr =>
    have hp := hlegible p (Block.mem_placed_step.2 (.inl rfl))
    have hmem {q : Placed} (hq : q ∈ inner.placed ∨ q ∈ alt.placed ∨ q ∈ rest.placed) :
        Legible c q := hlegible q (Block.mem_placed_step.2 (.inr hq))
    obtain ⟨hcc, hlaidInner, hlaidAlt, hlaidRest⟩ := hlaid
    -- each of the three blocks is emitted at its own place, which fits as it is taken
    have hchild {sub : Block} {d : Draft} {loc : Location}
        {next : List Placed → Compiler (List Placed)} (step : UInt64) (hstep : step.toNat < 4)
        (hd : d.Alike sub.drafted) (hlaid : sub.LaidFrom (4 * cc.toNat + step.toNat))
        (hemit : ∀ {cc : UInt64}, sub.LaidFrom cc.toNat →
          emit cc d c s = .ok (sub.placed.map Placed.restated) s) :
        (if d.isDone then pure [] >>= next else
          emit.liftExcept (nextPlace cc step loc) >>= fun place => emit place d >>= next) c s =
            next (sub.placed.map Placed.restated) c s := by
      cases sub with
      | done =>
        cases hd
        rfl
      | step q inner alt rest =>
        have hplace : nextPlace cc step loc = .ok q.cc := by
          rw [nextPlace_eq hstep, ← hlaid.1, if_pos q.cc.toNat_lt, UInt64.ofNat_toNat]
        have hne : d.isDone = false := by
          cases hd
          rfl
        rw [hne, if_neg Bool.false_ne_true, hplace]
        refine (bind_run (a := q.cc) rfl).trans (bind_run (hemit ?_))
        rwa [hlaid.1]
    cases h with
    | @step head _ inner' _ alt' _ rest' _ hhead hinner halt hrest =>
      rw [eq_of_alike_head hhead, emit]
      have hexpr : toExpr? p.head.expr head.loc c s = .ok (p.statement.expr.map Expr.restored) s :=
        toExpr?_restored hc hp.exprs
      refine (bind_run hexpr).trans ?_
      refine (hchild 1 (by decide) hinner hlaidInner fun hlaid =>
        ihi (fun q hq => hmem (.inl hq)) hlaid hinner).trans ?_
      refine (hchild 2 (by decide) halt hlaidAlt fun hlaid =>
        iha (fun q hq => hmem (.inr (.inl hq))) hlaid halt).trans ?_
      refine (hchild 3 (by decide) hrest hlaidRest fun hlaid =>
        ihr (fun q hq => hmem (.inr (.inr hq))) hlaid hrest).trans ?_
      have hplaced : (⟨cc, p.head.type.code, p.head.str, p.head.format,
          p.statement.expr.map Expr.restored⟩ : Placed) = p.restated := by
        rw [code_head hp, ← UInt64.toNat_inj.1 hcc]
        rfl
      change EStateM.Result.ok (_ :: _) s = _
      rw [Block.placed, List.map_cons, List.map_append, List.map_append, ← hplaced]

/-! ### The statements of a switch -/

/-- The text that is written for a switch is that of a block, and for whatever is read from it the
same statements are emitted, each as it comes back. -/
structure Restates (c : CompileContext) (w : Switch) (b : Block) : Prop where
  parted : ∀ closes, w.parted closes = b.parted closes
  lines : ∀ {level : ℕ} {text : Bytes}, writeStatements level w.commands = .ok text →
    Lines c level (indentation level) b text
  emits : ∀ {d : Draft} {s : CompileState}, d.Alike b.drafted →
    emitAll d c s = .ok w.restated.commands s

theorem restates_idle (hc : c.Plain) : Restates c ⟨label, Block.idle.placed⟩ .done where
  parted _ := rfl
  lines h := by
    cases h
    exact .done
  emits h := by
    cases h
    rw [emitAll, bind_run (x := options) rfl, hc.optimize]
    rfl

theorem restates_placed (hc : c.Plain) (hne : b ≠ .done) (hlaid : b.LaidFrom 1)
    (hsuited : b.Suited) (hlegible : ∀ p ∈ b.placed, Legible c p) :
    Restates c ⟨label, b.placed⟩ b where
  parted closes := by rw [Switch.parted, Block.ofPlaced_placed hlaid hsuited]
  lines h := by
    rw [writeStatements, Block.ofPlaced_placed hlaid hsuited] at h
    exact lines_writeBlock hsuited hlegible h
  emits {d s} h := by
    have hemit : emit 1 d c s = .ok (b.placed.map Placed.restated) s :=
      emit_drafted hc hlegible hlaid h
    rw [emitAll, bind_run (x := options) rfl, hc.optimize, simplify_drafted hsuited hlegible h]
    cases b with
    | done => exact absurd rfl hne
    | step =>
      cases h
      exact hemit

/-! ### Rounds -/

/-- The statements of a block are read up to what comes after them, where the last round is. -/
theorem runs_rounds (h : Lines c level lead b text) (hlead : Lead .plain lead)
    (hmore : Reaches .plain more k J) (hk : k ≠ (.identifier, utf8 "else"))
    (hlast : ∀ bound d, Runs (rounds inline loc bound d) c J (some K) (· = (d, afterHash))) :
    ∃ k' J', Reaches .plain (text ++ more) k' J' ∧ k' ≠ (.identifier, utf8 "else") ∧
      k'.closes = (b.isDone && k.closes) ∧ ∀ bound d₀,
        Runs (rounds inline loc bound d₀) c (fun l => l.Skips J' ∧ l.remaining.AtMost bound)
          (if b.parted k.closes then some K else none)
          fun r => ∃ d₁ : Draft, d₁.Alike b.drafted ∧ r = (d₀ ++ d₁, afterHash) := by
  induction h with
  | done =>
    refine ⟨k, J, hmore, hk, rfl, fun bound d₀ => ?_⟩
    refine passesLineEnds_switch.runs (fun _ _ => Nat.zero_le _) fun bound' _ => ?_
    refine (hlast bound' d₀).mono ?_
    rintro _ rfl
    exact ⟨.done, .done, by rw [Draft.append_done]⟩
  | @step lead line text p inner alt rest hline hrest ih =>
    obtain ⟨k', J', hreaches, hk', hcloses, hruns⟩ := ih (lead_indentation level)
    obtain ⟨hbrace, -, word, after, hopens, hafter, hstatement⟩ := hline.runs keywords_plain
    have htext : lead ++ (line ++ 10 :: text) ++ more = lead ++ (line ++ 10 :: (text ++ more)) := by
      simp
    rw [htext]
    have hle : (after ++ 10 :: (text ++ more)).length ≤ (line ++ 10 :: (text ++ more)).length := by
      simp [hopens.eq_append]
    refine ⟨(.identifier, word), _, hlead.reaches (hopens.first_stop hafter) hopens.literal
      (by simp) hle, by simpa using hopens.not_else, rfl, fun bound d₀ => ?_⟩
    have hout : ((p.ending inner alt).out .plain .line [] (text ++ more) (some (k', J'))).isSome =
        (p.ending inner alt).goesOn k'.closes := isSome_out hbrace
    refine passesLineEnds_switch.runs (fun l hl => Nat.le_of_eq hl.unread.symm)
      fun bound' hbound => ?_
    rw [repeatWithin]
    have hround : Runs (switchRound inline loc d₀) c
        (Stands .plain ⟨[(.identifier, word)], after ++ 10 :: (text ++ more)⟩)
        ((p.ending inner alt).out .plain .line [] (text ++ more) (some (k', J'))) _ :=
      runs_switchRound_word Stands.succeeds_peek_queued
        (hstatement (.line (.reaches hreaches)) (by simp) fun _ => by simpa [NoElse] using hk')
    rw [← goesOn_ending, ← hcloses, ← hout]
    refine hround.bind (fun L hL r hr => ?_) fun hnone => ?_
    · obtain ⟨d₁, hd₁, rfl⟩ := hr
      rw [hL, Option.isSome_some, Bool.true_and]
      refine .remaining_bind fun now => ?_
      by_cases less : now.Less bound'
      · rw [dif_pos less]
        have hrounds : Runs (rounds inline loc now (d₀ ++ d₁)) c (fun l => L l ∧ l.remaining = now)
            (if rest.parted k.closes then some K else none) _ := (hruns now (d₀ ++ d₁)).weaken
          fun l hl => ⟨(skips_of_out hbrace hreaches hL hl.1).1, .inr hl.2⟩
        refine hrounds.mono ?_
        rintro _ ⟨d₂, hd₂, rfl⟩
        exact ⟨d₁ ++ d₂, hd₁.append hd₂, by rw [Draft.append_assoc]⟩
      · -- less is left, so this does not happen
        refine .of_empty fun l hl => less ?_
        obtain ⟨-, hunread⟩ := skips_of_out hbrace hreaches hL hl.1
        rw [← hl.2]
        have hlength : (after ++ 10 :: (text ++ more)).length ≤ bound'.unread := hbound
        rw [List.length_append, List.length_cons] at hlength
        exact Or.inl (Nat.lt_of_le_of_lt hunread (by omega))
    · rw [hnone]
      rfl

/-! ### A switch -/

/-- The switch that is read from its text, or that is refused there. -/
theorem runs_compileSwitch {w : Switch} (h : Restates c w b)
    (hwritten : writeStatements level w.commands = .ok text)
    (hmore : Reaches .plain more k J) (hk : k ≠ (.identifier, utf8 "else"))
    (hlast : ∀ loc bound d,
      Runs (rounds inline loc bound d) c J (some K) (· = (d, afterHash))) :
    Runs (compileSwitch label inline) c (Stands .plain ⟨[], 10 :: (text ++ more)⟩)
      (if w.parted k.closes then some K else none)
      (· = (⟨label, w.restated.commands⟩, afterHash)) := by
  rw [compileSwitch_eq, h.parted]
  refine .after .location fun loc _ => ?_
  obtain ⟨k', J', hreaches, -, -, hruns⟩ :=
    runs_rounds (h.lines hwritten) (lead_indentation level) hmore hk (hlast loc)
  have hrounds : Runs (repeatFrom Draft.done (switchRound inline loc)) c
      (Stands .plain ⟨[], 10 :: (text ++ more)⟩) (if b.parted k.closes then some K else none)
      fun r => ∃ d₁ : Draft, d₁.Alike b.drafted ∧ r = (Draft.done ++ d₁, afterHash) :=
    .remaining_bind fun now => (hruns now .done).weaken fun l hl =>
      ⟨hreaches.line.skips l hl.1, .inr hl.2⟩
  refine hrounds.andThen ?_
  rintro L _ ⟨d₁, hd₁, rfl⟩ base s hs
  exact ⟨_, s, bind_run (h.emits hd₁), rfl, hs⟩

end Compiler

end ApeScript
