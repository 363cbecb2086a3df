import ApeScript.Proofs.CamLine
import ApeScript.Proofs.FlagNames
import ApeScript.Proofs.RecoveredBlock
import ApeScript.Proofs.SpelledExpr

/-!
# Written scripts without carriage returns

The words of a script, its numbers, labels and names of flags have no carriage returns, and a quoted
text has none that the text itself does not have. So a script that is written for a file has no
carriage return if no string of the file has one (`return_not_mem_writeFile`).
-/

namespace ApeScript

open Script

/-! ### Numbers and strings -/

theorem Decimal.return_not_mem_positional (d : Decimal) : 13 ∉ d.positional := by
  obtain ⟨whole, places, zeros, hspells, -⟩ := d.exists_spells
  have hdigits {s : Bytes} (h : ∀ b ∈ s, Bytes.isDigit b = true) : 13 ∉ s :=
    fun hmem => absurd (h 13 hmem) (by decide)
  rw [hspells.eq]
  split
  · simpa using hdigits hspells.digits
  · simpa [hdigits hspells.digits] using hdigits hspells.fraction

theorem Binary32.return_not_mem_sourceText (x : Binary32) : 13 ∉ x.sourceText := by
  unfold sourceText
  split
  · decide
  · split <;> decide
  · have hsign : 13 ∉ x.signText := by
      unfold signText
      split <;> decide
    simp [hsign, Decimal.return_not_mem_positional]

namespace Script

variable {s : Bytes}

theorem return_not_mem_quote (hs : 13 ∉ s) : 13 ∉ quote s := by
  have hescape : 13 ∉ s.flatMap escapeByte := by
    intro hmem
    obtain ⟨b, hb, hmem⟩ := List.mem_flatMap.1 hmem
    unfold escapeByte at hmem
    split_ifs at hmem
    · exact absurd hmem (by decide)
    · exact absurd hmem (by decide)
    · exact absurd hmem (by decide)
    · exact hs (List.mem_singleton.1 hmem ▸ hb)
  simpa [quote] using hescape

theorem return_not_mem_quoteName? {text : Bytes} (h : quoteName? s = some text) (hs : 13 ∉ s) :
    13 ∉ text := by
  unfold quoteName? at h
  split at h
  · cases h
  · cases h
    simpa using hs

theorem return_not_mem_joinSides {op : UInt8} {left right : Bytes} (hl : 13 ∉ left)
    (hr : 13 ∉ right) : 13 ∉ joinSides op left right := by
  have hsymbol : 13 ∉ Operator.symbolOfCode op := by
    unfold Operator.symbolOfCode
    cases Operator.ofCode? op with
    | none => decide
    | some op => cases op <;> decide
  simp +decide [joinSides, hl, hr, hsymbol]

theorem return_not_mem_operandSource {type : UInt8} {v : Operand} (hv : Returnless v.strings) :
    13 ∉ operandSource type v := by
  have hinvalid : 13 ∉ invalidText := by decide
  induction v generalizing type with
  | float x =>
    rw [operandSource]
    split
    · exact x.return_not_mem_sourceText
    · exact hinvalid
  | name s =>
    rw [operandSource]
    split
    · exact hv s (List.mem_singleton_self s)
    · exact hinvalid
  | quoted s =>
    rw [operandSource]
    split
    · exact return_not_mem_quote (hv s (List.mem_singleton_self s))
    · exact hinvalid
  | nested op lt lp l rt rp r ihl ihr =>
    obtain ⟨hl, hr⟩ := returnless_append.1 hv
    rw [operandSource]
    split
    · simp +decide [return_not_mem_joinSides (ihl hl) (ihr hr)]
    · exact hinvalid
  | _ => exact hinvalid

theorem return_not_mem_expressionSource {e : Expr} (he : Returnless e.strings) :
    13 ∉ expressionSource e := by
  obtain ⟨hl, hr⟩ := returnless_append.1 he
  unfold expressionSource
  split
  · exact return_not_mem_operandSource hr
  · exact return_not_mem_joinSides (return_not_mem_operandSource hl) (return_not_mem_operandSource hr)

theorem return_not_mem_formatSource {vs : List FormatValue}
    (hvs : Returnless (vs.flatMap FormatValue.strings)) : 13 ∉ formatSource vs := by
  intro hmem
  obtain ⟨v, hv, hmem⟩ := List.mem_flatMap.1 hmem
  have hvalue : 13 ∉ formatValueSource v :=
    return_not_mem_operandSource (returnless_flatMap.1 hvs v hv)
  simp +decide [hvalue] at hmem

theorem return_not_mem_conditionLine {condition : Option Expr}
    (h : Returnless (condition.toList.flatMap Expr.strings)) : 13 ∉ conditionLine condition := by
  cases condition with
  | none => exact List.not_mem_nil
  | some e =>
    have he : 13 ∉ expressionSource e := return_not_mem_expressionSource (by simpa using h)
    simp +decide [conditionLine, he]

/-! ### Statements -/

theorem return_not_mem_indentation (level : ℕ) : 13 ∉ indentation level :=
  fun h => absurd (List.eq_of_mem_replicate h) (by decide)

/-- An assignment is written with its own bytes, those of a literal quoted again. -/
theorem return_not_mem_writeSetString {s : Statement} {str line : Bytes}
    (h : writeSetString s str = .ok line) (hstr : 13 ∉ str) (hformat : 13 ∉ formatSource s.format) :
    13 ∉ line := by
  unfold writeSetString at h
  split at h
  · cases h
    simp +decide [hstr]
  · rename_i name assigned hcut
    rw [Bytes.eq_of_cut? hcut] at hstr
    simp only [List.mem_append, List.mem_cons, not_or] at hstr
    obtain ⟨hname, -, hassigned⟩ := hstr
    extract_lets finish at h
    have hfinish {value : Bytes} (hvalue : 13 ∉ value) (h : finish value = .ok line) :
        13 ∉ line := by
      cases h
      simp +decide [hname, hvalue, hformat]
    split at h
    · rename_i rest
      split at h
      · refine hfinish (return_not_mem_quote fun hmem => hassigned ?_) h
        exact List.mem_cons_of_mem _ ((List.dropLast_prefix rest).subset hmem)
      · cases h
    · exact hfinish hassigned h

theorem return_not_mem_writeSimple {s : Statement} {line : Bytes} (h : writeSimple s = .ok line)
    (hstr : ∀ str ∈ s.str, 13 ∉ str) (hformat : 13 ∉ formatSource s.format)
    (hexpr : ∀ e ∈ s.expr, 13 ∉ expressionSource e) : 13 ∉ line := by
  unfold writeSimple at h
  split at h
  · cases h
  · cases h
  · rename_i str _ hs
    cases h
    unfold writeSetFloat
    split
    · simp +decide [hstr str hs, hformat]
    · simp +decide [hstr str hs, hformat, hexpr _ ‹_›]
  · exact return_not_mem_writeSetString h (hstr _ ‹_›) hformat
  · cases h
  · rename_i str _ hs
    split at h
    · cases h
      decide
    · cases h
      simp +decide [hstr str hs, hformat]
  · have hkeyword {keyword : Bytes} {isQuoted : Bool}
        (hform : (StatementType.ofCode? s.type).bind statementForm? = some (keyword, isQuoted)) :
        13 ∉ keyword := by
      obtain ⟨type, -, hform⟩ := Option.bind_eq_some_iff.1 hform
      cases type <;> simp only [statementForm?] at hform <;> cases hform <;> decide
    split at h
    · cases h
    · cases h
      exact hkeyword ‹_›
    · rename_i keyword isQuoted str hform hs
      cases h
      have htext : 13 ∉ if isQuoted then quote str else str := by
        split
        · exact return_not_mem_quote (hstr str hs)
        · exact hstr str hs
      simp +decide [hkeyword hform, htext, hformat]

theorem return_not_mem_writeHead {s : Statement} (hexpr : ∀ e ∈ s.expr, 13 ∉ expressionSource e) :
    13 ∉ writeHead s := by
  have hcondition : 13 ∉ optionalSource s.expr := by
    cases h : s.expr with
    | none => exact List.not_mem_nil
    | some e => exact hexpr e h
  unfold writeHead
  split <;> simp +decide [hcondition]

theorem return_not_mem_placed {p : Placed} (hp : ApeScript.Returnless p.strings) :
    (∀ str ∈ p.statement.str, 13 ∉ str) ∧ 13 ∉ formatSource p.statement.format ∧
      ∀ e ∈ p.statement.expr, 13 ∉ expressionSource e := by
  simp only [Placed.strings, returnless_append] at hp
  obtain ⟨hstr, hformat, hexpr⟩ := hp
  refine ⟨fun str h => hstr str (Option.mem_toList.2 h), return_not_mem_formatSource hformat, ?_⟩
  exact fun e h => return_not_mem_expressionSource
    (returnless_flatMap.1 hexpr e (Option.mem_toList.2 h))

/-- What is written has no carriage return. -/
abbrev Written.Returnless (w : Written) : Prop := Yields (fun _ => True) (13 ∉ ·) w

theorem Written.Returnless.not_mem {w : Written} {text : Bytes} (hw : w.Returnless)
    (h : w = .ok text) : 13 ∉ text := by
  rw [h] at hw
  exact hw

theorem Written.Returnless.of_ok {w : Written} (h : ∀ text, w = .ok text → 13 ∉ text) :
    w.Returnless := by
  cases w with
  | ok text => exact h text rfl
  | error => trivial

theorem returnless_writeBlock {b : Block} {lead : Bytes} {level : ℕ} (hlead : 13 ∉ lead)
    (hb : ∀ p ∈ b.placed, ApeScript.Returnless p.strings) : (writeBlock lead level b).Returnless := by
  induction b generalizing lead level with
  | done => exact List.not_mem_nil
  | step p inner alt rest ihi iha ihr =>
    simp only [Block.mem_placed_step] at hb
    have hlevel := return_not_mem_indentation level
    have hdeeper := return_not_mem_indentation (level + 1)
    have hinner : (writeBlock (indentation (level + 1)) (level + 1) inner).Returnless :=
      ihi hdeeper fun q hq => hb q (.inr (.inl hq))
    have halt {lead : Bytes} {level : ℕ} (hlead : 13 ∉ lead) :
        (writeBlock lead level alt).Returnless :=
      iha hlead fun q hq => hb q (.inr (.inr (.inl hq)))
    have hrest : (writeBlock (indentation level) level rest).Returnless :=
      ihr hlevel fun q hq => hb q (.inr (.inr (.inr hq)))
    obtain ⟨hstr, hformat, hexpr⟩ := return_not_mem_placed (hb p (.inl rfl))
    have hhead := return_not_mem_writeHead hexpr
    have hthen {here : Bytes} (hhere : 13 ∉ here) : Written.Returnless
        (writeBlock (indentation level) level rest >>= fun more => pure (here ++ more)) :=
      hrest.bind fun more hmore => show 13 ∉ (here ++ more : Bytes) by simp [hhere, hmore]
    rw [writeBlock]
    split
    · exact hthen List.not_mem_nil
    split
    · extract_lets single
      refine hinner.bind fun body hbody => ?_
      extract_lets opened joined
      have hopened : 13 ∉ opened := by
        have hopens : 13 ∉ utf8 (if single then "\n" else " \x7b\n") := by split <;> decide
        have hcloses : 13 ∉ if single then [] else indentation level ++ utf8 "\x7d" := by
          split <;> simp +decide [hlevel]
        simp [opened, hlead, hhead, hopens, hbody, hcloses]
      split
      · have hends : 13 ∉ if single then [] else utf8 "\n" := by split <;> decide
        exact hthen (by simp [hopened, hends])
      have hjoined : 13 ∉ joined := by
        have helse : 13 ∉ if single then indentation level ++ utf8 "else" else utf8 " else" := by
          split <;> simp +decide [hlevel]
        simp [joined, hopened, helse]
      split
      · exact (halt List.not_mem_nil).bind fun other hother =>
          hthen (by simp +decide [hjoined, hother])
      refine (halt hdeeper).bind fun other hother => ?_
      split
      · exact hthen (by simp +decide [hjoined, hother])
      · exact hthen (by simp +decide [hjoined, hother, hlevel])
    · split
      · rename_i line hline
        have hsimple := return_not_mem_writeSimple hline hstr hformat hexpr
        exact hthen (by simp +decide [hlead, hsimple])
      · trivial

theorem returnless_writeStatements {level : ℕ} {commands : List Placed}
    (h : ∀ p ∈ commands, ApeScript.Returnless p.strings) :
    (writeStatements level commands).Returnless := by
  unfold writeStatements
  split
  · trivial
  · rename_i b hb
    exact returnless_writeBlock (return_not_mem_indentation level) fun p hp =>
      h p ((Block.placed_perm_of_ofPlaced hb).mem_iff.1 hp)

/-! ### Commands -/

theorem returnless_writeTalk {t : Talk} (h : ApeScript.Returnless (Command.talk t).strings) :
    (writeTalk t).Returnless := by
  have hstay (v : UInt32) : 13 ∉ stayWord v := by
    unfold stayWord
    split <;> decide
  simp only [Command.strings, returnless_append, returnless_cons, returnless_nil, and_true] at h
  obtain ⟨hanim1, hanim2, hname1, hname2⟩ := h
  unfold writeTalk
  split
  · rename_i anim2 hgiven
    extract_lets stays
    have hword : 13 ∉ anim2 := hanim2 anim2 (by simp [hgiven])
    have hstays : 13 ∉ stays := by
      change 13 ∉ if t.stay1 = 0 ∨ t.stay2 = 0 then _ else _
      split
      · simp +decide [hstay]
      · exact List.not_mem_nil
    exact show 13 ∉ (_ : Bytes) by simp +decide [hname1, hname2, hanim1, hword, hstays]
  · extract_lets npc player finish
    have hends : 13 ∉ utf8 (if t.stay2 = 0 then " nostay\n" else "\n") := by split <;> decide
    have hfinish {start : Bytes} (h : 13 ∉ start) : Written.Returnless (finish start) :=
      show 13 ∉ (start ++ t.anim1 ++ _ : Bytes) by simp [h, hanim1, hends]
    split
    · exact hfinish (by decide)
    · split
      · exact hfinish (by decide)
      · trivial

theorem return_not_mem_joinWith {pieces : List Bytes} {sep : Bytes} (hsep : 13 ∉ sep)
    (h : ∀ piece ∈ pieces, 13 ∉ piece) : 13 ∉ Bytes.joinWith sep pieces := by
  unfold Bytes.joinWith
  induction pieces with
  | nil => simp
  | cons piece pieces ih =>
    obtain ⟨hpiece, hpieces⟩ := List.forall_mem_cons.1 h
    cases pieces with
    | nil => simpa using hpiece
    | cons next pieces =>
      rw [List.intercalate_cons_cons]
      simpa [hpiece, hsep] using ih hpieces

theorem return_not_mem_imageNames (flags : UInt32) :
    ∀ name ∈ ImageFlags.names flags, 13 ∉ name := by
  have hslot {p : Prop} [Decidable p] {name : Bytes} (hname : 13 ∉ name) :
      ∀ name' ∈ (if p then [name] else []), 13 ∉ name' := by
    split
    · simpa using hname
    · simp
  have hmore : 13 ∉ utf8 "Unknown(" ++ Bytes.ofNat (flags &&& ~~~ImageFlags.known).toNat ++
      utf8 ")" := by
    simp +decide [Bytes.ofNat_not_mem_return]
  simp only [ImageFlags.names, List.forall_mem_append]
  exact ⟨⟨⟨hslot (by decide), hslot (by decide)⟩, hslot (by decide)⟩, hslot hmore⟩

theorem returnless_writeImage {asBackground : Bool} {i : Image}
    (h : ApeScript.Returnless (Command.image i).strings) :
    (writeImage asBackground i).Returnless := by
  simp only [Command.strings, Area.strings, returnless_append, returnless_cons, returnless_nil,
    and_true] at h
  obtain ⟨hcondition, hfile, hx, hy, hwidth, hheight⟩ := h
  have hline := return_not_mem_conditionLine hcondition
  have hsource {e : Option Expr} (he : ApeScript.Returnless (e.toList.flatMap Expr.strings))
      {e' : Expr} (h : e = some e') : 13 ∉ expressionSource e' :=
    return_not_mem_expressionSource (returnless_flatMap.1 he e' (by simp [h]))
  unfold writeImage
  extract_lets size names flags finish
  split
  · rename_i file hname
    have hquoted : 13 ∉ file := return_not_mem_quoteName? hname hfile
    have hsize {e : Option Expr} (he : ApeScript.Returnless (e.toList.flatMap Expr.strings)) :
        13 ∉ size e := by
      cases e with
      | none => exact List.not_mem_nil
      | some e => simp +decide [size, hsource he rfl]
    have hflags : 13 ∉ flags := by
      simp only [flags]
      split
      · exact List.not_mem_nil
      · have hnames : 13 ∉ Bytes.joinWith (utf8 " ") names :=
          return_not_mem_joinWith (by decide) (return_not_mem_imageNames i.flags)
        simp +decide [hnames]
    change Written.Returnless (finish file)
    simp only [finish]
    split
    · have hword {p : Prop} [Decidable p] (word : String) (h : 13 ∉ utf8 word) :
          13 ∉ utf8 (if p then word else "") := by
        split
        · exact h
        · decide
      exact show 13 ∉ (_ : Bytes) by
        simp +decide [hline, hquoted, hword " stretch" (by decide),
          hword " tile" (by decide)]
    · split
      · rename_i x y hplaced
        obtain ⟨hx', hy'⟩ := Prod.mk.inj hplaced
        have himage : 13 ∉ conditionLine i.condition ++ utf8 "image " ++ file ++ utf8 " " ++
            expressionSource x ++ utf8 ", " ++ expressionSource y ++ size i.area.width ++
            size i.area.height ++ flags ++ utf8 "\n" := by
          simp +decide [hline, hquoted, hsource hx hx', hsource hy hy', hsize hwidth, hsize hheight,
            hflags]
        split
        · trivial
        · split
          · trivial
          · exact himage
      · trivial
  · trivial

theorem returnless_writeNamed {directive s : Bytes} (hdirective : 13 ∉ directive) (hs : 13 ∉ s) :
    (writeNamed directive s).Returnless := by
  unfold writeNamed
  split
  · rename_i text htext
    exact show 13 ∉ (_ : Bytes) by
      simp +decide [hdirective, return_not_mem_quoteName? htext hs]
  · trivial

theorem returnless_writeSimpleText {code : UInt8} {s : Bytes} (hs : 13 ∉ s) :
    (writeSimpleText code s).Returnless := by
  have hconsole : 13 ∉ quote (withoutNewline s) := by
    refine return_not_mem_quote ?_
    unfold withoutNewline
    split
    · exact fun h => hs ((List.dropLast_prefix s).subset h)
    · exact hs
  unfold writeSimpleText
  split_ifs
  · exact show 13 ∉ (_ : Bytes) by simp +decide [hconsole]
  · exact show 13 ∉ (_ : Bytes) by simp +decide [hconsole]
  · exact returnless_writeNamed (by decide) hs
  · exact returnless_writeNamed (by decide) hs
  · exact show 13 ∉ utf8 "return\n" by decide
  · exact show 13 ∉ (_ : Bytes) by simp +decide [hs]
  · exact show 13 ∉ (_ : Bytes) by simp +decide [hs]
  · trivial

theorem returnless_writePrint {p : Print} (h : ApeScript.Returnless (Command.print p).strings) :
    (writePrint p).Returnless := by
  obtain ⟨x, y, alpha, red, green, blue, font, message, condition, format⟩ := p
  simp only [Command.strings, returnless_append, returnless_cons, returnless_nil, and_true] at h
  obtain ⟨hx, hy, halpha, hred, hgreen, hblue, hfont, hmessage, hcondition, hformat⟩ := h
  have hsource {e : Expr} (he : ApeScript.Returnless ((some e).toList.flatMap Expr.strings)) :
      13 ∉ expressionSource e := return_not_mem_expressionSource (by simpa using he)
  unfold writePrint
  split
  · rename_i hplaced
    cases hplaced
    extract_lets place start
    have hplace : 13 ∉ place := by
      simp +decide [place, hsource hx, hsource hy, hsource halpha]
    have hstart : 13 ∉ start := by
      simp only [start]
      split
      · simp +decide [hplace, hsource hred, hsource hgreen, hsource hblue,
          hfont _ (List.mem_singleton_self _)]
      · simp +decide [hplace]
    exact show 13 ∉ (_ : Bytes) by
      simp +decide [return_not_mem_conditionLine hcondition, hstart, return_not_mem_quote hmessage,
        return_not_mem_formatSource hformat]
  · trivial

theorem return_not_mem_writeCam {c : Cam} (h : ApeScript.Returnless (Command.cam c).strings) :
    13 ∉ writeCam c := by
  simp only [Command.strings, returnless_append, returnless_cons, returnless_nil, and_true] at h
  obtain ⟨hname, hsource, htarget, howner⟩ := h
  have htext {word : Bytes} {s : Option Bytes} (hword : 13 ∉ word)
      (hs : ApeScript.Returnless s.toList) :
      13 ∉ Compiler.camText word s := by
    cases s with
    | none => exact List.not_mem_nil
    | some s => simp +decide [Compiler.camText_some, hword, hs s (List.mem_singleton_self s)]
  have hnumber {word : Bytes} (hword : 13 ∉ word) (v : UInt16) :
      13 ∉ Compiler.camNumberText word v := by
    rw [Compiler.camNumberText_eq]
    split
    · exact List.not_mem_nil
    · simp +decide [hword, Bytes.ofNat_not_mem_return]
  have hmark {word : Bytes} (hword : 13 ∉ word) (v : UInt16) : 13 ∉ Compiler.camMarkText word v := by
    unfold Compiler.camMarkText
    split
    · exact List.not_mem_nil
    · simp +decide [hword]
  have hsettings : 13 ∉ Compiler.camSettings c := by
    simp only [Compiler.camSettings, List.mem_append, not_or]
    exact ⟨htext (by decide) hsource, htext (by decide) htarget, htext (by decide) howner,
      hnumber (by decide) _, hnumber (by decide) _, hnumber (by decide) _, hnumber (by decide) _,
      hnumber (by decide) _, hnumber (by decide) _, hnumber (by decide) _, hnumber (by decide) _,
      hnumber (by decide) _, hnumber (by decide) _, hmark (by decide) _, hmark (by decide) _,
      List.not_mem_nil⟩
  rw [Compiler.writeCam_eq]
  simp +decide [hname, hsettings]

theorem return_not_mem_writeCorners (c : Corners) : 13 ∉ writeCorners c := by
  have hcolor (number : ℕ) (v : UInt32) :
      13 ∉ if v = 0 then [] else utf8 " color" ++ Bytes.ofNat number ++ utf8 "=" ++ colorText v := by
    split
    · exact List.not_mem_nil
    · simp +decide [Bytes.ofNat_not_mem_return, (Compiler.word_colorText v).not_mem_return]
  unfold writeCorners
  extract_lets color colors
  have hcolors : 13 ∉ colors := by
    simp only [colors, color, List.mem_append, not_or]
    exact ⟨⟨⟨hcolor 1 _, hcolor 2 _⟩, hcolor 3 _⟩, hcolor 4 _⟩
  have hshown : 13 ∉ if colors.isEmpty then utf8 " color1=00000000" else colors := by
    split
    · decide
    · exact hcolors
  exact List.not_mem_append (List.not_mem_append (by decide) hshown) (by decide)

theorem return_not_mem_writeArea {a : Area} (h : ApeScript.Returnless a.strings) :
    13 ∉ writeArea a := by
  simp only [Area.strings, returnless_append] at h
  obtain ⟨hx, hy, hwidth, hheight⟩ := h
  unfold writeArea
  extract_lets line
  have hline {name : String} {e : Option Expr} (hname : 13 ∉ utf8 name)
      (he : ApeScript.Returnless (e.toList.flatMap Expr.strings)) : 13 ∉ line name e := by
    cases e with
    | none => exact List.not_mem_nil
    | some e =>
      have hsource : 13 ∉ expressionSource e := return_not_mem_expressionSource (by simpa using he)
      simp +decide [line, hname, hsource]
  simp only [List.mem_append, not_or]
  exact ⟨⟨⟨hline (by decide) hwidth, hline (by decide) hheight⟩, hline (by decide) hx⟩,
    hline (by decide) hy⟩

theorem returnless_writeCommand {asBackground : Bool} {d : Command}
    (h : ApeScript.Returnless d.strings) : (writeCommand asBackground d).Returnless := by
  cases d with
  | formattedText code condition text format =>
    simp only [Command.strings, returnless_append, returnless_cons, returnless_nil, and_true] at h
    obtain ⟨hcondition, htext, hformat⟩ := h
    have hword : 13 ∉ utf8 (if code = CommandCode.title then "title " else "body ") := by
      split <;> decide
    exact show 13 ∉ (_ : Bytes) by
      simp +decide [return_not_mem_conditionLine hcondition, hword, return_not_mem_quote htext,
        return_not_mem_formatSource hformat]
  | talk t => exact returnless_writeTalk h
  | dimensions a => exact return_not_mem_writeArea h
  | image i => exact returnless_writeImage h
  | flags bits => exact .of_ok fun _ => not_mem_writeFlags
  | subWindow label =>
    exact show 13 ∉ (_ : Bytes) by simp +decide [label.text_not_mem_return]
  | choice condition text format label =>
    simp only [Command.strings, returnless_append, returnless_cons, returnless_nil, and_true] at h
    obtain ⟨hcondition, htext, hformat⟩ := h
    exact show 13 ∉ (_ : Bytes) by
      simp +decide [return_not_mem_conditionLine hcondition, return_not_mem_quote htext,
        return_not_mem_formatSource hformat, label.text_not_mem_return]
  | simpleText code s => exact returnless_writeSimpleText (h s (List.mem_singleton_self s))
  | print p => exact returnless_writePrint h
  | background c => exact return_not_mem_writeCorners c
  | cam c => exact return_not_mem_writeCam h
  | switchRef | blank => trivial

/-! ### Files -/

theorem returnless_writeSwitchRef {f : File} {code : UInt8} {label : Label}
    (hf : ∀ s ∈ f.switches, ApeScript.Returnless s.strings) :
    (writeSwitchRef f code label).Returnless := by
  have hdirective : 13 ∉ switchDirective code := by
    unfold switchDirective
    split_ifs <;> decide
  unfold writeSwitchRef
  extract_lets directive
  split
  · exact show 13 ∉ (_ : Bytes) by
      simp +decide [directive, hdirective, label.text_not_mem_return]
  · split
    · trivial
    · rename_i s hs
      have hmem : s ∈ f.switches := List.mem_reverse.1 (List.mem_of_find?_eq_some hs)
      split
      · trivial
      · rename_i body hbody
        have hbody : 13 ∉ body := (returnless_writeStatements
          (returnless_flatMap.1 (hf s hmem))).not_mem hbody
        exact show 13 ∉ (_ : Bytes) by simp +decide [directive, hdirective, hbody]

theorem return_not_mem_flatten {α : Type} {write : α → Written} {l : List α} {texts : List Bytes}
    (h : List.Forall₂ (fun a text => write a = .ok text) l texts)
    (hl : ∀ a ∈ l, (write a).Returnless) : 13 ∉ texts.flatten := by
  induction h with
  | nil => exact List.not_mem_nil
  | cons h _ ih =>
    obtain ⟨hfirst, hrest⟩ := List.forall_mem_cons.1 hl
    exact List.not_mem_append (hfirst.not_mem h) (ih hrest)

theorem returnless_writeWindow {f : File} {w : Window}
    (hw : ApeScript.Returnless w.strings) (hf : ∀ s ∈ f.switches, ApeScript.Returnless s.strings) :
    (writeWindow f w).Returnless := by
  refine .of_ok fun text h => ?_
  obtain ⟨body, refs, hbody, hrefs, rfl⟩ := writeWindow_ok_iff.1 h
  have hown : 13 ∉ body.flatten := by
    refine return_not_mem_flatten ((mapM_eq_ok_iff fun _ _ => Iff.rfl).1 hbody) fun d hd => ?_
    exact returnless_writeCommand (returnless_flatMap.1 hw d (List.mem_of_mem_filter hd))
  have hnamed : 13 ∉ refs.flatten :=
    return_not_mem_flatten ((mapM_eq_ok_iff fun _ _ => Iff.rfl).1 hrefs)
      fun _ _ => returnless_writeSwitchRef hf
  have hplain : 13 ∉ if w.isPlain then plainLine else [] := by
    split
    · decide
    · exact List.not_mem_nil
  have hstart : 13 ∉ utf8 "#window " := by decide
  simp [windowScript, hstart, w.id.text_not_mem_return, hown, hplain, hnamed]

end Script

/-- A file without carriage returns is written without them. -/
theorem return_not_mem_writeFile {f : File} {script : Bytes} (h : Script.writeFile f = .ok script)
    (hf : Returnless f.strings) : 13 ∉ script := by
  obtain ⟨hwindows, hswitches⟩ := returnless_append.1 hf
  have hswitch := returnless_flatMap.1 hswitches
  obtain ⟨windows, switches, hwritten, hrest, rfl⟩ := writeFile_ok_iff.1 h
  refine List.not_mem_append (Script.return_not_mem_flatten hwritten fun w hw => ?_)
    (Script.return_not_mem_flatten hrest fun s hs => ?_)
  · exact Script.returnless_writeWindow (returnless_flatMap.1 hwindows w hw) hswitch
  · have hstatements : (Script.writeStatements 0 s.commands).Returnless :=
      Script.returnless_writeStatements
        (returnless_flatMap.1 (hswitch s (List.mem_of_mem_filter hs)))
    refine hstatements.bind fun body hbody => ?_
    exact show 13 ∉ (_ : Bytes) by simp +decide [s.label.text_not_mem_return, hbody]

end ApeScript
