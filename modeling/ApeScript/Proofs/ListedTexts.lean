import ApeScript.Proofs.EditedScript
import ApeScript.Proofs.LocalizedFile

/-!
# Changed texts are listed texts

What putting a file together with localized texts may change, against the texts that were listed for
translation. A script changes only within the literals of its listed texts. A compiled file changes
in its listed texts and in those texts without a letter that the glossary happens to know, since
letters are looked for only when the texts are listed.
-/

namespace ApeScript.Localization

variable {R : Bytes → Bytes → Prop} {charset : Charset} {g : Glossary} {path : Bytes}
  {c c' : Command} {f f' : File} {p p' : Place × Bytes}

/-! ### The places of a file's texts -/

/-- Texts in the same place that are related by `R`. -/
def SamePlace {α : Type} (R : Bytes → Bytes → Prop) (p p' : α × Bytes) : Prop :=
  p'.1 = p.1 ∧ R p.2 p'.2

theorem commandSlot?_retold (h : c.Retold R c') :
    Option.Rel (SamePlace R) (commandSlot? c) (commandSlot? c') := by
  cases h with
  | formattedText h | choice h | print h => exact .some ⟨rfl, h⟩
  | silent hsilent =>
    rw [dialogue?_eq, Option.map_eq_none_iff] at hsilent
    rw [hsilent]
    exact .none

theorem forall₂_zipIdx {α β : Type} {T : α → β → Prop} {l : List α} {l' : List β}
    (h : List.Forall₂ T l l') (n : Nat) :
    List.Forall₂ (fun p p' => T p.1 p'.1 ∧ p'.2 = p.2) (l.zipIdx n) (l'.zipIdx n) := by
  induction h generalizing n with
  | nil => exact .nil
  | cons h _ ih => exact .cons ⟨h, rfl⟩ (ih (n + 1))

/-- The texts of a file stand where those of the file with other texts stand. -/
theorem fileSlots_retold (h : f.Retold R f') :
    List.Forall₂ (SamePlace R) (fileSlots f) (fileSlots f') := by
  refine List.rel_flatMap h.windows fun w w' hw => ?_
  refine List.rel_filterMap ?_ (forall₂_zipIdx hw.commands 0)
  rintro ⟨c, index⟩ ⟨c', index'⟩ ⟨hc, hindex⟩
  obtain rfl : index' = index := hindex
  have hslot : Option.Rel (SamePlace R) (commandSlot? c) (commandSlot? c') := commandSlot?_retold hc
  dsimp only
  generalize commandSlot? c = found at hslot ⊢
  generalize commandSlot? c' = found' at hslot ⊢
  cases hslot with
  | none => exact .none
  | some h => exact .some ⟨by simp only [hw.id, h.1], h.2⟩

/-! ### Listed texts -/

theorem extract_mem_extractFile (hp : p ∈ fileSlots f)
    (hletters : Text.hasLetters (charset.decode p.2) = true) :
    ⟨charset.decode p.2, path, p.1⟩ ∈ extractFile charset path f :=
  List.mem_filterMap.2 ⟨p, hp, if_pos hletters⟩

/-- A text that changes stays in its place. If it was not listed, it holds no letter, and the
glossary knows it. -/
structure Accounted (charset : Charset) (g : Glossary) (path : Bytes) (texts : List Extract)
    (p p' : Place × Bytes) : Prop where
  place_eq : p'.1 = p.1
  unlisted : p'.2 ≠ p.2 → ⟨charset.decode p.2, path, p.1⟩ ∉ texts →
    Text.hasLetters (charset.decode p.2) = false ∧
      ∃ translated, g.get? (charset.decode p.2) = some translated

theorem accounted_of_localizes (hp : p ∈ fileSlots f) (h : SamePlace (Localizes charset g) p p') :
    Accounted charset g path (extractFile charset path f) p p' := by
  refine ⟨h.1, fun hchange hunlisted => ⟨?_, ?_⟩⟩
  · exact Bool.eq_false_iff.2 fun hletters => hunlisted (extract_mem_extractFile hp hletters)
  · obtain ⟨place, stored⟩ := p
    obtain ⟨place', stored'⟩ := p'
    cases h.2 with
    | kept => exact absurd rfl hchange
    | replaced hget => exact ⟨_, hget⟩

/-- A compiled file that is put together with a glossary changes in nothing but its texts, and in
its texts only where they were listed, or where the glossary knows a text without a letter. A script
changes in nothing but the literals of its listed texts. -/
theorem rebuilt_changes_listed (charset : Charset) (g : Glossary) (path : Bytes) :
    (∀ data out, rebuildCompiled charset path data g = .ok out →
      ∃ f f' texts, File.decode data = .ok f ∧ File.decode out = .ok f' ∧
        extractCompiled charset path data = .ok texts ∧ f.Retold (Localizes charset g) f' ∧
        List.Forall₂ (Accounted charset g path texts) (fileSlots f) (fileSlots f')) ∧
    ∀ src s out, extractScript charset path src = .ok s → rebuildScript charset s g = .ok out →
      ∃ lines', out = Bytes.joinWith [10] lines' ++ [10] ∧ lines'.length = s.lines.length ∧
        ∀ i line, s.lines[i]? = some line →
          ∃ line', lines'[i]? = some line' ∧ Rebuilt charset g s.texts i line line' := by
  constructor
  · intro data out hout
    obtain ⟨f, hdecode⟩ : ∃ f, File.decode data = .ok f := by
      cases hdecode : File.decode data with
      | ok f => exact ⟨f, rfl⟩
      | error e => simp [rebuildCompiled, hdecode] at hout
    obtain ⟨f', hdecode', hretold⟩ := exists_decode_of_rebuildCompiled hdecode hout
    refine ⟨f, f', extractFile charset path f, hdecode, hdecode', ?_, hretold, ?_⟩
    · simp only [extractCompiled, hdecode]
    · have hslots := (List.forall₂_and_left _ _).2 ⟨fun p hp => hp, fileSlots_retold hretold⟩
      exact hslots.imp fun p p' h => accounted_of_localizes h.1 h.2
  · exact fun src s out hs hout => rebuilt_of_rebuildScript hs hout

theorem decode_bodyFile {text data : Bytes} (hencode : (bodyFile text).encode = .bytes data) :
    File.decode data = .ok (bodyFile text) := by
  have hexprs : (bodyFile text).exprs = [] := rfl
  refine File.decode_ok.2 ⟨fun e he => ?_, Or.inr hencode⟩
  rw [hexprs] at he
  cases he

/-- A body in a compiled file, and two literals in a line of a script, of which one is listed. -/
theorem rebuilt_changes_listed_gold :
    let g := Glossary.ofList [(utf8 "Gold", utf8 "Oro"), (utf8 "x", utf8 "y")]
    ∃ data out texts s script lines',
      rebuildCompiled .raw (utf8 "a.ape") data g = .ok out ∧
      extractCompiled .raw (utf8 "a.ape") data = .ok texts ∧
      List.Forall₂ (Accounted .raw g (utf8 "a.ape") texts) (fileSlots (bodyFile (utf8 "Gold")))
        (fileSlots (bodyFile (utf8 "Oro"))) ∧
      extractScript .raw (utf8 "a.ape") (utf8 "body \"Gold\" \"x\"") = .ok s ∧
      rebuildScript .raw s g = .ok script ∧ script = Bytes.joinWith [10] lines' ++ [10] ∧
      lines'.length = s.lines.length := by
  intro g
  obtain ⟨data, hencode⟩ : ∃ data, (bodyFile (utf8 "Gold")).encode = .bytes data := ⟨_, rfl⟩
  obtain ⟨out, hencode'⟩ : ∃ out, (bodyFile (utf8 "Oro")).encode = .bytes out := ⟨_, rfl⟩
  have hdecode := decode_bodyFile hencode
  have hout : rebuildCompiled .raw (utf8 "a.ape") data g = .ok out :=
    (rebuildCompiled_eq_ok_iff hdecode).2
      ⟨_, translateFile_eq_ok_iff.1 (by decide +kernel), hencode'⟩
  obtain ⟨f, f', texts, hf, hf', htexts, -, hslots⟩ :=
    (rebuilt_changes_listed .raw g (utf8 "a.ape")).1 data out hout
  obtain rfl := Except.ok.inj (hf.symm.trans hdecode)
  obtain rfl := Except.ok.inj (hf'.symm.trans (decode_bodyFile hencode'))
  let s : ScriptTexts := ⟨utf8 "a.ape", [utf8 "body \"Gold\" \"x\""],
    [⟨utf8 "Gold", utf8 "a.ape", .line 1 5 (utf8 "body")⟩]⟩
  have hs : extractScript .raw (utf8 "a.ape") (utf8 "body \"Gold\" \"x\"") = .ok s := by
    decide +kernel
  have hscript : rebuildScript .raw s g = .ok (utf8 "body \"Oro\" \"x\"\n") := by decide +kernel
  obtain ⟨lines', hjoin, hlength, -⟩ :=
    (rebuilt_changes_listed .raw g (utf8 "a.ape")).2 _ s _ hs hscript
  exact ⟨data, out, texts, s, _, lines', hout, htexts, hslots, hs, hscript, hjoin, hlength⟩

/-- A body that is a number is not listed, and becomes another number all the same. -/
theorem rebuilt_changes_number :
    ∃ data out, extractCompiled .raw (utf8 "a.ape") data = .ok [] ∧
      rebuildCompiled .raw (utf8 "a.ape") data (.ofList [(utf8 "123", utf8 "456")]) = .ok out ∧
      File.decode data = .ok (bodyFile (utf8 "123")) ∧
      File.decode out = .ok (bodyFile (utf8 "456")) := by
  obtain ⟨data, hencode⟩ : ∃ data, (bodyFile (utf8 "123")).encode = .bytes data := ⟨_, rfl⟩
  obtain ⟨out, hencode'⟩ : ∃ out, (bodyFile (utf8 "456")).encode = .bytes out := ⟨_, rfl⟩
  have hdecode := decode_bodyFile hencode
  have hnone : extractFile .raw (utf8 "a.ape") (bodyFile (utf8 "123")) = [] := by decide +kernel
  refine ⟨data, out, ?_, ?_, hdecode, decode_bodyFile hencode'⟩
  · simp only [extractCompiled, hdecode, hnone]
  · exact (rebuildCompiled_eq_ok_iff hdecode).2
      ⟨_, translateFile_eq_ok_iff.1 (by decide +kernel), hencode'⟩

end ApeScript.Localization
