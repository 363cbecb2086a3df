import ApeScript.Localization.Compiled
import ApeScript.Proofs.Characters
import ApeScript.Proofs.Pieces
import ApeScript.Proofs.RoundTrip

/-!
# Tables filled in with their own texts

A table that is written for the texts of a file, and whose last column is then filled with a copy
of the source column, is read back as the glossary that takes every text to itself. With it a
stored file is put together as it was.
-/

namespace ApeScript.Localization

/-! ### Fields -/

theorem unescapeFrom_cons {b : UInt8} (hb : b ≠ 92) (out rest : Bytes) :
    unescapeFrom out (b :: rest) = unescapeFrom (b :: out) rest := by
  cases rest <;> simp [unescapeFrom, hb]

theorem unescapeFrom_escapeByte (out : Bytes) (b : UInt8) (rest : Bytes) :
    unescapeFrom out (escapeByte b ++ rest) = unescapeFrom (b :: out) rest := by
  have hpair (c d : UInt8) (hd : unescapePair c = [d]) :
      unescapeFrom out (92 :: c :: rest) = unescapeFrom (d :: out) rest := by
    simp [unescapeFrom, hd]
  unfold escapeByte
  by_cases h1 : b = 92
  · subst h1
    exact hpair 92 92 (by decide)
  by_cases h2 : b = 9
  · subst h2
    exact hpair 116 9 (by decide)
  by_cases h3 : b = 10
  · subst h3
    exact hpair 110 10 (by decide)
  by_cases h4 : b = 13
  · subst h4
    exact hpair 114 13 (by decide)
  · simp only [if_neg h1, if_neg h2, if_neg h3, if_neg h4]
    exact unescapeFrom_cons h1 out rest

/-- What a field spells is read back from it. -/
theorem unescapeField_escapeField (s : Bytes) : unescapeField (escapeField s) = s := by
  have hfrom (out : Bytes) : unescapeFrom out (escapeField s) = out.reverse ++ s := by
    induction s generalizing out with
    | nil => simp [escapeField, unescapeFrom]
    | cons b s ih =>
      rw [escapeField, List.flatMap_cons, unescapeFrom_escapeByte, ← escapeField, ih]
      simp
  simpa [unescapeField] using hfrom []

/-- A field holds no tab and nothing that ends a line. -/
theorem not_mem_escapeField (s : Bytes) : 9 ∉ escapeField s ∧ 10 ∉ escapeField s ∧
    13 ∉ escapeField s := by
  have hbyte (b : UInt8) : 9 ∉ escapeByte b ∧ 10 ∉ escapeByte b ∧ 13 ∉ escapeByte b := by
    unfold escapeByte
    by_cases h1 : b = 92
    · subst h1
      decide
    by_cases h2 : b = 9
    · subst h2
      decide
    by_cases h3 : b = 10
    · subst h3
      decide
    by_cases h4 : b = 13
    · subst h4
      decide
    · simp [h1, h2, h3, h4, Ne.symm h2, Ne.symm h3, Ne.symm h4]
  simp only [escapeField, List.mem_flatMap, not_exists, not_and]
  exact ⟨fun b _ => (hbyte b).1, fun b _ => (hbyte b).2.1, fun b _ => (hbyte b).2.2⟩

/-- A field is blank only if it stands for a blank text. -/
theorem trim_escapeField_ne_nil {s : Bytes} (h : Text.trim s ≠ []) :
    Text.trim (escapeField s) ≠ [] := by
  by_cases hplain : ∀ b ∈ s, escapeByte b = [b]
  · have hself : escapeField s = s := by
      rw [escapeField, List.flatMap_congr hplain, List.flatMap_singleton']
    rwa [hself]
  · simp only [not_forall] at hplain
    obtain ⟨b, hb, hescaped⟩ := hplain
    have hslash : 92 ∈ escapeByte b := by
      unfold escapeByte at hescaped ⊢
      split_ifs at hescaped ⊢
      all_goals first | decide | exact absurd rfl hescaped
    exact Text.trim_ne_nil (List.mem_flatMap.2 ⟨b, hb, hslash⟩) (by decide) (by decide)

theorem escapeField_ne_nil {s : Bytes} (h : s ≠ []) : escapeField s ≠ [] := by
  intro hnil
  apply h
  rw [← unescapeField_escapeField s, hnil]
  rfl

/-! ### Glossaries -/

theorem Glossary.get?_insert (g : Glossary) (source translated s : Bytes) :
    (g.insert source translated).get? s = if s = source then some translated else g.get? s := by
  by_cases h : s = source
  · subst h
    simp [insert, get?]
  · have hfilter : (g.entries.filter (·.1 ≠ source)).find? (·.1 = s) =
        g.entries.find? (·.1 = s) := by
      rw [List.find?_filter]
      congr 1
      funext entry
      by_cases hs : entry.1 = s <;> simp [hs, h]
    have hne : source ≠ s := Ne.symm h
    simp only [insert, get?, List.find?_cons, hfilter, if_neg h]
    simp [hne]

def Glossary.withSame (g : Glossary) (texts : List Bytes) : Glossary :=
  texts.foldl (fun g text => g.insert text text) g

theorem Glossary.get?_withSame (g : Glossary) (texts : List Bytes) (s : Bytes) :
    (g.withSame texts).get? s = if s ∈ texts then some s else g.get? s := by
  induction texts generalizing g with
  | nil => simp [withSame]
  | cons text texts ih =>
    rw [withSame, List.foldl_cons, ← withSame, ih, get?_insert]
    by_cases hs : s = text
    · subst hs
      simp
    · simp [hs]

/-! ### Tables -/

def fillLine (line : Bytes) : Bytes :=
  match Bytes.split 9 line with
  | [file, key, source, _] => Bytes.joinWith [9] [file, key, source, source]
  | _ => line

/-- The table with every row filled in so; the first line is the heading. -/
def fillTable (table : Bytes) : Bytes :=
  match Text.Lines.rawLines table with
  | [] => []
  | first :: rows => (first :: rows.map fillLine).flatMap (· ++ [10])

def Row.columns (r : Row) (translated : Bytes) : List Bytes :=
  [escapeField r.file, escapeField r.key, escapeField r.text, escapeField translated]

variable {r : Row} {rows : List Row}

theorem Row.line_eq (r : Row) (translated : Bytes) :
    r.line translated = Bytes.joinWith [9] (r.columns translated) ++ [10] := by
  simp [line, columns, Bytes.joinWith, List.intercalate_cons_cons]

theorem Row.split_columns (r : Row) (translated : Bytes) :
    Bytes.split 9 (Bytes.joinWith [9] (r.columns translated)) = r.columns translated := by
  rw [Bytes.split_eq_splitOn]
  apply List.splitOn_intercalate
  · simp only [columns, List.forall_mem_cons]
    exact ⟨(not_mem_escapeField _).1, (not_mem_escapeField _).1, (not_mem_escapeField _).1,
      (not_mem_escapeField _).1, by simp⟩
  · simp [columns]

theorem Row.not_mem_columns {b : UInt8} (hb : b = 10 ∨ b = 13) (r : Row) (translated : Bytes) :
    b ∉ Bytes.joinWith [9] (r.columns translated) := by
  have hfield (s : Bytes) : b ∉ escapeField s := by
    rcases hb with rfl | rfl
    · exact (not_mem_escapeField s).2.1
    · exact (not_mem_escapeField s).2.2
  have htab : b ≠ 9 := by
    rcases hb with rfl | rfl <;> decide
  simp [columns, Bytes.joinWith, List.intercalate_cons_cons, hfield, htab]

theorem writeTable_eq (rows : List Row) : writeTable rows =
    (heading :: rows.map fun r => Bytes.joinWith [9] (r.columns [])).flatMap (· ++ [10]) := by
  simp [writeTable, List.flatMap_map, Row.line_eq]

theorem fillTable_writeTable (rows : List Row) : fillTable (writeTable rows) =
    (heading :: rows.map fun r => Bytes.joinWith [9] (r.columns r.text)).flatMap (· ++ [10]) := by
  have hraw : Text.Lines.rawLines (writeTable rows) =
      heading :: rows.map fun r => Bytes.joinWith [9] (r.columns []) := by
    rw [writeTable_eq, Text.Lines.rawLines_ended]
    rw [List.forall_mem_cons]
    refine ⟨by decide, fun line hline => ?_⟩
    obtain ⟨r, -, rfl⟩ := List.mem_map.1 hline
    exact Row.not_mem_columns (Or.inl rfl) r []
  have hfill (r : Row) : fillLine (Bytes.joinWith [9] (r.columns [])) =
      Bytes.joinWith [9] (r.columns r.text) := by
    rw [fillLine, Row.split_columns]
    rfl
  rw [fillTable, hraw]
  simp only [List.map_map, Function.comp_def, hfill]

theorem Row.trim_columns_ne_nil (hkey : Text.trim r.key ≠ []) (translated : Bytes) :
    Text.trim (Bytes.joinWith [9] (r.columns translated)) ≠ [] := by
  have hline : Bytes.joinWith [9] (r.columns translated) = escapeField r.file ++ 9 ::
      (escapeField r.key ++ 9 :: (escapeField r.text ++ 9 :: escapeField translated)) := by
    simp [columns, Bytes.joinWith, List.intercalate_cons_cons]
  rw [hline]
  apply Text.trim_append_cons_ne_nil (by decide)
  apply Or.inr
  apply Text.trim_append_cons_ne_nil (by decide)
  exact Or.inl (trim_escapeField_ne_nil hkey)

def Glossary.withRow (g : Glossary) (e : Row × Bytes) : Glossary :=
  if e.2 = [] then g else g.insert e.1.text e.2

variable {entries : List (Row × Bytes)}

theorem readLine_columns (g : Glossary) {number : Nat} (hnumber : number ≠ 1)
    (hkey : Text.trim r.key ≠ []) (translated : Bytes) :
    readLine g number (Bytes.joinWith [9] (r.columns translated)) =
      .ok (g.withRow (r, translated)) := by
  have hblank := r.trim_columns_ne_nil hkey translated
  rw [readLine, if_neg (by simp [hnumber, hblank]), Row.split_columns]
  by_cases htranslated : translated = []
  · subst htranslated
    rfl
  · simp [Row.columns, Glossary.withRow, htranslated, escapeField_ne_nil htranslated,
      unescapeField_escapeField]

theorem readLines_columns (g : Glossary) {number : Nat} (hnumber : 1 < number)
    (hkeys : ∀ e ∈ entries, Text.trim e.1.key ≠ []) :
    readLines g number (entries.map fun e => Bytes.joinWith [9] (e.1.columns e.2)) =
      .ok (entries.foldl Glossary.withRow g) := by
  induction entries generalizing g number with
  | nil => rfl
  | cons e entries ih =>
    obtain ⟨hkey, hkeys⟩ := List.forall_mem_cons.1 hkeys
    rw [List.map_cons, readLines,
      Text.Lines.dropReturn_of_not_mem (Row.not_mem_columns (Or.inr rfl) e.1 e.2),
      readLine_columns g (by omega) hkey, List.foldl_cons]
    exact ih _ (by omega) hkeys

/-- A table of rows with keys and localized texts is read row by row. -/
theorem readTable_columns (hkeys : ∀ e ∈ entries, Text.trim e.1.key ≠ [])
    (hlong : ∀ e ∈ entries, (e.1.line e.2).length ≤ Text.Lines.limit) :
    readTable ((heading :: entries.map fun e => Bytes.joinWith [9] (e.1.columns e.2)).flatMap
      (· ++ [10])) = .ok (entries.foldl Glossary.withRow .empty) := by
  let lines := heading :: entries.map fun e => Bytes.joinWith [9] (e.1.columns e.2)
  have hplain : ∀ line ∈ lines, 10 ∉ line ∧ 13 ∉ line := by
    rw [List.forall_mem_cons]
    refine ⟨by decide, fun line hline => ?_⟩
    obtain ⟨e, -, rfl⟩ := List.mem_map.1 hline
    exact ⟨Row.not_mem_columns (Or.inl rfl) e.1 e.2, Row.not_mem_columns (Or.inr rfl) e.1 e.2⟩
  have hshort : ∀ line ∈ lines, line.length < Text.Lines.limit := by
    rw [List.forall_mem_cons]
    refine ⟨by decide, fun line hline => ?_⟩
    obtain ⟨e, he, rfl⟩ := List.mem_map.1 hline
    have hlength := hlong e he
    rw [Row.line_eq, List.length_append, List.length_singleton] at hlength
    omega
  have hreturns : lines.map Text.Lines.dropReturn = lines :=
    (List.map_congr_left fun line hline => Text.Lines.dropReturn_of_not_mem
      (hplain line hline).2).trans (List.map_id lines)
  have hheading : readLine .empty 1 (Text.Lines.dropReturn heading) = .ok .empty := by
    rw [Text.Lines.dropReturn_of_not_mem (hplain heading List.mem_cons_self).2, readLine,
      if_pos (Or.inl ⟨rfl, rfl⟩)]
  have hread : readLines .empty 1 lines = .ok (entries.foldl Glossary.withRow .empty) := by
    rw [readLines, hheading]
    exact readLines_columns .empty (by omega) hkeys
  rw [readTable, Text.Lines.ofBytes_ended (fun line hline => (hplain line hline).1) hshort,
    hreturns]
  simp only [hread]
  rfl

/-- A filled table takes every text of its rows to itself. -/
theorem readTable_fillTable (hkeys : ∀ r ∈ rows, 47 ∈ r.key) (htexts : ∀ r ∈ rows, r.text ≠ [])
    (hlong : ∀ r ∈ rows, (r.line r.text).length ≤ Text.Lines.limit) :
    readTable (fillTable (writeTable rows)) =
      .ok (Glossary.empty.withSame (rows.map Row.text)) := by
  let entries := rows.map fun r => (r, r.text)
  have hentries (P : Row × Bytes → Prop) (h : ∀ r ∈ rows, P (r, r.text)) : ∀ e ∈ entries, P e :=
    List.forall_mem_map.2 h
  have hsame (g : Glossary) : entries.foldl Glossary.withRow g =
      g.withSame (rows.map Row.text) := by
    simp only [entries, List.foldl_map, Glossary.withSame]
    apply List.foldl_ext
    intro g r hr
    exact if_neg (htexts r hr)
  have hlines : rows.map (fun r => Bytes.joinWith [9] (r.columns r.text)) =
      entries.map fun e => Bytes.joinWith [9] (e.1.columns e.2) := by
    simp [entries]
  rw [fillTable_writeTable, hlines, readTable_columns, hsame]
  · apply hentries
    intro r hr
    exact Text.trim_ne_nil (hkeys r hr) (by decide) (by decide)
  · exact hentries _ hlong

/-! ### Files -/

variable {charset : Charset} {g : Glossary} {f : File} {w : Window} {c : Command}

theorem setText_self {slot : Slot} {stored : Bytes} (h : commandSlot? c = some (slot, stored)) :
    setText stored c = c := by
  cases c <;> simp only [commandSlot?, Option.some.injEq, Prod.mk.injEq, reduceCtorEq] at h
  all_goals
    obtain ⟨-, rfl⟩ := h
    rfl

/-- The stored texts of commands are those that the slots of the file list. -/
theorem exists_mem_fileSlots (hw : w ∈ f.windows) (hc : c ∈ w.commands) {slot : Slot}
    {stored : Bytes} (hslot : commandSlot? c = some (slot, stored)) :
    ∃ place, (place, stored) ∈ fileSlots f := by
  obtain ⟨i, hi⟩ := List.mem_iff_getElem?.1 hc
  refine ⟨.command w.id slot i, List.mem_flatMap.2 ⟨w, hw, List.mem_filterMap.2 ⟨(c, i), ?_, ?_⟩⟩⟩
  · exact List.mk_mem_zipIdx_iff_getElem?.2 hi
  · simp [hslot]

theorem mem_key_of_mem_fileSlots {place : Place} {stored : Bytes}
    (h : (place, stored) ∈ fileSlots f) : 47 ∈ place.key := by
  obtain ⟨w, -, h⟩ := List.mem_flatMap.1 h
  obtain ⟨⟨c, i⟩, -, h⟩ := List.mem_filterMap.1 h
  obtain ⟨⟨slot, text⟩, -, h⟩ := Option.map_eq_some_iff.1 h
  obtain rfl : Place.command w.id slot i = place := congrArg Prod.fst h
  have hslash : 47 ∈ utf8 "/" := by decide
  simp [Place.key, hslash]

theorem mem_extractFile {path : Bytes} {e : Extract} (h : e ∈ extractFile charset path f) :
    ∃ stored, (e.place, stored) ∈ fileSlots f ∧ e.text = charset.decode stored ∧
      Text.hasLetters e.text = true := by
  obtain ⟨⟨place, stored⟩, hmem, h⟩ := List.mem_filterMap.1 h
  by_cases hletters : Text.hasLetters (charset.decode stored) = true
  · simp only [hletters, if_true, Option.some.injEq] at h
    subst h
    exact ⟨stored, hmem, rfl, hletters⟩
  · simp [hletters] at h

theorem mapM_zipIdx_ok {α ε : Type} {step : α × Nat → Except ε α} {l : List α} (n : Nat)
    (h : ∀ a ∈ l, ∀ i, step (a, i) = .ok a) : (l.zipIdx n).mapM step = .ok l := by
  induction l generalizing n with
  | nil => rfl
  | cons a l ih =>
    rw [List.zipIdx_cons, List.mapM_cons, h a List.mem_cons_self,
      ih _ fun x hx => h x (List.mem_cons_of_mem _ hx)]
    rfl

theorem mapM_self {α ε : Type} {step : α → Except ε α} {l : List α}
    (h : ∀ a ∈ l, step a = .ok a) : l.mapM step = .ok l := by
  induction l with
  | nil => rfl
  | cons a l ih =>
    rw [List.mapM_cons, h a List.mem_cons_self, ih fun x hx => h x (List.mem_cons_of_mem _ hx)]
    rfl

theorem verify_self (s : Bytes) : verify s s = .ok () := if_pos rfl

/-- A glossary that takes the texts of a file to themselves leaves the file alone. -/
theorem translateFile_self
    (h : ∀ p ∈ fileSlots f, ∀ t, g.get? (charset.decode p.2) = some t →
      t = charset.decode p.2 ∧ charset.Covers p.2) : translateFile charset g f = .ok f := by
  have hcommand (w : Window) (hw : w ∈ f.windows) (c : Command) (hc : c ∈ w.commands) (i : Nat) :
      translateCommand charset g w.id c i = .ok c := by
    rw [translateCommand]
    cases hslot : commandSlot? c with
    | none => rfl
    | some found =>
      obtain ⟨slot, stored⟩ := found
      obtain ⟨place, hplace⟩ := exists_mem_fileSlots hw hc hslot
      cases hget : g.get? (charset.decode stored) with
      | none => simp [hget]
      | some t =>
        obtain ⟨rfl, hcovers⟩ := h _ hplace t hget
        simp only [hget, storedText, verify_self, Charset.encode_decode hcovers]
        exact congrArg Except.ok (setText_self hslot)
  rw [translateFile, mapM_self fun w hw => ?_]
  · rfl
  · rw [mapM_zipIdx_ok 0 (hcommand w hw)]
    rfl

theorem rebuildCompiled_of_translateFile {path data b : Bytes} {f' : File}
    (hdecode : File.decode data = .ok f) (h : translateFile charset g f = .ok f')
    (hencode : f'.encode = .bytes b) : rebuildCompiled charset path data g = .ok b := by
  rw [rebuildCompiled, hdecode]
  simp only [h, bind, Except.bind, hencode]
  rfl

/-- What was read has an encoding: the data, completed by the zero label if the data lacked it. -/
theorem exists_encode_of_decode {data : Bytes} (h : File.decode data = .ok f) :
    ∃ b, f.encode = .bytes b ∧ (¬ File.StopsOpen data → b = data) ∧
      (File.StopsOpen data → b = data ++ [0, 0, 0, 0]) := by
  by_cases hopen : f.encodeOpen = .bytes data
  · have hstops := (File.stopsOpen_iff_of_decode h).2 hopen
    exact ⟨_, File.encode_of_encodeOpen hopen, fun hnot => absurd hstops hnot, fun _ => rfl⟩
  · have hstops := mt (File.stopsOpen_iff_of_decode h).1 hopen
    exact ⟨data, (File.decode_ok.1 h).2.resolve_left hopen, fun _ => rfl,
      fun hyes => absurd hyes hstops⟩

/-- Writing the table of a file's texts, filling it with the texts themselves, reading it and
putting the file together with what was read changes nothing: the result is the encoding of the
file, which is the data it was read from, completed by the zero label if the data lacked it. -/
theorem rebuildCompiled_fillTable {charset : Charset} (path shown : Bytes) {data : Bytes}
    {f : File} (hdecode : File.decode data = .ok f)
    (hcovers : ∀ p ∈ fileSlots f, Text.hasLetters (charset.decode p.2) = true →
      charset.Covers p.2)
    (hlong : ∀ e ∈ extractFile charset path f,
      ((e.row shown).line e.text).length ≤ Text.Lines.limit) :
    ∃ texts g b, extractCompiled charset path data = .ok texts ∧
      readTable (fillTable (writeTable (texts.map (·.row shown)))) = .ok g ∧
      (∀ e ∈ texts, g.get? e.text = some e.text) ∧
      rebuildCompiled charset path data g = .ok b ∧ f.encode = .bytes b ∧
      (¬ File.StopsOpen data → b = data) ∧ (File.StopsOpen data → b = data ++ [0, 0, 0, 0]) := by
  obtain ⟨b, hencode, hb⟩ := exists_encode_of_decode hdecode
  let rows := (extractFile charset path f).map (·.row shown)
  have hrows : rows.map Row.text = (extractFile charset path f).map Extract.text := by
    simp [rows, Extract.row]
  have hkeys : ∀ r ∈ rows, 47 ∈ r.key := by
    intro r hr
    obtain ⟨e, he, rfl⟩ := List.mem_map.1 hr
    obtain ⟨stored, hslot, -, -⟩ := mem_extractFile he
    exact mem_key_of_mem_fileSlots hslot
  have htexts : ∀ r ∈ rows, r.text ≠ [] := by
    intro r hr hnil
    obtain ⟨e, he, rfl⟩ := List.mem_map.1 hr
    obtain ⟨stored, -, -, hletters⟩ := mem_extractFile he
    have hempty : e.text = [] := hnil
    rw [hempty] at hletters
    exact absurd hletters (by decide)
  have hshort : ∀ r ∈ rows, (r.line r.text).length ≤ Text.Lines.limit := by
    intro r hr
    obtain ⟨e, he, rfl⟩ := List.mem_map.1 hr
    exact hlong e he
  have hget (s : Bytes) : (Glossary.empty.withSame (rows.map Row.text)).get? s =
      if s ∈ rows.map Row.text then some s else none := Glossary.get?_withSame _ _ s
  have hsame : translateFile charset (Glossary.empty.withSame (rows.map Row.text)) f = .ok f := by
    apply translateFile_self
    intro p hp t ht
    rw [hget, hrows] at ht
    by_cases hmem : charset.decode p.2 ∈ (extractFile charset path f).map Extract.text
    · rw [if_pos hmem] at ht
      obtain ⟨e, he, htext⟩ := List.mem_map.1 hmem
      obtain ⟨-, -, -, hletters⟩ := mem_extractFile he
      exact ⟨(Option.some.inj ht).symm, hcovers p hp (htext ▸ hletters)⟩
    · rw [if_neg hmem] at ht
      cases ht
  refine ⟨_, _, b, by rw [extractCompiled, hdecode], readTable_fillTable hkeys htexts hshort,
    fun e he => ?_, ?_, hencode, hb⟩
  · rw [hget, hrows, if_pos (List.mem_map_of_mem he)]
  · exact rebuildCompiled_of_translateFile hdecode hsame hencode

/-- A body with a tab, a backslash, a line feed and a letter outside ASCII. -/
def tabbedFile : File := ⟨[⟨1, [.formattedText CommandCode.body none [65, 9, 92, 10, 233] []]⟩], []⟩

theorem rebuildCompiled_fillTable_tabbed :
    ∃ data texts g, tabbedFile.encode = .bytes data ∧
      extractCompiled (.page .windows1252) (utf8 "a.ape") data = .ok texts ∧
      texts.map Extract.text = [[65, 9, 92, 10, 195, 169]] ∧
      readTable (fillTable (writeTable (texts.map (·.row (utf8 "a.ape"))))) = .ok g ∧
      rebuildCompiled (.page .windows1252) (utf8 "a.ape") data g = .ok data := by
  obtain ⟨data, hencode⟩ : ∃ data, tabbedFile.encode = .bytes data := ⟨_, rfl⟩
  have hdecode : File.decode data = .ok tabbedFile :=
    File.decode_ok.2 ⟨by decide, Or.inr hencode⟩
  have hcovers : ∀ p ∈ fileSlots tabbedFile, (Charset.page .windows1252).Covers p.2 := by
    have hslots : fileSlots tabbedFile = [(.command 1 .body 0, [65, 9, 92, 10, 233])] := rfl
    rw [hslots]
    decide +kernel
  have htexts : extractFile (.page .windows1252) (utf8 "a.ape") tabbedFile =
      [⟨[65, 9, 92, 10, 195, 169], utf8 "a.ape", .command 1 .body 0⟩] := by decide +kernel
  obtain ⟨texts, g, b, hextract, hread, -, hrebuild, hb, -⟩ :=
    rebuildCompiled_fillTable (utf8 "a.ape") (utf8 "a.ape") hdecode
      (fun p hp _ => hcovers p hp) (by rw [htexts]; decide)
  obtain rfl : data = b := by simpa [hencode] using hb
  refine ⟨data, texts, g, hencode, hextract, ?_, hread, hrebuild⟩
  simp only [extractCompiled, hdecode, htexts, Except.ok.injEq] at hextract
  subst hextract
  rfl

end ApeScript.Localization
