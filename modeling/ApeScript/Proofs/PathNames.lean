import ApeScript.FileTree
import ApeScript.Proofs.Pieces

/-!
# Names of paths

A path comes down to a list of names that is `Normal`: names that go up stand in front, there are
none in a rooted path, and the others are plain names. A normal list is what its own text comes
down to, so the directories above the place of a path are the beginnings of that place.
-/

namespace ApeScript

namespace Path

/-- A name that is neither empty nor a dot or two, and holds no slash. -/
structure Plain (name : Bytes) : Prop where
  ne_nil : name ≠ []
  ne_dot : name ≠ dot
  ne_dotDot : name ≠ dotDot
  not_mem : slash ∉ name

/-- Names that go up, none of them in a rooted path, before plain names. -/
def Normal (rooted : Bool) (l : List Bytes) : Prop :=
  ∃ up down, l = List.replicate up dotDot ++ down ∧ (∀ name ∈ down, Plain name) ∧
    (rooted = true → up = 0)

variable {rooted : Bool} {l : List Bytes} {name : Bytes}

theorem step_plain (h : Plain name) (acc : List Bytes) : step rooted acc name = name :: acc := by
  simp [step, h.ne_nil, h.ne_dot, h.ne_dotDot]

theorem foldl_step_plain {down : List Bytes} (h : ∀ name ∈ down, Plain name) (acc : List Bytes) :
    down.foldl (step rooted) acc = down.reverse ++ acc := by
  induction down generalizing acc with
  | nil => rfl
  | cons name down ih =>
    rw [List.foldl_cons, step_plain (h name List.mem_cons_self),
      ih fun x hx => h x (List.mem_cons_of_mem _ hx)]
    simp

theorem foldl_step_up (up more : Nat) :
    (List.replicate more dotDot).foldl (step false) (List.replicate up dotDot) =
      List.replicate (up + more) dotDot := by
  induction more generalizing up with
  | zero => rfl
  | succ more ih =>
    have hstep : step false (List.replicate up dotDot) dotDot =
        List.replicate (up + 1) dotDot := by
      cases up <;> simp +decide [step, List.replicate_succ]
    rw [List.replicate_succ, List.foldl_cons, hstep, ih, Nat.add_right_comm, Nat.add_assoc]

theorem foldl_step_normal (h : Normal rooted l) : l.foldl (step rooted) [] = l.reverse := by
  obtain ⟨up, down, rfl, hdown, hup⟩ := h
  rw [List.foldl_append, foldl_step_plain hdown, List.reverse_append, List.reverse_replicate]
  congr 1
  cases rooted with
  | true => simp [hup rfl]
  | false => simpa using foldl_step_up 0 up

theorem Normal.step (h : Normal rooted l) {part : Bytes} (hpart : slash ∉ part) :
    Normal rooted (Path.step rooted l.reverse part).reverse := by
  obtain ⟨up, down, rfl, hdown, hup⟩ := h
  by_cases hskip : part = [] ∨ part = dot
  · have : Path.step rooted (List.replicate up dotDot ++ down).reverse part =
        (List.replicate up dotDot ++ down).reverse := by
      rcases hskip with rfl | rfl <;> simp [Path.step]
    rw [this, List.reverse_reverse]
    exact ⟨up, down, rfl, hdown, hup⟩
  · obtain ⟨hnil, hdot⟩ := not_or.1 hskip
    by_cases hdots : part = dotDot
    · subst hdots
      rcases List.eq_nil_or_concat down with rfl | ⟨more, last, rfl⟩
      · cases rooted with
        | true =>
          obtain rfl := hup rfl
          exact ⟨0, [], by simp +decide, by simp, fun _ => rfl⟩
        | false =>
          have hback := foldl_step_up up 1
          rw [List.append_nil, List.reverse_replicate]
          exact ⟨up + 1, [], by simpa using congrArg List.reverse hback, by simp, by simp⟩
      · have hlast : Plain last := hdown last (by simp)
        refine ⟨up, more, ?_, fun x hx => hdown x (by simp [hx]), hup⟩
        simp [Path.step, hnil, hdot, hlast.ne_dotDot]
    · rw [step_plain ⟨hnil, hdot, hdots, hpart⟩]
      refine ⟨up, down ++ [part], by simp, ?_, hup⟩
      simpa [or_imp, forall_and] using ⟨hdown, ⟨hnil, hdot, hdots, hpart⟩⟩

theorem normal_foldl {parts : List Bytes} (hparts : ∀ part ∈ parts, slash ∉ part)
    (h : Normal rooted l) : Normal rooted (parts.foldl (step rooted) l.reverse).reverse := by
  induction parts generalizing l with
  | nil => simpa using h
  | cons part parts ih =>
    rw [List.foldl_cons, ← List.reverse_reverse (step rooted l.reverse part)]
    exact ih (fun x hx => hparts x (List.mem_cons_of_mem _ hx))
      (h.step (hparts part List.mem_cons_self))

theorem normal_names (p : Bytes) : Normal (isRooted p) (names p) :=
  normal_foldl (fun _ => Bytes.not_mem_of_mem_split) (l := []) ⟨0, [], rfl, by simp, fun _ => rfl⟩

theorem Normal.not_mem (h : Normal rooted l) : ∀ name ∈ l, slash ∉ name := by
  obtain ⟨up, down, rfl, hdown, -⟩ := h
  intro name hname
  rcases List.mem_append.1 hname with hname | hname
  · rw [List.eq_of_mem_replicate hname]
    decide
  · exact (hdown name hname).not_mem

theorem Normal.ne_nil (h : Normal rooted l) : ∀ name ∈ l, name ≠ [] := by
  obtain ⟨up, down, rfl, hdown, -⟩ := h
  intro name hname
  rcases List.mem_append.1 hname with hname | hname
  · rw [List.eq_of_mem_replicate hname]
    decide
  · exact (hdown name hname).ne_nil

theorem Normal.take (h : Normal rooted l) (n : Nat) : Normal rooted (l.take n) := by
  obtain ⟨up, down, rfl, hdown, hup⟩ := h
  refine ⟨min n up, down.take (n - up), ?_, fun x hx => hdown x (List.mem_of_mem_take hx), ?_⟩
  · rw [List.take_append, List.take_replicate, List.length_replicate]
  · intro hr
    simp [hup hr]

theorem Normal.plain (h : Normal true l) : ∀ name ∈ l, Plain name := by
  obtain ⟨up, down, rfl, hdown, hup⟩ := h
  rw [hup rfl]
  simpa using hdown

/-- The text of names says what they are, be there a slash after it or not. -/
theorem foldl_split_joinWith (hl : ∀ name ∈ l, slash ∉ name) (acc : List Bytes) (tail : Bytes)
    (htail : tail = [] ∨ tail = [slash]) :
    (Bytes.split slash (Bytes.joinWith [slash] l ++ tail)).foldl (step rooted) acc =
      l.foldl (step rooted) acc := by
  have hend (parts : List Bytes) :
      (parts ++ [[]]).foldl (step rooted) acc = parts.foldl (step rooted) acc := by
    simp [step]
  have hbare : (Bytes.split slash (Bytes.joinWith [slash] l)).foldl (step rooted) acc =
      l.foldl (step rooted) acc := by
    by_cases hne : l = []
    · subst hne
      simp [Bytes.joinWith, Bytes.split, step]
    · rw [Bytes.split_eq_splitOn, Bytes.joinWith, List.splitOn_intercalate slash hl hne]
  rcases htail with rfl | rfl
  · rw [List.append_nil, hbare]
  · rw [Bytes.split_eq_splitOn, List.splitOn_append_cons_self, List.splitOn_nil, hend,
      ← Bytes.split_eq_splitOn, hbare]

theorem joinWith_eq_nil_iff (hl : ∀ name ∈ l, name ≠ []) :
    Bytes.joinWith [slash] l = [] ↔ l = [] := by
  cases l with
  | nil => simp [Bytes.joinWith]
  | cons name rest =>
    have := hl name List.mem_cons_self
    cases rest <;> simp [Bytes.joinWith, List.intercalate, this]

theorem ofNames_false (hl : ∀ name ∈ l, name ≠ []) :
    ofNames false l = if l = [] then dot else Bytes.joinWith [slash] l := by
  simp [ofNames, joinWith_eq_nil_iff hl]

theorem isRooted_ofNames (h : Normal rooted l) (tail : Bytes) :
    isRooted (ofNames rooted l ++ tail) = rooted := by
  cases rooted with
  | true => rfl
  | false =>
    cases l with
    | nil => rfl
    | cons name rest =>
      obtain ⟨b, more, hb⟩ := List.exists_cons_of_ne_nil (h.ne_nil name List.mem_cons_self)
      have hslash : b ≠ slash := fun hbs => h.not_mem name List.mem_cons_self (by simp [hb, hbs])
      cases rest <;> simp [isRooted, ofNames, Bytes.joinWith, List.intercalate, hb, hslash]

theorem names_ofNames (h : Normal rooted l) (tail : Bytes) (htail : tail = [] ∨ tail = [slash]) :
    names (ofNames rooted l ++ tail) = l := by
  have hfold : (Bytes.split slash (Bytes.joinWith [slash] l ++ tail)).foldl (step rooted) [] =
      l.reverse := by
    rw [foldl_split_joinWith h.not_mem [] tail htail, foldl_step_normal h]
  rw [names, isRooted_ofNames h]
  cases rooted with
  | true =>
    have hsplit : Bytes.split slash (ofNames true l ++ tail) =
        [] :: Bytes.split slash (Bytes.joinWith [slash] l ++ tail) := by
      simp [Bytes.split_eq_splitOn, ofNames, List.splitOn_cons_eq_if_modifyHead]
    have hskip : step true [] [] = [] := rfl
    rw [hsplit, List.foldl_cons, hskip, hfold, List.reverse_reverse]
  | false =>
    by_cases hl : l = []
    · subst hl
      rcases htail with rfl | rfl <;> rfl
    · rw [ofNames_false h.ne_nil, if_neg hl, hfold, List.reverse_reverse]

theorem clean_ofNames (h : Normal rooted l) (tail : Bytes) (htail : tail = [] ∨ tail = [slash]) :
    clean (ofNames rooted l ++ tail) = ofNames rooted l := by
  rw [clean, isRooted_ofNames h, names_ofNames h tail htail]

/-! ### The last name -/

theorem lastPart_append {s : Bytes} (hs : s = [] ∨ s.getLast? = some slash)
    (hname : slash ∉ name) : lastPart (s ++ name) = name := by
  have hstop : s.reverse.takeWhile (· ≠ slash) = [] := by
    rcases hs with rfl | hs
    · rfl
    · obtain ⟨front, rfl⟩ := List.getLast?_eq_some_iff.1 hs
      simp
  rw [lastPart, List.reverse_append, List.takeWhile_append_of_pos, hstop]
  · simp
  · intro b hb
    simpa using fun hbs : b = slash => hname (by simpa [hbs] using hb)

/-- The text before the last name ends with a slash, or there is none. -/
theorem exists_ofNames_concat (h : Normal rooted (l ++ [name])) :
    ∃ front, ofNames rooted (l ++ [name]) = front ++ name ∧
      (front = [] ∨ front.getLast? = some slash) ∧ clean front = ofNames rooted l := by
  have hl : Normal rooted l := by simpa using h.take l.length
  have hname : name ≠ [] := h.ne_nil name (by simp)
  by_cases hnil : l = []
  · subst hnil
    cases rooted with
    | true => exact ⟨[slash], by simp [ofNames, Bytes.joinWith], by simp, rfl⟩
    | false => exact ⟨[], by simp [ofNames_false, Bytes.joinWith, hname], by simp, rfl⟩
  · refine ⟨ofNames rooted l ++ [slash], ?_, by simp, clean_ofNames hl _ (Or.inr rfl)⟩
    have hjoin := Bytes.joinWith_concat [slash] hnil name
    cases rooted with
    | true => simp [ofNames, hjoin]
    | false => simp [ofNames_false h.ne_nil, ofNames_false hl.ne_nil, hnil, hjoin]

theorem lastPart_ofNames (h : Normal rooted (l ++ [name])) :
    lastPart (ofNames rooted (l ++ [name])) = name := by
  obtain ⟨front, hp, hfront, -⟩ := exists_ofNames_concat h
  rw [hp, lastPart_append hfront (h.not_mem name (by simp))]

theorem parent_ofNames (h : Normal rooted (l ++ [name])) :
    parent (ofNames rooted (l ++ [name])) = ofNames rooted l := by
  obtain ⟨front, hp, hfront, hclean⟩ := exists_ofNames_concat h
  rw [parent, hp, lastPart_append hfront (h.not_mem name (by simp)), List.length_append,
    Nat.add_sub_cancel, List.take_left, hclean]

def EndsWith (p name : Bytes) : Prop :=
  ∃ rooted l, p = ofNames rooted (l ++ [name]) ∧ Normal rooted (l ++ [name]) ∧ Plain name

theorem clean_endsWith {p : Bytes} {front : List Bytes}
    (hsplit : Bytes.split slash p = front ++ [name]) (hname : Plain name) :
    EndsWith (clean p) name := by
  have hnames : names p = (front.foldl (step (isRooted p)) []).reverse ++ [name] := by
    rw [names, hsplit, List.foldl_append, List.foldl_cons, List.foldl_nil, step_plain hname,
      List.reverse_cons]
  have hnormal := normal_names p
  rw [hnames] at hnormal
  exact ⟨isRooted p, _, by rw [clean, hnames], hnormal, hname⟩

/-- A path below a directory ends with the name that its text ends with. -/
theorem exists_join_endsWith (parent child : Bytes) {tail : Bytes} (htail : slash ∉ tail)
    (hlong : 2 < tail.length) : ∃ last, EndsWith (join parent (child ++ tail)) (last ++ tail) := by
  obtain ⟨p, hjoin, front, hp⟩ : ∃ p, join parent (child ++ tail) = clean p ∧
      ∃ front, p = front ++ tail := by
    have hne : child ++ tail ≠ [] := by
      intro h
      simp only [List.append_eq_nil_iff] at h
      simp [h.2] at hlong
    by_cases hparent : parent = []
    · exact ⟨child ++ tail, by simp [join, hparent, hne], child, rfl⟩
    · exact ⟨parent ++ slash :: (child ++ tail), by simp [join, hparent],
        parent ++ slash :: child, by simp⟩
  obtain ⟨before, last, hsplit⟩ := Bytes.split_append_of_not_mem front htail
  rw [← hp] at hsplit
  have hshort (s : Bytes) (hs : s.length ≤ 2) : last ++ tail ≠ s := by
    intro h
    have := congrArg List.length h
    simp only [List.length_append] at this
    omega
  have hplain : Plain (last ++ tail) :=
    ⟨hshort [] (by simp), hshort dot (by decide), hshort dotDot (by decide),
      Bytes.not_mem_of_mem_split (by rw [hsplit]; simp)⟩
  exact ⟨last, hjoin ▸ clean_endsWith hsplit hplain⟩

theorem extension_of_lastPart {p front tail : Bytes} (hp : lastPart p = front ++ 46 :: tail)
    (htail : 46 ∉ tail) : extension p = 46 :: tail := by
  have htake : (front ++ 46 :: tail).reverse.takeWhile (· ≠ 46) = tail.reverse := by
    rw [List.reverse_append, List.reverse_cons, List.append_assoc, List.takeWhile_append_of_pos]
    · simp
    · intro b hb
      simpa using fun hb' : b = 46 => htail (by simpa [hb'] using hb)
  have hshort : tail.length ≠ (front ++ 46 :: tail).length := by
    simp only [List.length_append, List.length_cons]
    omega
  simp only [extension, hp, htake, List.reverse_reverse, if_neg hshort]

end Path

end ApeScript
