import ApeScript.Proofs.PathNames

/-!
# Trees that were written to

Writing a file changes the contents of one place and makes directories above it, and nothing else.
`Reworked t t' W` says that a tree grew out of another by writes to places that `W` allows: no
directory is lost, new ones lie above such places, and contents differ at such places only. What
could be read from the first tree can be read from the second, and what could be written in the
first can be written in the second unless a write that `W` allows was in the way.
-/

namespace ApeScript.FileTree

variable {t t' : FileTree} {q place : List Bytes} {data : Bytes}

/-! ### Files and directories of a tree -/

theorem isFile_iff : t.isFile q = true ↔ ∃ data, t.contents? q = some data := by
  rw [isFile, Option.isSome_iff_exists]

theorem isDirectory_iff : t.isDirectory q = true ↔
    q <+: t.cwd ∨ (∃ d ∈ t.directories, q <+: d) ∨ ∃ file ∈ t.files, q <+: file.1 ∧ q ≠ file.1 := by
  simp [isDirectory, or_assoc]

theorem isDirectory_above {d : List Bytes} (hq : q <+: d) (hd : t.isDirectory d = true) :
    t.isDirectory q = true := by
  rw [isDirectory_iff] at hd ⊢
  rcases hd with hd | ⟨d', hd', hdd⟩ | ⟨file, hfile, hd, hne⟩
  · exact Or.inl (hq.trans hd)
  · exact Or.inr (Or.inl ⟨d', hd', hq.trans hdd⟩)
  · refine Or.inr (Or.inr ⟨file, hfile, hq.trans hd, ?_⟩)
    rintro rfl
    exact hne (hd.eq_of_length (Nat.le_antisymm hd.length_le hq.length_le))

theorem isDirectory_of_cwd (hq : q <+: t.cwd) : t.isDirectory q = true :=
  isDirectory_iff.2 (Or.inl hq)

/-- What is above a file is a directory. -/
theorem isDirectory_of_contents (h : t.contents? place = some data) (hq : q <+: place)
    (hne : q ≠ place) : t.isDirectory q = true := by
  obtain ⟨file, hfind, -⟩ := Option.map_eq_some_iff.1 h
  have hplace : file.1 = place := by simpa using List.find?_some hfind
  subst hplace
  exact isDirectory_iff.2 (Or.inr (Or.inr ⟨file, List.mem_of_find?_eq_some hfind, hq, hne⟩))

theorem contents?_put : (t.put place data).contents? q =
    if q = place then some data else t.contents? q := by
  unfold put
  by_cases hfile : t.isFile place = true
  · rw [if_pos hfile]
    have hkeep (file : List Bytes × Bytes) :
        ((if file.1 = place then (place, data) else file) : List Bytes × Bytes).1 = file.1 := by
      split <;> simp_all
    have hfind : (t.files.map fun file => if file.1 = place then (place, data) else file).find?
        (·.1 = q) = (t.files.find? (·.1 = q)).map
          fun file => if file.1 = place then (place, data) else file := by
      rw [List.find?_map]
      congr 2
      funext file
      simp only [Function.comp_apply, hkeep]
    simp only [contents?, hfind]
    cases hold : t.files.find? (·.1 = q) with
    | none =>
      have hq : q ≠ place := by
        rintro rfl
        simp [isFile, contents?, hold] at hfile
      simp [hq]
    | some file =>
      have hfq : file.1 = q := by simpa using List.find?_some hold
      by_cases hq : q = place <;> simp [hfq, hq]
  · rw [if_neg hfile]
    have hnone : t.contents? place = none := by simpa [isFile] using hfile
    by_cases hq : q = place
    · subst hq
      have : t.files.find? (·.1 = q) = none := by simpa [contents?] using hnone
      simp [contents?, List.find?_append, this]
    · simp [contents?, List.find?_append, hq, Ne.symm hq]

theorem isDirectory_put : (t.put place data).isDirectory q = true ↔
    t.isDirectory q = true ∨ (q <+: place ∧ q ≠ place) := by
  unfold put
  by_cases hfile : t.isFile place = true
  · rw [if_pos hfile]
    obtain ⟨old, hold⟩ := isFile_iff.1 hfile
    have habove : q <+: place ∧ q ≠ place → t.isDirectory q = true := fun h =>
      isDirectory_of_contents hold h.1 h.2
    rw [or_iff_left_of_imp habove, isDirectory_iff, isDirectory_iff]
    simp only [List.mem_map, exists_exists_and_eq_and]
    have hkeep (file : List Bytes × Bytes) :
        ((if file.1 = place then (place, data) else file) : List Bytes × Bytes).1 = file.1 := by
      split <;> simp_all
    simp only [hkeep]
  · rw [if_neg hfile, isDirectory_iff, isDirectory_iff]
    simp only [List.mem_append, List.mem_singleton, or_and_right, exists_or, exists_eq_left,
      or_assoc]

@[simp] theorem cwd_put : (t.put place data).cwd = t.cwd := by
  unfold put
  split <;> rfl

/-! ### The places of paths -/

def descend (here l : List Bytes) : List Bytes :=
  l.foldl (fun here name => if name = Path.dotDot then here.dropLast else here ++ [name]) here

variable {rooted : Bool} {l here : List Bytes} {p name : Bytes}

theorem locate_ofNames (h : Path.Normal rooted l) (tail : Bytes)
    (htail : tail = [] ∨ tail = [Path.slash]) :
    t.locate (Path.ofNames rooted l ++ tail) = descend (if rooted then [] else t.cwd) l := by
  rw [locate, Path.isRooted_ofNames h, Path.names_ofNames h tail htail]
  rfl

theorem descend_up (here : List Bytes) (up : Nat) :
    descend here (List.replicate up Path.dotDot) = here.take (here.length - up) := by
  induction up generalizing here with
  | zero => simp [descend]
  | succ up ih =>
    have hstep : descend here (List.replicate (up + 1) Path.dotDot) =
        descend here.dropLast (List.replicate up Path.dotDot) := by
      simp [descend, List.replicate_succ]
    rw [hstep, ih, List.dropLast_eq_take, List.take_take, List.length_take]
    congr 1
    omega

theorem descend_plain (h : ∀ name ∈ l, Path.Plain name) : descend here l = here ++ l := by
  induction l generalizing here with
  | nil => simp [descend]
  | cons name l ih =>
    have hname := (h name List.mem_cons_self).ne_dotDot
    have hstep : descend here (name :: l) = descend (here ++ [name]) l := by simp [descend, hname]
    rw [hstep, ih fun x hx => h x (List.mem_cons_of_mem _ hx)]
    simp

theorem descend_append (here l l' : List Bytes) :
    descend here (l ++ l') = descend (descend here l) l' := List.foldl_append

theorem locate_endsWith (h : Path.EndsWith p name) : ∃ above, t.locate p = above ++ [name] := by
  obtain ⟨rooted, l, rfl, hnormal, hname⟩ := h
  have hlocate := locate_ofNames (t := t) hnormal [] (Or.inl rfl)
  rw [List.append_nil, descend_append, descend_plain (by simpa using hname)] at hlocate
  exact ⟨_, hlocate⟩

/-- The directories that a path goes through are named by the first of its names. -/
theorem exists_of_mem_beginnings {rooted : Bool} (hnormal : Path.Normal rooted (l ++ [name]))
    {path : Bytes} (hpath : path ∈ beginnings (Path.parent (Path.ofNames rooted (l ++ [name])))) :
    ∃ n, n < l.length ∧ ∃ tail, (tail = [] ∨ tail = [Path.slash]) ∧
      path = Path.ofNames rooted (l.take (n + 1)) ++ tail := by
  have hl : Path.Normal rooted l := by simpa using hnormal.take l.length
  have hnames := Path.names_ofNames hl [] (Or.inl rfl)
  have hrooted := Path.isRooted_ofNames hl []
  rw [List.append_nil] at hnames hrooted
  rw [Path.parent_ofNames hnormal, beginnings, hnames, hrooted] at hpath
  obtain ⟨n, hn, rfl⟩ := List.mem_map.1 hpath
  refine ⟨n, List.mem_range.1 hn, _, ?_, rfl⟩
  by_cases hlast : n + 1 < l.length <;> simp [hlast]

/-- The directories that a path goes through are above its place, but for those that lead up from
the working directory. -/
theorem locate_beginning (h : Path.EndsWith p name) {path : Bytes}
    (hpath : path ∈ beginnings (Path.parent p)) :
    t.locate path <+: t.cwd ∨ (t.locate path <+: t.locate p ∧ t.locate path ≠ t.locate p) := by
  obtain ⟨rooted, l, rfl, hnormal, hname⟩ := h
  have hl : Path.Normal rooted l := by simpa using hnormal.take l.length
  obtain ⟨n, hn, tail, htail, rfl⟩ := exists_of_mem_beginnings hnormal hpath
  have hp := locate_ofNames (t := t) hnormal [] (Or.inl rfl)
  rw [List.append_nil] at hp
  rw [locate_ofNames (hl.take _) tail htail, hp]
  have hstart : (if rooted then [] else t.cwd) <+: t.cwd := by
    cases rooted
    · exact List.prefix_rfl
    · exact List.nil_prefix
  generalize (if rooted then [] else t.cwd) = start at hstart
  obtain ⟨up, down, rfl, hdown, -⟩ := hl
  by_cases hup : n + 1 ≤ up
  · left
    rw [List.take_append, List.take_replicate, List.length_replicate, Nat.sub_eq_zero_of_le hup,
      Nat.min_eq_left hup, List.take_zero, List.append_nil, descend_up]
    exact (List.take_prefix _ _).trans hstart
  · right
    have htake : (List.replicate up Path.dotDot ++ down).take (n + 1) =
        List.replicate up Path.dotDot ++ down.take (n + 1 - up) := by
      rw [List.take_append, List.take_replicate, List.length_replicate, Nat.min_eq_right (by omega)]
    have hwhole : descend start (List.replicate up Path.dotDot ++ down ++ [name]) =
        descend start (List.replicate up Path.dotDot) ++ down ++ [name] := by
      rw [descend_append, descend_append, descend_plain hdown, descend_plain (by simpa using hname)]
    have hpart : descend start (List.replicate up Path.dotDot ++ down.take (n + 1 - up)) =
        descend start (List.replicate up Path.dotDot) ++ down.take (n + 1 - up) := by
      rw [descend_append, descend_plain fun x hx => hdown x (List.mem_of_mem_take hx)]
    rw [htake, hpart, hwhole, List.append_assoc]
    constructor
    · exact (List.prefix_append_right_inj _).2
        ((List.take_prefix _ _).trans (List.prefix_append _ _))
    · intro heq
      have := congrArg List.length (List.append_cancel_left heq)
      simp only [List.length_take, List.length_append, List.length_singleton] at this
      omega

/-! ### Growth by writes -/

variable {W : List Bytes → Bytes → Prop}

/-- The second tree is the first after writes of which each is allowed: `W place data` allows to
write the data at the place, and to make directories above it. -/
structure Reworked (W : List Bytes → Bytes → Prop) (t t' : FileTree) : Prop where
  cwd_eq : t'.cwd = t.cwd
  isDirectory : ∀ {q}, t.isDirectory q = true → t'.isDirectory q = true
  of_isDirectory : ∀ {q}, t'.isDirectory q = true → t.isDirectory q = true ∨
    ∃ place data, W place data ∧ q <+: place ∧ q ≠ place
  contents : ∀ q, t'.contents? q = t.contents? q ∨
    t.isDirectory q = false ∧ ∃ data, W q data ∧ t'.contents? q = some data

namespace Reworked

theorem refl (W : List Bytes → Bytes → Prop) (t : FileTree) : Reworked W t t :=
  ⟨rfl, id, Or.inl, fun _ => Or.inl rfl⟩

theorem trans {t'' : FileTree} (h : Reworked W t t') (h' : Reworked W t' t'') :
    Reworked W t t'' := by
  constructor
  · exact h'.cwd_eq.trans h.cwd_eq
  · exact fun hq => h'.isDirectory (h.isDirectory hq)
  · intro q hq
    rcases h'.of_isDirectory hq with hq | hq
    · exact h.of_isDirectory hq
    · exact Or.inr hq
  · intro q
    rcases h'.contents q with heq | ⟨hq, hdata⟩
    · rw [heq]
      exact h.contents q
    · refine Or.inr ⟨?_, hdata⟩
      by_contra hdir
      simp [h.isDirectory (by simpa using hdir)] at hq

theorem mono {W' : List Bytes → Bytes → Prop} (h : Reworked W t t')
    (hW : ∀ place data, W place data → W' place data) : Reworked W' t t' := by
  refine ⟨h.cwd_eq, h.isDirectory, fun hq => ?_, fun q => ?_⟩
  · exact (h.of_isDirectory hq).imp_right fun ⟨place, data, hw, hq⟩ => ⟨place, data, hW _ _ hw, hq⟩
  · exact (h.contents q).imp_right fun ⟨hq, data, hw, hdata⟩ => ⟨hq, data, hW _ _ hw, hdata⟩

theorem locate_eq (h : Reworked W t t') (path : Bytes) : t'.locate path = t.locate path := by
  simp only [locate, h.cwd_eq]

/-- What is above a file of the first tree is no file in the second unless it was one before. -/
theorem isFile_eq (h : Reworked W t t') (hdir : t.isDirectory q = true) :
    t'.isFile q = t.isFile q := by
  rcases h.contents q with heq | ⟨hq, -⟩
  · rw [isFile, isFile, heq]
  · rw [hdir] at hq
    contradiction

end Reworked

theorem reworked_put (hdir : t.isDirectory place = false) :
    Reworked (fun q d => q = place ∧ d = data) t (t.put place data) := by
  refine ⟨cwd_put, fun hq => isDirectory_put.2 (Or.inl hq), fun hq => ?_, fun q => ?_⟩
  · exact (isDirectory_put.1 hq).imp_right fun hq => ⟨place, data, ⟨rfl, rfl⟩, hq⟩
  · rw [contents?_put]
    by_cases hq : q = place
    · subst hq
      exact Or.inr ⟨hdir, data, ⟨rfl, rfl⟩, by simp⟩
    · exact Or.inl (if_neg hq)

def Above (W : List Bytes → Bytes → Prop) (t : FileTree) (path : Bytes) : Prop :=
  t.locate path <+: t.cwd ∨
    ∃ place data, W place data ∧ t.locate path <+: place ∧ t.locate path ≠ place

theorem isDirectory_add : { t with directories := t.directories ++ [place] }.isDirectory q = true ↔
    t.isDirectory q = true ∨ q <+: place := by
  rw [isDirectory_iff, isDirectory_iff]
  simp only [List.mem_append, List.mem_singleton, or_and_right, exists_or, exists_eq_left]
  rw [or_right_comm, ← or_assoc]

theorem reworked_add {path : Bytes} (h : Above W t path) :
    Reworked W t { t with directories := t.directories ++ [t.locate path] } := by
  refine ⟨rfl, fun hq => isDirectory_add.2 (Or.inl hq), fun hq => ?_, fun _ => Or.inl rfl⟩
  rcases isDirectory_add.1 hq with hq | hq
  · exact Or.inl hq
  · rcases h with hcwd | ⟨place, data, hw, hplace, hne⟩
    · exact Or.inl (isDirectory_of_cwd (hq.trans hcwd))
    · refine Or.inr ⟨place, data, hw, hq.trans hplace, ?_⟩
      rintro rfl
      exact hne (hplace.eq_of_length (Nat.le_antisymm hplace.length_le hq.length_le))

theorem makeDirectories_cons_of_error {path : Bytes} {e : PathError}
    (h : t.makeDirectories [path] = (t', .error e)) (rest : List Bytes) :
    t.makeDirectories (path :: rest) = (t', .error e) := by
  simp only [makeDirectories] at h ⊢
  by_cases hdir : t.isDirectory (t.locate path) = true
  · simp [hdir] at h
  · rw [if_neg hdir] at h ⊢
    cases hfault : t.directoryFault? path <;> simp [hfault] at h ⊢
    exact h

theorem makeDirectories_cons_of_ok {path : Bytes} (h : t.makeDirectories [path] = (t', .ok ()))
    (rest : List Bytes) : t.makeDirectories (path :: rest) = t'.makeDirectories rest := by
  simp only [makeDirectories] at h ⊢
  by_cases hdir : t.isDirectory (t.locate path) = true
  · simp only [if_pos hdir, Prod.mk.injEq, and_true] at h ⊢
    rw [h]
  · rw [if_neg hdir] at h ⊢
    cases hfault : t.directoryFault? path <;> simp [hfault] at h ⊢
    rw [h]

theorem reworked_makeDirectories {paths : List Bytes} (h : ∀ path ∈ paths, Above W t path) :
    Reworked W t (t.makeDirectories paths).1 := by
  induction paths generalizing t with
  | nil => exact .refl W t
  | cons path paths ih =>
    have htail : ∀ path ∈ paths, Above W t path := fun x hx => h x (List.mem_cons_of_mem _ hx)
    rw [makeDirectories]
    by_cases hdir : t.isDirectory (t.locate path) = true
    · rw [if_pos hdir]
      exact ih htail
    · rw [if_neg hdir]
      cases t.directoryFault? path with
      | some cause => exact .refl W t
      | none => exact (reworked_add (h path List.mem_cons_self)).trans (ih htail)

/-- Moves a file to its place once the directories above it are there. -/
def install (t : FileTree) (path data : Bytes) : FileTree × Except WriteError Unit :=
  if t.isDirectory (t.locate path) then (t, .error (.rename path .exists))
  else
    match nameFault? path with
    | some cause => (t, .error (.rename path cause))
    | none => (t.put (t.locate path) data, .ok ())

/-- Makes directories and moves a file to its place. -/
def writeVia (t : FileTree) (paths : List Bytes) (path data : Bytes) :
    FileTree × Except WriteError Unit :=
  match t.makeDirectories paths with
  | (t, .error e) => (t, .error (.directory e))
  | (t, .ok ()) => t.install path data

theorem write_eq (t : FileTree) (path data : Bytes) :
    t.write path data = t.writeVia (beginnings (Path.parent path)) path data := by
  unfold write writeVia
  rcases t.makeDirectories (beginnings (Path.parent path)) with ⟨t, _ | _⟩ <;> rfl

theorem reworked_install {path : Bytes} (hW : W (t.locate path) data) :
    Reworked W t (t.install path data).1 := by
  rw [install]
  by_cases hdir : t.isDirectory (t.locate path) = true
  · rw [if_pos hdir]
    exact .refl W t
  · rw [if_neg hdir]
    cases nameFault? path with
    | some cause => exact .refl W t
    | none =>
      apply (reworked_put (by simpa using hdir)).mono
      rintro q d ⟨rfl, rfl⟩
      exact hW

theorem install_ok_iff {path : Bytes} : (t.install path data).2 = .ok () ↔
    t.isDirectory (t.locate path) = false ∧ nameFault? path = none := by
  rw [install]
  by_cases hdir : t.isDirectory (t.locate path) = true
  · simp [hdir]
  · cases hfault : nameFault? path <;> simp [hdir]

theorem contents?_install {path : Bytes} (h : (t.install path data).2 = .ok ()) :
    (t.install path data).1.contents? (t.locate path) = some data := by
  obtain ⟨hdir, hfault⟩ := install_ok_iff.1 h
  simp [install, hdir, hfault, contents?_put]

/-! ### What succeeds in the first tree succeeds in the second -/

theorem makeDirectories_cons_ok {path : Bytes} {rest : List Bytes}
    (h : (t.makeDirectories (path :: rest)).2 = .ok ()) :
    (t.isDirectory (t.locate path) = true ∧ (t.makeDirectories rest).2 = .ok ()) ∨
      ((t.isFile (t.locate path) = false ∧ nameFault? path = none) ∧
        ({ t with directories := t.directories ++ [t.locate path] }.makeDirectories rest).2 =
          .ok ()) := by
  rw [makeDirectories] at h
  by_cases hdir : t.isDirectory (t.locate path) = true
  · rw [if_pos hdir] at h
    exact Or.inl ⟨hdir, h⟩
  · rw [if_neg hdir] at h
    cases hfault : t.directoryFault? path with
    | some cause => simp [hfault] at h
    | none =>
      rw [hfault] at h
      rw [directoryFault?] at hfault
      by_cases hfile : t.isFile (t.locate path) = true
      · simp [hfile] at hfault
      · rw [if_neg hfile] at hfault
        exact Or.inr ⟨⟨by simpa using hfile, hfault⟩, h⟩

theorem makeDirectories_single_ok_iff {path : Bytes} : (t.makeDirectories [path]).2 = .ok () ↔
    t.isDirectory (t.locate path) = true ∨
      (t.isFile (t.locate path) = false ∧ nameFault? path = none) := by
  constructor
  · intro h
    exact (makeDirectories_cons_ok h).imp And.left And.left
  · intro h
    by_cases hdir : t.isDirectory (t.locate path) = true
    · simp [makeDirectories, hdir]
    · obtain ⟨hfile, hfault⟩ := h.resolve_left hdir
      simp [makeDirectories, hdir, directoryFault?, hfile, hfault]

theorem isDirectory_makeDirectories_single {path : Bytes}
    (h : (t.makeDirectories [path]).2 = .ok ()) :
    (t.makeDirectories [path]).1.isDirectory (t.locate path) = true := by
  rw [makeDirectories] at h ⊢
  by_cases hdir : t.isDirectory (t.locate path) = true
  · rw [if_pos hdir]
    exact hdir
  · rw [if_neg hdir] at h ⊢
    cases hfault : t.directoryFault? path with
    | some cause => simp [hfault] at h
    | none => exact isDirectory_add.2 (Or.inr List.prefix_rfl)

/-- Where a row of directories can be made each can be made, be it that an earlier one of the row
is below it. -/
theorem makeDirectories_append_ok {done rest : List Bytes} {path : Bytes}
    (h : (t.makeDirectories (done ++ path :: rest)).2 = .ok ()) :
    (t.isDirectory (t.locate path) = true ∨ ∃ path' ∈ done, t.locate path <+: t.locate path') ∨
      (t.isFile (t.locate path) = false ∧ nameFault? path = none) := by
  induction done generalizing t with
  | nil => exact (makeDirectories_cons_ok h).imp (fun h => Or.inl h.1) And.left
  | cons first done ih =>
    rcases makeDirectories_cons_ok h with ⟨-, h⟩ | ⟨-, h⟩
    · refine (ih h).imp_left fun hd => hd.imp_right fun ⟨path', hpath', hp⟩ => ?_
      exact ⟨path', List.mem_cons_of_mem _ hpath', hp⟩
    · refine (ih h).imp_left fun hd => ?_
      rcases hd with hd | ⟨path', hpath', hp⟩
      · rcases isDirectory_add.1 hd with hd | hd
        · exact Or.inl hd
        · exact Or.inr ⟨first, List.mem_cons_self, hd⟩
      · exact Or.inr ⟨path', List.mem_cons_of_mem _ hpath', hp⟩

theorem write_ok (h : (t.write p data).2 = .ok ()) :
    (t.makeDirectories (beginnings (Path.parent p))).2 = .ok () ∧
      ((t.makeDirectories (beginnings (Path.parent p))).1.install p data).2 = .ok () ∧
      (t.write p data).1 =
        ((t.makeDirectories (beginnings (Path.parent p))).1.install p data).1 := by
  rw [write_eq, writeVia] at h ⊢
  cases hmade : t.makeDirectories (beginnings (Path.parent p)) with
  | mk made result =>
    cases result with
    | error e => simp [hmade] at h
    | ok u => exact ⟨rfl, by simpa [hmade] using h, rfl⟩

theorem reworked_beginnings (h : Path.EndsWith p name) {paths : List Bytes}
    (hpaths : ∀ path ∈ paths, path ∈ beginnings (Path.parent p)) {d : Bytes}
    (hW : W (t.locate p) d) : Reworked W t (t.makeDirectories paths).1 := by
  apply reworked_makeDirectories
  intro path hpath
  exact (locate_beginning h (hpaths path hpath)).imp_right fun hq => ⟨_, d, hW, hq⟩

theorem contents?_write (h : Path.EndsWith p name) (hok : (t.write p data).2 = .ok ()) :
    (t.write p data).1.contents? (t.locate p) = some data := by
  obtain ⟨-, hinstall, heq⟩ := write_ok hok
  have hmade : Reworked (fun q _ => q = t.locate p) t _ :=
    reworked_beginnings h (fun _ => id) (d := data) rfl
  rw [heq, ← hmade.locate_eq p]
  exact contents?_install hinstall

/-- The writes that are allowed are not in the way of a file at the place: none is above it, and
none is below it. -/
def Clear (W : List Bytes → Bytes → Prop) (place : List Bytes) : Prop :=
  ∀ q d, W q d → q <+: place ∨ place <+: q → q = place

namespace Reworked

theorem makeDirectory_ok (h : Reworked W t t') (hp : Path.EndsWith p name)
    {done rest : List Bytes} {path : Bytes}
    (hsplit : beginnings (Path.parent p) = done ++ path :: rest)
    (halone : (t.makeDirectories (beginnings (Path.parent p))).2 = .ok ())
    (hdone : ∀ path ∈ done, t'.isDirectory (t.locate path) = true)
    (hclear : Clear W (t.locate p)) : (t'.makeDirectories [path]).2 = .ok () := by
  rw [makeDirectories_single_ok_iff, h.locate_eq]
  rw [hsplit] at halone
  rcases makeDirectories_append_ok halone with (hdir | ⟨path', hpath', hbelow⟩) | ⟨hfile, hfault⟩
  · exact Or.inl (h.isDirectory hdir)
  · exact Or.inl (isDirectory_above hbelow (hdone path' hpath'))
  · have habove : t.locate path <+: t.cwd ∨
        (t.locate path <+: t.locate p ∧ t.locate path ≠ t.locate p) :=
      locate_beginning hp (by simp [hsplit])
    rcases h.contents (t.locate path) with hsame | ⟨-, d, hw, -⟩
    · exact Or.inr ⟨by rw [isFile, hsame]; exact hfile, hfault⟩
    · rcases habove with hcwd | ⟨hbelow, hne⟩
      · exact Or.inl (h.isDirectory (isDirectory_of_cwd hcwd))
      · exact absurd (hclear _ d hw (Or.inl hbelow)) hne

theorem install_ok (h : Reworked W t t') (hp : Path.EndsWith p name)
    (halone : (t.write p data).2 = .ok ()) (hclear : Clear W (t.locate p)) :
    (t'.install p data).2 = .ok () := by
  obtain ⟨-, hinstall, -⟩ := write_ok halone
  have hmade : Reworked (fun q _ => q = t.locate p) t _ :=
    reworked_beginnings hp (fun _ => id) (d := data) rfl
  obtain ⟨hfree, hfault⟩ := install_ok_iff.1 hinstall
  rw [hmade.locate_eq] at hfree
  rw [install_ok_iff, h.locate_eq]
  refine ⟨?_, hfault⟩
  by_contra hdir
  rcases h.of_isDirectory (by simpa using hdir) with hdir | ⟨place, d, hw, hbelow, hne⟩
  · rw [hmade.isDirectory hdir] at hfree
    contradiction
  · exact hne (hclear place d hw (Or.inr hbelow)).symm

end Reworked

/-! ### Reading -/

theorem follow_plain {parts : List Bytes} (hplain : ∀ name ∈ parts, Path.Plain name) :
    t.follow here parts = .ok place ↔ place = here ++ parts ∧
      (∀ name ∈ parts, name.length ≤ maxNameLength) ∧
      ∀ n < parts.length, t.isFile (here ++ parts.take n) = false ∧
        t.isDirectory (here ++ parts.take n) = true := by
  induction parts generalizing here with
  | nil =>
    rw [follow, Except.ok.injEq, eq_comm]
    simp
  | cons part parts ih =>
    have hpart := hplain part List.mem_cons_self
    have hstep : t.follow here (part :: parts) = .ok place ↔
        (t.isFile here = false ∧ t.isDirectory here = true) ∧ part.length ≤ maxNameLength ∧
          t.follow (here ++ [part]) parts = .ok place := by
      rw [follow]
      by_cases hfile : t.isFile here = true
      · simp [hfile]
      · by_cases hdir : t.isDirectory here = true
        · by_cases hlong : maxNameLength < part.length
          · simp [hfile, hdir, hpart.ne_nil, hpart.ne_dot, hpart.ne_dotDot, hlong,
              Nat.not_le_of_lt hlong]
          · simp [hfile, hdir, hpart.ne_nil, hpart.ne_dot, hpart.ne_dotDot, hlong,
              Nat.le_of_not_lt hlong]
        · simp [hfile, hdir]
    rw [hstep, ih fun x hx => hplain x (List.mem_cons_of_mem _ hx), List.append_assoc,
      List.singleton_append, List.forall_mem_cons]
    constructor
    · rintro ⟨hhere, hshort, hplace, hrest, hon⟩
      refine ⟨hplace, ⟨hshort, hrest⟩, fun n hn => ?_⟩
      cases n with
      | zero => simpa using hhere
      | succ n => simpa using hon n (by simpa using hn)
    · rintro ⟨hplace, ⟨hshort, hrest⟩, hon⟩
      refine ⟨by simpa using hon 0 (by simp), hshort, hplace, hrest, fun n hn => ?_⟩
      simpa using hon (n + 1) (by simpa using hn)

theorem follow_root (hne : l ≠ []) : t.follow [] ([] :: l) = t.follow [] l := by
  obtain ⟨name, rest, rfl⟩ := List.exists_cons_of_ne_nil hne
  rw [follow, follow]
  by_cases hfile : t.isFile [] = true
  · simp [hfile]
  · by_cases hdir : t.isDirectory [] = true <;> simp [hfile, hdir]

theorem read_eq_ok {path src : Bytes} : t.read path = .ok src ↔
    ∃ place, t.resolve path = .ok place ∧ t.contents? place = some src := by
  rw [read]
  cases t.resolve path with
  | error e => simp
  | ok place =>
    cases hdata : t.contents? place with
    | some data => simp [hdata]
    | none => by_cases hdir : t.isDirectory place = true <;> simp [hdata, hdir]

theorem resolve_ofNames {place : List Bytes} (hnormal : Path.Normal true l) (hne : l ≠ []) :
    t.resolve (Path.ofNames true l) = .ok place ↔
      (0 ∉ Path.ofNames true l ∧ (Path.ofNames true l).length ≤ maxPathLength) ∧
        t.follow [] l = .ok place := by
  have hsplit : Bytes.split Path.slash (Path.ofNames true l) = [] :: l := by
    rw [Bytes.split_eq_splitOn, Path.ofNames, if_pos rfl, List.splitOn_cons_eq_if_modifyHead,
      if_pos (by simp), Bytes.joinWith, List.splitOn_intercalate _ hnormal.not_mem hne]
  have hnil : Path.ofNames true l ≠ [] := by simp [Path.ofNames]
  have hrooted : Path.isRooted (Path.ofNames true l) = true := rfl
  rw [resolve, hsplit, hrooted, if_pos rfl, follow_root hne]
  by_cases hzero : 0 ∈ Path.ofNames true l
  · simp [hnil, hzero]
  · by_cases hlong : maxPathLength < (Path.ofNames true l).length
    · simp [hnil, hzero, hlong, Nat.not_le_of_lt hlong]
    · simp [hnil, hzero, hlong, Nat.le_of_not_lt hlong]

/-- A file is read where no file stands above it. -/
theorem read_ok_iff {src : Bytes} (hnormal : Path.Normal true l) (hne : l ≠ []) :
    t.read (Path.ofNames true l) = .ok src ↔
      (0 ∉ Path.ofNames true l ∧ (Path.ofNames true l).length ≤ maxPathLength ∧
        ∀ name ∈ l, name.length ≤ maxNameLength) ∧
      (∀ q, q <+: l → q ≠ l → t.isFile q = false) ∧ t.contents? l = some src := by
  rw [read_eq_ok]
  simp only [resolve_ofNames hnormal hne, follow_plain hnormal.plain, List.nil_append]
  constructor
  · rintro ⟨place, ⟨⟨hzero, hlong⟩, rfl, hnames, hon⟩, hdata⟩
    refine ⟨⟨hzero, hlong, hnames⟩, fun q hq hqne => ?_, hdata⟩
    have hshort : q.length < place.length :=
      Nat.lt_of_le_of_ne hq.length_le fun h => hqne (hq.eq_of_length h)
    rw [List.prefix_iff_eq_take.1 hq]
    exact (hon _ hshort).1
  · rintro ⟨⟨hzero, hlong, hnames⟩, hon, hdata⟩
    refine ⟨l, ⟨⟨hzero, hlong⟩, rfl, hnames, fun n hn => ?_⟩, hdata⟩
    have hqne : l.take n ≠ l := by
      intro h
      have := congrArg List.length h
      simp only [List.length_take] at this
      omega
    exact ⟨hon _ (List.take_prefix n l) hqne,
      isDirectory_of_contents hdata (List.take_prefix n l) hqne⟩

/-- A file where nothing may be written is read as before. -/
theorem Reworked.read_ok_iff (h : Reworked W t t') {src : Bytes} (hnormal : Path.Normal true l)
    (hne : l ≠ []) (hfree : ∀ d, ¬ W l d) :
    t'.read (Path.ofNames true l) = .ok src ↔ t.read (Path.ofNames true l) = .ok src := by
  have hsame : t'.contents? l = t.contents? l :=
    (h.contents l).resolve_right fun ⟨_, d, hw, _⟩ => hfree d hw
  rw [FileTree.read_ok_iff hnormal hne, FileTree.read_ok_iff hnormal hne, hsame]
  apply and_congr_right
  intro _
  apply and_congr_left
  intro hdata
  have habove (q : List Bytes) (hq : q <+: l) (hqne : q ≠ l) : t'.isFile q = t.isFile q :=
    h.isFile_eq (isDirectory_of_contents hdata hq hqne)
  constructor
  · intro hon q hq hqne
    rw [← habove q hq hqne]
    exact hon q hq hqne
  · intro hon q hq hqne
    rw [habove q hq hqne]
    exact hon q hq hqne

end ApeScript.FileTree
