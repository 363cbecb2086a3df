import Mathlib
import ApeScript.Cli.Compile
import ApeScript.Proofs.PoolRun
import ApeScript.Proofs.WrittenTree

/-!
# Batches of scripts

The scripts below a directory are compiled by a pool whose workers share the file tree: one reads
its script, makes the directories above its output one by one and moves the output to its place,
while others do the same. Outputs are never read as scripts, so every worker reads what was there
at the start. A script that compiles alone has its bytes in place at the end, whatever the
schedule, when no other script has its output at the same place, above it or below it.
-/

namespace ApeScript.Cli

open FileTree Work

/-! ### One script -/

def compiledBytes (options : Options) (source target src : Bytes) : Except CommandError Bytes :=
  match (compile src { options with file := source }).result with
  | .error e => .error (.compile e)
  | .ok file =>
    match file.encode with
    | .bytes data => .ok data
    | .refused e => .error (.encode target e)
    | .halted => .error .halted

/-- The stored bytes that the script at a path compiles to. -/
def scriptBytes (options : Options) (t : FileTree) (source target : Bytes) :
    Except CommandError Bytes :=
  match t.read source with
  | .error e => .error (.read source e)
  | .ok src => compiledBytes options source target src

def compileIn (options : Options) (source target : Bytes) (t : FileTree) :
    FileTree × Except CommandError Unit :=
  match scriptBytes options t source target with
  | .error e => (t, .error e)
  | .ok data => ((t.write target data).1, (t.write target data).2.mapError .write)

namespace Job

variable {α β : Type} {w w' : World}

theorem bind_of_ok {x : Job α} {a : α} (h : x w = (.ok a, w')) (f : α → Job β) :
    (x >>= f) w = f a w' := by
  simp [bind, ExceptT.bind, ExceptT.mk, StateT.bind, h, ExceptT.bindCont]

theorem bind_of_error {x : Job α} {e : CommandError} (h : x w = (.error e, w')) (f : α → Job β) :
    (x >>= f) w = (.error e, w') := by
  simp [bind, ExceptT.bind, ExceptT.mk, StateT.bind, h, ExceptT.bindCont]
  rfl

theorem ofExcept_run {ε : Type} (cause : ε → CommandError) (r : Except ε α) (w : World) :
    ofExcept cause r w = (r.mapError cause, w) := by
  cases r <;> rfl

theorem readFile_run (path : Bytes) (w : World) :
    readFile path w = ((w.tree.read path).mapError (.read path), w) :=
  ofExcept_run (.read path) (w.tree.read path) w

theorem writeFile_run (path data : Bytes) (w : World) :
    writeFile path data w = ((w.tree.write path data).2.mapError .write,
      { w with tree := (w.tree.write path data).1 }) := by
  have hget : (get : Job World) w = (.ok w, w) := rfl
  rw [writeFile, bind_of_ok hget]
  cases w.tree.write path data with
  | mk t result => exact ofExcept_run .write result { w with tree := t }

theorem forM_note (entry : α → LogEntry) (l : List α) (w : World) :
    ∃ log, (l.forM fun a => note (entry a)) w = (.ok (), { w with log := w.log ++ log }) := by
  induction l generalizing w with
  | nil => exact ⟨[], by simp; rfl⟩
  | cons a l ih =>
    obtain ⟨log, hlog⟩ := ih { w with log := w.log ++ [entry a] }
    exact ⟨entry a :: log, hlog.trans (by simp)⟩

end Job

/-- A compilation changes the tree and the log only. -/
theorem compileFile_run (options : Options) (source target : Bytes) (w : World) :
    ∃ log, compileFile options source target w =
      ((compileIn options source target w.tree).2,
        { w with tree := (compileIn options source target w.tree).1, log := w.log ++ log }) := by
  rw [compileFile, compileIn, scriptBytes]
  cases hread : w.tree.read source with
  | error e =>
    exact ⟨[], by rw [Job.bind_of_error (by rw [Job.readFile_run, hread]; rfl)]; simp⟩
  | ok src =>
    rw [Job.bind_of_ok (by rw [Job.readFile_run, hread]; rfl)]
    obtain ⟨log, hlog⟩ := Job.forM_note .diagnostic
      (compile src { options with file := source }).diagnostics w
    refine ⟨log, ?_⟩
    dsimp only
    rw [Job.bind_of_ok hlog]
    unfold compiledBytes
    cases hresult : (compile src { options with file := source }).result with
    | error e => rw [Job.bind_of_error (Job.ofExcept_run _ _ _)]
    | ok file =>
      rw [Job.bind_of_ok (Job.ofExcept_run _ _ _)]
      cases hencode : file.encode with
      | bytes data =>
        rw [Job.bind_of_ok (a := data) (by rw [encodeFor, hencode]; rfl), Job.writeFile_run]
        simp only [hencode]
      | refused e =>
        rw [Job.bind_of_error (by rw [encodeFor, hencode]; rfl)]
        simp only [hencode]
      | halted =>
        rw [Job.bind_of_error (by rw [encodeFor, hencode]; rfl)]
        simp only [hencode]

/-! ### The work on one script, action by action -/

def compiledPath (target : Bytes) (e : Entry) : Bytes :=
  outputPath target e.relative compiledExtension

theorem compiledPath_endsWith (target : Bytes) (e : Entry) :
    ∃ last, Path.EndsWith (compiledPath target e) (last ++ compiledExtension) :=
  Path.exists_join_endsWith target _ (by decide) (by decide)

inductive Stage where
  | reading (e : Entry)
  /-- The directories that are yet to be made for the output. -/
  | making (e : Entry) (data : Bytes) (paths : List Bytes)

/-- The work on scripts: one reads and compiles, makes one directory at a time, and moves the
output to its place. -/
def scriptTasks (options : Options) (target : Bytes) :
    Tasks FileTree Entry Stage (Except CommandError Unit) where
  start := .reading
  advance
    | .reading e, t =>
      (t, match scriptBytes options t e.path (compiledPath target e) with
        | .error err => .inr (.error err)
        | .ok data => .inl (.making e data (beginnings (Path.parent (compiledPath target e)))))
    | .making e data (path :: rest), t =>
      ((t.makeDirectories [path]).1, match (t.makeDirectories [path]).2 with
        | .error err => .inr (.error (.write (.directory err)))
        | .ok () => .inl (.making e data rest))
    | .making e data [], t =>
      ((t.install (compiledPath target e) data).1,
        .inr ((t.install (compiledPath target e) data).2.mapError .write))
  rank
    | .reading e => (beginnings (Path.parent (compiledPath target e))).length + 1
    | .making _ _ paths => paths.length
  rank_lt {k k' t} h := by
    cases k with
    | reading e =>
      dsimp only at h
      split at h
      · cases h
      · cases h
        exact Nat.lt_succ_self _
    | making e data paths =>
      cases paths with
      | nil => cases h
      | cons path rest =>
        dsimp only at h
        split at h
        · cases h
        · cases h
          exact Nat.lt_succ_self _

variable {options : Options} {target : Bytes} {e : Entry} {data : Bytes} {t t' t₀ : FileTree}
  {entries : List Entry} {k k' : Stage}

theorem completes_making (options : Options) (target : Bytes) (e : Entry) (data : Bytes)
    (paths : List Bytes) (t : FileTree) :
    Completes (scriptTasks options target) (.making e data paths) t
      (t.writeVia paths (compiledPath target e) data).1
      ((t.writeVia paths (compiledPath target e) data).2.mapError .write) := by
  induction paths generalizing t with
  | nil => exact .last rfl
  | cons path rest ih =>
    cases hmade : t.makeDirectories [path] with
    | mk t' result =>
      cases result with
      | error err =>
        rw [writeVia, makeDirectories_cons_of_error hmade]
        exact .last (by simp only [scriptTasks, hmade, Except.mapError])
      | ok u =>
        rw [writeVia, makeDirectories_cons_of_ok hmade]
        exact .next (by simp only [scriptTasks, hmade]) (ih t')

/-- The actions on a script, one after another, are its compilation. -/
theorem completes_compileIn (options : Options) (target : Bytes) (e : Entry) (t : FileTree) :
    Completes (scriptTasks options target) (.reading e) t
      (compileIn options e.path (compiledPath target e) t).1
      (compileIn options e.path (compiledPath target e) t).2 := by
  rw [compileIn]
  cases hbytes : scriptBytes options t e.path (compiledPath target e) with
  | error err => exact .last (by simp only [scriptTasks, hbytes])
  | ok data =>
    have hact : (scriptTasks options target).advance (.reading e) t =
        (t, .inl (.making e data (beginnings (Path.parent (compiledPath target e))))) := by
      simp only [scriptTasks, hbytes]
    simp only [write_eq]
    exact .next hact (completes_making options target e data _ t)

/-- What a pool does after its first task does not depend on the result of that task, the log
aside. -/
theorem Job.poolFrom_cons (task : Entry → Job Unit) (index : Nat) (rest : List Entry) (w : World) :
    ∃ w₁ : World, w₁.tree = (task e w).2.tree ∧
      (poolFrom task index (e :: rest) w).2 = (poolFrom task (index + 1) rest w₁).2 := by
  have hlast (w₁ : World) (output : Except CommandError Unit) :
      ((poolFrom task (index + 1) rest >>= fun results =>
        pure (⟨e, output⟩ :: results : List (Result CommandError Entry Unit))) w₁).2 =
          (poolFrom task (index + 1) rest w₁).2 := by
    cases hrest : poolFrom task (index + 1) rest w₁ with
    | mk result w₂ =>
      cases result with
      | error err => rw [bind_of_error hrest]
      | ok results =>
        rw [bind_of_ok hrest]
        rfl
  have hattempt : attempt (task e) w = (.ok (task e w).1, (task e w).2) := rfl
  rw [poolFrom, bind_of_ok hattempt]
  cases (task e w).1 with
  | ok u => exact ⟨(task e w).2, rfl, hlast _ _⟩
  | error err =>
    exact ⟨{ (task e w).2 with log := (task e w).2.log ++ [.taskFailed index err] }, rfl, hlast _ _⟩

theorem worksThrough_poolFrom (options : Options) (target : Bytes) (entries : List Entry)
    (index : Nat) (w : World) :
    WorksThrough (scriptTasks options target) entries w.tree
      (Job.poolFrom (fun entry => compileFile options entry.path (compiledPath target entry))
        index entries w).2.tree := by
  induction entries generalizing index w with
  | nil => exact .nil
  | cons e rest ih =>
    obtain ⟨w₁, hw₁, hrest⟩ := Job.poolFrom_cons (e := e)
      (fun entry => compileFile options entry.path (compiledPath target entry)) index rest w
    obtain ⟨log, hfile⟩ := compileFile_run options e.path (compiledPath target e) w
    have hfirst := completes_compileIn options target e w.tree
    have htree : (compileIn options e.path (compiledPath target e) w.tree).1 = w₁.tree := by
      rw [hw₁, hfile]
    rw [htree] at hfirst
    rw [hrest]
    exact .cons hfirst (ih (index + 1) w₁)

/-- A batch works through its scripts in their order. -/
theorem worksThrough_batch {source : Bytes} {w : World}
    (hwalk : w.tree.walk [scriptExtension] source = .ok entries) :
    WorksThrough (scriptTasks options target) entries w.tree
      (batch options source target w).2.tree := by
  have hpool := worksThrough_poolFrom options target entries 0 w
  have hentries : Job.walk .walkInput [scriptExtension] source w = (.ok entries, w) := by
    rw [Job.walk]
    refine (Job.ofExcept_run .walkInput (w.tree.walk [scriptExtension] source) w).trans ?_
    rw [hwalk]
    rfl
  rw [batch, Job.bind_of_ok hentries]
  unfold compiledPath at hpool
  cases hresult : Job.pool (fun entry => compileFile options entry.path
      (outputPath target entry.relative compiledExtension)) entries w with
  | mk result w₁ =>
    rw [← Job.pool, hresult] at hpool
    cases result with
    | error err =>
      rw [Job.bind_of_error hresult]
      exact hpool
    | ok results =>
      rw [Job.bind_of_ok hresult]
      by_cases hfailed : 0 < failed results
      · simp only [if_pos hfailed]
        exact hpool
      · simp only [if_neg hfailed]
        exact hpool

/-! ### Scripts and outputs -/

structure ScriptNames (l : List Bytes) : Prop where
  normal : Path.Normal true l
  extension_eq : Text.lower (Path.extension (Path.ofNames true l)) = scriptExtension

theorem exists_scriptNames {source : Bytes}
    (hwalk : t.walk [scriptExtension] source = .ok entries) (he : e ∈ entries) :
    ∃ l, e.path = Path.ofNames true l ∧ ScriptNames l := by
  have hroot : (Path.absolute t.cwdPath source).head? = some Path.slash := by
    rw [Path.absolute]
    by_cases hsource : Path.isRooted source = true
    · rw [if_pos hsource, Path.clean, hsource]
      rfl
    · rw [if_neg hsource]
      rfl
  have hjoin (relative : Bytes) : ∃ l, Path.Normal true l ∧
      Path.join (Path.absolute t.cwdPath source) relative = Path.ofNames true l := by
    have hne : Path.absolute t.cwdPath source ≠ [] := by
      intro h
      simp [h] at hroot
    have hrooted : Path.isRooted (Path.absolute t.cwdPath source ++ Path.slash :: relative) =
        true := by
      rw [Path.isRooted, List.head?_append, hroot]
      rfl
    refine ⟨_, hrooted ▸ Path.normal_names _, ?_⟩
    simp [Path.join, hne, Path.clean, hrooted]
  rw [walk] at hwalk
  cases hstat : t.stat (Path.absolute t.cwdPath source) with
  | error err => simp [hstat] at hwalk
  | ok found =>
    cases found with
    | none => simp [hstat] at hwalk
    | some place =>
      simp only [hstat, Except.ok.injEq] at hwalk
      subst hwalk
      obtain ⟨hmem, hextension⟩ := List.mem_filter.1 he
      obtain ⟨file, -, rfl⟩ := List.mem_map.1 hmem
      obtain ⟨l, hnormal, hl⟩ := hjoin (Path.ofNames false (file.drop place.length))
      exact ⟨l, hl, hnormal, by simpa [hl] using hextension⟩

theorem ScriptNames.ne_nil {l : List Bytes} (h : ScriptNames l) : l ≠ [] := by
  rintro rfl
  exact absurd h.extension_eq (by decide)

/-- No output has the name of a script. -/
theorem ScriptNames.ne_locate {l : List Bytes} (h : ScriptNames l) (target : Bytes) (e : Entry)
    (t : FileTree) : l ≠ t.locate (compiledPath target e) := by
  obtain ⟨last, hlast⟩ := compiledPath_endsWith target e
  obtain ⟨above, hplace⟩ := locate_endsWith (t := t) hlast
  rw [hplace]
  rintro rfl
  have hextension : Path.extension (Path.ofNames true (above ++ [last ++ compiledExtension])) =
      compiledExtension :=
    Path.extension_of_lastPart (Path.lastPart_ofNames h.normal) (by decide)
  have hscript := h.extension_eq
  rw [hextension] at hscript
  exact absurd hscript (by decide)

/-! ### Runs -/

def outputPlace (target : Bytes) (t : FileTree) (e : Entry) : List Bytes :=
  t.locate (compiledPath target e)

def entryBytes (options : Options) (target : Bytes) (t : FileTree) (e : Entry) :
    Except CommandError Bytes :=
  scriptBytes options t e.path (compiledPath target e)

def Outputs (options : Options) (target : Bytes) (t : FileTree) (e : Entry) (q : List Bytes)
    (data : Bytes) : Prop :=
  q = outputPlace target t e ∧ entryBytes options target t e = .ok data

def AllOutputs (options : Options) (target : Bytes) (t : FileTree) (entries : List Entry)
    (q : List Bytes) (data : Bytes) : Prop :=
  ∃ e ∈ entries, Outputs options target t e q data

/-- A script compiles to the same bytes before and after outputs were written. -/
theorem entryBytes_ok_iff (hre : Reworked (AllOutputs options target t₀ entries) t₀ t)
    {l : List Bytes} (hl : ScriptNames l) (hpath : e.path = Path.ofNames true l) :
    entryBytes options target t e = .ok data ↔ entryBytes options target t₀ e = .ok data := by
  have hbytes (t : FileTree) : entryBytes options target t e = .ok data ↔
      ∃ src, t.read e.path = .ok src ∧
        compiledBytes options e.path (compiledPath target e) src = .ok data := by
    rw [entryBytes, scriptBytes]
    cases t.read e.path <;> simp
  have hfree (d : Bytes) : ¬ AllOutputs options target t₀ entries l d := by
    rintro ⟨e', -, hplace, -⟩
    exact hl.ne_locate target e' t₀ hplace
  rw [hbytes, hbytes, hpath]
  simp only [hre.read_ok_iff hl.normal hl.ne_nil hfree]

/-- Work in hand on a script: the bytes are those that it compiled to at the start, and the
directories made so far are there. -/
def Stage.Fits (options : Options) (target : Bytes) (t₀ t : FileTree) (e : Entry) : Stage → Prop
  | reading e' => e' = e
  | making e' data rest => e' = e ∧ entryBytes options target t₀ e = .ok data ∧
      ∃ done, beginnings (Path.parent (compiledPath target e)) = done ++ rest ∧
        ∀ path ∈ done, t.isDirectory (t₀.locate path) = true

theorem Stage.Fits.mono (h : k.Fits options target t₀ t e)
    (hdir : ∀ q, t.isDirectory q = true → t'.isDirectory q = true) :
    k.Fits options target t₀ t' e := by
  cases k with
  | reading e' => exact h
  | making e' data rest =>
    obtain ⟨he, hdata, done, hsplit, hdone⟩ := h
    exact ⟨he, hdata, done, hsplit, fun path hpath => hdir _ (hdone path hpath)⟩

theorem Stage.Fits.reworked (h : k.Fits options target t₀ t e)
    (hre : Reworked (AllOutputs options target t₀ entries) t₀ t) :
    Reworked (Outputs options target t₀ e) t ((scriptTasks options target).advance k t).1 := by
  obtain ⟨last, hends⟩ := compiledPath_endsWith target e
  cases k with
  | reading e' => exact .refl _ t
  | making e' data rest =>
    obtain ⟨rfl, hdata, done, hsplit, -⟩ := h
    have hplace : Outputs options target t₀ e' (t.locate (compiledPath target e')) data :=
      ⟨hre.locate_eq _, hdata⟩
    cases rest with
    | nil => exact reworked_install hplace
    | cons path rest =>
      refine reworked_beginnings hends (fun x hx => ?_) hplace
      rw [List.mem_singleton.1 hx, hsplit]
      simp

theorem Stage.Fits.next (h : k.Fits options target t₀ t e)
    (hre : Reworked (AllOutputs options target t₀ entries) t₀ t)
    {l : List Bytes} (hl : ScriptNames l) (hpath : e.path = Path.ofNames true l)
    (hact : (scriptTasks options target).advance k t = (t', .inl k')) :
    k'.Fits options target t₀ t' e := by
  cases k with
  | reading e' =>
    subst h
    cases hbytes : scriptBytes options t e'.path (compiledPath target e') with
    | error err => simp [scriptTasks, hbytes] at hact
    | ok data =>
      simp only [scriptTasks, hbytes, Prod.mk.injEq, Sum.inl.injEq] at hact
      obtain ⟨rfl, rfl⟩ := hact
      have hstart : entryBytes options target t₀ e' = .ok data :=
        (entryBytes_ok_iff hre hl hpath).1 (by rw [entryBytes, hbytes])
      exact ⟨rfl, hstart, [], (List.nil_append _).symm, by simp⟩
  | making e' data rest =>
    have hmore := h.reworked hre
    obtain ⟨rfl, hdata, done, hsplit, hdone⟩ := h
    cases rest with
    | nil => simp [scriptTasks] at hact
    | cons path rest =>
      cases hmade : (t.makeDirectories [path]).2 with
      | error err => simp [scriptTasks, hmade] at hact
      | ok u =>
        rw [hact] at hmore
        simp only [scriptTasks, hmade, Prod.mk.injEq, Sum.inl.injEq] at hact
        obtain ⟨rfl, rfl⟩ := hact
        refine ⟨rfl, hdata, done ++ [path], by simp [hsplit], fun x hx => ?_⟩
        rcases List.mem_append.1 hx with hx | hx
        · exact hmore.isDirectory (hdone x hx)
        · rw [List.mem_singleton.1 hx, ← hre.locate_eq]
          exact isDirectory_makeDirectories_single hmade

/-- A script that can be written alone is written. -/
theorem Stage.Fits.finish (h : k.Fits options target t₀ t e)
    (hre : Reworked (AllOutputs options target t₀ entries) t₀ t)
    {l : List Bytes} (hl : ScriptNames l) (hpath : e.path = Path.ofNames true l)
    (hdata : entryBytes options target t₀ e = .ok data)
    (halone : (t₀.write (compiledPath target e) data).2 = .ok ())
    (hclear : Clear (AllOutputs options target t₀ entries) (outputPlace target t₀ e))
    {r : Except CommandError Unit}
    (hact : (scriptTasks options target).advance k t = (t', .inr r)) :
    t'.contents? (outputPlace target t₀ e) = some data := by
  obtain ⟨last, hends⟩ := compiledPath_endsWith target e
  cases k with
  | reading e' =>
    subst h
    have hbytes : scriptBytes options t e'.path (compiledPath target e') = .ok data :=
      (entryBytes_ok_iff hre hl hpath).2 hdata
    simp [scriptTasks, hbytes] at hact
  | making e' data' rest =>
    obtain ⟨rfl, hdata', done, hsplit, hdone⟩ := h
    obtain rfl : data' = data := Except.ok.inj (hdata'.symm.trans hdata)
    cases rest with
    | nil =>
      have hinstall := hre.install_ok hends halone hclear
      cases hact
      rw [outputPlace, ← hre.locate_eq]
      exact contents?_install hinstall
    | cons path rest =>
      have hmade := hre.makeDirectory_ok hends hsplit (write_ok halone).1 hdone hclear
      simp [scriptTasks, hmade] at hact

/-- The outputs of the other scripts that compile are not at the place of a script's output, above
it or below it. -/
def Unobstructed (options : Options) (target : Bytes) (t : FileTree) (entries : List Entry)
    (e : Entry) : Prop :=
  ∀ e' ∈ entries, ∀ data, entryBytes options target t e' = .ok data →
    outputPlace target t e' <+: outputPlace target t e ∨
      outputPlace target t e <+: outputPlace target t e' → e' = e

theorem Unobstructed.clear (h : Unobstructed options target t entries e) :
    Clear (AllOutputs options target t entries) (outputPlace target t e) := by
  rintro q d ⟨e', he', rfl, hdata⟩ hq
  rw [h e' he' d hdata hq]

/-- What holds throughout a run: the tree differs by outputs only, every worker has the bytes that
its script compiled to at the start, and `e` has its output in place once it is processed. -/
structure Settled (options : Options) (target : Bytes) (t₀ : FileTree) (entries : List Entry)
    (e : Entry) (data : Bytes) {n : Nat} (p : Pool n FileTree Entry Stage CommandError Unit) :
    Prop where
  reworked : Reworked (AllOutputs options target t₀ entries) t₀ p.shared
  fits : ∀ w i k, p.workers w = .working i k →
    ∃ e', entries[i]? = some e' ∧ k.Fits options target t₀ p.shared e'
  written : ∀ i ∈ p.processed, entries[i]? = some e →
    p.shared.contents? (outputPlace target t₀ e) = some data

section

variable {n : Nat} {p q : Pool n FileTree Entry Stage CommandError Unit} {source : Bytes}

theorem Settled.assign (h : Settled options target t₀ entries e data p) (w : Fin n)
    {x : Worker Stage (Except CommandError Unit)}
    (hx : ∀ i k, x = .working i k →
      ∃ e', entries[i]? = some e' ∧ k.Fits options target t₀ p.shared e') :
    Settled options target t₀ entries e data (p.assign w x) := by
  refine ⟨h.reworked, fun v i k hv => ?_, h.written⟩
  by_cases hvw : v = w
  · subst hvw
    exact hx i k (by simpa using hv)
  · exact h.fits v i k (by simpa [hvw] using hv)

/-- An action of a worker that has a script in hand leaves the others with what they have. -/
theorem Settled.advance (h : Settled options target t₀ entries e data p)
    (hdata : entryBytes options target t₀ e = .ok data)
    (hfree : Unobstructed options target t₀ entries e) {w : Fin n} {i : Nat}
    (hw : p.workers w = .working i k) :
    Settled options target t₀ entries e data
      { p with shared := ((scriptTasks options target).advance k p.shared).1 } := by
  obtain ⟨e', he', hfits⟩ := h.fits w i k hw
  have hmem : e' ∈ entries := List.mem_of_getElem? he'
  have hmore := hfits.reworked h.reworked
  refine ⟨h.reworked.trans (hmore.mono fun q d hq => ⟨e', hmem, hq⟩), fun v j k' hv => ?_,
    fun j hj hej => ?_⟩
  · obtain ⟨e'', he'', hfits'⟩ := h.fits v j k' hv
    exact ⟨e'', he'', hfits'.mono fun _ => hmore.isDirectory⟩
  · rcases hmore.contents (outputPlace target t₀ e) with hsame | ⟨-, d, ⟨hplace, hd⟩, hcontents⟩
    · exact hsame.trans (h.written j hj hej)
    · -- The script with its output here is `e`, which compiles to one thing only.
      have hsame : outputPlace target t₀ e' <+: outputPlace target t₀ e := by
        rw [hplace]
      obtain rfl : e' = e := hfree e' hmem d hd (Or.inl hsame)
      rwa [Except.ok.inj (hd.symm.trans hdata)] at hcontents

theorem Settled.step (h : Settled options target t₀ entries e data p)
    (hwalk : t₀.walk [scriptExtension] source = .ok entries)
    (hdata : entryBytes options target t₀ e = .ok data)
    (halone : (t₀.write (compiledPath target e) data).2 = .ok ())
    (hfree : Unobstructed options target t₀ entries e)
    (hstep : Step (scriptTasks options target) entries p q) :
    Settled options target t₀ entries e data q := by
  cases hstep with
  | @hand w i a hsender hinput hw =>
    have hkeep : Settled options target t₀ entries e data { p with sender := .marking i } :=
      ⟨h.reworked, h.fits, h.written⟩
    refine hkeep.assign w fun j k hk => ?_
    cases hk
    exact ⟨a, hinput, rfl⟩
  | mark hsender => exact ⟨h.reworked, h.fits, h.written⟩
  | close hsender => exact ⟨h.reworked, h.fits, h.written⟩
  | @act w i k t k' hw hact =>
    have hmore := h.advance hdata hfree hw
    rw [hact] at hmore
    refine hmore.assign w fun j k'' hk => ?_
    cases hk
    obtain ⟨e', he', hfits⟩ := h.fits w i k hw
    obtain ⟨l, hpath, hl⟩ := exists_scriptNames hwalk (List.mem_of_getElem? he')
    exact ⟨e', he', hfits.next h.reworked hl hpath hact⟩
  | @finish w i k t r hw hact =>
    have hmore := h.advance hdata hfree hw
    rw [hact] at hmore
    have hdone : Settled options target t₀ entries e data
        { p with shared := t, processed := p.processed ++ [i] } := by
      refine ⟨hmore.reworked, hmore.fits, fun j hj hej => ?_⟩
      rcases List.mem_append.1 hj with hj | hj
      · exact hmore.written j hj hej
      · obtain rfl := List.mem_singleton.1 hj
        obtain ⟨e', he', hfits⟩ := h.fits w j k hw
        obtain rfl : e' = e := Option.some.inj (he'.symm.trans hej)
        obtain ⟨l, hpath, hl⟩ := exists_scriptNames hwalk (List.mem_of_getElem? he')
        exact hfits.finish h.reworked hl hpath hdata halone hfree.clear hact
    exact hdone.assign w fun j k hk => by cases hk
  | @store w i r a hw hinput =>
    have hkeep : Settled options target t₀ entries e data
        { p with slots := p.slots.set i ⟨a, r⟩ } := ⟨h.reworked, h.fits, h.written⟩
    exact hkeep.assign w fun j k hk => by cases hk
  | @stop w hsender hw => exact h.assign w fun j k hk => by cases hk

theorem Settled.reaches {blank : Result CommandError Entry Unit}
    (hwalk : t₀.walk [scriptExtension] source = .ok entries)
    (hdata : entryBytes options target t₀ e = .ok data)
    (halone : (t₀.write (compiledPath target e) data).2 = .ok ())
    (hfree : Unobstructed options target t₀ entries e)
    (h : Reaches (scriptTasks options target) entries (.initial n entries t₀ blank) p) :
    Settled options target t₀ entries e data p := by
  induction h with
  | refl => exact ⟨.refl _ t₀, by simp [Pool.initial], by simp [Pool.initial]⟩
  | tail _ hstep ih => exact ih.step hwalk hdata halone hfree hstep

end

theorem compileIn_ok {source target : Bytes}
    (h : (compileIn options source target t).2 = .ok ()) :
    ∃ data, scriptBytes options t source target = .ok data ∧
      (t.write target data).2 = .ok () ∧
      (compileIn options source target t).1 = (t.write target data).1 := by
  rw [compileIn] at h ⊢
  cases hbytes : scriptBytes options t source target with
  | error err => simp [hbytes] at h
  | ok data =>
    simp only [hbytes] at h
    refine ⟨data, rfl, ?_, by simp only⟩
    cases hwrite : (t.write target data).2 with
    | error err => simp [hwrite, Except.mapError] at h
    | ok u => rfl

/-- A script that compiles alone has the same bytes in place after a batch, whatever the number of
workers and the order of what they do, and in particular after the scripts were compiled one after
another. -/
theorem batch_eq_alone {options : Options} {source target : Bytes} {w w₁ : World}
    {entries : List Entry} (hwalk : w.tree.walk [scriptExtension] source = .ok entries)
    {e : Entry} (he : e ∈ entries)
    (halone : compileFile options e.path (compiledPath target e) w = (.ok (), w₁))
    (hfree : Unobstructed options target w.tree entries e) :
    ∃ data, w₁.tree.contents? (outputPlace target w.tree e) = some data ∧
      (∀ (wanted : Int) (blank : Result CommandError Entry Unit)
        (p : Pool (workerCount wanted) FileTree Entry Stage CommandError Unit),
        Reaches (scriptTasks options target) entries
            (.initial (workerCount wanted) entries w.tree blank) p → p.Stopped →
          p.shared.contents? (outputPlace target w.tree e) = some data) ∧
      (batch options source target w).2.tree.contents? (outputPlace target w.tree e) =
        some data := by
  obtain ⟨log, hrun⟩ := compileFile_run options e.path (compiledPath target e) w
  rw [hrun, Prod.mk.injEq] at halone
  obtain ⟨hok, rfl⟩ := halone
  obtain ⟨data, hdata, hwrite, htree⟩ := compileIn_ok hok
  obtain ⟨last, hends⟩ := compiledPath_endsWith target e
  have hpool {wanted : Int} {blank : Result CommandError Entry Unit}
      {p : Pool (workerCount wanted) FileTree Entry Stage CommandError Unit}
      (hreach : Reaches (scriptTasks options target) entries
        (.initial (workerCount wanted) entries w.tree blank) p) (hstop : p.Stopped) :
      p.shared.contents? (outputPlace target w.tree e) = some data := by
    obtain ⟨i, hi⟩ := List.mem_iff_getElem?.1 he
    have hlt : i < entries.length := (List.getElem?_eq_some_iff.1 hi).1
    have hprocessed : i ∈ p.processed :=
      (hreach.coherent.perm_range (workerCount_pos wanted) hstop).mem_iff.2 (List.mem_range.2 hlt)
    exact (Settled.reaches hwalk hdata hwrite hfree hreach).written i hprocessed hi
  refine ⟨data, ?_, fun wanted blank p => hpool, ?_⟩
  · dsimp only [outputPlace]
    rw [htree]
    exact contents?_write hends hwrite
  · obtain ⟨p, hreach, hstop, hshared⟩ := (worksThrough_batch hwalk).exists_stopped
      (workerCount_pos 1) ⟨e, .ok ()⟩
    rw [← hshared]
    exact hpool hreach hstop

/-- A working directory with two scripts below `in`, the first with a window. -/
def twoScripts (first second : Bytes) : World where
  tree :=
    { cwd := [utf8 "w"]
      files := [([utf8 "w", utf8 "in", first], utf8 "#window 0:1\n"),
        ([utf8 "w", utf8 "in", second], [])] }
  environment := ⟨[]⟩

theorem batch_eq_alone_twoScripts :
    let w := twoScripts (utf8 "a.txt") (utf8 "b.TXT")
    let e : Entry := ⟨utf8 "/w/in/a.txt", utf8 "a.txt", utf8 ".txt"⟩
    let e' : Entry := ⟨utf8 "/w/in/b.TXT", utf8 "b.TXT", utf8 ".txt"⟩
    ∃ data,
      (compileFile {} e.path (compiledPath (utf8 "out") e) w).2.tree.contents?
        [utf8 "w", utf8 "out", utf8 "a.ape"] = some data ∧
      (∀ (wanted : Int) (blank : Result CommandError Entry Unit)
        (p : Pool (workerCount wanted) FileTree Entry Stage CommandError Unit),
        Reaches (scriptTasks {} (utf8 "out")) [e, e']
            (.initial (workerCount wanted) [e, e'] w.tree blank) p → p.Stopped →
          p.shared.contents? [utf8 "w", utf8 "out", utf8 "a.ape"] = some data) ∧
      (batch {} (utf8 "in") (utf8 "out") w).2.tree.contents?
        [utf8 "w", utf8 "out", utf8 "a.ape"] = some data := by
  intro w e e'
  have hwalk : w.tree.walk [scriptExtension] (utf8 "in") = .ok [e, e'] := by cbv
  have halone : (compileFile {} e.path (compiledPath (utf8 "out") e) w).1 = .ok () := by cbv
  have hplace : outputPlace (utf8 "out") w.tree e = [utf8 "w", utf8 "out", utf8 "a.ape"] := by
    decide +kernel
  have hplace' : outputPlace (utf8 "out") w.tree e' = [utf8 "w", utf8 "out", utf8 "b.ape"] := by
    decide +kernel
  have hfree : Unobstructed {} (utf8 "out") w.tree [e, e'] e := by
    intro e'' he'' data _ hplaces
    simp only [List.mem_cons, List.not_mem_nil, or_false] at he''
    rcases he'' with rfl | rfl
    · rfl
    · rw [hplace, hplace'] at hplaces
      exact absurd hplaces (by decide)
  rw [← hplace]
  exact batch_eq_alone hwalk List.mem_cons_self (Prod.ext halone rfl) hfree

/-- Two scripts whose names differ in the case of the extension have one output. The batch reports
no failure, and the bytes of the first script are lost. -/
theorem batch_ne_alone_sameOutput :
    (compileFile {} (utf8 "/w/in/a.TXT") (utf8 "out/a.ape")
      (twoScripts (utf8 "a.TXT") (utf8 "a.txt"))).1 = .ok () ∧
    (batch {} (utf8 "in") (utf8 "out") (twoScripts (utf8 "a.TXT") (utf8 "a.txt"))).1 = .ok () ∧
    (batch {} (utf8 "in") (utf8 "out")
        (twoScripts (utf8 "a.TXT") (utf8 "a.txt"))).2.tree.contents?
          [utf8 "w", utf8 "out", utf8 "a.ape"] ≠
      (compileFile {} (utf8 "/w/in/a.TXT") (utf8 "out/a.ape")
        (twoScripts (utf8 "a.TXT") (utf8 "a.txt"))).2.tree.contents?
          [utf8 "w", utf8 "out", utf8 "a.ape"] := by
  refine ⟨by cbv, by cbv, of_decide_eq_false ?_⟩
  cbv

end ApeScript.Cli
