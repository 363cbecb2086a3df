import ApeScript.Graph.Query
import Mathlib.Data.Finset.Image

/-!
# The reference graph after any number of loads

A statement is read here as a change of a property graph that has one node for each kind and label:
merging makes what is not there, setting and removing change the properties of a node, deleting
removes edges. `Store.unresolved` holds the nodes that the query for unresolved labels selects.

The edges are at any time the references of the latest versions of the files. A node has room for
one file only, so it is marked as defined exactly as long as the file of the last load that defined
it has not been loaded again, whatever other files say. A label is resolved by the latest version of
any file only if all the loads that define it go by one name.
-/

namespace ApeScript.Graph

/-- The properties of a node; what is not set is false or absent. -/
structure Properties where
  defined : Bool := false
  file : Option Bytes := none
  name : Option Bytes := none
  deriving DecidableEq

structure Edge where
  source : Node
  target : Node
  via : Bytes
  file : Bytes
  deriving DecidableEq

structure Store where
  nodes : Node → Option Properties
  edges : Finset Edge

namespace Store

def empty : Store := ⟨fun _ => none, ∅⟩

/-- Makes a node unless it is there. -/
def merge (g : Store) (n : Node) (fresh : Properties) : Store :=
  { g with nodes := Function.update g.nodes n (some ((g.nodes n).getD fresh)) }

def set (g : Store) (n : Node) (change : Properties → Properties) : Store :=
  { g with nodes := Function.update g.nodes n ((g.nodes n).map change) }

def apply (g : Store) : Statement → Store
  | .uniqueLabels _ => g
  | .forgetReferences file => { g with edges := g.edges.filter (·.file ≠ file) }
  | .forgetDefinitions file =>
      { g with nodes := fun n => (g.nodes n).map fun p =>
          if p.file = some file then { p with defined := false, file := none } else p }
  | .define n file =>
      (g.merge n {}).set n fun p =>
        { p with defined := true, file := some file, name := some (Label.text n.label) }
  | .refer source target via file =>
      let g := (g.merge source {}).merge target { name := some (Label.text target.label) }
      { g with edges := insert ⟨source, target, via, file⟩ g.edges }

def run (g : Store) (statements : List Statement) : Store := statements.foldl apply g

def unresolved (g : Store) : Finset Node :=
  (g.edges.image (·.target)).filter fun n => (g.nodes n).any (!·.defined)

def definer (g : Store) (n : Node) : Option Bytes := (g.nodes n).bind (·.file)

/-- A node is marked as defined exactly when it carries a file, and edges end at nodes. -/
structure Sound (g : Store) : Prop where
  defined : ∀ n p, g.nodes n = some p → p.defined = p.file.isSome
  target : ∀ e ∈ g.edges, ∃ p, g.nodes e.target = some p

variable {g : Store} {n m : Node} {e : Edge} {file : Bytes}

theorem sound_empty : empty.Sound := by
  constructor
  · intro n p hp
    cases hp
  · intro e he
    exact absurd he (Finset.notMem_empty e)

theorem mem_unresolved (hg : g.Sound) :
    n ∈ g.unresolved ↔ (∃ e ∈ g.edges, e.target = n) ∧ g.definer n = none := by
  unfold unresolved
  rw [Finset.mem_filter, Finset.mem_image]
  refine and_congr_right fun htarget => ?_
  obtain ⟨e, he, rfl⟩ := htarget
  obtain ⟨p, hp⟩ := hg.target e he
  have hdefined := hg.defined _ p hp
  simp [definer, hp, hdefined]

/-! ### Single statements -/

theorem nodes_merge (fresh : Properties) :
    (g.merge m fresh).nodes n = if n = m then some ((g.nodes m).getD fresh) else g.nodes n := by
  by_cases h : n = m
  · subst h
    simp [merge]
  · simp [merge, h]

theorem nodes_set (change : Properties → Properties) :
    (g.set m change).nodes n = if n = m then (g.nodes m).map change else g.nodes n := by
  by_cases h : n = m
  · subst h
    simp [set]
  · simp [set, h]

theorem Sound.merge (hg : g.Sound) {fresh : Properties}
    (hfresh : fresh.defined = fresh.file.isSome) :
    (g.merge m fresh).Sound := by
  constructor
  · intro n p hp
    rw [nodes_merge] at hp
    split at hp
    · cases hm : g.nodes m with
      | none =>
        rw [hm] at hp
        cases hp
        exact hfresh
      | some q =>
        rw [hm] at hp
        cases hp
        exact hg.defined m q hm
    · exact hg.defined n p hp
  · intro e he
    obtain ⟨p, hp⟩ := hg.target e he
    rw [nodes_merge]
    split
    · exact ⟨_, rfl⟩
    · exact ⟨p, hp⟩

theorem Sound.apply (hg : g.Sound) (s : Statement) : (g.apply s).Sound := by
  cases s with
  | uniqueLabels kind => exact hg
  | forgetReferences file =>
    constructor
    · exact hg.defined
    · intro e he
      exact hg.target e (Finset.mem_of_mem_filter e he)
  | forgetDefinitions file =>
    constructor
    · intro n p hp
      obtain ⟨q, hq, rfl⟩ := Option.map_eq_some_iff.1 hp
      split
      · rfl
      · exact hg.defined n q hq
    · intro e he
      obtain ⟨p, hp⟩ := hg.target e he
      exact ⟨_, congrArg (Option.map _) hp⟩
  | define m file =>
    have hmerged : (g.merge m {}).Sound := hg.merge rfl
    constructor
    · intro n p hp
      rw [Store.apply, nodes_set] at hp
      split at hp
      · obtain ⟨q, -, rfl⟩ := Option.map_eq_some_iff.1 hp
        rfl
      · exact hmerged.defined n p hp
    · intro e he
      obtain ⟨p, hp⟩ := hmerged.target e he
      rw [Store.apply, nodes_set]
      split
      · rename_i h
        exact ⟨_, congrArg (Option.map _) (h ▸ hp)⟩
      · exact ⟨p, hp⟩
  | refer source target via file =>
    have hmerged : ((g.merge source {}).merge target
        { name := some (Label.text target.label) }).Sound := (hg.merge rfl).merge rfl
    constructor
    · exact hmerged.defined
    · intro e he
      rcases Finset.mem_insert.1 he with rfl | he
      · exact ⟨_, by rw [Store.apply, nodes_merge, if_pos rfl]⟩
      · exact hmerged.target e he

theorem Sound.run (hg : g.Sound) (statements : List Statement) : (g.run statements).Sound := by
  induction statements generalizing g with
  | nil => exact hg
  | cons s rest ih => exact ih (hg.apply s)

theorem definer_merge (fresh : Properties) (hfresh : fresh.file = none) :
    (g.merge m fresh).definer n = g.definer n := by
  unfold definer
  rw [nodes_merge]
  split
  · rename_i h
    subst h
    cases g.nodes n with
    | none => exact hfresh
    | some p => rfl
  · rfl

theorem definer_forget : (g.apply (.forgetDefinitions file)).definer n =
    if g.definer n = some file then none else g.definer n := by
  have hnodes : (g.apply (.forgetDefinitions file)).nodes n = (g.nodes n).map fun p =>
      if p.file = some file then { p with defined := false, file := none } else p := rfl
  unfold definer
  rw [hnodes]
  cases g.nodes n with
  | none => rfl
  | some p =>
    by_cases h : p.file = some file
    · simp [h]
    · simp [h]

theorem definer_define : (g.apply (.define m file)).definer n =
    if n = m then some file else g.definer n := by
  have hmerged : (g.merge m {}).definer n = g.definer n := definer_merge {} rfl
  unfold definer at hmerged ⊢
  rw [Store.apply, nodes_set]
  split
  · rw [nodes_merge, if_pos rfl]
    rfl
  · exact hmerged

theorem definer_refer (source target : Node) (via : Bytes) :
    (g.apply (.refer source target via file)).definer n = g.definer n :=
  (definer_merge _ rfl).trans (definer_merge _ rfl)

/-! ### The statements of a file -/

theorem definer_defines (nodes : List Node) :
    (g.run (nodes.map (.define · file))).definer n =
      if n ∈ nodes then some file else g.definer n := by
  induction nodes generalizing g with
  | nil => simp [Store.run]
  | cons m rest ih =>
    rw [List.map_cons, Store.run, List.foldl_cons]
    refine ih.trans ?_
    rw [definer_define]
    by_cases hrest : n ∈ rest
    · simp [hrest]
    · simp [hrest]

theorem edges_defines (nodes : List Node) :
    (g.run (nodes.map (.define · file))).edges = g.edges := by
  induction nodes generalizing g with
  | nil => rfl
  | cons m rest ih => exact ih

def edgeOf (file : Bytes) (r : Reference) : Edge :=
  ⟨.ofOrigin r.origin, ⟨.ofTarget r.target, r.label⟩, r.via, file⟩

theorem definer_refers (references : List Reference) :
    (g.run (references.map (referenceStatement file))).definer n = g.definer n := by
  induction references generalizing g with
  | nil => rfl
  | cons r rest ih => exact ih.trans (definer_refer ..)

theorem mem_edges_refers (references : List Reference) :
    e ∈ (g.run (references.map (referenceStatement file))).edges ↔
      e ∈ g.edges ∨ ∃ r ∈ references, edgeOf file r = e := by
  induction references generalizing g with
  | nil => simp [Store.run]
  | cons r rest ih =>
    have hfirst : e ∈ (g.apply (referenceStatement file r)).edges ↔
        edgeOf file r = e ∨ e ∈ g.edges := by
      change e ∈ insert (edgeOf file r) g.edges ↔ _
      rw [Finset.mem_insert, eq_comm]
    refine ih.trans ?_
    rw [hfirst, List.exists_mem_cons_iff]
    tauto

end Store

/-! ### Loads -/

def definitions (f : File) : List Node :=
  f.windows.map (fun w => ⟨.window, w.id⟩) ++ f.switches.map fun s => ⟨.switch, s.label⟩

def targets (f : File) : List Node :=
  f.references.map fun r => ⟨.ofTarget r.target, r.label⟩

structure Load where
  name : Bytes
  contents : File

def Store.load (g : Store) (l : Load) : Store := g.run (fileStatements l.name l.contents)

def loadAll (loads : List Load) : Store := loads.foldl Store.load .empty

namespace Store

variable {g : Store} {n : Node} {e : Edge} {l : Load}

theorem load_eq (g : Store) (l : Load) : g.load l =
    (((g.apply (.forgetReferences l.name)).apply (.forgetDefinitions l.name)).run
      ((definitions l.contents).map (.define · l.name))).run
        (l.contents.references.map (referenceStatement l.name)) := by
  simp [load, run, fileStatements, definitions, List.foldl_append, List.foldl_map]

theorem definer_load : (g.load l).definer n =
    if n ∈ definitions l.contents then some l.name
    else if g.definer n = some l.name then none else g.definer n := by
  rw [load_eq, definer_refers, definer_defines, definer_forget]
  rfl

theorem mem_edges_load : e ∈ (g.load l).edges ↔
    (e ∈ g.edges ∧ e.file ≠ l.name) ∨ ∃ r ∈ l.contents.references, edgeOf l.name r = e := by
  rw [load_eq, mem_edges_refers, edges_defines]
  refine or_congr_left ?_
  exact Finset.mem_filter

end Store

def Remains (leaves : Load → Prop) (loads : List Load) (l : Load) : Prop :=
  ∃ before after, loads = before ++ l :: after ∧ ∀ m ∈ after, leaves m

def IsLatest (loads : List Load) (l : Load) : Prop := Remains (·.name ≠ l.name) loads l

def DefinedLast (loads : List Load) (n : Node) (l : Load) : Prop :=
  n ∈ definitions l.contents ∧
    Remains (fun m => m.name ≠ l.name ∧ n ∉ definitions m.contents) loads l

variable {loads : List Load} {l m : Load} {n : Node} {e : Edge}

theorem not_remains_nil {leaves : Load → Prop} : ¬ Remains leaves [] l := by
  rintro ⟨before, after, h, -⟩
  exact absurd h (by simp)

theorem remains_concat {leaves : Load → Prop} :
    Remains leaves (loads ++ [m]) l ↔ l = m ∨ (Remains leaves loads l ∧ leaves m) := by
  constructor
  · rintro ⟨before, after, h, hafter⟩
    rcases List.eq_nil_or_concat after with rfl | ⟨after, last, rfl⟩
    · left
      exact (List.concat_inj.1 (by simpa using h)).2.symm
    · right
      have h' : loads ++ [m] = (before ++ l :: after) ++ [last] := by simpa using h
      obtain ⟨rfl, rfl⟩ := List.append_inj' h' rfl |>.imp_right List.singleton_inj.1
      refine ⟨⟨before, after, rfl, fun k hk => hafter k (by simp [hk])⟩, hafter m (by simp)⟩
  · rintro (rfl | ⟨⟨before, after, rfl, hafter⟩, hm⟩)
    · exact ⟨loads, [], rfl, by simp⟩
    · refine ⟨before, after ++ [m], by simp, ?_⟩
      simpa [or_imp, forall_and] using ⟨hafter, hm⟩

theorem loadAll_concat : loadAll (loads ++ [l]) = (loadAll loads).load l := by
  simp [loadAll]

theorem sound_loadAll (loads : List Load) : (loadAll loads).Sound := by
  induction loads using List.reverseRecOn with
  | nil => exact Store.sound_empty
  | append_singleton loads l ih =>
    rw [loadAll_concat]
    exact ih.run _

/-- The edges are the references of the latest versions. -/
theorem mem_edges_loadAll : e ∈ (loadAll loads).edges ↔
    ∃ l, IsLatest loads l ∧ ∃ r ∈ l.contents.references, Store.edgeOf l.name r = e := by
  induction loads using List.reverseRecOn with
  | nil => simp [loadAll, Store.empty, IsLatest, not_remains_nil]
  | append_singleton loads m ih =>
    rw [loadAll_concat, Store.mem_edges_load, ih]
    simp only [IsLatest, remains_concat]
    constructor
    · rintro (⟨⟨l, hl, r, hr, rfl⟩, hname⟩ | ⟨r, hr, he⟩)
      · exact ⟨l, Or.inr ⟨hl, Ne.symm hname⟩, r, hr, rfl⟩
      · exact ⟨m, Or.inl rfl, r, hr, he⟩
    · rintro ⟨l, rfl | ⟨hl, hname⟩, r, hr, rfl⟩
      · exact Or.inr ⟨r, hr, rfl⟩
      · exact Or.inl ⟨⟨l, hl, r, hr, rfl⟩, Ne.symm hname⟩

/-- A node carries the file of the last load that defined it, until that file is loaded again. -/
theorem definer_loadAll (name : Bytes) : (loadAll loads).definer n = some name ↔
    ∃ l, DefinedLast loads n l ∧ l.name = name := by
  induction loads using List.reverseRecOn with
  | nil => simp [loadAll, Store.empty, Store.definer, DefinedLast, not_remains_nil]
  | append_singleton loads m ih =>
    rw [loadAll_concat, Store.definer_load]
    simp only [DefinedLast, remains_concat] at ih ⊢
    by_cases hm : n ∈ definitions m.contents
    · simp only [hm, if_true, not_true_eq_false, and_false, or_false]
      constructor
      · intro h
        exact ⟨m, ⟨hm, rfl⟩, Option.some.inj h⟩
      · rintro ⟨l, ⟨-, rfl⟩, rfl⟩
        rfl
    · have hlater : ((loadAll loads).definer n = some name ∧ m.name ≠ name) ↔
          ∃ l, (n ∈ definitions l.contents ∧ (l = m ∨
            Remains (fun m => m.name ≠ l.name ∧ n ∉ definitions m.contents) loads l ∧
              m.name ≠ l.name ∧ n ∉ definitions m.contents)) ∧ l.name = name := by
        rw [ih]
        constructor
        · rintro ⟨⟨l, ⟨hn, hl⟩, rfl⟩, hname⟩
          exact ⟨l, ⟨hn, Or.inr ⟨hl, hname, hm⟩⟩, rfl⟩
        · rintro ⟨l, ⟨hn, rfl | ⟨hl, hname, -⟩⟩, rfl⟩
          · exact absurd hn hm
          · exact ⟨⟨l, ⟨hn, hl⟩, rfl⟩, hname⟩
      rw [← hlater, if_neg hm]
      by_cases hheld : (loadAll loads).definer n = some m.name
      · rw [if_pos hheld, hheld]
        simp
      · rw [if_neg hheld]
        refine ⟨fun h => ⟨h, ?_⟩, And.left⟩
        rintro rfl
        exact hheld h

def Referred (loads : List Load) (n : Node) : Prop :=
  ∃ l, IsLatest loads l ∧ n ∈ targets l.contents

def Defined (loads : List Load) (n : Node) : Prop :=
  ∃ l, IsLatest loads l ∧ n ∈ definitions l.contents

theorem exists_edge_iff : (∃ e ∈ (loadAll loads).edges, e.target = n) ↔ Referred loads n := by
  constructor
  · rintro ⟨e, he, rfl⟩
    obtain ⟨l, hl, r, hr, rfl⟩ := mem_edges_loadAll.1 he
    exact ⟨l, hl, List.mem_map_of_mem hr⟩
  · rintro ⟨l, hl, hn⟩
    obtain ⟨r, hr, rfl⟩ := List.mem_map.1 hn
    exact ⟨_, mem_edges_loadAll.2 ⟨l, hl, r, hr, rfl⟩, rfl⟩

theorem definer_eq_none_iff :
    (loadAll loads).definer n = none ↔ ¬ ∃ l, DefinedLast loads n l := by
  rw [Option.eq_none_iff_forall_ne_some]
  simp only [ne_eq, definer_loadAll, not_exists, not_and]
  constructor
  · intro h l hl
    exact h l.name l hl rfl
  · intro h name l hl _
    exact h l hl

/-- Where all loads that define a node go by one name, the last of them is the latest version. -/
theorem exists_definedLast_iff (hname : ∀ l ∈ loads, ∀ m ∈ loads,
    n ∈ definitions l.contents → n ∈ definitions m.contents → l.name = m.name) :
    (∃ l, DefinedLast loads n l) ↔ Defined loads n := by
  constructor
  · rintro ⟨l, hn, before, after, hloads, hafter⟩
    exact ⟨l, ⟨before, after, hloads, fun m hm => (hafter m hm).1⟩, hn⟩
  · rintro ⟨l, ⟨before, after, rfl, hafter⟩, hn⟩
    refine ⟨l, hn, before, after, rfl, fun m hm => ⟨hafter m hm, fun hdefines => ?_⟩⟩
    exact hafter m hm (hname m (by simp [hm]) l (by simp) hdefines hn)

/-- The query selects the nodes that the latest version of some file refers to, unless the last
load that defined the node is still the latest of its name. So it leaves out just those that the
latest version of some file defines, if all loads that define the node go by one name. -/
theorem mem_unresolved_loadAll (loads : List Load) (n : Node) :
    (n ∈ (loadAll loads).unresolved ↔ Referred loads n ∧ ¬ ∃ l, DefinedLast loads n l) ∧
      ((∀ l ∈ loads, ∀ m ∈ loads, n ∈ definitions l.contents → n ∈ definitions m.contents →
          l.name = m.name) →
        (n ∈ (loadAll loads).unresolved ↔ Referred loads n ∧ ¬ Defined loads n)) := by
  have hselected : n ∈ (loadAll loads).unresolved ↔
      Referred loads n ∧ ¬ ∃ l, DefinedLast loads n l := by
    rw [Store.mem_unresolved (sound_loadAll loads), exists_edge_iff, definer_eq_none_iff]
  refine ⟨hselected, fun hname => ?_⟩
  rw [hselected, exists_definedLast_iff hname]

/-- A window 1 that shows the window 2, which another file defines at first and then no longer. -/
def abandoned : List Load :=
  [⟨utf8 "a.ape", ⟨[⟨1, [.subWindow 2]⟩], []⟩⟩, ⟨utf8 "b.ape", ⟨[⟨2, []⟩], []⟩⟩] ++
    [⟨utf8 "b.ape", ⟨[], []⟩⟩]

theorem mem_unresolved_loadAll_abandoned :
    (∀ l ∈ abandoned, ∀ m ∈ abandoned, ⟨.window, 2⟩ ∈ definitions l.contents →
        ⟨.window, 2⟩ ∈ definitions m.contents → l.name = m.name) ∧
      ⟨.window, 2⟩ ∈ (loadAll abandoned).unresolved := by
  have hname : ∀ l ∈ abandoned, ∀ m ∈ abandoned, ⟨.window, 2⟩ ∈ definitions l.contents →
      ⟨.window, 2⟩ ∈ definitions m.contents → l.name = m.name := by decide
  refine ⟨hname, ((mem_unresolved_loadAll abandoned _).2 hname).2 ⟨?_, ?_⟩⟩
  · exact ⟨_, ⟨[], _, rfl, by decide⟩, by decide⟩
  · rintro ⟨l, hlatest, hdefines⟩
    rcases remains_concat.1 hlatest with rfl | ⟨⟨before, after, h, -⟩, hother⟩
    · exact absurd hdefines (by decide)
    · have hmem : l ∈ before ++ l :: after := List.mem_append_right before List.mem_cons_self
      rw [← h] at hmem
      rcases List.mem_pair.1 hmem with rfl | rfl
      · exact absurd hdefines (by decide)
      · exact hother rfl

def selfReferring : File := ⟨[⟨1, [.subWindow 1]⟩], []⟩

/-- The window is defined in two files, and then taken out of the one that was loaded last. -/
def takenOut : List Load :=
  [⟨utf8 "a.ape", selfReferring⟩, ⟨utf8 "b.ape", selfReferring⟩, ⟨utf8 "b.ape", ⟨[], []⟩⟩]

/-- A label that the latest version of one file defines is selected all the same. -/
theorem mem_unresolved_takenOut : ¬ ∀ loads n,
    n ∈ (loadAll loads).unresolved ↔ Referred loads n ∧ ¬ Defined loads n := by
  intro h
  have hselected : ⟨.window, 1⟩ ∈ (loadAll takenOut).unresolved := by decide
  have hdefined : Defined takenOut ⟨.window, 1⟩ := by
    refine ⟨⟨utf8 "a.ape", selfReferring⟩, ⟨[], _, rfl, ?_⟩, by decide⟩
    decide
  exact ((h _ _).1 hselected).2 hdefined

end ApeScript.Graph
