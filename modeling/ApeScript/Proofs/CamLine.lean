import ApeScript.Proofs.WindowLines

/-!
# The line of a camera

A camera is written as its name and the settings that are given, in a fixed order. Every setting is
read back, those without a value as one.
-/

namespace ApeScript

def CamParams.mark (v : UInt16) : UInt16 := if v = unset then unset else 1

def Cam.reread (c : Cam) : Cam :=
  { c with params := { c.params with
      restore := CamParams.mark c.params.restore, zip := CamParams.mark c.params.zip } }

/-- A camera that can be read back. -/
structure Cam.Legible (c : Cam) : Prop where
  name : Script.Identifier c.name
  source : ∀ s ∈ c.source, Script.Enclosed s
  target : ∀ s ∈ c.target, Script.Enclosed s
  owner : ∀ s ∈ c.owner, Script.Enclosed s
  occlude : c.params.occlude = CamParams.unset ∨ c.params.occlude ≤ 1

namespace Compiler

open Lexer

variable {c : CompileContext} {w : WindowDraft} {rest tail : Bytes} {cam cam' done : Cam}

def parseCamRound (cam : Cam) : Compiler (Cam ⊕ Cam) := do
  if ← atLineEnd then return .inr cam
  return .inl (← parseCamSetting cam (← Lexer.expect .identifier))

/-- A setting: its keyword and what is read after it. -/
theorem finishes_camSetting {word arg : Bytes} (hword : Script.Identifier word)
    (hdelimited : ∀ rest, ∀ b ∈ (arg ++ (tail ++ 10 :: rest)).head?, isIdentifierByte b = false)
    (hsetting : ∀ loc rest, Reads (parseCamSetting cam ⟨.identifier, word, loc⟩) c
      ⟨[], arg ++ rest⟩ ⟨[], rest⟩ (· = cam'))
    (htail : Finishes parseCamRound c tail cam' done) :
    Finishes parseCamRound c (32 :: (word ++ arg) ++ tail) cam done := by
  refine .round (List.cons_ne_nil _ _) (fun rest => ?_) htail
  have hrest : 32 :: (word ++ arg) ++ (tail ++ 10 :: rest) =
      32 :: (word ++ (arg ++ (tail ++ 10 :: rest))) := by simp
  rw [hrest]
  refine .bind (reads_atLineEnd_word (first?_blank.trans
    (first?_identifier hword (hdelimited rest)))) ?_
  rintro _ rfl
  refine .bind (.lift (succeeds_expect succeeds_read_queued)) fun token ht => ?_
  obtain ⟨type, word, loc⟩ := token
  cases ht
  refine .bind (hsetting loc _) ?_
  rintro _ rfl
  exact .pure rfl

def camText (word : Bytes) (s : Option Bytes) : Bytes :=
  match s with
  | some s => utf8 " " ++ word ++ utf8 "(" ++ s ++ utf8 ")"
  | none => []

theorem camText_some (word s : Bytes) :
    camText word (some s) = 32 :: (word ++ 40 :: (s ++ [41])) := by
  simp [camText, utf8_blank, show utf8 "(" = [40] from rfl, show utf8 ")" = [41] from rfl]

def camNumberText (word : Bytes) (v : UInt16) : Bytes :=
  if v = CamParams.unset then [] else
    utf8 " " ++ word ++ utf8 "(" ++ Bytes.ofNat v.toNat ++ utf8 ")"

theorem camNumberText_eq (word : Bytes) (v : UInt16) :
    camNumberText word v = if v = CamParams.unset then [] else
      32 :: (word ++ 40 :: (Bytes.ofNat v.toNat ++ [41])) := by
  simp [camNumberText, utf8_blank, show utf8 "(" = [40] from rfl, show utf8 ")" = [41] from rfl]

def camMarkText (word : Bytes) (v : UInt16) : Bytes :=
  if v = CamParams.unset then [] else utf8 " " ++ word

theorem spaced_camText (word : Bytes) (s : Option Bytes) : Spaced (camText word s) := by
  cases s with
  | none => exact .nil
  | some s =>
    rw [camText_some]
    exact .blank _

theorem spaced_camNumberText (word : Bytes) (v : UInt16) : Spaced (camNumberText word v) := by
  rw [camNumberText_eq]
  split
  · exact .nil
  · exact .blank _

theorem spaced_camMarkText (word : Bytes) (v : UInt16) : Spaced (camMarkText word v) := by
  unfold camMarkText
  split
  · exact .nil
  · exact .blank _

/-- A text setting, from what its keyword does with a text. -/
theorem finishes_camText {word : Bytes} {s : Option Bytes} (set : Cam → Option Bytes → Cam)
    (hnone : set cam none = cam)
    (hword : Script.Identifier word) (hs : ∀ t ∈ s, Script.Enclosed t)
    (hparse : ∀ loc, parseCamSetting cam ⟨.identifier, word, loc⟩ =
      (do return set cam (some (← parseCamText))))
    (htail : Finishes parseCamRound c tail (set cam s) done) :
    Finishes parseCamRound c (camText word s ++ tail) cam done := by
  cases s with
  | none =>
    rw [hnone] at htail
    exact htail
  | some s =>
    rw [camText_some]
    refine finishes_camSetting hword (by rintro _ _ ⟨⟩; rfl) (fun loc rest => ?_) htail
    rw [hparse]
    have htext : 40 :: (s ++ [41]) ++ rest = 40 :: (s ++ 41 :: rest) := by simp
    rw [htext]
    refine .bind (reads_parseCamText (hs s rfl)) ?_
    rintro _ rfl
    exact .pure rfl

/-- A number setting, from what its keyword does with a number. -/
theorem finishes_camNumber {word : Bytes} {v : UInt16} (set : CamParams → UInt16 → CamParams)
    (hunset : set cam.params CamParams.unset = cam.params)
    (hword : Script.Identifier word)
    (hparse : ∀ loc, parseCamSetting cam ⟨.identifier, word, loc⟩ =
      (do return { cam with params := set cam.params (← parseCamNumber) }))
    (htail : Finishes parseCamRound c tail { cam with params := set cam.params v } done) :
    Finishes parseCamRound c (camNumberText word v ++ tail) cam done := by
  rw [camNumberText_eq]
  split
  · rename_i hv
    rw [hv, hunset] at htail
    exact htail
  · rename_i hv
    refine finishes_camSetting hword (by rintro _ _ ⟨⟩; rfl) (fun loc rest => ?_) htail
    rw [hparse]
    have htext : 40 :: (Bytes.ofNat v.toNat ++ [41]) ++ rest =
        40 :: (Bytes.ofNat v.toNat ++ 41 :: rest) := by simp
    rw [htext]
    refine .bind (reads_parseCamNumber hv) ?_
    rintro _ rfl
    exact .pure rfl

theorem finishes_camOcclude {v : UInt16} (hv : v = CamParams.unset ∨ v ≤ 1)
    (hunset : cam.params.occlude = CamParams.unset)
    (htail : Finishes parseCamRound c tail { cam with params := { cam.params with occlude := v } }
      done) :
    Finishes parseCamRound c (camNumberText (utf8 "occlude") v ++ tail) cam done := by
  rw [camNumberText_eq]
  split
  · rename_i hv
    rw [hv, ← hunset] at htail
    exact htail
  · rename_i hset
    refine finishes_camSetting (.of_all rfl) (by rintro _ _ ⟨⟩; rfl) (fun loc rest => ?_) htail
    have htext : 40 :: (Bytes.ofNat v.toNat ++ [41]) ++ rest =
        40 :: (Bytes.ofNat v.toNat ++ 41 :: rest) := by simp
    rw [htext]
    refine .bind (reads_parseCamNumber hset) ?_
    rintro _ rfl
    rw [if_neg (UInt16.not_lt.2 (hv.resolve_left hset))]
    exact .pure rfl

theorem finishes_camMark {word : Bytes} {v : UInt16} (set : CamParams → UInt16 → CamParams)
    (hunset : set cam.params CamParams.unset = cam.params) (hword : Script.Identifier word)
    (hspaced : Spaced tail)
    (hparse : ∀ loc, parseCamSetting cam ⟨.identifier, word, loc⟩ =
      pure { cam with params := set cam.params 1 })
    (htail : Finishes parseCamRound c tail
      { cam with params := set cam.params (CamParams.mark v) } done) :
    Finishes parseCamRound c (camMarkText word v ++ tail) cam done := by
  unfold camMarkText
  rw [CamParams.mark] at htail
  split
  · rename_i hv
    rw [if_pos hv, hunset] at htail
    exact htail
  · rename_i hv
    rw [if_neg hv] at htail
    rw [← List.append_nil word, utf8_blank, List.singleton_append]
    refine finishes_camSetting hword hspaced.delimits (fun loc rest => ?_) htail
    rw [hparse]
    exact .pure rfl

def camSettings (c : Cam) : Bytes :=
  camText (utf8 "from") c.source ++ (camText (utf8 "to") c.target ++
    (camText (utf8 "owner") c.owner ++ (camNumberText (utf8 "yaw") c.params.yaw ++
    (camNumberText (utf8 "pitch") c.params.pitch ++ (camNumberText (utf8 "fov") c.params.fov ++
    (camNumberText (utf8 "far") c.params.far ++ (camNumberText (utf8 "near") c.params.near ++
    (camNumberText (utf8 "fwd") c.params.fwd ++ (camNumberText (utf8 "speed") c.params.speed ++
    (camNumberText (utf8 "lift") c.params.lift ++ (camNumberText (utf8 "lag") c.params.lag ++
    (camNumberText (utf8 "occlude") c.params.occlude ++
    (camMarkText (utf8 "restore") c.params.restore ++
    (camMarkText (utf8 "zip") c.params.zip ++ []))))))))))))))

theorem finishes_camSettings {cam : Cam} (hcam : cam.Legible) :
    Finishes parseCamRound c (camSettings cam) ⟨cam.name, none, none, none, .allUnset⟩
      cam.reread := by
  refine finishes_camText (fun c s => { c with source := s }) rfl (.of_all rfl) hcam.source
    (fun _ => rfl) ?_
  refine finishes_camText (fun c s => { c with target := s }) rfl (.of_all rfl) hcam.target
    (fun _ => rfl) ?_
  refine finishes_camText (fun c s => { c with owner := s }) rfl (.of_all rfl) hcam.owner
    (fun _ => rfl) ?_
  refine finishes_camNumber (fun p v => { p with yaw := v }) rfl (.of_all rfl) (fun _ => rfl) ?_
  refine finishes_camNumber (fun p v => { p with pitch := v }) rfl (.of_all rfl) (fun _ => rfl) ?_
  refine finishes_camNumber (fun p v => { p with fov := v }) rfl (.of_all rfl) (fun _ => rfl) ?_
  refine finishes_camNumber (fun p v => { p with far := v }) rfl (.of_all rfl) (fun _ => rfl) ?_
  refine finishes_camNumber (fun p v => { p with near := v }) rfl (.of_all rfl) (fun _ => rfl) ?_
  refine finishes_camNumber (fun p v => { p with fwd := v }) rfl (.of_all rfl) (fun _ => rfl) ?_
  refine finishes_camNumber (fun p v => { p with speed := v }) rfl (.of_all rfl) (fun _ => rfl) ?_
  refine finishes_camNumber (fun p v => { p with lift := v }) rfl (.of_all rfl) (fun _ => rfl) ?_
  refine finishes_camNumber (fun p v => { p with lag := v }) rfl (.of_all rfl) (fun _ => rfl) ?_
  refine finishes_camOcclude hcam.occlude rfl ?_
  refine finishes_camMark (fun p v => { p with restore := v }) rfl (.of_all rfl)
    (.append (spaced_camMarkText _ _) .nil) (fun _ => rfl) ?_
  refine finishes_camMark (fun p v => { p with zip := v }) rfl (.of_all rfl) .nil (fun _ => rfl) ?_
  refine .stop fun rest => .bind (reads_atLineEnd .unread) ?_
  rintro _ rfl
  exact .pure rfl

theorem writeCam_eq (cam : Cam) :
    Script.writeCam cam = utf8 "cam" ++ 32 :: (cam.name ++ camSettings cam) ++ [10] := by
  have hwritten : Script.writeCam cam = utf8 "cam" ++ [32] ++ cam.name ++
      camText (utf8 "from") cam.source ++ camText (utf8 "to") cam.target ++
      camText (utf8 "owner") cam.owner ++ camNumberText (utf8 "yaw") cam.params.yaw ++
      camNumberText (utf8 "pitch") cam.params.pitch ++ camNumberText (utf8 "fov") cam.params.fov ++
      camNumberText (utf8 "far") cam.params.far ++ camNumberText (utf8 "near") cam.params.near ++
      camNumberText (utf8 "fwd") cam.params.fwd ++ camNumberText (utf8 "speed") cam.params.speed ++
      camNumberText (utf8 "lift") cam.params.lift ++ camNumberText (utf8 "lag") cam.params.lag ++
      camNumberText (utf8 "occlude") cam.params.occlude ++
      camMarkText (utf8 "restore") cam.params.restore ++
      camMarkText (utf8 "zip") cam.params.zip ++ [10] := rfl
  rw [hwritten]
  simp [camSettings]

/-- The settings follow the name after a blank, if there are any. -/
theorem spaced_camSettings (cam : Cam) : Spaced (camSettings cam) := by
  refine .append (spaced_camText _ _) (.append (spaced_camText _ _)
    (.append (spaced_camText _ _) ?_))
  refine .append (spaced_camNumberText _ _) (.append (spaced_camNumberText _ _)
    (.append (spaced_camNumberText _ _) (.append (spaced_camNumberText _ _)
    (.append (spaced_camNumberText _ _) (.append (spaced_camNumberText _ _)
    (.append (spaced_camNumberText _ _) (.append (spaced_camNumberText _ _)
    (.append (spaced_camNumberText _ _) (.append (spaced_camNumberText _ _) ?_)))))))))
  exact .append (spaced_camMarkText _ _) (.append (spaced_camMarkText _ _) .nil)

theorem reads_parseCam (hlegacy : c.options.legacyCam = false) {cam : Cam} (hcam : cam.Legible)
    (hw : w.Flat) (hslot : w.cam = none) (loc : Location) :
    Reads (parseCam w loc) c ⟨[], 32 :: (cam.name ++ (camSettings cam ++ 10 :: rest))⟩
      ⟨[(.endOfLine, [10])], rest⟩ (· = { w with cam := some cam.reread }) := by
  have hname : Reads parseCamName c ⟨[], 32 :: (cam.name ++ (camSettings cam ++ 10 :: rest))⟩
      ⟨[], camSettings cam ++ 10 :: rest⟩ (· = cam.name) := by
    refine .bind .options ?_
    rintro _ rfl
    rw [hlegacy]
    refine .bind (.lift (succeeds_expect (succeeds_read (first?_blank.trans
      (first?_identifier hcam.name ((spaced_camSettings cam).delimits rest)))))) fun token ht => ?_
    exact .pure (congrArg Prod.snd ht)
  refine .bind (reads_checkUnset hslot loc _) fun _ _ => ?_
  refine .bind (reads_checkUnconditional hw loc) fun _ _ => .bind hname ?_
  rintro _ rfl
  refine .bind ((finishes_camSettings hcam).reads rest) ?_
  rintro _ rfl
  exact .pure rfl

end Compiler

end ApeScript
