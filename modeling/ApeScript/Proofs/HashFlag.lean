import ApeScript.Cli.Verb
import ApeScript.Proofs.CompilerRun
import ApeScript.Proofs.Spelling
import Mathlib

/-!
# The hash flag

The commands that compile take a hash for the inline switches, any signed number of 64 bits. A
negative one stands for the hash of the file name. Any other is cut to 32 bits before it is checked
against its range: below 2^32 it is kept or refused as it is, and beyond that it may be taken for a
smaller number. The values that flags were given suit their flags (`Arguments.Suit`), and what was
given first counts only where nothing was given later (`parseFrom_after`).
-/

namespace ApeScript

/-! ### Integers in text -/

/-- No number but zero is written with a zero in front. -/
theorem Bytes.head?_ofNat_ne_zero {n : Nat} (hn : 0 < n) : (ofNat n).head? ≠ some 48 := by
  induction n using Nat.strong_induction_on with
  | _ n ih =>
    rw [ofNat_eq]
    split
    · interval_cases n <;> decide
    · rename_i hten
      have hne : ofNat (n / 10) ≠ [] := ofNat_ne_nil _
      rw [List.head?_append_of_ne_nil _ hne]
      exact ih (n / 10) (by omega) (by omega)

namespace Integer

variable {s : Bytes} {n : Nat} {z : Int}

theorem pow_eq : Nat.pow 2 63 = 2 ^ 63 ∧ Nat.pow 2 64 = 2 ^ 64 := ⟨rfl, rfl⟩

theorem withSign_bounds {negative : Bool} (h : withSign negative n = .ok z) :
    -2 ^ 63 ≤ z ∧ z < 2 ^ 63 := by
  unfold withSign at h
  rw [pow_eq.1] at h
  split at h
  · split at h
    · rename_i hn
      cases h
      omega
    · cases h
  · split at h
    · rename_i hn
      cases h
      omega
    · cases h

theorem parse_bounds (h : parse s = .ok z) : -2 ^ 63 ≤ z ∧ z < 2 ^ 63 := by
  unfold parse at h
  simp only [bind, Except.bind] at h
  split at h
  · cases h
  split at h
  · cases h
  split at h
  · cases h
  exact withSign_bounds h

theorem digit?_digit {d : Nat} (hd : d < 10) : digit? (UInt8.ofNat (48 + d)) = some d := by
  interval_cases d <;> rfl

theorem magnitude_ofNat (hn : n < 2 ^ 64) : magnitude 10 0 (Bytes.ofNat n) = .ok n := by
  have hread : magnitude 10 0 (Bytes.ofNat n ++ []) = magnitude 10 n [] := by
    apply Bytes.read_ofNat (magnitude 10)
    intro m d rest hd hle
    have hbyte : UInt8.ofNat (48 + d) ≠ 95 := by
      intro h
      have htoNat := congrArg UInt8.toNat h
      rw [Bytes.toNat_digit hd] at htoNat
      change 48 + d = 95 at htoNat
      omega
    have hfits : ¬ Nat.pow 2 64 ≤ m * 10 + d := by
      rw [pow_eq.2]
      omega
    rw [magnitude, if_neg hbyte, digit?_digit hd]
    dsimp only
    rw [if_neg (by omega), if_neg hfits, Nat.mul_comm]
  rw [List.append_nil] at hread
  exact hread

theorem underscoresFit_digits {base : Nat} {afterDigit : Bool}
    (h : ∀ b ∈ s, Bytes.isDigit b = true) : underscoresFit base afterDigit s = true := by
  induction s generalizing afterDigit with
  | nil => rfl
  | cons b s ih =>
    have hb : b ≠ 95 := by
      rintro rfl
      exact absurd (h 95 List.mem_cons_self) (by decide)
    rw [underscoresFit, if_neg hb]
    exact ih fun a ha => h a (List.mem_cons_of_mem _ ha)

theorem announced_ofNat (n : Nat) : announced (Bytes.ofNat n) =
    if n = 0 then (8, []) else (10, Bytes.ofNat n) := by
  by_cases hn : n = 0
  · subst hn
    rfl
  · rw [if_neg hn]
    have hhead := Bytes.head?_ofNat_ne_zero (Nat.pos_of_ne_zero hn)
    generalize Bytes.ofNat n = s at hhead
    unfold announced
    split <;> simp_all

/-- Digits are read as their number, with the sign that stands before them. -/
theorem parse_digits {negative : Bool} (hs : signed s = (negative, Bytes.ofNat n))
    (hn : n < 2 ^ 64) : parse s = withSign negative n := by
  have hne : (Bytes.ofNat n).isEmpty = false := by simpa using Bytes.ofNat_ne_nil n
  unfold parse
  rw [hs]
  dsimp only
  rw [hne, announced_ofNat]
  by_cases hzero : n = 0
  · subst hzero
    rfl
  · simp only [if_neg hzero, magnitude_ofNat hn, bind, Except.bind]
    rw [underscoresFit_digits fun b hb => Bytes.isDigit_of_mem_ofNat hb]
    rfl

theorem signed_ofNat (n : Nat) : signed (Bytes.ofNat n) = (false, Bytes.ofNat n) := by
  have hdigits : ∀ b ∈ Bytes.ofNat n, Bytes.isDigit b = true := fun b hb =>
    Bytes.isDigit_of_mem_ofNat hb
  unfold signed
  split
  · rename_i heq
    exact absurd (hdigits 43 (by rw [heq]; exact List.mem_cons_self)) (by decide)
  · rename_i heq
    exact absurd (hdigits 45 (by rw [heq]; exact List.mem_cons_self)) (by decide)
  · rfl

/-- The text of a number of 64 bits is read as the number. -/
theorem parse_ofInt (hlow : -2 ^ 63 ≤ z) (hhigh : z < 2 ^ 63) : parse (Bytes.ofInt z) = .ok z := by
  cases z with
  | ofNat n =>
    have hn : n < 2 ^ 63 := by
      change (n : Int) < 2 ^ 63 at hhigh
      omega
    rw [Bytes.ofInt, parse_digits (signed_ofNat n) (by omega), withSign, pow_eq.1, if_pos hn]
    rfl
  | negSucc n =>
    have hn : n + 1 ≤ 2 ^ 63 := by omega
    rw [Bytes.ofInt, parse_digits rfl (by omega), withSign, pow_eq.1, if_pos rfl, if_pos hn]
    rfl

end Integer

/-! ### Values of flags -/

namespace Cli

/-- A value of the kind that a flag takes; numbers have 64 bits. -/
def FlagValue.Suits : FlagKind → FlagValue → Prop
  | .truth, .truth _ => True
  | .number, .number n => -2 ^ 63 ≤ n ∧ n < 2 ^ 63
  | .text, .text _ => True
  | _, _ => False

def Arguments.Suit (flags : List Flag) (a : Arguments) : Prop :=
  ∀ given ∈ a.values, ∃ f ∈ flags, f.name = given.1 ∧ given.2.Suits f.kind

def Arguments.after (earlier : List (Bytes × FlagValue)) (a : Arguments) : Arguments :=
  { a with values := earlier ++ a.values }

variable {flags : List Flag} {f : Flag} {a b : Arguments} {v : FlagValue} {s : Bytes}
  {arguments : List Bytes} {earlier : List (Bytes × FlagValue)}

theorem suits_of_valueOf (h : f.valueOf s = .ok v) : v.Suits f.kind := by
  unfold Flag.valueOf at h
  cases hkind : f.kind with
  | text =>
    rw [hkind] at h
    cases h
    trivial
  | truth =>
    rw [hkind] at h
    dsimp only at h
    split at h
    · cases h
      trivial
    · cases h
  | number =>
    rw [hkind] at h
    dsimp only at h
    split at h
    · rename_i n hn
      cases h
      exact Integer.parse_bounds hn
    · cases h

theorem Arguments.Suit.addValue (h : a.Suit flags) (hf : f ∈ flags) (hv : v.Suits f.kind) :
    (a.addValue f v).Suit flags := by
  intro given hgiven
  rcases List.mem_append.1 hgiven with hgiven | hgiven
  · exact h given hgiven
  · rw [List.mem_singleton.1 hgiven]
    exact ⟨f, hf, rfl, hv⟩

theorem suit_addLetters (hletters : ∀ f ∈ flags, f.letter.isSome = true → f.kind = .truth)
    {fuel : Nat} (ha : a.Suit flags) (h : addLetters flags a fuel s = .ok b) : b.Suit flags := by
  fun_induction addLetters flags a fuel s
  case case1 | case2 | case3 =>
    cases h
    exact ha
  case case4 => cases h
  case case5 f hfound value more _ =>
    obtain ⟨v, hv, hb⟩ := bind_eq_ok.1 h
    cases hb
    exact ha.addValue (List.mem_of_find?_eq_some hfound) (suits_of_valueOf hv)
  case case6 letter rest _ f hfound _ ih =>
    have hf : f ∈ flags := List.mem_of_find?_eq_some hfound
    have hletter : f.letter = some letter := by simpa using List.find?_some hfound
    have htruth : f.kind = .truth := hletters f hf (by rw [hletter]; rfl)
    refine ih (ha.addValue hf ?_) h
    rw [htruth]
    trivial

def LongFlag.flag : LongFlag → Flag
  | withValue f _ => f
  | needsValue f => f

theorem mem_of_longFlag {l : LongFlag} (h : longFlag flags s = .ok l) : l.flag ∈ flags := by
  unfold longFlag at h
  dsimp only at h
  split at h
  · cases h
  split at h
  · cases h
  · rename_i f hfound
    have hf : f ∈ flags := List.mem_of_find?_eq_some hfound
    split at h
    · cases h
      exact hf
    · split at h
      · cases h
        exact hf
      · cases h
        exact hf

theorem suit_parseFrom (hletters : ∀ f ∈ flags, f.letter.isSome = true → f.kind = .truth)
    (ha : a.Suit flags) (h : parseFrom flags a arguments = .ok b) : b.Suit flags := by
  fun_induction parseFrom flags a arguments
  case case1 | case2 =>
    cases h
    exact ha
  case case3 | case5 | case6 | case8 | case10 => cases h
  case case4 hflag v hv ih => exact ih (ha.addValue (mem_of_longFlag hflag) (suits_of_valueOf hv)) h
  case case7 hflag v hv ih => exact ih (ha.addValue (mem_of_longFlag hflag) (suits_of_valueOf hv)) h
  case case9 hadd ih => exact ih (suit_addLetters hletters ha hadd) h
  case case11 ih => exact ih ha h

theorem Arguments.addValue_after (a : Arguments) (f : Flag) (v : FlagValue) :
    (a.after earlier).addValue f v = (a.addValue f v).after earlier := by
  simp [after, addValue]

/-- Values given before change nothing about how letters are read. -/
theorem addLetters_after {fuel : Nat} : addLetters flags (a.after earlier) fuel s =
    (addLetters flags a fuel s).map (Arguments.after earlier) := by
  fun_induction addLetters flags a fuel s
  case case1 | case2 => simp [addLetters, Except.map]
  case case3 hskip =>
    rw [addLetters, if_pos hskip]
    rfl
  case case4 hskip hnone =>
    rw [addLetters, if_neg hskip, hnone]
    rfl
  case case5 f hfound value more hskip =>
    rw [addLetters, if_neg hskip, hfound]
    cases hv : f.valueOf (value :: more) with
    | error e => simp [hv, bind, Except.bind, Except.map]
    | ok v => simp [hv, bind, Except.bind, Except.map, pure, Except.pure, Arguments.addValue_after]
  case case6 hskip _ hfound hvalue ih =>
    rw [addLetters, if_neg hskip, hfound, ← ih, ← Arguments.addValue_after]
    dsimp only
    split
    · exact absurd rfl (hvalue _ _)
    · rfl

theorem parseFrom_after : parseFrom flags (a.after earlier) arguments =
    (parseFrom flags a arguments).map (Arguments.after earlier) := by
  fun_induction parseFrom flags a arguments
  case case1 => simp [parseFrom, Except.map]
  case case2 =>
    rw [parseFrom.eq_def]
    simp [Except.map, Arguments.after]
  case case3 hend hlong _ herror | case6 hend hlong _ herror =>
    rw [parseFrom.eq_def]
    simp [hend, hlong, herror, Except.map]
  case case4 hend hlong _ _ _ hflag _ hv ih | case7 hend hlong _ _ _ hflag _ hv ih =>
    rw [parseFrom.eq_def]
    simp [hend, hlong, hflag, hv, ← ih, Arguments.addValue_after]
  case case5 hend hlong _ _ _ hflag _ hv | case8 hend hlong _ _ _ hflag _ hv =>
    rw [parseFrom.eq_def]
    simp [hend, hlong, hflag, hv, Except.map]
  case case9 hend hlong hshort _ hadd ih =>
    rw [parseFrom.eq_def]
    simp only [if_neg hend, if_neg hlong, if_pos hshort, addLetters_after, hadd]
    exact ih
  case case10 hend hlong hshort _ herror =>
    rw [parseFrom.eq_def]
    simp only [if_neg hend, if_neg hlong, if_pos hshort, addLetters_after, herror]
    rfl
  case case11 hend hlong hshort ih =>
    rw [parseFrom.eq_def]
    simp only [if_neg hend, if_neg hlong, if_neg hshort]
    exact ih

/-! ### Options -/

def Arguments.toggled (a : Arguments) : Options :=
  optionFlags.foldl
    (fun o (name, toggle) =>
      match a.value? name with
      | some (.truth b) => toggle o b
      | _ => o)
    (if a.truth "legacy" then Options.legacy else Options.defaults)

theorem Arguments.hash_toggled (a : Arguments) : a.toggled.hash = none := by
  have hkeep : ∀ flag ∈ optionFlags, ∀ o b, (flag.2 o b).hash = o.hash := by
    simp [optionFlags]
  have hstart : (if a.truth "legacy" then Options.legacy else Options.defaults).hash = none := by
    split <;> rfl
  unfold toggled
  generalize optionFlags = toggles at hkeep
  generalize (if a.truth "legacy" then Options.legacy else Options.defaults) = start at hstart
  induction toggles generalizing start with
  | nil => exact hstart
  | cons flag toggles ih =>
    rw [List.foldl_cons]
    apply ih (fun g hg => hkeep g (List.mem_cons_of_mem _ hg))
    dsimp only
    split
    · rw [hkeep flag List.mem_cons_self]
      exact hstart
    · exact hstart

theorem effectiveHash_given {o : Options} {n : UInt32} (h : o.hash = some n) : effectiveHash o =
    if Options.maxHash < n.toNat then .error (.hashRange n) else .ok n.toNat := by
  rw [effectiveHash, h]

/-- A hash that is given is cut to 32 bits, and then has to be in range. -/
theorem optionsOf_eq (a : Arguments) : optionsOf a =
    if a.number "hash" (-1) < 0 then .ok a.toggled
    else
      if Options.maxHash < (UInt32.ofInt (a.number "hash" (-1))).toNat then
        .error (.hashRange (UInt32.ofInt (a.number "hash" (-1))))
      else .ok { a.toggled with hash := some (UInt32.ofInt (a.number "hash" (-1))) } := by
  unfold optionsOf
  dsimp only
  generalize a.number "hash" (-1) = hash
  by_cases hnegative : hash < 0
  · rw [if_pos hnegative, if_pos hnegative]
    rfl
  · rw [if_neg hnegative, if_neg hnegative, effectiveHash_given rfl]
    by_cases hlarge : Options.maxHash < (UInt32.ofInt hash).toNat
    · rw [if_pos hlarge, if_pos hlarge]
      rfl
    · rw [if_neg hlarge, if_neg hlarge]
      rfl

theorem toNat_ofInt (z : Int) : ((UInt32.ofInt z).toNat : Int) = z % 2 ^ 32 := by
  simp only [UInt32.ofInt, UInt32.toNat_ofNat', Int.natCast_emod, Int.toNat_eq_max]
  omega

/-! ### The flag among others -/

/-- A number that a flag was given has 64 bits, if every flag of that name takes numbers. -/
theorem Arguments.Suit.number_bounds (h : a.Suit flags) {name : String}
    (hkind : ∀ f ∈ flags, f.name = utf8 name → f.kind = .number) :
    -2 ^ 63 ≤ a.number name (-1) ∧ a.number name (-1) < 2 ^ 63 := by
  unfold number
  split
  · rename_i n hn
    obtain ⟨given, hfound, hvalue⟩ := Option.map_eq_some_iff.1 hn
    have hname : given.1 = utf8 name := by simpa using List.find?_some hfound
    have hgiven : given ∈ a.values := List.mem_reverse.1 (List.mem_of_find?_eq_some hfound)
    obtain ⟨f, hf, hfname, hsuits⟩ := h given hgiven
    rw [hkind f hf (hfname.trans hname), hvalue] at hsuits
    exact hsuits
  · decide

/-- What was given before counts only if nothing was given later. -/
theorem Arguments.value?_after (name : Bytes) : (a.after [(utf8 "hash", v)]).value? name =
    (a.value? name).or (if name = utf8 "hash" then some v else none) := by
  unfold value? after
  rw [List.reverse_append, List.find?_append, Option.map_or]
  by_cases hname : name = utf8 "hash"
  · simp [hname]
  · simp [hname, Ne.symm hname]

theorem Arguments.toggled_congr
    (h : ∀ name, name ≠ utf8 "hash" → a.value? name = b.value? name) : a.toggled = b.toggled := by
  have hother : ∀ flag ∈ optionFlags, flag.1 ≠ utf8 "hash" := by decide
  have hlegacy : a.truth "legacy" = b.truth "legacy" := by
    rw [truth, truth, truth?, truth?, h (utf8 "legacy") (by decide)]
  unfold toggled
  rw [hlegacy]
  apply List.foldl_ext
  intro o flag hflag
  dsimp only
  rw [h flag.1 (hother flag hflag)]

def Verb.accepted (v : Verb) : List Flag := v.ownFlags ++ sharedFlags ++ [helpFlag]

structure TakesHash (flags : List Flag) : Prop where
  letters : ∀ f ∈ flags, f.letter.isSome = true → f.kind = .truth
  number : ∀ f ∈ flags, f.name = utf8 "hash" → f.kind = .number
  long : longFlag flags (utf8 "--hash") = .ok (.needsValue (numberFlag "hash"))

theorem takesHash {v : Verb} (hv : v = .compile ∨ v = .batch) : TakesHash v.accepted := by
  rcases hv with rfl | rfl
  · exact ⟨by decide, by decide, rfl⟩
  · exact ⟨by decide, by decide, rfl⟩

theorem TakesHash.bounds (hflags : TakesHash flags) (h : parseArguments flags arguments = .ok a) :
    -2 ^ 63 ≤ a.number "hash" (-1) ∧ a.number "hash" (-1) < 2 ^ 63 := by
  have hempty : Arguments.empty.Suit flags := by
    intro given hgiven
    cases hgiven
  exact (suit_parseFrom hflags.letters hempty h).number_bounds hflags.number

/-- A hash before other flags, none of which gives another. -/
theorem TakesHash.given (hflags : TakesHash flags) {z : Int} (hlow : -2 ^ 63 ≤ z)
    (hhigh : z < 2 ^ 63) (h : parseArguments flags arguments = .ok a)
    (hother : a.value? (utf8 "hash") = none) :
    ∃ b, parseArguments flags (utf8 "--hash" :: Bytes.ofInt z :: arguments) = .ok b ∧
      b.number "hash" (-1) = z ∧ b.toggled = a.toggled ∧ b.positional = a.positional := by
  have hvalue : (numberFlag "hash").valueOf (Bytes.ofInt z) = .ok (.number z) := by
    rw [Flag.valueOf, Integer.parse_ofInt hlow hhigh]
    rfl
  have hparse : parseArguments flags (utf8 "--hash" :: Bytes.ofInt z :: arguments) =
      parseFrom flags (Arguments.empty.after [(utf8 "hash", .number z)]) arguments := by
    rw [parseArguments, parseFrom.eq_def]
    dsimp only
    rw [if_neg (by decide), if_pos (by decide), hflags.long]
    dsimp only
    rw [hvalue]
    rfl
  refine ⟨a.after [(utf8 "hash", .number z)], ?_, ?_, ?_, rfl⟩
  · rw [hparse, parseFrom_after, show parseFrom flags .empty arguments = .ok a from h]
    rfl
  · rw [Arguments.number, Arguments.value?_after, hother]
    rfl
  · apply Arguments.toggled_congr
    intro name hname
    rw [Arguments.value?_after, if_neg hname, Option.or_none]

/-- What the commands that compile make of the hash that they are given: none if it is negative,
and otherwise what is left of it below 2^32, if that is in range. Every number of 64 bits can be
given so, next to any other flags. -/
theorem optionsOf_hash {v : Verb} (hv : v = .compile ∨ v = .batch) :
    (∀ arguments a, parseArguments v.accepted arguments = .ok a →
      -2 ^ 63 ≤ a.number "hash" (-1) ∧ a.number "hash" (-1) < 2 ^ 63 ∧
      (∀ file, effectiveHash { a.toggled with file := file } = inlineHash file) ∧
      (a.number "hash" (-1) < 0 → optionsOf a = .ok a.toggled) ∧
      (0 ≤ a.number "hash" (-1) → ∃ n : UInt32, (n.toNat : Int) = a.number "hash" (-1) % 2 ^ 32 ∧
        (n.toNat ≤ Options.maxHash → optionsOf a = .ok { a.toggled with hash := some n }) ∧
        (Options.maxHash < n.toNat → optionsOf a = .error (.hashRange n)))) ∧
    ∀ (h : Int) others a, -2 ^ 63 ≤ h → h < 2 ^ 63 →
      parseArguments v.accepted others = .ok a → a.value? (utf8 "hash") = none →
      ∃ b, parseArguments v.accepted (utf8 "--hash" :: Bytes.ofInt h :: others) = .ok b ∧
        b.number "hash" (-1) = h ∧ b.toggled = a.toggled ∧ b.positional = a.positional := by
  constructor
  · intro arguments a h
    obtain ⟨hlow, hhigh⟩ := (takesHash hv).bounds h
    refine ⟨hlow, hhigh, fun file => ?_, fun hnegative => ?_, fun hnonneg => ?_⟩
    · have hnone : ({ a.toggled with file := file } : Options).hash = none := a.hash_toggled
      rw [effectiveHash, hnone]
    · rw [optionsOf_eq, if_pos hnegative]
    · have hsign : ¬ a.number "hash" (-1) < 0 := by omega
      refine ⟨_, toNat_ofInt _, fun hfits => ?_, fun hlarge => ?_⟩
      · have hrange : ¬ Options.maxHash < (UInt32.ofInt (a.number "hash" (-1))).toNat := by omega
        rw [optionsOf_eq, if_neg hsign, if_neg hrange]
      · rw [optionsOf_eq, if_neg hsign, if_pos hlarge]
  · intro h others a hlow hhigh hparse hother
    exact (takesHash hv).given hlow hhigh hparse hother

def sevenLegacy : Arguments := ⟨[(utf8 "hash", .number 7), (utf8 "legacy", .truth true)], []⟩

theorem optionsOf_hash_sevenLegacy :
    (parseArguments Verb.compile.accepted [utf8 "--hash", utf8 "7", utf8 "--legacy"] =
        .ok sevenLegacy ∧
      optionsOf sevenLegacy = .ok { Options.legacy with hash := some 7 }) ∧
    ∃ b, parseArguments Verb.compile.accepted [utf8 "--hash", Bytes.ofInt (-5), utf8 "--legacy"] =
      .ok b ∧ b.number "hash" (-1) = -5 := by
  have hparse : parseArguments Verb.compile.accepted
      [utf8 "--hash", utf8 "7", utf8 "--legacy"] = .ok sevenLegacy := rfl
  have hlegacy : parseArguments Verb.compile.accepted [utf8 "--legacy"] =
      .ok ⟨[(utf8 "legacy", .truth true)], []⟩ := rfl
  have hhash := optionsOf_hash (Or.inl rfl : Verb.compile = .compile ∨ Verb.compile = .batch)
  refine ⟨⟨hparse, ?_⟩, ?_⟩
  · obtain ⟨-, -, -, -, hgiven⟩ := hhash.1 _ _ hparse
    obtain ⟨n, hn, hfits, -⟩ := hgiven (by decide)
    have hseven : n = 7 := by
      apply UInt32.toNat_inj.1
      exact Int.ofNat.inj hn
    subst hseven
    exact hfits (by decide)
  · obtain ⟨b, hb, hnumber, -⟩ := hhash.2 (-5) _ _ (by decide) (by decide) hlegacy rfl
    exact ⟨b, hb, hnumber⟩

/-- A hash of 2^32 + 7 is out of range, and is taken for seven. -/
theorem optionsOf_hash_wrapped : ¬ ∀ (h : Int) a, -2 ^ 63 ≤ h → h < 2 ^ 63 →
    parseArguments Verb.compile.accepted [utf8 "--hash", Bytes.ofInt h] = .ok a →
    99999 < h → ∃ e, optionsOf a = .error e := by
  intro hclaim
  have hparse : parseArguments Verb.compile.accepted [utf8 "--hash", Bytes.ofInt 4294967303] =
      .ok ⟨[(utf8 "hash", .number 4294967303)], []⟩ := by
    rfl
  have hseven : optionsOf ⟨[(utf8 "hash", .number 4294967303)], []⟩ =
      .ok { Options.defaults with hash := some 7 } := by rfl
  obtain ⟨e, he⟩ := hclaim 4294967303 _ (by decide) (by decide) hparse (by decide)
  rw [hseven] at he
  cases he

end Cli

end ApeScript
