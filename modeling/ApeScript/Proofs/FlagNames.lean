import ApeScript.Proofs.DecimalText
import ApeScript.Proofs.WindowLines

/-!
# The names of flags

The list of a flag word loses no bit. A window's flags are listed by keywords and by the numbers of
the other bits, as two loops take them off the word (`WindowFlags.names_eq_listing`), so that each
bit that is set has one entry, and an image's flags by keywords and the value of the rest. The lines that a script has for a window's flags set the flags that it can set.
-/

namespace ApeScript

namespace WindowFlags

variable {flags rest : UInt32} {n m : Nat}

/-! ### Bits -/

def bit (n : Nat) : UInt32 := 1 <<< UInt32.ofNat n

theorem bit_eq_twoPow : ∀ n < 32, bit n = .ofBitVec (.twoPow 32 n) := by decide +kernel

theorem getLsbD_bit (hn : n < 32) (i : Nat) : (bit n).toBitVec.getLsbD i = decide (n = i) := by
  rw [bit_eq_twoPow n hn]
  simp [BitVec.getLsbD_twoPow, hn]

theorem and_bit (hn : n < 32) :
    flags &&& bit n = if flags.toBitVec.getLsbD n = true then bit n else 0 := by
  have hand := congrArg UInt32.ofBitVec (BitVec.and_twoPow flags.toBitVec n)
  rw [bit_eq_twoPow n hn]
  refine hand.trans ?_
  split
  · rfl
  · rfl

theorem bit_ne_zero : ∀ n < 32, bit n ≠ 0 := by decide +kernel

theorem and_bit_ne_zero_iff (hn : n < 32) :
    flags &&& bit n ≠ 0 ↔ flags.toBitVec.getLsbD n = true := by
  rw [and_bit hn]
  cases flags.toBitVec.getLsbD n with
  | false => simp
  | true => simpa using bit_ne_zero n hn

theorem bit_inj (hn : n < 32) (hm : m < 32) : bit n = bit m ↔ n = m := by
  constructor
  · intro h
    have hbit := getLsbD_bit hn m
    rw [h, getLsbD_bit hm] at hbit
    simpa using hbit.symm
  · rintro rfl
    rfl

/-- Clearing a bit leaves the others. -/
theorem getLsbD_clear (hn : n < 32) (i : Nat) :
    (flags &&& ~~~bit n).toBitVec.getLsbD i = (flags.toBitVec.getLsbD i && decide (n ≠ i)) := by
  have hlt : flags.toBitVec.getLsbD i = true → i < 32 := BitVec.lt_of_getLsbD
  rw [UInt32.toBitVec_and, UInt32.toBitVec_not, BitVec.getLsbD_and, BitVec.getLsbD_not,
    getLsbD_bit hn]
  cases hi : flags.toBitVec.getLsbD i with
  | false => simp
  | true => simp [hlt hi]

theorem eq_of_getLsbD_eq (h : ∀ i < 32, flags.toBitVec.getLsbD i = rest.toBitVec.getLsbD i) :
    flags = rest :=
  UInt32.eq_of_toBitVec_eq (BitVec.eq_of_getLsbD_eq h)

/-! ### The lowest bit first -/

theorem ctz_lt (h : rest ≠ 0) : rest.toBitVec.ctz.toNat < 32 ∧
    rest.toBitVec.getLsbD rest.toBitVec.ctz.toNat = true := by
  have hbits : rest.toBitVec ≠ 0#32 := fun hzero => h (UInt32.eq_of_toBitVec_eq hzero)
  have hset := BitVec.getLsbD_true_ctz_of_ne_zero hbits
  exact ⟨BitVec.lt_of_getLsbD hset, hset⟩

theorem clear_lowest_lt (h : rest ≠ 0) :
    (rest &&& ~~~bit rest.toBitVec.ctz.toNat).toNat < rest.toNat := by
  obtain ⟨hlt, hset⟩ := ctz_lt h
  have hle : (rest &&& ~~~bit rest.toBitVec.ctz.toNat).toNat ≤ rest.toNat := by
    rw [UInt32.toNat_and]
    exact Nat.and_le_left
  refine lt_of_le_of_ne hle fun heq => ?_
  have hclear := @getLsbD_clear rest _ hlt rest.toBitVec.ctz.toNat
  rw [UInt32.toNat_inj.1 heq, hset] at hclear
  simp at hclear

/-- The numbers of the bits of a word, which loses its lowest bit until none is left. -/
def lowestFirst (rest : UInt32) : List Nat :=
  if rest = 0 then []
  else rest.toBitVec.ctz.toNat :: lowestFirst (rest &&& ~~~bit rest.toBitVec.ctz.toNat)
termination_by rest.toNat
decreasing_by exact clear_lowest_lt ‹_›

theorem mem_lowestFirst : n ∈ lowestFirst rest ↔ rest.toBitVec.getLsbD n = true := by
  induction rest using lowestFirst.induct with
  | case1 =>
    rw [lowestFirst, if_pos rfl]
    simp
  | case2 rest h ih =>
    obtain ⟨hlt, hset⟩ := ctz_lt h
    rw [lowestFirst, if_neg h, List.mem_cons, ih, getLsbD_clear hlt, Bool.and_eq_true,
      decide_eq_true_eq]
    constructor
    · rintro (rfl | ⟨hn, -⟩)
      · exact hset
      · exact hn
    · intro hn
      by_cases heq : n = rest.toBitVec.ctz.toNat
      · exact .inl heq
      · exact .inr ⟨hn, Ne.symm heq⟩

theorem lt_of_mem_lowestFirst (h : n ∈ lowestFirst rest) : n < 32 :=
  BitVec.lt_of_getLsbD (mem_lowestFirst.1 h)

theorem pairwise_lowestFirst (rest : UInt32) : (lowestFirst rest).Pairwise (· < ·) := by
  induction rest using lowestFirst.induct with
  | case1 =>
    rw [lowestFirst, if_pos rfl]
    exact .nil
  | case2 rest h ih =>
    rw [lowestFirst, if_neg h]
    refine .cons (fun n hn => ?_) ih
    -- no bit below the lowest one is set, and that one has been cleared
    rw [mem_lowestFirst, getLsbD_clear (ctz_lt h).1, Bool.and_eq_true, decide_eq_true_eq] at hn
    by_contra hle
    have hbelow : n < rest.toBitVec.ctz.toNat := by omega
    rw [BitVec.getLsbD_false_of_lt_ctz hbelow] at hn
    exact absurd hn.1 (by decide)

theorem lowestFirst_eq_filter (rest : UInt32) :
    lowestFirst rest = (List.range 32).filter fun n => rest &&& bit n ≠ 0 := by
  refine (pairwise_lowestFirst rest).eq_of_mem_iff (List.pairwise_lt_range.filter _) fun n => ?_
  rw [mem_lowestFirst, List.mem_filter, List.mem_range, decide_eq_true_eq]
  constructor
  · intro hn
    have hlt : n < 32 := BitVec.lt_of_getLsbD hn
    exact ⟨hlt, (and_bit_ne_zero_iff hlt).2 hn⟩
  · rintro ⟨hlt, hn⟩
    exact (and_bit_ne_zero_iff hlt).1 hn

/-! ### Two loops -/

def unknownName (n : Nat) : Bytes := utf8 "UnknownFlag" ++ Bytes.ofNat n

/-- What is left of a word, and the keywords so far, after one more keyword has been looked for. -/
def takeNamed (state : UInt32 × List Bytes) (flag : UInt32 × Bytes) : UInt32 × List Bytes :=
  if state.1 &&& flag.1 ≠ 0 then (state.1 &&& ~~~flag.1, state.2 ++ [flag.2]) else state

/-- The names of a word as two loops list them: one looks for each keyword and clears its bit, the
other takes the lowest bit until none is left. -/
def listing (flags : UInt32) : List Bytes :=
  let state := named.foldl takeNamed (flags, [])
  state.2 ++ (lowestFirst state.1).map unknownName

theorem and_not_of_and_eq_zero {a : UInt32} (h : rest &&& a = 0) : rest &&& ~~~a = rest := by
  have hall : rest &&& a ||| rest &&& ~~~a = rest := by
    rw [← and_or_distrib, UInt32.or_not_self, UInt32.and_neg_one]
  rwa [h, UInt32.zero_or] at hall

/-- Clearing a flag leaves every other flag. -/
theorem and_not_and_of_disjoint {a b : UInt32} (h : a &&& b = 0) :
    rest &&& ~~~a &&& b = rest &&& b := by
  have hb : ~~~a &&& b = b := by
    rw [UInt32.and_comm]
    exact and_not_of_and_eq_zero (by rw [UInt32.and_comm, h])
  rw [UInt32.and_assoc, hb]

theorem foldl_takeNamed {l : List (UInt32 × Bytes)} (hl : l.Pairwise fun a b => a.1 &&& b.1 = 0)
    (flags : UInt32) (keywords : List Bytes) : l.foldl takeNamed (flags, keywords) =
      (l.foldl (fun rest flag => rest &&& ~~~flag.1) flags,
        keywords ++ (l.filter fun flag => flags &&& flag.1 ≠ 0).map (·.2)) := by
  induction l generalizing flags keywords with
  | nil => simp
  | cons flag l ih =>
    obtain ⟨hflag, hl⟩ := List.pairwise_cons.1 hl
    rw [List.foldl_cons, List.foldl_cons]
    by_cases hset : flags &&& flag.1 = 0
    · have hstate : takeNamed (flags, keywords) flag = (flags, keywords) :=
        if_neg (not_not.2 hset)
      rw [hstate, ih hl, and_not_of_and_eq_zero hset, List.filter_cons_of_neg (by simp [hset])]
    · have hstate : takeNamed (flags, keywords) flag =
          (flags &&& ~~~flag.1, keywords ++ [flag.2]) := if_pos hset
      have hlater : (l.filter fun later => flags &&& ~~~flag.1 &&& later.1 ≠ 0) =
          l.filter fun later => flags &&& later.1 ≠ 0 := by
        refine List.filter_congr fun later hlater => ?_
        rw [and_not_and_of_disjoint (hflag later hlater)]
      rw [hstate, ih hl, hlater, List.filter_cons_of_pos (by simp [hset])]
      simp

theorem names_eq_append (flags : UInt32) : names flags =
    (named.filter fun flag => flags &&& flag.1 ≠ 0).map (·.2) ++
      (lowestFirst (unnamed flags)).map unknownName := by
  rw [lowestFirst_eq_filter]
  rfl

/-- The names are those that the loops list. -/
theorem names_eq_listing (flags : UInt32) : names flags = listing flags := by
  have hdisjoint : named.Pairwise fun a b => a.1 &&& b.1 = 0 := by decide +kernel
  rw [names_eq_append, listing, foldl_takeNamed hdisjoint]
  rfl

example : names 0x80000042 =
    [utf8 "nobackground", utf8 "UnknownFlag6", utf8 "UnknownFlag31"] := by decide +kernel

/-! ### The bits of the entries -/

theorem named_bit : ∀ flag ∈ named, ∃ n < 32, flag.1 = bit n := by decide +kernel

/-- The bits that no keyword covers. -/
theorem getLsbD_unnamed (hn : n < 32) : (unnamed flags).toBitVec.getLsbD n = true ↔
    flags.toBitVec.getLsbD n = true ∧ ∀ flag ∈ named, flag.1 ≠ bit n := by
  have hfold (l : List (UInt32 × Bytes)) (hl : ∀ flag ∈ l, flag ∈ named) (flags : UInt32) :
      (l.foldl (fun rest flag => rest &&& ~~~flag.1) flags).toBitVec.getLsbD n = true ↔
        flags.toBitVec.getLsbD n = true ∧ ∀ flag ∈ l, flag.1 ≠ bit n := by
    induction l generalizing flags with
    | nil => simp
    | cons flag l ih =>
      obtain ⟨m, hm, hflag⟩ := named_bit flag (hl flag List.mem_cons_self)
      rw [List.foldl_cons, ih fun flag hflag => hl flag (List.mem_cons_of_mem _ hflag),
        List.forall_mem_cons, hflag, getLsbD_clear hm, Bool.and_eq_true, decide_eq_true_eq,
        Ne, Ne, bit_inj hm hn, and_assoc]
  exact hfold named (fun _ h => h) flags

/-- The numbers that are listed. -/
theorem mem_lowestFirst_unnamed : n ∈ lowestFirst (unnamed flags) ↔
    n < 32 ∧ flags &&& bit n ≠ 0 ∧ ∀ flag ∈ named, flag.1 ≠ bit n := by
  rw [mem_lowestFirst]
  constructor
  · intro hn
    have hlt : n < 32 := BitVec.lt_of_getLsbD hn
    obtain ⟨hset, hunnamed⟩ := (getLsbD_unnamed hlt).1 hn
    exact ⟨hlt, (and_bit_ne_zero_iff hlt).2 hset, hunnamed⟩
  · rintro ⟨hlt, hset, hunnamed⟩
    exact (getLsbD_unnamed hlt).2 ⟨(and_bit_ne_zero_iff hlt).1 hset, hunnamed⟩

def entryBit? (entry : Bytes) : Option UInt32 :=
  match ofName? entry with
  | some flag => some flag
  | none =>
    if Bytes.startsWith (utf8 "UnknownFlag") entry then
      some (bit (Bytes.digitsValue (entry.drop 11)))
    else none

theorem entryBit?_named : ∀ flag ∈ named, entryBit? flag.2 = some flag.1 := by decide +kernel

theorem startsWith_unknownName (n : Nat) :
    Bytes.startsWith (utf8 "UnknownFlag") (unknownName n) = true :=
  List.isPrefixOf_iff_prefix.2 (List.prefix_append _ _)

theorem not_startsWith_named :
    ∀ flag ∈ named, Bytes.startsWith (utf8 "UnknownFlag") flag.2 = false := by decide +kernel

theorem entryBit?_unknownName (n : Nat) : entryBit? (unknownName n) = some (bit n) := by
  have hname : ofName? (unknownName n) = none := by
    rw [ofName?, Option.map_eq_none_iff, List.find?_eq_none]
    intro flag hflag heq
    rw [decide_eq_true_eq] at heq
    have hstart := not_startsWith_named flag hflag
    rw [heq, startsWith_unknownName] at hstart
    cases hstart
  have hdigits : (unknownName n).drop 11 = Bytes.ofNat n :=
    List.drop_left' (by decide +kernel)
  rw [entryBit?, hname]
  simp only [startsWith_unknownName, if_true, hdigits, Bytes.digitsValue_ofNat]

def bitsListed (flags : UInt32) : List UInt32 :=
  (named.filter fun flag => flags &&& flag.1 ≠ 0).map (·.1) ++
    (lowestFirst (unnamed flags)).map bit

/-- Every entry has a bit. -/
theorem map_entryBit?_names (flags : UInt32) :
    (names flags).map entryBit? = (bitsListed flags).map some := by
  rw [names_eq_append, bitsListed]
  simp only [List.map_append, List.map_map]
  refine congrArg₂ (· ++ ·) (List.map_congr_left fun flag hflag => ?_)
    (List.map_congr_left fun n _ => entryBit?_unknownName n)
  exact entryBit?_named flag (List.mem_of_mem_filter hflag)

/-- The listed bits are those that are set. -/
theorem mem_bitsListed {b : UInt32} :
    b ∈ bitsListed flags ↔ ∃ n < 32, b = bit n ∧ flags &&& b ≠ 0 := by
  rw [bitsListed, List.mem_append, List.mem_map, List.mem_map]
  constructor
  · rintro (⟨flag, hflag, rfl⟩ | ⟨n, hn, rfl⟩)
    · obtain ⟨hnamed, hset⟩ := List.mem_filter.1 hflag
      obtain ⟨n, hn, hbit⟩ := named_bit flag hnamed
      exact ⟨n, hn, hbit, of_decide_eq_true hset⟩
    · obtain ⟨hlt, hset, -⟩ := mem_lowestFirst_unnamed.1 hn
      exact ⟨n, hlt, rfl, hset⟩
  · rintro ⟨n, hn, rfl, hset⟩
    by_cases hnamed : ∃ flag ∈ named, flag.1 = bit n
    · obtain ⟨flag, hflag, hbit⟩ := hnamed
      rw [← hbit] at hset
      exact .inl ⟨flag, List.mem_filter.2 ⟨hflag, decide_eq_true hset⟩, hbit⟩
    · have hunnamed : ∀ flag ∈ named, flag.1 ≠ bit n :=
        fun flag hflag hbit => hnamed ⟨flag, hflag, hbit⟩
      exact .inr ⟨n, mem_lowestFirst_unnamed.2 ⟨hn, hset, hunnamed⟩, rfl⟩

/-- No bit is listed twice. -/
theorem nodup_bitsListed (flags : UInt32) : (bitsListed flags).Nodup := by
  have hnamed : (named.map (·.1)).Nodup := by decide +kernel
  have hnumbers : (lowestFirst (unnamed flags)).Nodup :=
    (pairwise_lowestFirst _).imp Nat.ne_of_lt
  rw [bitsListed, List.nodup_append]
  refine ⟨hnamed.sublist (List.filter_sublist.map _), hnumbers.map_on fun n hn m hm => ?_, ?_⟩
  · exact (bit_inj (lt_of_mem_lowestFirst hn) (lt_of_mem_lowestFirst hm)).1
  · intro b hb b' hb'
    obtain ⟨flag, hflag, rfl⟩ := List.mem_map.1 hb
    obtain ⟨n, hn, rfl⟩ := List.mem_map.1 hb'
    obtain ⟨-, -, hunnamed⟩ := mem_lowestFirst_unnamed.1 hn
    exact hunnamed flag (List.mem_of_mem_filter hflag)

theorem getLsbD_foldl_or (l : List UInt32) (start : UInt32) (i : Nat) :
    (l.foldl (· ||| ·) start).toBitVec.getLsbD i = true ↔
      start.toBitVec.getLsbD i = true ∨ ∃ b ∈ l, b.toBitVec.getLsbD i = true := by
  induction l generalizing start with
  | nil => simp
  | cons b l ih =>
    rw [List.foldl_cons, ih, UInt32.toBitVec_or, BitVec.getLsbD_or, Bool.or_eq_true, or_assoc,
      List.exists_mem_cons_iff]

/-- The listed bits make up the word. -/
theorem foldl_bitsListed (flags : UInt32) : (bitsListed flags).foldl (· ||| ·) 0 = flags := by
  refine eq_of_getLsbD_eq fun i hi => Bool.eq_iff_iff.2 ?_
  rw [getLsbD_foldl_or]
  constructor
  · rintro (hzero | ⟨b, hb, hbit⟩)
    · simp at hzero
    · obtain ⟨n, hn, rfl, hset⟩ := mem_bitsListed.1 hb
      rw [getLsbD_bit hn, decide_eq_true_eq] at hbit
      rw [← hbit]
      exact (and_bit_ne_zero_iff hn).1 hset
  · intro hset
    refine .inr ⟨bit i, mem_bitsListed.2 ⟨i, hi, rfl, (and_bit_ne_zero_iff hi).2 hset⟩, ?_⟩
    rw [getLsbD_bit hi, decide_eq_true rfl]

def ofNames (entries : List Bytes) : UInt32 :=
  entries.foldl (fun flags entry => flags ||| (entryBit? entry).getD 0) 0

theorem ofNames_eq {entries : List Bytes} {bits : List UInt32}
    (h : entries.map entryBit? = bits.map some) : ofNames entries = bits.foldl (· ||| ·) 0 := by
  have hfold : ofNames entries =
      (entries.map entryBit?).foldl (fun flags b => flags ||| b.getD 0) 0 := by
    rw [ofNames, List.foldl_map]
  rw [hfold, h, List.foldl_map]
  rfl

theorem ofNames_names (flags : UInt32) : ofNames (names flags) = flags := by
  rw [ofNames_eq (map_entryBit?_names flags), foldl_bitsListed]

/-! ### Lines of a script -/

theorem unnamed_eq_zero_iff : unnamed flags = 0 ↔
    ∀ n < 32, flags &&& bit n ≠ 0 → ∃ flag ∈ named, flag.1 = bit n := by
  constructor
  · intro h n hn hset
    by_contra hnone
    have hunnamed : ∀ flag ∈ named, flag.1 ≠ bit n :=
      fun flag hflag hbit => hnone ⟨flag, hflag, hbit⟩
    have hbit := (getLsbD_unnamed hn).2 ⟨(and_bit_ne_zero_iff hn).1 hset, hunnamed⟩
    rw [h] at hbit
    simp at hbit
  · intro h
    refine eq_of_getLsbD_eq fun n hn => ?_
    have hclear : ¬ (unnamed flags).toBitVec.getLsbD n = true := fun hbit => by
      obtain ⟨hset, hunnamed⟩ := (getLsbD_unnamed hn).1 hbit
      obtain ⟨flag, hflag, hname⟩ := h n hn ((and_bit_ne_zero_iff hn).2 hset)
      exact hunnamed flag hflag hname
    rw [Bool.eq_false_iff.2 hclear]
    simp

/-- A word with other bits than those with a keyword has no lines. -/
theorem writeFlags_eq_error (h : unnamed flags ≠ 0) :
    ∃ cause, Script.writeFlags flags = .error cause := by
  have hset := (ctz_lt h).2
  have hmem : unknownName (unnamed flags).toBitVec.ctz.toNat ∈ names flags := by
    rw [names_eq_append]
    exact List.mem_append_right _ (List.mem_map_of_mem (mem_lowestFirst.2 hset))
  rw [Script.writeFlags]
  cases hfind : (names flags).find? (Bytes.startsWith (utf8 "UnknownFlag")) with
  | none => exact absurd (startsWith_unknownName _) (List.find?_eq_none.1 hfind _ hmem)
  | some unknown => exact ⟨_, rfl⟩

theorem writeFlags_eq_ok_iff :
    (∃ text, Script.writeFlags flags = .ok text) ↔ unnamed flags = 0 := by
  constructor
  · rintro ⟨text, htext⟩
    by_contra h
    obtain ⟨cause, hcause⟩ := writeFlags_eq_error h
    rw [hcause] at htext
    cases htext
  · exact fun h => ⟨_, Compiler.writeFlags_eq h⟩

/-- The bits that a script sets of a word. -/
theorem and_mask_settable (h : unnamed flags = 0) :
    flags &&& mask settable = flags &&& ~~~noBackground := by
  have hmask : mask settable = mask named &&& ~~~noBackground := by decide +kernel
  rw [hmask, ← UInt32.and_assoc, and_mask_named h]

end WindowFlags

namespace ImageFlags

open WindowFlags (bit and_bit)

variable {flags : UInt32} {n : Nat}

def entryValue (entry : Bytes) : UInt32 :=
  (Compiler.imageFlag? entry).getD (.ofNat (Bytes.digitsValue (entry.drop 8).dropLast))

def ofNames (entries : List Bytes) : UInt32 :=
  entries.foldl (fun flags entry => flags ||| entryValue entry) 0

theorem entryValue_unknown (v : UInt32) :
    entryValue (utf8 "Unknown(" ++ Bytes.ofNat v.toNat ++ utf8 ")") = v := by
  have hstart : utf8 "Unknown(" = 85 :: utf8 "nknown(" := rfl
  have hkeyword : ∀ keyword ∈ Compiler.imageFlagNames, keyword.1.head? ≠ some 85 := by
    decide +kernel
  have hnone : Compiler.imageFlag? (utf8 "Unknown(" ++ Bytes.ofNat v.toNat ++ utf8 ")") = none := by
    rw [Compiler.imageFlag?, Option.map_eq_none_iff, List.find?_eq_none]
    intro keyword hmem heq
    rw [decide_eq_true_eq] at heq
    refine hkeyword keyword hmem ?_
    rw [heq, hstart]
    rfl
  have hdigits : ((utf8 "Unknown(" ++ Bytes.ofNat v.toNat ++ utf8 ")").drop 8).dropLast =
      Bytes.ofNat v.toNat := by
    rw [List.append_assoc, List.drop_left' (by decide +kernel)]
    exact List.dropLast_concat
  rw [entryValue, hnone, hdigits, Bytes.digitsValue_ofNat]
  exact UInt32.ofNat_toNat

/-- An entry that may be missing adds its value, or nothing. -/
theorem foldl_entry {p : Prop} [Decidable p] (entry : Bytes) (start : UInt32) :
    (if p then [entry] else []).foldl (fun flags entry => flags ||| entryValue entry) start =
      start ||| if p then entryValue entry else 0 := by
  split
  · rfl
  · exact (UInt32.or_zero).symm

theorem ite_has (hn : n < 32) : (if has flags (bit n) then bit n else 0) = flags &&& bit n := by
  rw [has, and_bit hn]
  cases flags.toBitVec.getLsbD n with
  | false => simp [Ne.symm (WindowFlags.bit_ne_zero n hn)]
  | true => simp

/-- The names of a word give the word back. -/
theorem ofNames_names (flags : UInt32) : ofNames (names flags) = flags := by
  have hstretch : (if has flags stretch then entryValue (utf8 "stretch") else 0) = flags &&& 1 :=
    ite_has (n := 0) (by decide)
  have htile : (if has flags tile then entryValue (utf8 "tile") else 0) = flags &&& 2 :=
    ite_has (n := 1) (by decide)
  have hsolid : (if has flags solid then entryValue (utf8 "solid") else 0) = flags &&& 4 :=
    ite_has (n := 2) (by decide)
  have hmore : (if flags &&& ~~~known ≠ 0 then entryValue (utf8 "Unknown(" ++
      Bytes.ofNat (flags &&& ~~~known).toNat ++ utf8 ")") else 0) = flags &&& ~~~known := by
    rw [entryValue_unknown]
    split
    · rfl
    · rename_i hzero
      exact (not_not.1 hzero).symm
  have hall : (1 : UInt32) ||| 2 ||| 4 ||| ~~~known = -1 := by decide
  simp only [ofNames, names, List.foldl_append, foldl_entry, hstretch, htile, hsolid, hmore]
  rw [UInt32.zero_or, ← WindowFlags.and_or_distrib, ← WindowFlags.and_or_distrib,
    ← WindowFlags.and_or_distrib, hall, UInt32.and_neg_one]

end ImageFlags

/-! ### The compiled lines -/

open WindowFlags Compiler

variable {flags : UInt32} {text : Bytes}

/-- The lines of a word set its bits but for the one that follows from the background. -/
theorem rounds_writeFlags (h : Script.writeFlags flags = .ok text) (c : CompileContext)
    {w : WindowDraft} (hw : w.Flat) : Rounds parseWindowRound c text w
      { w with flags := w.flags ||| flags &&& ~~~noBackground } := by
  have hunnamed := writeFlags_eq_ok_iff.1 ⟨text, h⟩
  have hsettable : ∀ f ∈ settable.filter fun f => flags &&& f.1 ≠ 0, f ∈ settable :=
    fun _ => List.mem_of_mem_filter
  have hnamed : ∀ f ∈ settable, f ∈ named := fun _ => List.mem_of_mem_filter
  have hrounds := rounds_flags (c := c) hsettable hw
  rw [foldl_filter_or hnamed, and_mask_settable hunnamed] at hrounds
  rw [writeFlags_eq hunnamed, Except.ok.injEq] at h
  rwa [← h]

theorem not_mem_writeFlags (h : Script.writeFlags flags = .ok text) : 13 ∉ text := by
  rw [writeFlags_eq (writeFlags_eq_ok_iff.1 ⟨text, h⟩), Except.ok.injEq] at h
  rw [← h]
  intro hreturn
  obtain ⟨f, hf, hmem⟩ := List.mem_flatMap.1 hreturn
  have hword := (settable_spec f (List.mem_of_mem_filter hf)).1
  have hname : 13 ∉ f.2 := (Script.Identifier.of_all hword).not_mem_return
  simp +decide [hname] at hmem

/-- A window of which only the flags have been given. -/
def flagWindow (label : Label) (bits : UInt32) : Window :=
  ⟨label, (if bits = 0 then [] else [.flags bits]) ++ [.dimensions ⟨none, none, none, none⟩]⟩

/-- Compiled as the lines of a window, they are its flags; a window without background says so by
one more. -/
theorem compile_writeFlags (h : Script.writeFlags flags = .ok text) {label : Label}
    (hlabel : label.isInline = false) (hzero : label ≠ 0) :
    (compile (windowScript label (text ++ plainLine)) Options.defaults).result =
        .ok ⟨[flagWindow label (flags &&& ~~~noBackground)], []⟩ ∧
      (compile (windowScript label text) Options.defaults).result =
        .ok ⟨[flagWindow label (flags &&& ~~~noBackground ||| noBackground)], []⟩ := by
  have hflags := rounds_writeFlags h ⟨Options.defaults, 0⟩ flat_empty
  have hreturn := not_mem_writeFlags h
  have hplain : 13 ∉ plainLine := by decide
  constructor
  · have hlines := hflags.append (rounds_plainLine ⟨rfl, rfl⟩ rfl)
    have hcompile := compile_windowScript hlabel hzero rfl hlines (by simp [hreturn, hplain])
    rw [UInt32.zero_or] at hcompile
    exact hcompile
  · have hcompile := compile_windowScript hlabel hzero rfl hflags hreturn
    rw [UInt32.zero_or] at hcompile
    exact hcompile

/-- The names of flags lose no bit, for every word. A window's names are what the two loops list:
the keywords of the named bits in the order of the table, then the numbers of the others from the
lowest to the highest. Every bit that is set has one entry, and the bits of the entries make up the
word; so do the entries of an image's flags. A script has lines for the word exactly when all its
bits have a keyword, and they set its bits but for the one that follows from the background. -/
theorem flag_names_lose_no_bit (flags : UInt32) :
    (WindowFlags.names flags = listing flags ∧
      ∃ numbers : List Nat, numbers.Pairwise (· < ·) ∧
        (∀ n, n ∈ numbers ↔ n < 32 ∧ flags &&& bit n ≠ 0 ∧ ∀ flag ∈ named, flag.1 ≠ bit n) ∧
        WindowFlags.names flags =
          (named.filter fun flag => flags &&& flag.1 ≠ 0).map (·.2) ++ numbers.map unknownName) ∧
    (∃ bits : List UInt32, (WindowFlags.names flags).map entryBit? = bits.map some ∧ bits.Nodup ∧
      ∀ b, b ∈ bits ↔ ∃ n < 32, b = bit n ∧ flags &&& b ≠ 0) ∧
    WindowFlags.ofNames (WindowFlags.names flags) = flags ∧
    ImageFlags.ofNames (ImageFlags.names flags) = flags ∧
    ((∃ text, Script.writeFlags flags = .ok text) ↔
      ∀ n < 32, flags &&& bit n ≠ 0 → ∃ flag ∈ named, flag.1 = bit n) ∧
    ∀ text, Script.writeFlags flags = .ok text →
      (∀ (c : CompileContext) (w : WindowDraft), w.Flat → Rounds parseWindowRound c text w
        { w with flags := w.flags ||| flags &&& ~~~noBackground }) ∧
      ∀ label : Label, label.isInline = false → label ≠ 0 →
        (compile (windowScript label (text ++ plainLine)) Options.defaults).result =
            .ok ⟨[flagWindow label (flags &&& ~~~noBackground)], []⟩ ∧
          (compile (windowScript label text) Options.defaults).result =
            .ok ⟨[flagWindow label (flags &&& ~~~noBackground ||| noBackground)], []⟩ := by
  exact ⟨⟨names_eq_listing flags, lowestFirst (unnamed flags), pairwise_lowestFirst _,
      fun _ => mem_lowestFirst_unnamed, names_eq_append flags⟩,
    ⟨bitsListed flags, map_entryBit?_names flags, nodup_bitsListed flags, fun _ => mem_bitsListed⟩,
    WindowFlags.ofNames_names flags, ImageFlags.ofNames_names flags,
    writeFlags_eq_ok_iff.trans unnamed_eq_zero_iff,
    fun _ h => ⟨fun c _ => rounds_writeFlags h c, fun _ => compile_writeFlags h⟩⟩

end ApeScript
