import RoscoEmulator.M68k.PmmuEnable
import RoscoEmulator.M68k.Translation

/-!
# The translation cache over a run

An entry of the cache has a tag, made of a valid bit, a function code and the number of a page, and
the data of the page. New entries go to the entry with the same tag, or to a free one, or to the
next one in turn; a write drops the entry that has not been modified; `PFLUSH` drops all entries, or
those of some function codes, or those of one page in some function codes.

The tag is packed by the page size: the page number goes to the bits from the page size less 8 up to
bit
23. `tagOf_eq_iff` says that for a page size that is not reserved the tags of two accesses are equal
exactly if their function codes and pages are, and `holds_atcFlushFcEa` that the masks of `PFLUSH`
take the same fields out of the tag. The invariant of a run is `Coherent`: no two valid entries have
the same tag, and every entry has the data of the last addition for its function code and page. -/

namespace RoscoEmulator.M68k

open Function BitVec

namespace Pmmu

/-! ## The source -/

/-- The registers that give a function code to an MMU instruction. -/
structure FcRegisters where
  sfc : BitVec 32
  dfc : BitVec 32
  d : Fin 8 → BitVec 32

/-- `fc_from_modes`. -/
def fcFromModes (cpuType : BitVec 32) (r : FcRegisters) (modes : BitVec 16) : BitVec 32 :=
  let reg := r.d (Fin.ofNat 8 (modes &&& 7#16).toNat)
  if modes &&& 0x1f#16 = 0#16 then r.sfc
  else if modes &&& 0x1f#16 = 1#16 then r.dfc
  else if cpuType &&& cpuType030 ≠ 0#32 then
    if modes >>> 3 &&& 3#16 = 1#16 then reg &&& 7#32
    else if modes >>> 3 &&& 3#16 = 2#16 then (modes &&& 7#16).setWidth 32
    else 0#32
  else if modes >>> 3 &&& 3#16 = 1#16 then reg &&& 0xf#32
  else if modes &&& 0x10#16 ≠ 0#16 then (modes &&& 0xf#16).setWidth 32
  else 0#32

def atcMask : BitVec 32 := 0x00ffffff#32

/-- Make the entries with these tags free. -/
def dropTags (p : BitVec 32 → Bool) (m : Pmmu) : Pmmu :=
  { m with atcTag := fun i ↦ if p (m.atcTag i) then 0 else m.atcTag i }

/-- `pmmu_atc_flush_fc_ea`. The effective address is missing if the instruction has a mode that is
not allowed. -/
def atcFlushFcEa (modes : BitVec 16) (r : FcRegisters) (decodeEa : Option (BitVec 32))
    (m : Pmmu) : Pmmu :=
  let fcmask := (modes >>> 5 &&& 7#16).setWidth 32
  let fc := fcFromModes m.cpuType r modes &&& fcmask
  let ps := pageSize m.tc
  match (modes >>> 10 &&& 7#16).toNat with
  | 1 => m.atcFlush
  | 4 | 5 => m.dropTags fun e ↦ e &&& atcValid ≠ 0#32 ∧ e >>> 24 &&& fcmask = fc
  | 6 | 7 =>
      match decodeEa with
      | none => m
      | some ea =>
          let pagemask := atcMask &&& ~~~ ((1#32 <<< (ps - 8)) - 1#32)
          m.dropTags fun e ↦ e &&& atcValid ≠ 0#32 ∧ e >>> 24 &&& fcmask = fc ∧
            (e ^^^ ea >>> 8) &&& pagemask = 0#32
  | _ => m

/-- `pmmu_atc_lookup<true>`. -/
def atcProbe (addrIn : BitVec 32) (fc : BitVec 8) (m : Pmmu) : Option (BitVec 32) × Pmmu :=
  match findEntry fun i ↦ m.atcTag i == tagOf m.tc addrIn fc with
  | some i =>
    (some (entryAddr m.tc (m.atcData i) addrIn), { m with tmpSr := entrySr (m.atcData i) })
  | none => (none, { m with tmpSr := srInvalid })

/-- What is done to the cache. An addition uses the status that the table walk before it has
left. -/
inductive AtcEvent
  | add (sr : BitVec 16) (logical physical : BitVec 32) (fc : BitVec 8) (rw : Bool)
  | lookup (addrIn : BitVec 32) (fc : BitVec 8) (rw : Bool)
  | probe (addrIn : BitVec 32) (fc : BitVec 8)
  | pflush (modes : BitVec 16) (r : FcRegisters) (decodeEa : Option (BitVec 32))

def atcStep (m : Pmmu) : AtcEvent → Pmmu
  | .add sr logical physical fc rw => { m with tmpSr := sr }.atcAdd logical physical fc rw
  | .lookup addrIn fc rw => (m.atcLookup addrIn fc rw).2
  | .probe addrIn fc => (m.atcProbe addrIn fc).2
  | .pflush modes r decodeEa => m.atcFlushFcEa modes r decodeEa

/-! ## Tags -/

/-- What a tag is made of: the function code and the page number. -/
def keyOf (tc addr : BitVec 32) (fc : BitVec 8) : BitVec 8 × BitVec 32 :=
  (fc &&& 7#8, addr >>> pageSize tc)

theorem pageSize_lt (tc : BitVec 32) : pageSize tc < 16 := by
  rw [pageSize, toNat_and]
  exact Nat.lt_of_le_of_lt Nat.and_le_right (by decide)

section Tags

variable {tc a b : BitVec 32} {f g : BitVec 8}

theorem getLsbD_seven {n : ℕ} (hn : 3 ≤ n) (i : ℕ) : (7#n).getLsbD i = decide (i < 3) := by
  have hmask : 7#n = BitVec.ofNat n (2 ^ 3 - 1) := rfl
  rw [hmask, getLsbD_ofNat, Nat.testBit_two_pow_sub_one]
  by_cases hi : i < 3
  · rw [decide_eq_true hi, decide_eq_true (by omega), Bool.and_self]
  · rw [decide_eq_false hi, Bool.and_false]

/-- The fields of a tag: the valid bit, the function code and the number of the page. -/
theorem getLsbD_tagOf (hsize : 8 ≤ pageSize tc) (a : BitVec 32) (f : BitVec 8) (i : ℕ) :
    (tagOf tc a f).getLsbD i =
      (decide (i = 27) || (decide (24 ≤ i ∧ i < 27) && f.getLsbD (i - 24)) ||
        (decide (pageSize tc ≤ i + 8) && a.getLsbD (i + 8))) := by
  have hvalid : atcValid.getLsbD i = decide (i = 27) := by
    rw [show atcValid = twoPow 32 27 from rfl, getLsbD_twoPow]
    simp [eq_comm]
  have hfc : ((f.setWidth 32 &&& 7#32) <<< 24).getLsbD i =
      (decide (24 ≤ i ∧ i < 27) && f.getLsbD (i - 24)) := by
    rw [getLsbD_shiftLeft, getLsbD_and, getLsbD_setWidth, getLsbD_seven (by decide)]
    by_cases hi : 24 ≤ i ∧ i < 27
    · rw [decide_eq_true hi, decide_eq_true (by omega : i < 32),
        decide_eq_false (by omega : ¬ i < 24),
        decide_eq_true (by omega : i - 24 < 32), decide_eq_true (by omega : i - 24 < 3)]
      simp
    · rw [decide_eq_false hi]
      rcases not_and_or.mp hi with hlow | hhigh
      · rw [decide_eq_true (by omega : i < 24)]
        simp
      · rw [decide_eq_false (by omega : ¬ i - 24 < 3)]
        simp
  have htag : tagOf tc a f = atcValid ||| (f.setWidth 32 &&& 7#32) <<< 24 |||
      (a >>> pageSize tc) <<< (pageSize tc - 8) := rfl
  rw [htag, getLsbD_or, getLsbD_or, hvalid, hfc, getLsbD_frame hsize]

theorem tagOf_valid (hsize : 8 ≤ pageSize tc) (a : BitVec 32) (f : BitVec 8) :
    tagOf tc a f &&& atcValid ≠ 0#32 := by
  rw [and_flag_ne (show atcValid = twoPow 32 27 from rfl) (by decide), getLsbD_tagOf hsize]
  rfl

variable {i : ℕ}

theorem getLsbD_tagOf_fc (hsize : 8 ≤ pageSize tc) (hi : i < 3) :
    (tagOf tc a f).getLsbD (24 + i) = f.getLsbD i := by
  rw [getLsbD_tagOf hsize, decide_eq_false (by omega), decide_eq_true (by omega),
    getLsbD_of_ge a (24 + i + 8) (by omega), Nat.add_sub_cancel_left]
  simp

theorem getLsbD_tagOf_page (hsize : 8 ≤ pageSize tc) (hi : pageSize tc ≤ i) (hlt : i < 32) :
    (tagOf tc a f).getLsbD (i - 8) = a.getLsbD i := by
  rw [getLsbD_tagOf hsize, decide_eq_false (by omega), decide_eq_false (by omega),
    decide_eq_true (by omega), show i - 8 + 8 = i by omega]
  simp

/-- Two addresses have the same page exactly if their bits above the page size agree. -/
theorem page_eq_iff (tc : BitVec 32) : a >>> pageSize tc = b >>> pageSize tc ↔
    ∀ i, pageSize tc ≤ i → i < 32 → a.getLsbD i = b.getLsbD i := by
  constructor
  · intro h i hi hlt
    have hbit := congrArg (getLsbD · (i - pageSize tc)) h
    simpa only [getLsbD_ushiftRight, Nat.add_sub_cancel' hi] using hbit
  · refine fun h ↦ eq_of_getLsbD_eq fun i hi ↦ ?_
    rw [getLsbD_ushiftRight, getLsbD_ushiftRight]
    by_cases hlt : pageSize tc + i < 32
    · exact h _ (Nat.le_add_right _ _) hlt
    · rw [getLsbD_of_ge _ _ (by omega), getLsbD_of_ge _ _ (by omega)]

/-- Two function codes are the same under a mask exactly if their bits under the mask agree. -/
theorem and_eq_and_iff {n : ℕ} {x y mask : BitVec n} :
    x &&& mask = y &&& mask ↔ ∀ i < n, mask.getLsbD i = true → x.getLsbD i = y.getLsbD i := by
  constructor
  · intro h i hi hmask
    have hbit := congrArg (getLsbD · i) h
    simpa only [getLsbD_and, hmask, Bool.and_true] using hbit
  · refine fun h ↦ eq_of_getLsbD_eq fun i hi ↦ ?_
    rw [getLsbD_and, getLsbD_and]
    cases hmask : mask.getLsbD i with
    | true => rw [h i hi hmask]
    | false => rw [Bool.and_false, Bool.and_false]

theorem fc_eq_iff : f &&& 7#8 = g &&& 7#8 ↔ ∀ i < 3, f.getLsbD i = g.getLsbD i := by
  rw [and_eq_and_iff]
  refine ⟨fun h i hi ↦ h i (by omega) ?_, fun h i _ hmask ↦ h i ?_⟩
  · rw [getLsbD_seven (by decide), decide_eq_true hi]
  · rwa [getLsbD_seven (by decide), decide_eq_true_iff] at hmask

/-- **A tag is the function code and the page**, for every page size. -/
theorem tagOf_eq_iff (hsize : 8 ≤ pageSize tc) :
    tagOf tc a f = tagOf tc b g ↔ keyOf tc a f = keyOf tc b g := by
  rw [keyOf, keyOf, Prod.mk.injEq, fc_eq_iff, page_eq_iff]
  constructor
  · intro h
    refine ⟨fun i hi ↦ ?_, fun i hi hlt ↦ ?_⟩
    · rw [← getLsbD_tagOf_fc hsize hi, h, getLsbD_tagOf_fc hsize hi]
    · rw [← getLsbD_tagOf_page hsize hi hlt, h, getLsbD_tagOf_page hsize hi hlt]
  · rintro ⟨hfc, hpage⟩
    refine eq_of_getLsbD_eq fun i hi ↦ ?_
    rw [getLsbD_tagOf hsize, getLsbD_tagOf hsize]
    congr 1
    · by_cases hin : 24 ≤ i ∧ i < 27
      · rw [hfc _ (by omega)]
      · rw [decide_eq_false hin, Bool.false_and, Bool.false_and]
    · by_cases hin : pageSize tc ≤ i + 8
      · by_cases hlt : i + 8 < 32
        · rw [hpage _ hin hlt]
        · rw [getLsbD_of_ge _ _ (by omega), getLsbD_of_ge _ _ (by omega)]
      · rw [decide_eq_false hin, Bool.false_and, Bool.false_and]

/-! ## The masks of a flush -/

/-- The mask of a function code in the instruction. -/
def fcMask (modes : BitVec 16) : BitVec 32 := (modes >>> 5 &&& 7#16).setWidth 32

/-- The function code field of a tag, under the mask. -/
theorem tagOf_fc_eq_iff (hsize : 8 ≤ pageSize tc) (modes : BitVec 16) (fc : BitVec 32) :
    tagOf tc a f >>> 24 &&& fcMask modes = fc &&& fcMask modes ↔
      f.setWidth 32 &&& fcMask modes = fc &&& fcMask modes := by
  have hlow : ∀ i, (fcMask modes).getLsbD i = true → i < 3 := by
    intro i hi
    rw [fcMask, getLsbD_setWidth, getLsbD_and, getLsbD_seven (by decide)] at hi
    simp only [Bool.and_eq_true, decide_eq_true_eq] at hi
    exact hi.2.2
  have hfield : tagOf tc a f >>> 24 &&& fcMask modes = f.setWidth 32 &&& fcMask modes := by
    rw [and_eq_and_iff]
    intro i hi hmask
    rw [getLsbD_ushiftRight, getLsbD_tagOf_fc hsize (hlow i hmask), getLsbD_setWidth,
      decide_eq_true hi, Bool.true_and]
  rw [hfield]

/-- The mask of the page number in a tag. -/
def pageMask (tc : BitVec 32) : BitVec 32 := atcMask &&& ~~~ ((1#32 <<< (pageSize tc - 8)) - 1#32)

theorem getLsbD_pageMask (hsize : 8 ≤ pageSize tc) (hi : i < 32) :
    (pageMask tc).getLsbD i = decide (pageSize tc ≤ i + 8 ∧ i + 8 < 32) := by
  have hmasks : ∀ ps < 16, 8 ≤ ps → ∀ i < 32,
      (atcMask &&& ~~~ ((1#32 <<< (ps - 8)) - 1#32)).getLsbD i =
      decide (ps ≤ i + 8 ∧ i + 8 < 32) := by
    decide +kernel
  exact hmasks _ (pageSize_lt tc) hsize i hi

theorem tagOf_page_eq_iff (hsize : 8 ≤ pageSize tc) (ea : BitVec 32) :
    (tagOf tc a f ^^^ ea >>> 8) &&& pageMask tc = 0#32 ↔
      a >>> pageSize tc = ea >>> pageSize tc := by
  have hfields : (tagOf tc a f ^^^ ea >>> 8) &&& pageMask tc = 0#32 ↔
      tagOf tc a f &&& pageMask tc = ea >>> 8 &&& pageMask tc := by
    have hdistrib : (tagOf tc a f ^^^ ea >>> 8) &&& pageMask tc =
        (tagOf tc a f &&& pageMask tc) ^^^ (ea >>> 8 &&& pageMask tc) := by
      refine eq_of_getLsbD_eq fun i _ ↦ ?_
      simp only [getLsbD_and, getLsbD_xor, Bool.and_xor_distrib_right]
    rw [hdistrib, BitVec.xor_eq_zero_iff]
  rw [hfields, page_eq_iff, and_eq_and_iff]
  constructor
  · intro h i hi hlt
    have hbit := h (i - 8) (by omega) (by
      rw [getLsbD_pageMask hsize (by omega), decide_eq_true_iff]
      omega)
    rwa [getLsbD_tagOf_page hsize hi hlt, getLsbD_ushiftRight,
      show 8 + (i - 8) = i by omega] at hbit
  · intro h i hi hmask
    rw [getLsbD_pageMask hsize hi, decide_eq_true_iff] at hmask
    have hbit := h (i + 8) hmask.1 hmask.2
    rwa [← getLsbD_tagOf_page hsize hmask.1 hmask.2, Nat.add_sub_cancel, Nat.add_comm i 8,
      ← getLsbD_ushiftRight] at hbit

end Tags

/-! ## What an addition does -/

theorem putEntry_cases {m : Pmmu} (tag data : BitVec 32) (hturn : m.atcRr < 22) :
    (∃ i, m.atcTag i = tag ∧ (m.putEntry tag data).atcTag = m.atcTag ∧
      (m.putEntry tag data).atcData = update m.atcData i data ∧
        (m.putEntry tag data).atcRr < 22) ∨
      ((∀ i, m.atcTag i ≠ tag) ∧ ∃ i,
        (m.putEntry tag data).atcTag = update m.atcTag i tag ∧
          (m.putEntry tag data).atcData = update m.atcData i data ∧
            (m.putEntry tag data).atcRr < 22) := by
  rw [putEntry]
  cases hfind : findEntry fun i ↦ m.atcTag i == tag with
  | some i =>
    have hi : m.atcTag i = tag := by simpa using List.find?_some hfind
    exact .inl ⟨i, hi, rfl, rfl, hturn⟩
  | none =>
    have hnone : ∀ i, m.atcTag i ≠ tag := by
      intro i
      simpa using List.find?_eq_none.mp hfind i (List.mem_finRange i)
    refine .inr ⟨hnone, ?_⟩
    cases findEntry fun i ↦ m.atcTag i &&& atcValid == 0#32 with
    | some i => exact ⟨i, rfl, rfl, hturn⟩
    | none =>
      refine ⟨Fin.ofNat 22 m.atcRr, rfl, rfl, ?_⟩
      dsimp only
      split_ifs
      · decide
      · omega

theorem tc_putEntry (tag data : BitVec 32) (m : Pmmu) : (m.putEntry tag data).tc = m.tc := by
  rw [putEntry]
  dsimp only
  split
  · rfl
  · split <;> rfl

theorem tc_atcFlushFcEa (modes : BitVec 16) (r : FcRegisters) (decodeEa : Option (BitVec 32))
    (m : Pmmu) : (m.atcFlushFcEa modes r decodeEa).tc = m.tc := by
  unfold atcFlushFcEa
  split
  · rfl
  · rfl
  · rfl
  · split <;> rfl
  · split <;> rfl
  · rfl

/-! ## The invariant -/

/-- The data of the last addition for each function code and page. -/
abbrev Latest := BitVec 32 → BitVec 8 → Option (BitVec 32)

/-- What an event adds. -/
def record (tc : BitVec 32) (last : Latest) : AtcEvent → Latest
  | .add sr logical physical fc rw => fun addr fc' ↦
      if keyOf tc logical fc = keyOf tc addr fc' then some (entryData tc sr physical rw)
        else last addr fc'
  | .lookup .. | .probe .. | .pflush .. => last

/-- The data of the last addition in a run that starts with an empty cache. -/
def latest (tc : BitVec 32) (es : List AtcEvent) : Latest := es.foldl (record tc) fun _ _ ↦ none

/-- The entry is valid. -/
def Valid (m : Pmmu) (i : Fin 22) : Prop := m.atcTag i &&& atcValid ≠ 0#32

/-- The entry is for this function code and the page of this address. -/
def Holds (m : Pmmu) (i : Fin 22) (addr : BitVec 32) (fc : BitVec 8) : Prop :=
  m.atcTag i = tagOf m.tc addr fc

/-- The cache is in order. -/
structure Coherent (last : Latest) (m : Pmmu) : Prop where
  size : 8 ≤ pageSize m.tc
  turn : m.atcRr < 22
  tag : ∀ i, m.Valid i → ∃ addr fc, m.Holds i addr fc
  unique : ∀ i j, m.Valid i → m.atcTag i = m.atcTag j → i = j
  data : ∀ i addr fc, m.Holds i addr fc → last addr fc = some (m.atcData i)

section Invariant

variable {m m' : Pmmu} {last : Latest} {addr : BitVec 32} {fc : BitVec 8} {i : Fin 22}

theorem Holds.valid (hsize : 8 ≤ pageSize m.tc) (h : m.Holds i addr fc) : m.Valid i := by
  rw [Valid, h]
  exact tagOf_valid hsize addr fc

theorem valid_of_tag_eq (h : m'.atcTag i = m.atcTag i ∨ m'.atcTag i = 0#32) (hvalid : m'.Valid i) :
    m'.atcTag i = m.atcTag i := by
  refine h.resolve_right fun hzero ↦ hvalid ?_
  rw [hzero]
  exact zero_and

namespace Coherent

section

variable (h : Coherent last m)
include h

theorem of_dropped (htc : m'.tc = m.tc) (hturn : m'.atcRr < 22) (hdata : m'.atcData = m.atcData)
    (htags : ∀ i, m'.atcTag i = m.atcTag i ∨ m'.atcTag i = 0#32) : Coherent last m' := by
  have hsize : 8 ≤ pageSize m'.tc := htc ▸ h.size
  have hkept : ∀ i, m'.Valid i → m'.atcTag i = m.atcTag i := fun i ↦ valid_of_tag_eq (htags i)
  have hvalid : ∀ i, m'.Valid i → m.Valid i := by
    intro i hi
    rw [Valid, ← hkept i hi]
    exact hi
  refine ⟨hsize, hturn, fun i hi ↦ ?_, fun i j hi hij ↦ ?_, fun i addr fc hi ↦ ?_⟩
  · obtain ⟨addr, fc, hholds⟩ := h.tag i (hvalid i hi)
    refine ⟨addr, fc, ?_⟩
    rw [Holds, hkept i hi, htc]
    exact hholds
  · have hj : m'.Valid j := by
      rw [Valid, ← hij]
      exact hi
    rw [hkept i hi, hkept j hj] at hij
    exact h.unique i j (hvalid i hi) hij
  · have hholds := hi
    rw [Holds, hkept i (hi.valid hsize), htc] at hholds
    rw [hdata]
    exact h.data i addr fc hholds

theorem atcLookup (addrIn : BitVec 32) (fc : BitVec 8) (rw : Bool) :
    Coherent last (m.atcLookup addrIn fc rw).2 := by
  have htags := tags_scan m.atcData (tagOf m.tc addrIn fc) rw (List.finRange 22) m.atcTag
  rw [Pmmu.atcLookup, atcLookupIn_eq]
  generalize scan m.atcData (tagOf m.tc addrIn fc) rw (List.finRange 22) m.atcTag = r at htags
  obtain ⟨_ | i, tags⟩ := r
  · exact h.of_dropped rfl h.turn rfl htags
  · exact h.of_dropped rfl h.turn rfl htags

theorem atcProbe (addrIn : BitVec 32) (fc : BitVec 8) : Coherent last (m.atcProbe addrIn fc).2 := by
  rw [Pmmu.atcProbe]
  split
  · exact h.of_dropped rfl h.turn rfl fun _ ↦ .inl rfl
  · exact h.of_dropped rfl h.turn rfl fun _ ↦ .inl rfl

theorem dropTags (p : BitVec 32 → Bool) : Coherent last (m.dropTags p) := by
  refine h.of_dropped rfl h.turn rfl fun i ↦ ?_
  have htag : (m.dropTags p).atcTag i = if p (m.atcTag i) then 0 else m.atcTag i := rfl
  rw [htag]
  split_ifs
  · exact .inr rfl
  · exact .inl rfl

theorem atcFlushFcEa (modes : BitVec 16) (r : FcRegisters) (decodeEa : Option (BitVec 32)) :
    Coherent last (m.atcFlushFcEa modes r decodeEa) := by
  unfold Pmmu.atcFlushFcEa
  split
  · exact h.of_dropped rfl (show 0 < 22 by decide) rfl fun _ ↦ .inr rfl
  · exact h.dropTags _
  · exact h.dropTags _
  · split
    · exact h
    · exact h.dropTags _
  · split
    · exact h
    · exact h.dropTags _
  · exact h

theorem data_of_added (htc : m'.tc = m.tc) {logical data : BitVec 32}
    (htag : m'.atcTag i = tagOf m.tc logical fc) (hdata : m'.atcData i = data)
    (hother : ∀ j ≠ i, m'.atcTag j = m.atcTag j ∧ m'.atcData j = m.atcData j ∧
      m.atcTag j ≠ tagOf m.tc logical fc) {j : Fin 22} {addr : BitVec 32} {fc' : BitVec 8}
    (hholds : m'.Holds j addr fc') :
    (if keyOf m.tc logical fc = keyOf m.tc addr fc' then some data else last addr fc') =
      some (m'.atcData j) := by
  rw [Holds, htc] at hholds
  by_cases hj : j = i
  · rw [hj] at hholds ⊢
    rw [if_pos ((tagOf_eq_iff h.size).mp (htag.symm.trans hholds)), hdata]
  · obtain ⟨hkept, hsame, hne⟩ := hother j hj
    rw [hkept] at hholds
    rw [if_neg fun heq ↦ hne (hholds.trans ((tagOf_eq_iff h.size).mpr heq).symm), hsame]
    exact h.data j addr fc' hholds

theorem putEntry (logical : BitVec 32) (fc : BitVec 8) (data : BitVec 32) :
    Coherent (fun addr fc' ↦ if keyOf m.tc logical fc = keyOf m.tc addr fc' then some data
      else last addr fc') (m.putEntry (tagOf m.tc logical fc) data) := by
  have htc : (m.putEntry (tagOf m.tc logical fc) data).tc = m.tc := tc_putEntry _ _ m
  have hsize : 8 ≤ pageSize (m.putEntry (tagOf m.tc logical fc) data).tc := by
    rw [htc]
    exact h.size
  rcases putEntry_cases (tagOf m.tc logical fc) data h.turn with
    ⟨i, hi, htags, hdata, hturn⟩ | ⟨hnone, i, htags, hdata, hturn⟩
  · -- the tags stay, and the entry with the tag has the new data
    have hother : ∀ j ≠ i, m.atcTag j ≠ tagOf m.tc logical fc := fun j hj heq ↦
      hj (h.unique j i (Holds.valid h.size heq) (heq.trans hi.symm))
    refine ⟨hsize, hturn, fun j hj ↦ ?_, fun j k hj hjk ↦ ?_, fun j addr fc' hholds ↦ ?_⟩
    · rw [Valid, htags] at hj
      obtain ⟨addr, fc', hholds⟩ := h.tag j hj
      refine ⟨addr, fc', ?_⟩
      rw [Holds, htags, htc]
      exact hholds
    · rw [Valid, htags] at hj
      rw [htags] at hjk
      exact h.unique j k hj hjk
    · refine h.data_of_added htc (by rw [htags, hi]) (by rw [hdata, update_self])
        (fun k hk ↦ ⟨by rw [htags], by rw [hdata, update_of_ne hk], hother k hk⟩) hholds
  · -- a free entry or the next one in turn gets the tag, which no entry had
    have hself : (m.putEntry (tagOf m.tc logical fc) data).atcTag i = tagOf m.tc logical fc := by
      rw [htags, update_self]
    have hkept : ∀ j ≠ i, (m.putEntry (tagOf m.tc logical fc) data).atcTag j = m.atcTag j :=
      fun j hj ↦ by rw [htags, update_of_ne hj]
    refine ⟨hsize, hturn, fun j hj ↦ ?_, fun j k hj hjk ↦ ?_, fun j addr fc' hholds ↦ ?_⟩
    · by_cases hji : j = i
      · refine ⟨logical, fc, ?_⟩
        rw [hji, Holds, hself, htc]
      · rw [Valid, hkept j hji] at hj
        obtain ⟨addr, fc', hholds⟩ := h.tag j hj
        refine ⟨addr, fc', ?_⟩
        rw [Holds, hkept j hji, htc]
        exact hholds
    · by_cases hji : j = i
      · by_contra hne
        rw [hji, hself, hkept k fun hk ↦ hne (hji.trans hk.symm)] at hjk
        exact hnone k hjk.symm
      · rw [Valid, hkept j hji] at hj
        rw [hkept j hji] at hjk
        by_cases hki : k = i
        · rw [hki, hself] at hjk
          exact absurd hjk (hnone j)
        · rw [hkept k hki] at hjk
          exact h.unique j k hj hjk
    · exact h.data_of_added htc hself (by rw [hdata, update_self])
        (fun k hk ↦ ⟨hkept k hk, by rw [hdata, update_of_ne hk], hnone k⟩) hholds

/-- Every event keeps the cache in order. -/
theorem atcStep (e : AtcEvent) : Coherent (record m.tc last e) (m.atcStep e) := by
  cases e with
  | add sr logical physical fc rw =>
    have hsr : Coherent last { m with tmpSr := sr } :=
      h.of_dropped rfl h.turn rfl fun _ ↦ .inl rfl
    exact hsr.putEntry logical fc (entryData m.tc sr physical rw)
  | lookup addrIn fc rw => exact h.atcLookup addrIn fc rw
  | probe addrIn fc => exact h.atcProbe addrIn fc
  | pflush modes r decodeEa => exact h.atcFlushFcEa modes r decodeEa

end

end Coherent

end Invariant

/-- No event writes the translation control register. -/
theorem tc_atcStep (m : Pmmu) (e : AtcEvent) : (m.atcStep e).tc = m.tc := by
  cases e with
  | add sr logical physical fc rw => exact tc_putEntry _ _ _
  | lookup addrIn fc rw => exact congrArg Registers.tc (registers_atcLookupIn addrIn fc rw _ m)
  | probe addrIn fc =>
    rw [atcStep, atcProbe]
    split <;> rfl
  | pflush modes r decodeEa => exact tc_atcFlushFcEa modes r decodeEa m

theorem coherent_run {last : Latest} {m : Pmmu} (h : Coherent last m) (es : List AtcEvent) :
    Coherent (es.foldl (record m.tc) last) (Run.run atcStep m es) := by
  induction es generalizing last m with
  | nil => exact h
  | cons e es ih =>
    have hstep := ih (h.atcStep e)
    rw [tc_atcStep] at hstep
    exact hstep

/-! ## Hits -/

/-- The entry that a search finds has the tag, and is not dropped. -/
theorem scan_some {data tags tags' : Fin 22 → BitVec 32} {tag : BitVec 32} {rw : Bool}
    {is : List (Fin 22)} {i : Fin 22} (htag : tag ≠ 0#32)
    (h : scan data tag rw is tags = (some i, tags')) : tags i = tag := by
  induction is generalizing tags with
  | nil => cases h
  | cons k is ih =>
    rw [scan] at h
    split_ifs at h with hother hdrop
    · exact ih h
    · have hfound := ih h
      by_cases hi : i = k
      · rw [hi, update_self] at hfound
        exact absurd hfound.symm htag
      · rwa [update_of_ne hi] at hfound
    · obtain ⟨hk, -⟩ := Prod.mk.inj h
      rw [← Option.some.inj hk]
      exact not_not.mp hother

/-- A lookup gives the page and the status of the data, with the place in the page of the
address. -/
def Gives (tc addrIn : BitVec 32) (last : Option (BitVec 32)) (addrOut : BitVec 32)
    (sr : BitVec 16) : Prop :=
  ∃ data, last = some data ∧ addrOut = entryAddr tc data addrIn ∧ sr = entrySr data

section Hits

variable {m : Pmmu} {last : Latest} (h : Coherent last m) {addrIn : BitVec 32} {fc : BitVec 8}
  {addrOut : BitVec 32}
include h

theorem gives_of_lookup {rw : Bool} (hhit : (m.atcLookup addrIn fc rw).1 = some addrOut) :
    Gives m.tc addrIn (last addrIn fc) addrOut (m.atcLookup addrIn fc rw).2.tmpSr := by
  rw [atcLookup, atcLookupIn_eq] at hhit ⊢
  generalize hscan : scan m.atcData
    (tagOf m.tc addrIn fc) rw (List.finRange 22) m.atcTag = r at hhit
  obtain ⟨_ | i, tags⟩ := r
  · cases hhit
  · obtain rfl := Option.some.inj hhit
    exact ⟨m.atcData i,
      h.data i addrIn fc (scan_some (tagOf_ne_zero m.tc addrIn fc) hscan), rfl, rfl⟩

theorem gives_of_probe (hhit : (m.atcProbe addrIn fc).1 = some addrOut) :
    Gives m.tc addrIn (last addrIn fc) addrOut (m.atcProbe addrIn fc).2.tmpSr := by
  rw [atcProbe] at hhit ⊢
  generalize hfind : (findEntry fun i ↦ m.atcTag i == tagOf m.tc addrIn fc) = found at hhit
  obtain _ | i := found
  · cases hhit
  · obtain rfl := Option.some.inj hhit
    have htag : m.atcTag i = tagOf m.tc addrIn fc := by simpa using List.find?_some hfind
    exact ⟨m.atcData i, h.data i addrIn fc htag, rfl, rfl⟩

end Hits

/-! ## Flushes -/

/-- What a flush is for: all entries, or those of some function codes, or of these those of a
page. -/
def Selects (tc : BitVec 32) (modes : BitVec 16) (fc : BitVec 32) (decodeEa : Option (BitVec 32))
    (addr : BitVec 32) (entryFc : BitVec 8) : Prop :=
  match (modes >>> 10 &&& 7#16).toNat with
  | 1 => True
  | 4 | 5 => entryFc.setWidth 32 &&& fcMask modes = fc &&& fcMask modes
  | 6 | 7 => ∃ ea, decodeEa = some ea ∧
      entryFc.setWidth 32 &&& fcMask modes = fc &&& fcMask modes ∧
      addr >>> pageSize tc = ea >>> pageSize tc
  | _ => False

theorem holds_dropTags (p : BitVec 32 → Bool)
    (m : Pmmu) (i : Fin 22) (addr : BitVec 32) (fc : BitVec 8) :
    (m.dropTags p).Holds i addr fc ↔ m.Holds i addr fc ∧ p (tagOf m.tc addr fc) = false := by
  have htag : (m.dropTags p).Holds i addr fc ↔
      (if p (m.atcTag i) then 0 else m.atcTag i) = tagOf m.tc addr fc := Iff.rfl
  rw [htag, Holds]
  split_ifs with hp
  · refine iff_of_false (fun h ↦ tagOf_ne_zero m.tc addr fc h.symm) fun h ↦ ?_
    rw [← h.1, hp] at h
    exact Bool.noConfusion h.2
  · refine ⟨fun h ↦ ⟨h, ?_⟩, And.left⟩
    rw [← h]
    exact Bool.eq_false_iff.mpr hp

section Flush

variable {m : Pmmu} (hsize : 8 ≤ pageSize m.tc) (modes : BitVec 16) (fcFrom : BitVec 32)
  (i : Fin 22) (addr : BitVec 32) (fc : BitVec 8)
include hsize

/-- The entries of some function codes are dropped. -/
theorem holds_dropTags_fc :
    (m.dropTags fun e ↦ e &&& atcValid ≠ 0#32 ∧
      e >>> 24 &&& fcMask modes = fcFrom &&& fcMask modes).Holds i addr fc ↔
      m.Holds i addr fc ∧ ¬ fc.setWidth 32 &&& fcMask modes = fcFrom &&& fcMask modes := by
  rw [holds_dropTags, decide_eq_false_iff_not, tagOf_fc_eq_iff hsize]
  exact and_congr_right fun _ ↦ not_congr (and_iff_right (tagOf_valid hsize addr fc))

/-- The entries of a page are dropped in some function codes. -/
theorem holds_dropTags_fc_ea (ea : BitVec 32) : (m.dropTags fun e ↦ e &&& atcValid ≠ 0#32 ∧
    e >>> 24 &&& fcMask modes = fcFrom &&& fcMask modes ∧
      (e ^^^ ea >>> 8) &&& pageMask m.tc = 0#32).Holds i addr fc ↔
      m.Holds i addr fc ∧ ¬ (fc.setWidth 32 &&& fcMask modes = fcFrom &&& fcMask modes ∧
        addr >>> pageSize m.tc = ea >>> pageSize m.tc) := by
  rw [holds_dropTags, decide_eq_false_iff_not, tagOf_fc_eq_iff hsize, tagOf_page_eq_iff hsize]
  exact and_congr_right fun _ ↦ not_congr (and_iff_right (tagOf_valid hsize addr fc))

/-- **A flush removes what it selects, and nothing else.** -/
theorem holds_atcFlushFcEa (r : FcRegisters) (decodeEa : Option (BitVec 32)) :
    (m.atcFlushFcEa modes r decodeEa).Holds i addr fc ↔
      m.Holds i addr fc ∧
      ¬ Selects m.tc modes (fcFromModes m.cpuType r modes) decodeEa addr fc := by
  have hea : (match decodeEa with
      | none => m
      | some ea => m.dropTags fun e ↦ e &&& atcValid ≠ 0#32 ∧
          e >>> 24 &&& fcMask modes = fcFromModes m.cpuType r modes &&& fcMask modes ∧
            (e ^^^ ea >>> 8) &&& pageMask m.tc = 0#32).Holds i addr fc ↔
      m.Holds i addr fc ∧ ¬ ∃ ea, decodeEa = some ea ∧
        fc.setWidth 32 &&& fcMask modes = fcFromModes m.cpuType r modes &&& fcMask modes ∧
          addr >>> pageSize m.tc = ea >>> pageSize m.tc := by
    cases decodeEa with
    | none => simp
    | some ea =>
      refine (holds_dropTags_fc_ea hsize modes _ i addr fc ea).trans
        (and_congr_right fun _ ↦ not_congr ?_)
      simp only [Option.some.injEq, exists_eq_left']
  unfold atcFlushFcEa Selects
  generalize (modes >>> 10 &&& 7#16).toNat = mode
  split
  · exact iff_of_false (fun h ↦ tagOf_ne_zero m.tc addr fc h.symm) fun h ↦ h.2 trivial
  · exact holds_dropTags_fc hsize modes _ i addr fc
  · exact holds_dropTags_fc hsize modes _ i addr fc
  · exact hea
  · exact hea
  · simp

end Flush

/-! ## Runs -/

/-- What holds of the cache after a run. -/
structure Consistent (es : List AtcEvent) (m : Pmmu) : Prop where
  unique : ∀ i j addr addr' fc fc', m.Holds i addr fc → m.Holds j addr' fc' →
    keyOf m.tc addr fc = keyOf m.tc addr' fc' → i = j
  known : ∀ i, m.Valid i → ∃ addr fc, m.Holds i addr fc
  lookup : ∀ addrIn fc rw addrOut, (m.atcLookup addrIn fc rw).1 = some addrOut →
    Gives m.tc addrIn (latest m.tc es addrIn fc) addrOut (m.atcLookup addrIn fc rw).2.tmpSr
  probe : ∀ addrIn fc addrOut, (m.atcProbe addrIn fc).1 = some addrOut →
    Gives m.tc addrIn (latest m.tc es addrIn fc) addrOut (m.atcProbe addrIn fc).2.tmpSr
  flush : ∀ modes r decodeEa i addr fc, (m.atcFlushFcEa modes r decodeEa).Holds i addr fc ↔
    m.Holds i addr fc ∧ ¬ Selects m.tc modes (fcFromModes m.cpuType r modes) decodeEa addr fc

/-- The cache is empty, as after a reset. -/
structure Empty (m : Pmmu) : Prop where
  free : ∀ i, ¬ m.Valid i
  turn : m.atcRr < 22

theorem Empty.coherent {m : Pmmu} (h : m.Empty) (hsize : 8 ≤ pageSize m.tc) :
    Coherent (fun _ _ ↦ none) m :=
  ⟨hsize, h.turn, fun i hi ↦ absurd hi (h.free i), fun i _ hi ↦ absurd hi (h.free i),
    fun i _ _ hi ↦ absurd (hi.valid hsize) (h.free i)⟩

theorem tc_run (m : Pmmu) (es : List AtcEvent) : (Run.run atcStep m es).tc = m.tc := by
  induction es generalizing m with
  | nil => rfl
  | cons e es ih => exact (ih (m.atcStep e)).trans (tc_atcStep m e)

/-- **The cache is consistent after every run** from an empty cache. -/
theorem consistent_run {m : Pmmu} (htc : TcValid m.tc) (hempty : m.Empty) (es : List AtcEvent) :
    Consistent es (Run.run atcStep m es) := by
  have hcoherent := coherent_run (hempty.coherent htc.1) es
  have htc' := tc_run m es
  have hlast : es.foldl (record m.tc) (fun _ _ ↦ none) = latest (Run.run atcStep m es).tc es := by
    rw [htc']
    rfl
  rw [hlast] at hcoherent
  refine ⟨fun i j addr addr' fc fc' hi hj hkey ↦ ?_, hcoherent.tag,
    fun _ _ _ _ ↦ gives_of_lookup hcoherent,
    fun _ _ _ ↦ gives_of_probe hcoherent, fun modes r decodeEa i addr fc ↦
      holds_atcFlushFcEa hcoherent.size modes i addr fc r decodeEa⟩
  have htag := (tagOf_eq_iff hcoherent.size).mpr hkey
  exact hcoherent.unique i j (hi.valid hcoherent.size) (hi.trans (htag.trans hj.symm))

/-- Two entries for a page of 4096 bytes; the one of function code 1 is flushed, and the other one
is dropped by a write. -/
theorem consistent_run_new :
    let es := [.add 0 0x12345678 0x00400000 5 true, .add 0 0x12345678 0x00500000 1 true,
      .pflush 0x10e0 ⟨1, 0, fun _ ↦ 0⟩ none, .lookup 0x12345000 5 false]
    Consistent es (Run.run atcStep { new with tc := 0x80c07760 } es) :=
  consistent_run (by decide) ⟨fun _ h ↦ h zero_and, by decide⟩ _

end Pmmu

end RoscoEmulator.M68k
