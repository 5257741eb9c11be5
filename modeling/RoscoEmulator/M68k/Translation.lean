import RoscoEmulator.M68k.Blocks

/-!
# Translations of one block

Two states of the PMMU that agree still agree after translations of two addresses of a block, and
the results are at the places of the addresses in one block. After a translation without a fault the
cache has the page, and other translations of the block change nothing. -/

namespace RoscoEmulator.M68k

open Function

namespace Pmmu

/-- The state without what the last translation leaves. -/
def forget (m : Pmmu) : Pmmu := { m with tmpSr := 0, lastLogicalAddr := 0, buserrorAddress := 0 }

/-! ## The cache -/

/-- The search of a lookup: the entry that it finds, and the tags that it leaves. -/
def scan (data : Fin 22 → BitVec 32) (tag : BitVec 32) (rw : Bool) :
    List (Fin 22) → (Fin 22 → BitVec 32) → Option (Fin 22) × (Fin 22 → BitVec 32)
  | [], tags => (none, tags)
  | i :: is, tags =>
      if tags i ≠ tag then scan data tag rw is tags
      else if ¬ rw ∧ data i &&& atcModified = 0#32 then scan data tag rw is (update tags i 0)
      else (some i, tags)

/-- The address that an entry of the cache gives. -/
def entryAddr (tc data addrIn : BitVec 32) : BitVec 32 :=
  data <<< 8 ||| addrIn &&& ~~~ (BitVec.allOnes 32 <<< pageSize tc)

theorem atcLookupIn_eq (addrIn : BitVec 32) (fc : BitVec 8) (rw : Bool) (is : List (Fin 22))
    (m : Pmmu) : atcLookupIn addrIn fc rw is m =
      match scan m.atcData (tagOf m.tc addrIn fc) rw is m.atcTag with
      | (some i, tags) =>
          (some (entryAddr m.tc (m.atcData i) addrIn),
            { m with atcTag := tags, tmpSr := entrySr (m.atcData i) })
      | (none, tags) => (none, { m with atcTag := tags }) := by
  induction is generalizing m with
  | nil => rfl
  | cons i is ih =>
    rw [atcLookupIn, scan]
    dsimp only
    split_ifs
    · exact ih m
    · exact ih _
    · rfl

section Scan

variable {data tags tags' : Fin 22 → BitVec 32} {tag : BitVec 32} {rw : Bool}
    {is : List (Fin 22)} {i : Fin 22}

/-- A search drops tags only. -/
theorem tags_scan (data : Fin 22 → BitVec 32) (tag : BitVec 32) (rw : Bool) (is : List (Fin 22))
    (tags : Fin 22 → BitVec 32) (k : Fin 22) :
    (scan data tag rw is tags).2 k = tags k ∨ (scan data tag rw is tags).2 k = 0#32 := by
  induction is generalizing tags with
  | nil => exact .inl rfl
  | cons i is ih =>
    rw [scan]
    split_ifs
    · exact ih tags
    · obtain hkept | hdropped := ih (update tags i 0)
      · rw [hkept]
        by_cases hk : k = i
        · rw [hk, update_self]
          exact .inr rfl
        · rw [update_of_ne hk]
          exact .inl rfl
      · exact .inr hdropped
    · exact .inl rfl

/-- After a search that finds nothing no entry has the tag. -/
theorem scan_none (htag : tag ≠ 0#32) (h : scan data tag rw is tags = (none, tags')) :
    ∀ i ∈ is, tags' i ≠ tag := by
  induction is generalizing tags with
  | nil => exact fun i hi ↦ absurd hi List.not_mem_nil
  | cons i is ih =>
    have hgone : ∀ tags₁, scan data tag rw is tags₁ = (none, tags') → tags₁ i ≠ tag →
        ∀ k ∈ i :: is, tags' k ≠ tag := by
      intro tags₁ hscan hne k hk
      obtain rfl | hk := List.mem_cons.mp hk
      · have hleft := tags_scan data tag rw is tags₁ k
        rw [hscan] at hleft
        rcases hleft with hleft | hleft
        · exact fun heq ↦ hne (hleft.symm.trans heq)
        · exact fun heq ↦ htag (heq.symm.trans hleft)
      · exact ih hscan k hk
    rw [scan] at h
    split_ifs at h with hother hdrop
    · exact hgone tags h hother
    · refine hgone _ h ?_
      rw [update_self]
      exact htag.symm
    · cases (Prod.mk.inj h).1

/-- A search finds the same entry again, and drops nothing more. -/
theorem scan_again (htag : tag ≠ 0#32) (h : scan data tag rw is tags = (some i, tags')) :
    scan data tag rw is tags' = (some i, tags') := by
  induction is generalizing tags with
  | nil => cases h
  | cons k is ih =>
    have hskip : ∀ tags₁, scan data tag rw is tags₁ = (some i, tags') → tags₁ k ≠ tag →
        scan data tag rw (k :: is) tags' = (some i, tags') := by
      intro tags₁ hscan hne
      have hleft := tags_scan data tag rw is tags₁ k
      rw [hscan] at hleft
      rw [scan, if_pos]
      · exact ih hscan
      · rcases hleft with hleft | hleft
        · exact fun heq ↦ hne (hleft.symm.trans heq)
        · exact fun heq ↦ htag (heq.symm.trans hleft)
    have hscan := h
    rw [scan] at h
    split_ifs at h with hother hdrop
    · exact hskip tags h hother
    · refine hskip _ h ?_
      rw [update_self]
      exact htag.symm
    · obtain ⟨-, rfl⟩ := Prod.mk.inj h
      exact hscan

/-- A search finds the only entry with the tag. -/
theorem scan_unique (honly : ∀ k ∈ is, tags k = tag → k = i) (hmem : i ∈ is) (htag : tags i = tag)
    (hkept : ¬ (¬ rw ∧ data i &&& atcModified = 0#32)) :
    scan data tag rw is tags = (some i, tags) := by
  induction is with
  | nil => exact absurd hmem List.not_mem_nil
  | cons k is ih =>
    rw [scan]
    by_cases hk : k = i
    · rw [hk, if_neg (not_not_intro htag), if_neg hkept]
    · rw [if_pos fun heq ↦ hk (honly k List.mem_cons_self heq)]
      exact ih (fun j hj ↦ honly j (List.mem_cons_of_mem k hj))
        ((List.mem_cons.mp hmem).resolve_left (Ne.symm hk))

end Scan

/-! ## A new entry -/

/-- An access through an entry of the cache is a fault. -/
def EntryFaults (rw : Bool) (data : BitVec 32) : Prop :=
  data.getLsbD 27 = true ∨ ¬ rw ∧ data.getLsbD 25 = true

instance (rw : Bool) (data : BitVec 32) : Decidable (EntryFaults rw data) :=
  inferInstanceAs (Decidable (_ ∨ _))

section Entry

variable {tc physical : BitVec 32} {sr : BitVec 16} {rw : Bool}

theorem entryData_eq (tc : BitVec 32) (sr : BitVec 16) (physical : BitVec 32) (rw : Bool) :
    entryData tc sr physical rw = (physical >>> pageSize tc) <<< (pageSize tc - 8) |||
      (if sr &&& (srBusError ||| srInvalid ||| srSupervisorOnly) ≠ 0#16 then atcBuserror
      else 0#32) ||| (if sr &&& srWriteProtect ≠ 0#16 then atcWritePr else 0#32) |||
      if ¬ rw ∧ sr &&& srWriteProtect = 0#16 then atcModified else 0#32 := by
  rw [entryData]
  split_ifs <;> simp only [BitVec.or_zero]

theorem getLsbD_frame (hsize : 8 ≤ pageSize tc) (addr : BitVec 32) (i : ℕ) :
    ((addr >>> pageSize tc) <<< (pageSize tc - 8)).getLsbD i =
      (decide (pageSize tc ≤ i + 8) && addr.getLsbD (i + 8)) := by
  rw [BitVec.getLsbD_shiftLeft, BitVec.getLsbD_ushiftRight]
  by_cases hi : pageSize tc ≤ i + 8
  · rw [show pageSize tc + (i - (pageSize tc - 8)) = i + 8 by omega,
      decide_eq_false (by omega : ¬ i < pageSize tc - 8), decide_eq_true hi]
    by_cases hlt : i < 32
    · simp [hlt]
    · rw [BitVec.getLsbD_of_ge _ (i + 8) (by omega)]
      simp
  · rw [decide_eq_true (by omega : i < pageSize tc - 8), decide_eq_false hi]
    simp

/-- A new entry has the frame in its low bits, and the flags above. -/
theorem getLsbD_entryData (hsize : 8 ≤ pageSize tc) (sr : BitVec 16) (physical : BitVec 32)
    (rw : Bool) (i : ℕ) : (entryData tc sr physical rw).getLsbD i =
      (decide (pageSize tc ≤ i + 8) && physical.getLsbD (i + 8) ||
        (decide (sr &&& (srBusError ||| srInvalid ||| srSupervisorOnly) ≠ 0#16) &&
        decide (i = 27)) || (decide (sr &&& srWriteProtect ≠ 0#16) && decide (i = 25)) ||
        (decide (¬ rw ∧ sr &&& srWriteProtect = 0#16) && decide (i = 24))) := by
  have hflag : ∀ (c : Prop) [Decidable c] (k : ℕ), k < 32 →
      (if c then BitVec.twoPow 32 k else 0#32).getLsbD i = (decide c && decide (i = k)) := by
    intro c _ k hk
    by_cases hc : c
    · simp only [hc, if_true, BitVec.getLsbD_twoPow, hk, decide_true, Bool.true_and, eq_comm]
    · simp only [hc, if_false, BitVec.getLsbD_zero, decide_false, Bool.false_and]
  rw [entryData_eq, BitVec.getLsbD_or, BitVec.getLsbD_or, BitVec.getLsbD_or, getLsbD_frame hsize,
    show atcBuserror = BitVec.twoPow 32 27 from rfl, show atcWritePr = BitVec.twoPow 32 25 from rfl,
    show atcModified = BitVec.twoPow 32 24 from rfl, hflag _ 27 (by decide), hflag _ 25 (by decide),
    hflag _ 24 (by decide)]

/-- A new entry of the cache gives the address of the page, with the low bits of the address. -/
theorem getLsbD_entryAddr (hsize : 8 ≤ pageSize tc) (sr : BitVec 16)
    (physical : BitVec 32) (rw : Bool)
    (addrIn : BitVec 32) (i : ℕ) : (entryAddr tc (entryData tc sr physical rw) addrIn).getLsbD i =
      if i < pageSize tc then addrIn.getLsbD i else physical.getLsbD i := by
  rw [entryAddr, BitVec.getLsbD_or, BitVec.getLsbD_and, BitVec.getLsbD_not,
    BitVec.getLsbD_shiftLeft,
    BitVec.getLsbD_shiftLeft, getLsbD_entryData hsize, BitVec.getLsbD_allOnes]
  by_cases hi : i < 32
  · split
    · next hlow =>
      rw [decide_eq_true (show i < 32 from hi), decide_eq_true hlow]
      by_cases hblock : i < 8
      · simp [hblock]
      · have hflags : ¬ pageSize tc ≤ i - 8 + 8 ∧ i - 8 < 24 := by omega
        simp [hblock, hflags.1, show i - 8 ≠ 27 ∧ i - 8 ≠ 25 ∧ i - 8 ≠ 24 by omega]
    · next hhigh =>
      have hframe : pageSize tc ≤ i - 8 + 8 := by omega
      rw [decide_eq_true (show i < 32 from hi), decide_eq_false hhigh,
        decide_eq_false (by omega : ¬ i < 8),
        decide_eq_true hframe, show i - 8 + 8 = i by omega]
      simp [show i - 8 ≠ 27 ∧ i - 8 ≠ 25 ∧ i - 8 ≠ 24 by omega, show i - pageSize tc < 32 by omega]
  · rw [BitVec.getLsbD_of_ge addrIn i (by omega), BitVec.getLsbD_of_ge physical i (by omega)]
    simp [hi]

theorem getLsbD_entrySr (data : BitVec 32) :
    (entrySr data).getLsbD 15 = data.getLsbD 27 ∧ (entrySr data).getLsbD 11 = data.getLsbD 25 := by
  have hbuserror := and_flag_ne (show atcBuserror = BitVec.twoPow 32 27 from rfl) (by decide) data
  have hwritePr := and_flag_ne (show atcWritePr = BitVec.twoPow 32 25 from rfl) (by decide) data
  have hbits : ∀ c₁ c₂ c₃ : Bool,
      ((if c₁ then srModified else 0#16) ||| (if c₂ then srWriteProtect else 0#16) |||
          if c₃ then srBusError ||| srInvalid else 0#16).getLsbD 15 = c₃ ∧
        ((if c₁ then srModified else 0#16) ||| (if c₂ then srWriteProtect else 0#16) |||
          if c₃ then srBusError ||| srInvalid else 0#16).getLsbD 11 = c₂ := by
    decide
  obtain ⟨hhigh, hlow⟩ := hbits (decide (data &&& atcModified ≠ 0#32))
    (decide (data &&& atcWritePr ≠ 0#32)) (decide (data &&& atcBuserror ≠ 0#32))
  simp only [decide_eq_true_eq] at hhigh hlow
  rw [entrySr, hhigh, hlow]
  exact ⟨Bool.eq_iff_iff.mpr (decide_eq_true_iff.trans hbuserror),
    Bool.eq_iff_iff.mpr (decide_eq_true_iff.trans hwritePr)⟩

/-- The entry for an access that the status allows lets the access through. -/
theorem entryData_of_clean (hsize : 8 ≤ pageSize tc)
    (hclean : Clean rw sr) (physical : BitVec 32) (rw' : Bool) (hrw : rw = false → rw' = false) :
    ¬ (¬ rw ∧ entryData tc sr physical rw' &&& atcModified = 0#32) ∧
      ¬ EntryFaults rw (entryData tc sr physical rw') := by
  obtain ⟨hbusError, hsupervisorOnly, hinvalid, hwriteProtect⟩ := hclean
  have hprotect : ¬ rw → sr &&& srWriteProtect = 0#16 := by
    intro hw
    rw [← not_ne_iff, and_srWriteProtect_ne, hwriteProtect (Bool.eq_false_iff.mpr hw)]
    decide
  have hzero : sr &&& (srBusError ||| srInvalid ||| srSupervisorOnly) = 0#16 := by
    rw [BitVec.and_or_distrib_left, BitVec.and_or_distrib_left, BitVec.or_eq_zero_iff,
      BitVec.or_eq_zero_iff, ← not_ne_iff, ← not_ne_iff, ← not_ne_iff, and_srBusError_ne,
      and_srInvalid_ne, and_srSupervisorOnly_ne, hbusError, hinvalid, hsupervisorOnly]
    decide
  refine ⟨fun h ↦ ?_, ?_⟩
  · obtain ⟨hw, hmodified⟩ := h
    refine absurd hmodified
      ((and_flag_ne (show atcModified = BitVec.twoPow 32 24 from rfl) (by decide) _).mpr ?_)
    have hrw' := hrw (Bool.eq_false_iff.mpr hw)
    rw [getLsbD_entryData hsize, decide_eq_true (show ¬ rw' ∧ sr &&& srWriteProtect = 0#16 from
      ⟨by rw [hrw']; decide, hprotect hw⟩)]
    simp
  · rw [EntryFaults, getLsbD_entryData hsize, getLsbD_entryData hsize, hzero,
      BitVec.getLsbD_of_ge physical (27 + 8) (by decide),
      BitVec.getLsbD_of_ge physical (25 + 8) (by decide)]
    rintro (h | ⟨hw, h⟩)
    · simp at h
    · rw [hprotect hw] at h
      simp at h

end Entry

theorem forget_putEntry (tag data : BitVec 32) (m : Pmmu) :
    (m.putEntry tag data).forget = m.forget.putEntry tag data := by
  rw [putEntry, putEntry, show m.forget.atcTag = m.atcTag from rfl]
  cases findEntry fun i ↦ m.atcTag i == tag with
  | some i => rfl
  | none => cases findEntry fun i ↦ m.atcTag i &&& atcValid == 0#32 <;> rfl

/-- A new entry changes the cache only. -/
theorem occurred_putEntry (tag data : BitVec 32) (m : Pmmu) :
    (m.putEntry tag data).buserrorOccurred = m.buserrorOccurred := by
  rw [putEntry]
  dsimp only
  split
  · rfl
  · split <;> rfl

/-- A lookup finds a new entry. -/
theorem scan_putEntry {tag data : BitVec 32} {rw : Bool} {m : Pmmu} (hnone : ∀ i, m.atcTag i ≠ tag)
    (hkept : ¬ (¬ rw ∧ data &&& atcModified = 0#32)) : ∃ i, (m.putEntry tag data).atcData i = data ∧
      scan (m.putEntry tag data).atcData tag rw (List.finRange 22) (m.putEntry tag data).atcTag =
        (some i, (m.putEntry tag data).atcTag) := by
  have hput : ∃ i, (m.putEntry tag data).atcTag = update m.atcTag i tag ∧
      (m.putEntry tag data).atcData = update m.atcData i data := by
    rw [putEntry]
    dsimp only
    split
    · next i hi => exact absurd (by simpa using List.find?_some hi) (hnone i)
    · split
      · exact ⟨_, rfl, rfl⟩
      · exact ⟨_, rfl, rfl⟩
  obtain ⟨i, htag, hdata⟩ := hput
  rw [htag, hdata]
  refine ⟨i, update_self ..,
    scan_unique (fun k _ hk ↦ ?_) (List.mem_finRange i) (update_self ..) ?_⟩
  · by_contra hne
    rw [update_of_ne hne] at hk
    exact hnone k hk
  · rwa [update_self]

/-! ## A translation -/

section Translate

variable {a : BitVec 32} {fc : BitVec 8} {rw : Bool} {m : Pmmu}

/-- An address that is not translated: transparently mapped, or of the processor's own space. -/
def Plain (addrIn : BitVec 32) (fc : BitVec 8) (rw : Bool) (m : Pmmu) : Prop :=
  matchTt addrIn fc m.tt0 rw ∨ matchTt addrIn fc m.tt1 rw ∨ fc = 7#8

/-- The entry of the cache that a translation finds. -/
def lookup (addrIn : BitVec 32) (fc : BitVec 8) (rw : Bool) (m : Pmmu) :
    Option (Fin 22) × (Fin 22 → BitVec 32) :=
  scan m.atcData (tagOf m.tc addrIn fc) rw (List.finRange 22) m.atcTag

theorem lookup_start (a : BitVec 32) (fc : BitVec 8) (rw : Bool) (m : Pmmu) (addr : BitVec 32) :
    lookup a fc rw { m with tmpSr := 0, lastLogicalAddr := addr } = m.lookup a fc rw := rfl

/-- The walk of a translation that finds none. -/
def walk (addrIn : BitVec 32) (fc : BitVec 8) (rw : Bool) (m : Pmmu) : Walk :=
  Walk.tables false m.tc addrIn (m.root fc).1 (m.root fc).2 fc 7 rw 0 m.program

/-- The counter of faults after an access. -/
def count (fault : Prop) [Decidable fault] (m : Pmmu) : BitVec 16 :=
  if fault then m.buserrorOccurred + 1 else m.buserrorOccurred

theorem translate_of_plain (hplain : m.Plain a fc rw) :
    (m.translate false a fc rw).1 = a ∧ (m.translate false a fc rw).2.forget = m.forget := by
  rw [translate]
  by_cases htt0 : matchTt a fc m.tt0 rw = true
  · rw [if_pos htt0]
    exact ⟨rfl, rfl⟩
  by_cases htt1 : matchTt a fc m.tt1 rw = true
  · rw [if_neg htt0, if_pos htt1]
    exact ⟨rfl, rfl⟩
  rw [if_neg htt0, if_neg htt1, if_pos ((hplain.resolve_left htt0).resolve_left htt1)]
  exact ⟨rfl, rfl⟩

/-- The lookup of a translation. -/
def atcLookupStart (a : BitVec 32) (fc : BitVec 8) (rw : Bool) (m : Pmmu) :
    Option (BitVec 32) × Pmmu :=
  atcLookupIn a fc rw (List.finRange 22) { m with tmpSr := 0, lastLogicalAddr := a }

variable (addrIn : BitVec 32) {tags : Fin 22 → BitVec 32}

theorem atcLookupStart_of_some {i : Fin 22} (h : m.lookup a fc rw = (some i, tags)) :
    m.atcLookupStart a fc rw = (some (entryAddr m.tc (m.atcData i) a),
      { m with atcTag := tags, tmpSr := entrySr (m.atcData i), lastLogicalAddr := a }) := by
  rw [atcLookupStart, atcLookupIn_eq, ← lookup, lookup_start, h]

theorem atcLookupStart_of_none (h : m.lookup a fc rw = (none, tags)) : m.atcLookupStart a fc rw =
    (none, { m with atcTag := tags, tmpSr := 0, lastLogicalAddr := a }) := by
  rw [atcLookupStart, atcLookupIn_eq, ← lookup, lookup_start, h]

theorem translate_of_not_plain (hplain : ¬ m.Plain a fc rw) : m.translate false a fc rw =
    match m.atcLookupStart a fc rw with
    | (some addrOut, m) =>
        if m.tmpSr &&& srBusError ≠ 0#16 ∨ ¬ rw ∧ m.tmpSr &&& srWriteProtect ≠ 0#16 then
          (addrOut, m.setBuserror a)
        else (addrOut, m)
    | (none, m) => m.translateMiss false a fc rw := by
  rw [Plain, not_or, not_or] at hplain
  obtain ⟨htt0, htt1, hfc⟩ := hplain
  rw [translate]
  exact (if_neg htt0).trans ((if_neg htt1).trans ((if_neg hfc).trans (if_neg (by decide))))

theorem forget_setBuserror (m : Pmmu) : (m.setBuserror addrIn).forget =
    { m.forget with buserrorOccurred := m.buserrorOccurred + 1 } := by
  rw [setBuserror]
  split <;> rfl

theorem tc_setBuserror (m : Pmmu) : (m.setBuserror addrIn).tc = m.tc :=
  congrArg Registers.tc (registers_setBuserror addrIn m)

theorem tmpSr_setBuserror (m : Pmmu) : (m.setBuserror addrIn).tmpSr = m.tmpSr := by
  rw [setBuserror]
  split <;> rfl

theorem translate_of_hit (hplain : ¬ m.Plain a fc rw) {i : Fin 22}
    (hlookup : m.lookup a fc rw = (some i, tags)) :
    (m.translate false a fc rw).1 = entryAddr m.tc (m.atcData i) a ∧
      (m.translate false a fc rw).2.forget =
        { m.forget with
        atcTag := tags, buserrorOccurred := m.count (EntryFaults rw (m.atcData i)) } := by
  have hfaults : entrySr (m.atcData i) &&& srBusError ≠ 0#16 ∨
      ¬ rw ∧ entrySr (m.atcData i) &&& srWriteProtect ≠ 0#16 ↔ EntryFaults rw (m.atcData i) := by
    rw [and_srBusError_ne, and_srWriteProtect_ne, (getLsbD_entrySr _).1,
      (getLsbD_entrySr _).2, EntryFaults]
  rw [translate_of_not_plain hplain, atcLookupStart_of_some hlookup]
  dsimp only
  rw [count]
  by_cases hentry : EntryFaults rw (m.atcData i)
  · rw [if_pos (hfaults.mpr hentry), if_pos hentry]
    exact ⟨rfl, forget_setBuserror _ _⟩
  · rw [if_neg fun h ↦ hentry (hfaults.mp h), if_neg hentry]
    exact ⟨rfl, rfl⟩

theorem translateMiss_eq (hsr : m.tmpSr = 0#16) :
    (m.translateMiss false a fc rw).1 = (m.walk a fc rw).addrOut ∧
      (m.translateMiss false a fc rw).2.forget =
        putEntry (tagOf m.tc a fc)
          (entryData m.tc (m.walk a fc rw).sr (m.walk a fc rw).addrOut
            (rw && (m.root fc).1 != .page))
          { m.forget with
            program := (m.walk a fc rw).program
            buserrorOccurred := m.count (Faults rw (m.walk a fc rw).sr) } := by
  have hwalk : Walk.tables false m.tc a (m.root fc).1 (m.root fc).2 fc 7 rw m.tmpSr m.program =
      m.walk a fc rw := by
    rw [hsr]
    rfl
  rw [translateMiss]
  dsimp only
  rw [hwalk, atcAdd, forget_putEntry, count]
  by_cases hfaults : Faults rw (m.walk a fc rw).sr
  · rw [if_pos ⟨hfaults, by decide⟩, if_pos hfaults, forget_setBuserror, tc_setBuserror,
      tmpSr_setBuserror]
    exact ⟨rfl, rfl⟩
  · rw [if_neg fun h ↦ hfaults h.1, if_neg hfaults]
    exact ⟨rfl, rfl⟩

theorem translate_of_miss (hplain : ¬ m.Plain a fc rw) (hlookup : m.lookup a fc rw = (none, tags)) :
    (m.translate false a fc rw).1 = (m.walk a fc rw).addrOut ∧
      (m.translate false a fc rw).2.forget =
        putEntry (tagOf m.tc a fc)
          (entryData m.tc (m.walk a fc rw).sr (m.walk a fc rw).addrOut
            (rw && (m.root fc).1 != .page))
          { m.forget with
            atcTag := tags
            program := (m.walk a fc rw).program
            buserrorOccurred := m.count (Faults rw (m.walk a fc rw).sr) } := by
  rw [translate_of_not_plain hplain, atcLookupStart_of_none hlookup]
  exact translateMiss_eq rfl

end Translate

/-! ## Translations of a block -/

section Block

variable {tc a b : BitVec 32} {fc : BitVec 8} {rw : Bool} {m m' : Pmmu}

theorem tagOf_ne_zero (tc addr : BitVec 32) (fc : BitVec 8) : tagOf tc addr fc ≠ 0#32 := by
  intro h
  have hbit := congrArg (BitVec.getLsbD · 27) h
  simp only [tagOf, BitVec.getLsbD_or, BitVec.getLsbD_zero, Bool.or_eq_false_iff] at hbit
  exact absurd hbit.1.1 (by decide)

theorem tagOf_eq (hsize : 8 ≤ pageSize tc) (hblock : SameBlock a b) (fc : BitVec 8) :
    tagOf tc a fc = tagOf tc b fc := by
  rw [tagOf, tagOf, hblock.shiftRight_eq hsize]

theorem matchTt_eq (hblock : SameBlock a b) (fc : BitVec 8) (tt : BitVec 32) (rw : Bool) :
    matchTt a fc tt rw = matchTt b fc tt rw := by
  have hand : a &&& (tt <<< 8 &&& 0xff000000#32 ^^^ 0xff000000#32) =
      b &&& (tt <<< 8 &&& 0xff000000#32 ^^^ 0xff000000#32) := by
    refine hblock.and_eq fun i hi ↦ ?_
    have hmask : (0xff000000#32).getLsbD i = false :=
      (show ∀ i < 8, (0xff000000#32).getLsbD i = false by decide) i hi
    rw [BitVec.getLsbD_xor, BitVec.getLsbD_and, hmask, Bool.and_false, Bool.xor_false]
  rw [matchTt, matchTt, hand]

theorem plain_iff (hblock : SameBlock a b) : m.Plain a fc rw ↔ m.Plain b fc rw := by
  rw [Plain, Plain, matchTt_eq hblock, matchTt_eq hblock]

/-- An entry of the cache gives the places of a block. -/
theorem entryAddr_place (hsize : 8 ≤ pageSize tc) (hblock : SameBlock a b) (data : BitVec 32) :
    entryAddr tc data b = place (entryAddr tc data a) b := by
  have hbit : ∀ (addr : BitVec 32) (i : ℕ), (entryAddr tc data addr).getLsbD i =
      ((data <<< 8).getLsbD i ||
        (addr.getLsbD i &&
        (decide (i < 32) && !(BitVec.allOnes 32 <<< pageSize tc).getLsbD i))) := by
    intro addr i
    rw [entryAddr, BitVec.getLsbD_or, BitVec.getLsbD_and, BitVec.getLsbD_not]
  refine eq_place (fun i hi ↦ ?_) fun i hi ↦ ?_
  · rw [hbit, BitVec.getLsbD_shiftLeft, BitVec.getLsbD_shiftLeft,
      decide_eq_true (show i < 32 by omega),
      decide_eq_true hi, decide_eq_true (show i < pageSize tc by omega)]
    simp
  · rw [hbit, hbit, hblock.bit_eq hi]

variable (a fc rw) in
/-- The state that counts is what is left without the last translation. -/
theorem translate_congr (hm : m'.forget = m.forget) :
    (m'.translate false a fc rw).1 = (m.translate false a fc rw).1 ∧
      (m'.translate false a fc rw).2.forget = (m.translate false a fc rw).2.forget := by
  have hplain : m'.Plain a fc rw = m.Plain a fc rw := (congrArg (Plain a fc rw) hm :)
  have hlookup : m'.lookup a fc rw = m.lookup a fc rw := (congrArg (lookup a fc rw) hm :)
  have hwalk : m'.walk a fc rw = m.walk a fc rw := (congrArg (walk a fc rw) hm :)
  have hroot : m'.root fc = m.root fc := (congrArg (root fc) hm :)
  have htc : m'.tc = m.tc := (congrArg tc hm :)
  have hdata : m'.atcData = m.atcData := (congrArg atcData hm :)
  have hcount : m'.buserrorOccurred = m.buserrorOccurred := (congrArg buserrorOccurred hm :)
  by_cases hp : m.Plain a fc rw
  · obtain ⟨haddr, hforget⟩ := translate_of_plain hp
    obtain ⟨haddr', hforget'⟩ := translate_of_plain (hplain ▸ hp : m'.Plain a fc rw)
    exact ⟨haddr'.trans haddr.symm, hforget'.trans (hm.trans hforget.symm)⟩
  have hp' : ¬ m'.Plain a fc rw := hplain ▸ hp
  rcases h : m.lookup a fc rw with ⟨_ | i, tags⟩
  · obtain ⟨haddr, hforget⟩ := translate_of_miss hp h
    obtain ⟨haddr', hforget'⟩ := translate_of_miss hp' (hlookup.trans h)
    rw [haddr', hforget', haddr, hforget, hwalk, hroot, htc, hm, count, count, hcount]
    exact ⟨rfl, rfl⟩
  · obtain ⟨haddr, hforget⟩ := translate_of_hit hp h
    obtain ⟨haddr', hforget'⟩ := translate_of_hit hp' (hlookup.trans h)
    rw [haddr', hforget', haddr, hforget, hdata, htc, hm, count, count, hcount]
    exact ⟨rfl, rfl⟩

theorem count_eq_iff (fault : Prop) [Decidable fault] (m : Pmmu) :
    m.count fault = m.buserrorOccurred ↔ ¬ fault := by
  rw [count]
  split
  · next h => simp [h]
  · next h => simp [h]

theorem walk_twin (hvalid : TcValid m.tc) (hblock : SameBlock a b) (fc : BitVec 8) (rw : Bool) :
    (m.walk b fc rw).sr = (m.walk a fc rw).sr ∧
      (m.walk b fc rw).program = (m.walk a fc rw).program ∧
      ((m.walk b fc rw).addrOut = (m.walk a fc rw).addrOut ∧ Faults rw (m.walk a fc rw).sr ∨
        Clean rw (m.walk a fc rw).sr ∧
          (∀ i < pageSize m.tc, (m.walk a fc rw).addrOut.getLsbD i = a.getLsbD i) ∧
          (m.walk b fc rw).addrOut = place (m.walk a fc rw).addrOut b) :=
  Walk.tables_twin hvalid hblock fc rw _ _ _

variable (fc rw) in
/-- Two addresses of a block are translated alike: what the translations leave is the same, and
without a fault they give two places of a block. -/
theorem translate_twin (hvalid : TcValid m.tc) (hblock : SameBlock a b) :
    (m.translate false b fc rw).2.forget = (m.translate false a fc rw).2.forget ∧
      ((m.translate false a fc rw).2.buserrorOccurred = m.buserrorOccurred →
        (m.translate false b fc rw).1 = place (m.translate false a fc rw).1 b) := by
  have htag := tagOf_eq hvalid.1 hblock fc
  have hlookup : m.lookup b fc rw = m.lookup a fc rw := by
    rw [lookup, lookup, htag]
  by_cases hp : m.Plain a fc rw
  · obtain ⟨haddr, hforget⟩ := translate_of_plain hp
    obtain ⟨haddr', hforget'⟩ := translate_of_plain ((plain_iff hblock).mp hp)
    refine ⟨hforget'.trans hforget.symm, fun _ ↦ ?_⟩
    rw [haddr', haddr, place_of_sameBlock hblock]
  have hp' : ¬ m.Plain b fc rw := mt (plain_iff hblock).mpr hp
  rcases h : m.lookup a fc rw with ⟨_ | i, tags⟩
  · obtain ⟨haddr, hforget⟩ := translate_of_miss hp h
    obtain ⟨haddr', hforget'⟩ := translate_of_miss hp' (hlookup.trans h)
    have hoccurred := congrArg buserrorOccurred hforget
    rw [occurred_putEntry] at hoccurred
    obtain ⟨hsr, hprogram, ⟨hout, hfaults⟩ | ⟨hclean, -, hout⟩⟩ := walk_twin hvalid hblock fc rw
    · rw [haddr', hforget', haddr, hforget, hsr, hprogram, hout, htag]
      refine ⟨rfl, fun hclear ↦ absurd hfaults ?_⟩
      exact (count_eq_iff _ m).mp (hoccurred.symm.trans hclear)
    · have hframe : SameBlock (m.walk a fc rw).addrOut (m.walk b fc rw).addrOut := by
        refine SameBlock.of_bits fun i hi ↦ ?_
        rw [hout, getLsbD_place, if_neg (by omega)]
      have hentry : ∀ rw', entryData m.tc (m.walk a fc rw).sr (m.walk b fc rw).addrOut rw' =
          entryData m.tc (m.walk a fc rw).sr (m.walk a fc rw).addrOut rw' := by
        intro rw'
        rw [entryData, entryData, hframe.shiftRight_eq hvalid.1]
      rw [haddr', hforget', haddr, hforget, hsr, hprogram, hentry, htag]
      exact ⟨rfl, fun _ ↦ hout⟩
  · obtain ⟨haddr, hforget⟩ := translate_of_hit hp h
    obtain ⟨haddr', hforget'⟩ := translate_of_hit hp' (hlookup.trans h)
    refine ⟨hforget'.trans hforget.symm, fun _ ↦ ?_⟩
    rw [haddr', haddr, entryAddr_place hvalid.1 hblock]

/-- After a translation without a fault the same one gives the same address, and changes nothing. -/
theorem translate_again (hvalid : TcValid m.tc)
    (hclear : (m.translate false a fc rw).2.buserrorOccurred = m.buserrorOccurred) :
    ((m.translate false a fc rw).2.translate false a fc rw).1 = (m.translate false a fc rw).1 ∧
      ((m.translate false a fc rw).2.translate false a fc rw).2.forget =
      (m.translate false a fc rw).2.forget := by
  have hregisters := registers_translate false a fc rw m
  generalize ht : m.translate false a fc rw = t at hclear hregisters ⊢
  have htc : t.2.tc = m.tc := congrArg Registers.tc hregisters
  have hplain : t.2.Plain a fc rw ↔ m.Plain a fc rw := by
    rw [Plain, Plain, show t.2.tt0 = m.tt0 from congrArg Registers.tt0 hregisters,
      show t.2.tt1 = m.tt1 from congrArg Registers.tt1 hregisters]
  by_cases hp : m.Plain a fc rw
  · obtain ⟨haddr, hforget⟩ := translate_of_plain hp
    rw [ht] at haddr
    obtain ⟨haddr', hforget'⟩ := translate_of_plain (hplain.mpr hp)
    exact ⟨haddr'.trans haddr.symm, hforget'⟩
  have hp' : ¬ t.2.Plain a fc rw := mt hplain.mp hp
  rcases h : m.lookup a fc rw with ⟨_ | i, tags⟩
  · obtain ⟨haddr, hforget⟩ := translate_of_miss hp h
    rw [ht] at haddr hforget
    have hoccurred : t.2.buserrorOccurred = m.count (Faults rw (m.walk a fc rw).sr) :=
      (congrArg buserrorOccurred hforget).trans (occurred_putEntry _ _ _)
    have hfaults := (count_eq_iff _ m).mp (hoccurred.symm.trans hclear)
    obtain ⟨-, -, ⟨-, habsurd⟩ | ⟨hclean, hlow, -⟩⟩ :=
      walk_twin hvalid (show SameBlock a a from rfl) fc rw
    · exact absurd habsurd hfaults
    obtain ⟨hkept, hentry⟩ := entryData_of_clean hvalid.1 hclean (m.walk a fc rw).addrOut
      (rw && (m.root fc).1 != .page) (fun hw ↦ by rw [hw, Bool.false_and])
    obtain ⟨i, hi, hscan⟩ := scan_putEntry (m := { m.forget with
      atcTag := tags
      program := (m.walk a fc rw).program
      buserrorOccurred := m.count (Faults rw (m.walk a fc rw).sr) })
      (fun i ↦ scan_none (tagOf_ne_zero m.tc a fc) h i (List.mem_finRange i)) hkept
    rw [← hforget] at hi hscan
    have hagain : t.2.lookup a fc rw = (some i, t.2.atcTag) := by
      rw [lookup, htc]
      exact hscan
    obtain ⟨haddr', hforget'⟩ := translate_of_hit hp' hagain
    rw [show t.2.atcData i = _ from hi, htc] at haddr'
    rw [show t.2.atcData i = _ from hi, (count_eq_iff _ t.2).mpr hentry] at hforget'
    refine ⟨?_, hforget'⟩
    rw [haddr', haddr]
    refine BitVec.eq_of_getLsbD_eq fun k _ ↦ ?_
    rw [getLsbD_entryAddr hvalid.1]
    split
    · next hk => exact (hlow k hk).symm
    · rfl
  · obtain ⟨haddr, hforget⟩ := translate_of_hit hp h
    rw [ht] at haddr hforget
    have htags : t.2.atcTag = tags := (congrArg atcTag hforget :)
    have hdata : t.2.atcData = m.atcData := (congrArg atcData hforget :)
    have hoccurred : t.2.buserrorOccurred = m.count (EntryFaults rw (m.atcData i)) :=
      (congrArg buserrorOccurred hforget :)
    have hfaults := (count_eq_iff _ m).mp (hoccurred.symm.trans hclear)
    have hagain : t.2.lookup a fc rw = (some i, tags) := by
      rw [lookup, htags, hdata, htc]
      exact scan_again (tagOf_ne_zero _ _ _) h
    obtain ⟨haddr', hforget'⟩ := translate_of_hit hp' hagain
    rw [haddr', hforget', haddr, htc, hdata, (count_eq_iff _ t.2).mpr hfaults, ← htags]
    exact ⟨rfl, rfl⟩

/-- After a translation without a fault the block is translated as a whole: each of its addresses to
its place, and nothing changes. -/
theorem translate_block (hvalid : TcValid m.tc) (hblock : SameBlock a b)
    (hclear : (m.translate false a fc rw).2.buserrorOccurred = m.buserrorOccurred)
    (hm : m'.forget = (m.translate false a fc rw).2.forget) :
    (m'.translate false b fc rw).1 = place (m.translate false a fc rw).1 b ∧
      (m'.translate false b fc rw).2.forget = (m.translate false a fc rw).2.forget := by
  obtain ⟨haddr, hforget⟩ := translate_again hvalid hclear
  obtain ⟨haddr', hforget'⟩ := translate_congr b fc rw hm
  have htc : (m.translate false a fc rw).2.tc = m.tc :=
    congrArg Registers.tc (registers_translate false a fc rw m)
  obtain ⟨htwin, hplace⟩ := translate_twin fc rw (htc.symm ▸ hvalid) hblock
  refine ⟨haddr'.trans ?_, hforget'.trans (htwin.trans hforget)⟩
  rw [hplace (congrArg buserrorOccurred hforget :), haddr]

/-- A translation counts at most one fault. -/
theorem occurred_translate (a : BitVec 32) (fc : BitVec 8) (rw : Bool) (m : Pmmu) :
    (m.translate false a fc rw).2.buserrorOccurred = m.buserrorOccurred ∨
      (m.translate false a fc rw).2.buserrorOccurred = m.buserrorOccurred + 1 := by
  have hcount : ∀ (fault : Prop) [Decidable fault],
      m.count fault = m.buserrorOccurred ∨ m.count fault = m.buserrorOccurred + 1 := by
    intro fault _
    rw [count]
    split
    · exact .inr rfl
    · exact .inl rfl
  by_cases hp : m.Plain a fc rw
  · exact .inl (congrArg buserrorOccurred (translate_of_plain hp).2 :)
  rcases h : m.lookup a fc rw with ⟨_ | i, tags⟩
  · rw [show (m.translate false a fc rw).2.buserrorOccurred = _ from
      (congrArg buserrorOccurred (translate_of_miss hp h).2).trans (occurred_putEntry _ _ _)]
    exact hcount _
  · rw [show (m.translate false a fc rw).2.buserrorOccurred = _ from
      (congrArg buserrorOccurred (translate_of_hit hp h).2 :)]
    exact hcount _

end Block

end Pmmu

end RoscoEmulator.M68k
