import RoscoEmulator.Memory.Decomposition

/-!
# Accesses are made of bytes, for memory

Runs of the slots on a bus with memory behind it, and the two templates on it.
-/

namespace RoscoEmulator.Memory

open Nat

namespace Access

variable {p : Access} {address : BitVec 32} {mask : p.Target} {q l i k N : ℕ} {mem : Bytes}

theorem reachedAccesses_succ (address : BitVec 32) (mask : p.Target) (N : ℕ) :
    p.reachedAccesses address mask (N + 1) =
      if p.slotPart (p.offsbits address) mask N ≠ 0 then
        p.reachedAccesses address mask N ++ [p.slotAccess address mask N]
      else p.reachedAccesses address mask N := by
  rw [reachedAccesses, slotAccesses, List.range_succ, List.map_append, List.filter_append]
  split
  · next h => exact congrArg _ (List.filter_cons_of_pos (decide_eq_true h))
  · next h =>
    have hnone : [p.slotAccess address mask N].filter (fun a ↦ a.2 ≠ 0) = [] :=
      List.filter_cons_of_neg fun h' ↦ h (of_decide_eq_true h')
    rw [List.map_singleton, hnone, List.append_nil]
    rfl

/-! ## Reads -/

/-- The reads of the first slots. -/
def readRun (p : Access) (other : BitVec 32 → p.Native → p.Native) (address : BitVec 32)
    (mask : p.Target) (mem : Bytes) (N : ℕ) : p.Target × Bytes × p.Log :=
  (List.range N).foldl (readSlot p (p.busRead other) address (p.offsbits address) mask) (0, mem, [])

variable {other : BitVec 32 → p.Native → p.Native}

theorem readRun_succ : p.readRun other address mask mem (N + 1) = readSlot p
    (p.busRead other) address (p.offsbits address) mask (p.readRun other address mask mem N) N := by
  rw [readRun, readRun, List.range_succ, List.foldl_append, List.foldl_cons, List.foldl_nil]

theorem readRun_state :
    (p.readRun other address mask mem N).2 = (mem, p.reachedAccesses address mask N) := by
  induction N with
  | zero => rfl
  | succ N ih =>
    rw [readRun_succ, reachedAccesses_succ, readSlot, read]
    split
    · rw [ih]
      rfl
    · exact ih

theorem Meet.getLsbD_busRead (h : p.Meet address q l i) (hk : k < 8)
    (hmask : mask.getLsbD (8 * i + k) = true) (log : p.Log) : (p.busRead other
    (p.slotAddress address q) (p.slotPart (p.offsbits address) mask q) (mem, log)).1.getLsbD
      (8 * l + k) = (mem (p.laneAddress p.targetBytes address i)).getLsbD k := by
  have hpart := (h.getLsbD_slotPart mask hk).trans hmask
  have hload := getLsbD_loadLanes (p := p) (p.slotAddress address q)
    (p.slotPart (p.offsbits address) mask q) mem (Nat.le_refl _) h.1 hk
  rw [hpart, Bool.and_true, laneAddress_slotAddress p h.2.2] at hload
  rw [busRead, BitVec.getLsbD_or, BitVec.getLsbD_and, BitVec.getLsbD_not, hpart, Bool.not_true,
    Bool.and_false, Bool.and_false, Bool.or_false]
  exact hload

theorem getLsbD_readRun (h : p.Meet address q l i) (hk : k < 8)
    (hmask : mask.getLsbD (8 * i + k) = true) :
    (p.readRun other address mask mem N).1.getLsbD (8 * i + k) =
      (decide (q < N) && (mem (p.laneAddress p.targetBytes address i)).getLsbD k) := by
  induction N with
  | zero => simp [readRun]
  | succ N ih =>
    obtain ⟨r, hr⟩ : ∃ r, r = p.readRun other address mask mem N := ⟨_, rfl⟩
    have hst : r.2 = (mem, p.reachedAccesses address mask N) := hr ▸ readRun_state
    rw [readRun_succ, readSlot, read, ← hr]
    rw [← hr] at ih
    by_cases hq : q = N
    · subst hq
      have hpart : p.slotPart (p.offsbits address) mask q ≠ 0 := fun hzero ↦ by
        have hbit := (h.getLsbD_slotPart mask hk).trans hmask
        rw [hzero] at hbit
        simp at hbit
      rw [if_pos hpart, hst, BitVec.getLsbD_or, ih, h.getLsbD_placed _ hk,
        h.getLsbD_busRead hk hmask,
        decide_eq_false (Nat.lt_irrefl q), decide_eq_true (lt_succ_self q), Bool.false_and,
        Bool.false_or, Bool.true_and]
    · have hother (d : p.Native) :
          (bitWindow p.targetBits (-p.slotPosition (p.offsbits address) N) d).getLsbD
          (8 * i + k) = false :=
        Bool.eq_false_iff.mpr fun hbit ↦
          (exists_meet_of_placed h.2.1 hk hbit).elim fun _ hmeet ↦ hq (h.slot_unique hmeet)
      have hlt : decide (q < N) = decide (q < N + 1) := decide_eq_decide.mpr (by omega)
      rw [← hlt, ← ih]
      split
      · rw [BitVec.getLsbD_or, hother, Bool.or_false]
      · rfl

/-! ## Writes -/

/-- The writes of the first slots. -/
def writeRun (p : Access) (address : BitVec 32) (data mask : p.Target) (mem : Bytes) (N : ℕ) :
    Bytes × p.Log :=
  (List.range N).foldl (writeSlot p p.busWrite address (p.offsbits address) data mask) (mem, [])

variable {data : p.Target} {b : ℕ} {v : Bool}

theorem writeRun_succ : p.writeRun address data mask mem (N + 1) = writeSlot p p.busWrite address
    (p.offsbits address) data mask (p.writeRun address data mask mem N) N := by
  rw [writeRun, writeRun, List.range_succ, List.foldl_append, List.foldl_cons, List.foldl_nil]

theorem writeRun_log :
    (p.writeRun address data mask mem N).2 = p.reachedAccesses address mask N := by
  induction N with
  | zero => rfl
  | succ N ih =>
    rw [writeRun_succ, reachedAccesses_succ, writeSlot, write]
    split
    · exact congrArg (· ++ [p.slotAccess address mask N]) ih
    · exact ih

/-- What a slot stores, where the selected lanes agree on a bit. -/
theorem getLsbD_storeSlot (hk : k < 8) (hv : ∀ i < p.targetBytes,
    p.laneAddress p.targetBytes address i = b → mask.getLsbD (8 * i + k) = true →
      data.getLsbD (8 * i + k) = v) (mem : Bytes) :
    (p.storeLanes p.nativeBytes (p.slotAddress address q) (p.slotPart (p.offsbits address) data q)
      (p.slotPart (p.offsbits address) mask q) mem b).getLsbD k =
      if p.enables p.nativeBytes b k (p.slotAccess address mask q)
      then v else (mem b).getLsbD k := by
  refine getLsbD_storeLanes mem hk fun l hl hb hbit ↦ ?_
  obtain ⟨i, hmeet, hmask⟩ := exists_meet_of_slotPart hl hk hbit
  rw [hmeet.getLsbD_slotPart data hk]
  exact hv i hmeet.2.1 ((laneAddress_slotAddress p hmeet.2.2).symm.trans hb) hmask

theorem getLsbD_writeRun (hk : k < 8) (hv : ∀ i < p.targetBytes,
    p.laneAddress p.targetBytes address i = b → mask.getLsbD (8 * i + k) = true →
      data.getLsbD (8 * i + k) = v) :
    ((p.writeRun address data mask mem N).1 b).getLsbD k =
      if ∃ q < N, p.enables p.nativeBytes b k (p.slotAccess address mask q) = true then v
      else (mem b).getLsbD k := by
  induction N with
  | zero => simp [writeRun]
  | succ N ih =>
    have hstep : ((p.writeRun address data mask mem (N + 1)).1 b).getLsbD k =
        if p.enables p.nativeBytes b k (p.slotAccess address mask N) then v
        else ((p.writeRun address data mask mem N).1 b).getLsbD k := by
      rw [writeRun_succ, writeSlot, write]
      split
      · exact getLsbD_storeSlot hk hv _
      · next hzero =>
        rw [slotAccess, Decidable.not_not.mp hzero, enables_zero, if_neg Bool.false_ne_true]
    rw [hstep, ih]
    by_cases hN : p.enables p.nativeBytes b k (p.slotAccess address mask N) = true
    · rw [if_pos hN, if_pos ⟨N, lt_succ_self N, hN⟩]
    · rw [if_neg hN]
      refine if_congr ⟨?_, ?_⟩ rfl rfl
      · rintro ⟨q, hq, h⟩
        exact ⟨q, by omega, h⟩
      · rintro ⟨q, hq, h⟩
        rcases Nat.lt_succ_iff_lt_or_eq.mp hq with hq | rfl
        · exact ⟨q, hq, h⟩
        · exact absurd h hN

theorem exists_value (address : BitVec 32) (data mask : p.Target) (b k : ℕ) : ∃ v, ∀ i <
    p.targetBytes, p.laneAddress p.targetBytes address i = b → mask.getLsbD (8 * i + k) = true →
      data.getLsbD (8 * i + k) = v := by
  by_cases h : ∃ i < p.targetBytes, p.laneAddress p.targetBytes address i = b
  · obtain ⟨i, hi, hb⟩ := h
    refine ⟨data.getLsbD (8 * i + k), fun i' hi' hb' _ ↦ ?_⟩
    rw [laneAddress_injective hi' hi (hb'.trans hb.symm)]
  · exact ⟨false, fun i hi hb _ ↦ absurd ⟨i, hi, hb⟩ h⟩

/-- Once the slots cover the access, the memory is as after the stores of its bytes. -/
theorem writeRun_eq_storeLanes
    (hN : p.byteAddress address % p.nativeBytes + p.targetBytes ≤ N * p.nativeBytes) :
    (p.writeRun address data mask mem N).1 = p.storeLanes p.targetBytes address data mask mem := by
  funext b
  refine BitVec.eq_of_getLsbD_eq fun k hk ↦ ?_
  obtain ⟨v, hv⟩ := exists_value address data mask b k
  rw [getLsbD_writeRun hk hv, getLsbD_storeLanes mem hk hv]
  exact if_congr (exists_enables_iff hk hN) rfl rfl

/-- What the mask selects is read as the loads of the bytes, if every lane is read where the slots
that cover the access have it. -/
theorem and_mask_eq_loadLanes {r : p.Target}
    (hN : p.byteAddress address % p.nativeBytes + p.targetBytes ≤ N * p.nativeBytes)
    (hr : ∀ {q l i k}, q < N → p.Meet address q l i → k < 8 → mask.getLsbD (8 * i + k) = true →
      r.getLsbD (8 * i + k) = (mem (p.laneAddress p.targetBytes address i)).getLsbD k) :
    r &&& mask = p.loadLanes p.targetBytes address mask mem := by
  refine BitVec.eq_of_getLsbD_eq fun j hj ↦ ?_
  have hj8 : j = 8 * (j / 8) + j % 8 := by omega
  have hi : j / 8 < p.targetBytes := Nat.div_lt_of_lt_mul hj
  have hk : j % 8 < 8 := mod_lt _ (by decide)
  rw [hj8, BitVec.getLsbD_and, getLsbD_loadLanes address mask mem (Nat.le_refl _) hi hk]
  cases hmask : mask.getLsbD (8 * (j / 8) + j % 8) with
  | false => rw [Bool.and_false, Bool.and_false]
  | true =>
    obtain ⟨q, hq, l, hmeet⟩ := exists_meet hi hN
    rw [hr hq hmeet hk hmask]

theorem readRun_and_mask
    (hN : p.byteAddress address % p.nativeBytes + p.targetBytes ≤ N * p.nativeBytes) :
    (p.readRun other address mask mem N).1 &&& mask = p.loadLanes p.targetBytes address mask mem :=
  and_mask_eq_loadLanes hN fun hq hmeet hk hmask ↦ by
    rw [getLsbD_readRun hmeet hk hmask, decide_eq_true hq, Bool.true_and]

/-! ## One access of the bus -/

/-- An aligned access is at a multiple of its size. -/
def Sound (p : Access) (address : BitVec 32) : Prop :=
  p.OnByte address ∧ (p.aligned = true → p.targetBytes ∣ p.byteAddress address)

/-- The access lies in one word. -/
def Fits (p : Access) (address : BitVec 32) : Prop :=
  p.byteAddress address % p.nativeBytes + p.targetBytes ≤ p.nativeBytes

theorem toNat_mod_unit (h : p.OnByte address) :
    address.toNat % p.unit = 0 ↔ p.byteAddress address % p.nativeBytes = 0 := by
  have hpos : 0 < 2 ^ p.addrShift.natAbs := Nat.two_pow_pos _
  unfold byteAddress
  split
  · next hneg =>
    rw [← unit_of_neg p hneg, mul_mod_mul_right]
    exact ⟨fun h ↦ by rw [h, Nat.zero_mul], fun h ↦ (Nat.mul_eq_zero.mp h).resolve_right hpos.ne'⟩
  · next hneg =>
    obtain ⟨c, hc⟩ := h (by omega)
    rw [unit_of_nonneg p (by omega), hc, Nat.mul_comm p.nativeBytes, mul_mod_mul_left,
      Nat.mul_div_cancel_left _ hpos]
    exact ⟨fun h ↦ (Nat.mul_eq_zero.mp h).resolve_left hpos.ne', fun h ↦ by rw [h, Nat.mul_zero]⟩

theorem and_nativeMask_eq_zero_iff (h : p.OnByte address) :
    address &&& BitVec.ofNat 32 p.nativeMask = 0 ↔ p.byteAddress address % p.nativeBytes = 0 := by
  have hle : p.unit ≤ 2 ^ 6 :=
    Nat.pow_le_pow_right (by decide) (by have := p.width_le; have := p.addrShift_le; omega)
  rw [← toNat_mod_unit h, nativeMask_eq, unit] at *
  rw [← BitVec.toNat_inj, BitVec.toNat_and, BitVec.toNat_ofNat, mod_eq_of_lt (by omega),
    and_two_pow_sub_one_eq_mod]
  rfl

/-- The byte offset of an aligned access is a multiple of its size. -/
theorem targetBytes_dvd_mod (h : p.Sound address) (haligned : p.aligned = true)
    (hle : p.targetBytes ≤ p.nativeBytes) :
    p.targetBytes ∣ p.byteAddress address % p.nativeBytes := by
  have hwidth : p.targetWidth ≤ p.width := (Nat.pow_le_pow_iff_right (by decide)).mp hle
  exact (dvd_mod_iff (Nat.pow_dvd_pow 2 hwidth)).mpr (h.2 haligned)

/-- The offset of an aligned access in a wider bus has no low bits. -/
theorem and_aligned_offset {x : BitVec 32} {tw w : ℕ}
    (hlt : tw < w) (hw : w ≤ 3) (h : x.toNat % 2 ^ tw = 0) :
    x &&& BitVec.ofNat 32 (2 ^ w - 2 ^ tw) = x &&& BitVec.ofNat 32 (2 ^ w - 1) := by
  have hsplit : BitVec.ofNat 32 (2 ^ w - 1) =
      BitVec.ofNat 32 (2 ^ w - 2 ^ tw) ||| BitVec.ofNat 32 (2 ^ tw - 1) := by
    have hcases : ∀ w ≤ 3, ∀ tw < w, BitVec.ofNat 32 (2 ^ w - 1) =
        BitVec.ofNat 32 (2 ^ w - 2 ^ tw) ||| BitVec.ofNat 32 (2 ^ tw - 1) := by decide
    exact hcases w hw tw hlt
  have hlow : x &&& BitVec.ofNat 32 (2 ^ tw - 1) = 0 := by
    rw [← BitVec.toNat_inj, toNat_and_low _ (by omega), h]
    rfl
  rw [hsplit, BitVec.and_or_distrib_left, hlow]
  exact BitVec.or_zero.symm

theorem singleOffset_eq (h : p.Sound address) (hlt : p.targetBytes < p.nativeBytes) :
    p.singleOffset address = p.offsbits address := by
  unfold singleOffset offsbits
  split
  · next haligned =>
    have hwidth : p.targetWidth < p.width := (Nat.pow_lt_pow_iff_right (by decide)).mp hlt
    have hdvd := targetBytes_dvd_mod h haligned (Nat.le_of_lt hlt)
    have hoff := (p.offsbits_eq address).symm.trans (p.offsbits_eq_byteAddress address)
    have hlow : (p.offsetToByte address).toNat % 2 ^ p.targetWidth = 0 := by
      have hnative : p.targetBytes ∣ p.nativeBytes := Nat.pow_dvd_pow 2 (Nat.le_of_lt hwidth)
      rw [Nat.eq_of_mul_eq_mul_left (by decide) hoff.symm] at hdvd
      exact mod_eq_zero_of_dvd ((dvd_mod_iff hnative).mp hdvd)
    rw [nativeBytes, targetBytes, and_aligned_offset hwidth p.width_le hlow]
  · rfl

theorem isDirect_or_isSingle_iff (h : p.Sound address) :
    p.isDirect address = true ∨ p.isSingle address = true ↔ p.Fits address := by
  have hpos := p.nativeBytes_pos
  have hmod := mod_lt (p.byteAddress address) hpos
  rw [isDirect, isSingle, decide_eq_true_eq, decide_eq_true_eq,
    and_nativeMask_eq_zero_iff h.1, Fits]
  constructor
  · rintro (⟨heq, haligned | hzero⟩ | ⟨hlt, haligned | hfits⟩)
    · have :=
        eq_zero_of_dvd_of_lt (targetBytes_dvd_mod h haligned (Nat.le_of_eq heq.symm)) (by omega)
      omega
    · omega
    · have hwidth : p.targetWidth < p.width := (Nat.pow_lt_pow_iff_right (by decide)).mp hlt
      obtain ⟨c, hc⟩ := targetBytes_dvd_mod h haligned (Nat.le_of_lt hlt)
      obtain ⟨d, hd⟩ : p.targetBytes ∣ p.nativeBytes := Nat.pow_dvd_pow 2 (Nat.le_of_lt hwidth)
      rw [hc, hd] at hmod ⊢
      have hcd : c + 1 ≤ d := Nat.lt_of_mul_lt_mul_left hmod
      rw [← mul_succ]
      exact Nat.mul_le_mul_left _ hcd
    · rw [singleOffset_eq h hlt, offsbits_eq_byteAddress, targetBits, nativeBits] at hfits
      omega
  · intro hfits
    by_cases hlt : p.targetBytes < p.nativeBytes
    · refine Or.inr ⟨hlt, Or.inr ?_⟩
      rw [singleOffset_eq h hlt, offsbits_eq_byteAddress, targetBits, nativeBits]
      omega
    · exact Or.inl ⟨by omega, Or.inr (by omega)⟩

theorem slotPosition_of_isDirect (hfits : p.Fits address) (hdirect : p.isDirect address = true) :
    p.slotPosition (p.offsbits address) 0 = 0 := by
  rw [isDirect, decide_eq_true_eq] at hdirect
  rw [slotPosition, offsbits_eq_byteAddress, targetBits, nativeBits]
  rw [Fits] at hfits
  split <;> omega

theorem slotPosition_of_isSingle (h : p.Sound address)
    (hfits : p.Fits address) (hsingle : p.isSingle address = true) :
    p.slotPosition (p.offsbits address) 0 = -p.singleShift address := by
  rw [isSingle, decide_eq_true_eq] at hsingle
  rw [slotPosition, singleShift, singleOffset_eq h hsingle.1, offsbits_eq_byteAddress,
    targetBits, nativeBits]
  rw [Fits] at hfits
  cases p.big with
  | false =>
    rw [if_neg Bool.false_ne_true, if_neg Bool.false_ne_true]
    omega
  | true =>
    rw [if_pos rfl, if_pos rfl]
    omega

theorem part_setWidth (x : p.Target) (h : p.slotPosition (p.offsbits address) 0 = 0) :
    x.setWidth _ = p.slotPart (p.offsbits address) x 0 := by
  rw [slotPart, h, bitWindow_zero]

variable {σ : Type}

theorem memoryReadGeneric_of_fits (rop : p.Rop σ) (st : σ) (h : p.Sound address)
    (hfits : p.Fits address) : memoryReadGeneric p rop address mask st =
      (bitWindow _ (-p.slotPosition (p.offsbits address) 0)
          (rop (p.slotAddress address 0) (p.slotPart (p.offsbits address) mask 0) st).1,
        (rop (p.slotAddress address 0) (p.slotPart (p.offsbits address) mask 0) st).2) := by
  rw [slotAddress_zero]
  cases hdirect : p.isDirect address with
  | true =>
    have hpos := slotPosition_of_isDirect hfits hdirect
    rw [hpos, Int.neg_zero, bitWindow_zero, ← part_setWidth mask hpos, memoryReadGeneric,
      hdirect, if_pos rfl]
  | false =>
    have hsingle : p.isSingle address = true :=
      ((isDirect_or_isSingle_iff h).mpr hfits).resolve_left (Bool.eq_false_iff.mp hdirect)
    have hpos := slotPosition_of_isSingle h hfits hsingle
    rw [← place_ushiftRight _ hpos, ← part_shiftLeft mask hpos, memoryReadGeneric, hdirect, hsingle,
      if_pos rfl, if_neg Bool.false_ne_true]

theorem memoryWriteGeneric_of_fits (wop : p.Wop σ) (st : σ) (h : p.Sound address)
    (hfits : p.Fits address) : memoryWriteGeneric p wop address data mask st =
      wop (p.slotAddress address 0) (p.slotPart (p.offsbits address) data 0)
        (p.slotPart (p.offsbits address) mask 0) st := by
  rw [slotAddress_zero]
  cases hdirect : p.isDirect address with
  | true =>
    have hpos := slotPosition_of_isDirect hfits hdirect
    rw [← part_setWidth mask hpos, ← part_setWidth data hpos, memoryWriteGeneric,
      hdirect, if_pos rfl]
  | false =>
    have hsingle : p.isSingle address = true :=
      ((isDirect_or_isSingle_iff h).mpr hfits).resolve_left (Bool.eq_false_iff.mp hdirect)
    have hpos := slotPosition_of_isSingle h hfits hsingle
    rw [← part_shiftLeft mask hpos, ← part_shiftLeft data hpos, memoryWriteGeneric, hdirect,
      hsingle, if_pos rfl, if_neg Bool.false_ne_true]

/-- Where one access is not enough, the slots that the templates go through cover the access. -/
theorem covers_slotCount (h : p.Sound address) :
    p.byteAddress address % p.nativeBytes + p.targetBytes ≤ p.slotCount * p.nativeBytes := by
  have hmod := mod_lt (p.byteAddress address) p.nativeBytes_pos
  unfold slotCount
  split
  · next hle => omega
  · next hle =>
    have hmul := p.maxSplits_mul (Nat.lt_of_not_le hle)
    split
    · next haligned =>
      have hdvd : p.nativeBytes ∣ p.targetBytes := Dvd.intro_left _ hmul
      rw [hmul, mod_eq_zero_of_dvd (Nat.dvd_trans hdvd (h.2 haligned)), Nat.zero_add]
    · rw [show p.maxSplitsMinusOne + 2 =
        p.maxSplitsMinusOne + 1 + 1 by omega, Nat.add_mul _ 1, hmul, Nat.one_mul]
      omega

/-! ## The templates -/

theorem not_direct_of_not_fits (h : p.Sound address) (hfits : ¬p.Fits address) :
    p.isDirect address = false ∧ p.isSingle address = false := by
  have hone := mt (isDirect_or_isSingle_iff h).mp hfits
  rwa [not_or, Bool.not_eq_true, Bool.not_eq_true] at hone

theorem memoryReadGeneric_run (rop : p.Rop σ) (st : σ) (h : p.Sound address)
    (hfits : ¬p.Fits address) : memoryReadGeneric p rop address mask st =
      (List.range p.slotCount).foldl
      (readSlot p rop address (p.offsbits address) mask) (0, st) := by
  obtain ⟨hdirect, hsingle⟩ := not_direct_of_not_fits h hfits
  by_cases hle : p.targetBytes ≤ p.nativeBytes
  · rw [memoryReadGeneric_two rop mask st hdirect hsingle hle, slotCount, if_pos hle]
  · exact memoryReadGeneric_many rop address mask st (Nat.lt_of_not_le hle)

theorem memoryWriteGeneric_run (wop : p.Wop σ) (st : σ) (h : p.Sound address)
    (hfits : ¬p.Fits address) : memoryWriteGeneric p wop address data mask st =
      (List.range p.slotCount).foldl
      (writeSlot p wop address (p.offsbits address) data mask) st := by
  obtain ⟨hdirect, hsingle⟩ := not_direct_of_not_fits h hfits
  by_cases hle : p.targetBytes ≤ p.nativeBytes
  · rw [memoryWriteGeneric_two wop data mask st hdirect hsingle hle, slotCount, if_pos hle]
  · exact memoryWriteGeneric_many wop address data mask st (Nat.lt_of_not_le hle)

theorem memoryReadGeneric_bytes (h : p.Sound address) :
    (memoryReadGeneric p (p.busRead other) address mask (mem, [])).1 &&& mask =
        p.loadLanes p.targetBytes address mask mem ∧
      p.EnablesOnce address mask
      (memoryReadGeneric p (p.busRead other) address mask (mem, [])).2.2 := by
  by_cases hfits : p.Fits address
  · have hN : p.byteAddress address % p.nativeBytes + p.targetBytes ≤ 1 * p.nativeBytes := by
      rw [Nat.one_mul]
      exact hfits
    rw [memoryReadGeneric_of_fits _ _ h hfits]
    refine ⟨and_mask_eq_loadLanes hN fun {q _ _ _} hq hmeet hk hmask ↦ ?_,
      enablesOnce_slotAccesses hN⟩
    obtain rfl : q = 0 := by omega
    rw [hmeet.getLsbD_placed _ hk, hmeet.getLsbD_busRead hk hmask]
  · have hN := covers_slotCount h
    rw [memoryReadGeneric_run _ _ h hfits]
    refine ⟨readRun_and_mask hN, ?_⟩
    have hstate : (p.readRun other address mask mem p.slotCount).2 = (mem, _) := readRun_state
    rw [readRun] at hstate
    rw [hstate]
    exact enablesOnce_reachedAccesses hN

theorem memoryWriteGeneric_bytes (h : p.Sound address) :
    (memoryWriteGeneric p p.busWrite address data mask (mem, [])).1 =
        p.storeLanes p.targetBytes address data mask mem ∧
      p.EnablesOnce address mask
      (memoryWriteGeneric p p.busWrite address data mask (mem, [])).2 := by
  by_cases hfits : p.Fits address
  · have hN : p.byteAddress address % p.nativeBytes + p.targetBytes ≤ 1 * p.nativeBytes := by
      rw [Nat.one_mul]
      exact hfits
    rw [memoryWriteGeneric_of_fits _ _ h hfits]
    refine ⟨funext fun b ↦ BitVec.eq_of_getLsbD_eq fun k hk ↦ ?_, enablesOnce_slotAccesses hN⟩
    obtain ⟨v, hv⟩ := exists_value address data mask b k
    rw [getLsbD_storeLanes mem hk hv]
    refine (getLsbD_storeSlot hk hv mem).trans (if_congr ?_ rfl rfl)
    rw [← exists_enables_iff hk hN]
    exact ⟨fun h ↦ ⟨0, Nat.one_pos, h⟩, fun ⟨q, hq, h⟩ ↦ (by omega : q = 0) ▸ h⟩
  · have hN := covers_slotCount h
    rw [memoryWriteGeneric_run _ _ h hfits]
    refine ⟨writeRun_eq_storeLanes hN, ?_⟩
    have hlog : (p.writeRun address data mask mem p.slotCount).2 = _ := writeRun_log
    rw [writeRun] at hlog
    rw [hlog]
    exact enablesOnce_reachedAccesses hN

end Access

open Access

/-- Accesses of any width, through a bus of any width, are those of their bytes, one by one: what
the mask selects is read, and the memory is written, as byte after byte would be, and the accesses
of the bus enable the selected lanes, each once, and no others. -/
theorem accesses_bytewise (p : Access) (address : BitVec 32) (hbyte : p.OnByte address)
    (haligned : p.aligned = true → p.targetBytes ∣ p.byteAddress address)
    (data mask : p.Target) (mem : Bytes) (other : BitVec 32 → p.Native → p.Native) :
    ((memoryReadGeneric p (p.busRead other) address mask (mem, [])).1 &&& mask =
        p.loadLanes p.targetBytes address mask mem ∧
      p.EnablesOnce address mask
      (memoryReadGeneric p (p.busRead other) address mask (mem, [])).2.2) ∧
    ((memoryWriteGeneric p p.busWrite address data mask (mem, [])).1 =
        p.storeLanes p.targetBytes address data mask mem ∧
      p.EnablesOnce address mask (memoryWriteGeneric p p.busWrite address data mask (mem, [])).2) :=
  ⟨memoryReadGeneric_bytes ⟨hbyte, haligned⟩, memoryWriteGeneric_bytes ⟨hbyte, haligned⟩⟩

theorem accesses_bytewise_dwordOnWords :
    let mem : Bytes := fun b ↦ BitVec.ofNat 8 b
    let data : dwordOnWords.Target := 0x11223344#32
    let mask : dwordOnWords.Target := 0xffff00ff#32
    let read := memoryReadGeneric dwordOnWords (dwordOnWords.busRead fun _ _ ↦ 0) 3 mask (mem, [])
    let write := memoryWriteGeneric dwordOnWords dwordOnWords.busWrite 3 data mask (mem, [])
    (read.1 &&& mask = dwordOnWords.loadLanes dwordOnWords.targetBytes 3 mask mem ∧
      dwordOnWords.EnablesOnce 3 mask read.2.2) ∧
    (write.1 = dwordOnWords.storeLanes dwordOnWords.targetBytes 3 data mask mem ∧
      dwordOnWords.EnablesOnce 3 mask write.2) :=
  accesses_bytewise dwordOnWords 3 (fun _ ↦ ⟨3, rfl⟩) (fun h ↦ absurd h Bool.false_ne_true)
    0x11223344#32 0xffff00ff#32 (fun b ↦ BitVec.ofNat 8 b) fun _ _ ↦ 0

end RoscoEmulator.Memory
