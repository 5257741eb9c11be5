import RoscoEmulator.Memory.Lanes

/-!
# Accesses are made of bytes

The lanes of the slots are those of the access: the byte of a lane of a slot is the byte of the lane
of the access that lies there. So the accesses of the slots enable what the mask selects, once, and
what is read from the bus or written to it is what the bytes are, one by one. -/

namespace RoscoEmulator.Memory

open List BitVec

namespace Access

variable (p : Access)

/-! ## Addresses -/

/-- The addresses of a word. -/
def unit : ℕ := 2 ^ (p.width + p.addrShift).toNat

/-- The words of the space. -/
def words : ℕ := 2 ^ (32 - (p.width + p.addrShift)).toNat

theorem unit_mul_words : p.unit * p.words = 2 ^ 32 := by
  have h := p.width_le
  have h' := p.addrShift_le
  have h'' := p.le_addrShift
  rw [unit, words, ← Nat.pow_add]
  congr 1
  omega

theorem nativeBytes_mul_words : p.nativeBytes * p.words = p.spaceBytes := by
  have h := p.width_le
  have h' := p.addrShift_le
  rw [nativeBytes, words, spaceBytes, ← Nat.pow_add]
  congr 1
  omega

/-- A byte has several addresses. -/
theorem unit_of_nonneg (h : 0 ≤ p.addrShift) : p.unit = p.nativeBytes * 2 ^ p.addrShift.natAbs := by
  rw [unit, nativeBytes, ← Nat.pow_add]
  congr 1
  omega

/-- An address names several bytes. -/
theorem unit_of_neg (h : p.addrShift < 0) : p.unit * 2 ^ p.addrShift.natAbs = p.nativeBytes := by
  have h' := p.le_addrShift
  rw [unit, nativeBytes, ← Nat.pow_add]
  congr 1
  omega

theorem nativeStep_eq : p.nativeStep = p.unit := by
  unfold nativeStep
  split
  · next h => rw [Nat.shiftLeft_eq, unit_of_nonneg p h]
  · next h => rw [Nat.shiftRight_eq_div_pow, ← unit_of_neg p (by omega),
      Nat.mul_div_cancel _ (Nat.two_pow_pos _)]

theorem nativeMask_eq : p.nativeMask = p.unit - 1 := by
  rw [nativeMask, if_pos p.le_addrShift, unit]

theorem and_not_low (x : BitVec 32) (k : ℕ) :
    x &&& ~~~BitVec.ofNat 32 (2 ^ k - 1) = (x >>> k) <<< k := by
  refine eq_of_getLsbD_eq fun i hi ↦ ?_
  rw [getLsbD_and, getLsbD_not, getLsbD_ofNat, getLsbD_shiftLeft,
    getLsbD_ushiftRight, Nat.testBit_two_pow_sub_one, decide_eq_true hi, Bool.true_and,
    Bool.true_and, Bool.true_and]
  by_cases hk : i < k
  · rw [decide_eq_true hk, Bool.not_true, Bool.and_false, Bool.false_and]
  · rw [decide_eq_false hk, Bool.not_false, Bool.and_true, Bool.true_and,
      Nat.add_sub_of_le (by omega)]

theorem toNat_base (address : BitVec 32) :
    (p.base address).toNat = p.unit * (address.toNat / p.unit) := by
  have hle : p.unit * (address.toNat / p.unit) ≤ address.toNat := Nat.mul_div_le _ _
  have hlt := address.isLt
  rw [base, nativeMask_eq, unit, and_not_low, toNat_shiftLeft, toNat_ushiftRight,
    Nat.shiftRight_eq_div_pow, Nat.shiftLeft_eq, Nat.mul_comm]
  exact Nat.mod_eq_of_lt (Nat.lt_of_le_of_lt hle hlt)

theorem byteAddress_of_toNat {address : BitVec 32} {x : ℕ} (h : address.toNat = p.unit * x) :
    p.byteAddress address = p.nativeBytes * x := by
  unfold byteAddress
  split
  · next hneg => rw [h, Nat.mul_right_comm, unit_of_neg p hneg]
  · next hneg =>
    rw [h, unit_of_nonneg p (by omega), Nat.mul_right_comm,
      Nat.mul_div_cancel _ (Nat.two_pow_pos _)]

/-- The word that an address lies in. -/
theorem toNat_div_unit (address : BitVec 32) :
    address.toNat / p.unit = p.byteAddress address / p.nativeBytes := by
  unfold byteAddress
  split
  · next hneg => rw [← unit_of_neg p hneg, Nat.mul_div_mul_right _ _ (Nat.two_pow_pos _)]
  · next hneg =>
      rw [unit_of_nonneg p (by omega), Nat.mul_comm p.nativeBytes, Nat.div_div_eq_div_mul]

theorem offsbits_eq_byteAddress (address : BitVec 32) :
    p.offsbits address = 8 * (p.byteAddress address % p.nativeBytes) := by
  have hdvd : p.nativeBytes ∣ 2 ^ 32 := Nat.pow_dvd_pow 2 (Nat.le_trans p.width_le (by decide))
  have hbyte :
      (p.offsetToByte address).toNat % p.nativeBytes = p.byteAddress address % p.nativeBytes := by
    unfold offsetToByte byteAddress
    split
    · rw [toNat_shiftLeft, Nat.shiftLeft_eq, Nat.mod_mod_of_dvd _ hdvd]
    · rw [toNat_ushiftRight, Nat.shiftRight_eq_div_pow]
  rw [offsbits_eq, hbyte]

theorem byteAddress_slotAddress (address : BitVec 32) (q : ℕ) :
    p.byteAddress (p.slotAddress address q) =
      p.nativeBytes * (p.byteAddress address / p.nativeBytes + q) % p.spaceBytes := by
  have hslot : (p.slotAddress address q).toNat =
      p.unit * ((p.byteAddress address / p.nativeBytes + q) % p.words) := by
    rw [slotAddress, toNat_add, toNat_base, toNat_ofNat, nativeStep_eq, Nat.add_mod_mod,
      toNat_div_unit, Nat.mul_comm q, ← Nat.mul_add, ← unit_mul_words, Nat.mul_mod_mul_left]
  rw [byteAddress_of_toNat p hslot, ← nativeBytes_mul_words, Nat.mul_mod_mul_left]

theorem laneAddress_slotAddress {address : BitVec 32} {q l i : ℕ}
    (hli : q * p.nativeBytes + p.rank p.nativeBytes l =
      p.byteAddress address % p.nativeBytes + p.rank p.targetBytes i) :
    p.laneAddress p.nativeBytes
    (p.slotAddress address q) l = p.laneAddress p.targetBytes address i := by
  have hdiv := Nat.div_add_mod (p.byteAddress address) p.nativeBytes
  rw [laneAddress, laneAddress, byteAddress_slotAddress, Nat.mod_add_mod, Nat.mul_add,
    Nat.mul_comm _ q, Nat.add_assoc, hli, ← Nat.add_assoc, hdiv]

/-! ## Lanes -/

variable {p} {address : BitVec 32} {q l i k N : ℕ}

/-- The lane `l` of a slot is the lane `i` of the access. -/
def Meet (p : Access) (address : BitVec 32) (q l i : ℕ) : Prop :=
  l < p.nativeBytes ∧ i < p.targetBytes ∧
    q * p.nativeBytes + p.rank p.nativeBytes l =
    p.byteAddress address % p.nativeBytes + p.rank p.targetBytes i

/-- Where lanes meet, their bits do. -/
theorem meet_iff (hl : l < p.nativeBytes) (hi : i < p.targetBytes) : p.Meet address q l i ↔
    ((8 * l + k : ℕ) : ℤ) + p.slotPosition (p.offsbits address) q = (8 * i + k : ℕ) := by
  have hmul : (q + 1) * (8 * p.nativeBytes) = 8 * (q * p.nativeBytes) + 8 * p.nativeBytes := by
    rw [Nat.mul_left_comm, Nat.add_mul, Nat.one_mul, Nat.mul_add]
  have hmul' : q * (8 * p.nativeBytes) = 8 * (q * p.nativeBytes) := Nat.mul_left_comm _ _ _
  rw [Meet, slotPosition, rank, rank, offsbits_eq_byteAddress, nativeBits, targetBits, hmul, hmul']
  cases p.big with
  | false =>
    rw [if_neg Bool.false_ne_true, if_neg Bool.false_ne_true, if_neg Bool.false_ne_true]
    omega
  | true =>
    rw [if_pos rfl, if_pos rfl, if_pos rfl]
    omega

theorem eight_dvd_slotPosition (address : BitVec 32) (q : ℕ) :
    (8 : ℤ) ∣ p.slotPosition (p.offsbits address) q := by
  have hmul : (q + 1) * (8 * p.nativeBytes) = 8 * ((q + 1) * p.nativeBytes) :=
    Nat.mul_left_comm _ _ _
  have hmul' : q * (8 * p.nativeBytes) = 8 * (q * p.nativeBytes) := Nat.mul_left_comm _ _ _
  rw [slotPosition, offsbits_eq_byteAddress, nativeBits, targetBits, hmul, hmul']
  split <;> omega

/-- What a slot holds of the data is theirs where the lanes meet. -/
theorem Meet.getLsbD_slotPart (h : p.Meet address q l i) (x : p.Target) (hk : k < 8) :
    (p.slotPart (p.offsbits address) x q).getLsbD (8 * l + k) = x.getLsbD (8 * i + k) :=
  getLsbD_bitWindow_of_eq x (by have := h.1; rw [nativeBits]; omega) ((meet_iff h.1 h.2.1).mp h)

theorem Meet.getLsbD_placed (h : p.Meet address q l i) (d : p.Native) (hk : k < 8) :
    (bitWindow p.targetBits (-p.slotPosition (p.offsbits address) q) d).getLsbD (8 * i + k) =
      d.getLsbD (8 * l + k) :=
  getLsbD_bitWindow_of_eq d (by have := h.2.1; rw [targetBits]; omega)
    (by have := (meet_iff (k := k) h.1 h.2.1).mp h; omega)

theorem exists_meet_of_slotPart {x : p.Target} (hl : l < p.nativeBytes) (hk : k < 8)
    (h : (p.slotPart (p.offsbits address) x q).getLsbD (8 * l + k) = true) :
    ∃ i, p.Meet address q l i ∧ x.getLsbD (8 * i + k) = true := by
  obtain ⟨j, hj, _, hbit⟩ := exists_of_getLsbD_bitWindow h
  have hdvd := eight_dvd_slotPosition (p := p) address q
  have hlt : j < 8 * p.targetBytes := lt_of_getLsbD hbit
  have hj' : j = 8 * (j / 8) + k := by omega
  refine ⟨j / 8, (meet_iff (k := k) hl (by omega)).mpr ?_, hj' ▸ hbit⟩
  rw [← hj']
  exact hj

theorem exists_meet_of_placed {d : p.Native} (hi : i < p.targetBytes) (hk : k < 8)
    (h : (bitWindow p.targetBits (-p.slotPosition (p.offsbits address) q) d).getLsbD (8 * i + k) =
    true) : ∃ l, p.Meet address q l i := by
  obtain ⟨j, hj, _, hbit⟩ := exists_of_getLsbD_bitWindow h
  have hdvd := eight_dvd_slotPosition (p := p) address q
  have hlt : j < 8 * p.nativeBytes := lt_of_getLsbD hbit
  exact ⟨j / 8, (meet_iff (k := k) (by omega) hi).mpr (by omega)⟩

theorem rank_lt {bytes : ℕ} (hl : l < bytes) : p.rank bytes l < bytes := by
  unfold rank
  split <;> omega

theorem rank_rank {bytes : ℕ} (hl : l < bytes) : p.rank bytes (p.rank bytes l) = l := by
  unfold rank
  split <;> omega

/-- Every lane of the access is one of a slot. -/
theorem exists_meet (hi : i < p.targetBytes)
    (hN : p.byteAddress address % p.nativeBytes + p.targetBytes ≤ N * p.nativeBytes) :
    ∃ q < N, ∃ l, p.Meet address q l i := by
  have hpos := p.nativeBytes_pos
  have hrank := rank_lt (p := p) hi
  obtain ⟨x, hx⟩ : ∃ x,
      x = p.byteAddress address % p.nativeBytes + p.rank p.targetBytes i := ⟨_, rfl⟩
  have hmod := Nat.mod_lt x hpos
  refine ⟨x / p.nativeBytes, Nat.div_lt_of_lt_mul (by rw [Nat.mul_comm]; omega),
    p.rank p.nativeBytes (x % p.nativeBytes), rank_lt hmod, hi, ?_⟩
  rw [rank_rank hmod, ← hx, Nat.mul_comm]
  exact Nat.div_add_mod x p.nativeBytes

/-- A lane of the access lies in one slot. -/
theorem Meet.slot_unique {q' l' : ℕ} (h : p.Meet address q l i)
    (h' : p.Meet address q' l' i) : q = q' := by
  have hdiv {q l : ℕ} (h : p.Meet address q l i) :
      (p.byteAddress address % p.nativeBytes + p.rank p.targetBytes i) / p.nativeBytes = q := by
    rw [← h.2.2, Nat.mul_comm, Nat.mul_add_div p.nativeBytes_pos,
      Nat.div_eq_of_lt (rank_lt h.1), Nat.add_zero]
  exact (hdiv h).symm.trans (hdiv h')

/-- The lanes of the access are different bytes. -/
theorem laneAddress_injective {i' : ℕ} (hi : i < p.targetBytes) (hi' : i' < p.targetBytes)
    (h : p.laneAddress p.targetBytes address i = p.laneAddress p.targetBytes address i') :
    i = i' := by
  have hsmall := p.targetBytes_le
  have hspace : 2 ^ 29 ≤ p.spaceBytes :=
    Nat.pow_le_pow_right (by decide) (by have := p.addrShift_le; omega)
  have hrank := rank_lt (p := p) hi
  have hrank' := rank_lt (p := p) hi'
  have hmod : p.rank p.targetBytes i % p.spaceBytes = p.rank p.targetBytes i' % p.spaceBytes :=
    Nat.ModEq.add_left_cancel' _ h
  rw [Nat.mod_eq_of_lt (by omega), Nat.mod_eq_of_lt (by omega)] at hmod
  rw [← rank_rank (p := p) hi, hmod, rank_rank hi']

/-! ## What is enabled -/

variable {mask : p.Target} {b : ℕ}

/-- The access of a slot. -/
def slotAccess (p : Access) (address : BitVec 32) (mask : p.Target) (q : ℕ) :
    BitVec 32 × p.Native :=
  (p.slotAddress address q, p.slotPart (p.offsbits address) mask q)

theorem enables_slotAccess (hk : k < 8) :
    p.enables p.nativeBytes b k (p.slotAccess address mask q) = true ↔
      ∃ l i, p.Meet address q l i ∧ p.laneAddress p.targetBytes address i = b ∧
        mask.getLsbD (8 * i + k) = true := by
  rw [slotAccess, enables_iff]
  constructor
  · rintro ⟨l, hl, hb, hbit⟩
    obtain ⟨i, hmeet, hmask⟩ := exists_meet_of_slotPart hl hk hbit
    exact ⟨l, i, hmeet, (laneAddress_slotAddress p hmeet.2.2).symm.trans hb, hmask⟩
  · rintro ⟨l, i, hmeet, hb, hmask⟩
    exact ⟨l, hmeet.1, (laneAddress_slotAddress p hmeet.2.2).trans hb,
      (hmeet.getLsbD_slotPart mask hk).trans hmask⟩

theorem exists_enables_iff (hk : k < 8)
    (hN : p.byteAddress address % p.nativeBytes + p.targetBytes ≤ N * p.nativeBytes) :
    (∃ q < N, p.enables p.nativeBytes b k (p.slotAccess address mask q) = true) ↔
      p.enables p.targetBytes b k (address, mask) = true := by
  rw [enables_iff]
  constructor
  · rintro ⟨q, _, h⟩
    obtain ⟨l, i, hmeet, hb, hmask⟩ := (enables_slotAccess hk).mp h
    exact ⟨i, hmeet.2.1, hb, hmask⟩
  · rintro ⟨i, hi, hb, hmask⟩
    obtain ⟨q, hq, l, hmeet⟩ := exists_meet hi hN
    exact ⟨q, hq, (enables_slotAccess hk).mpr ⟨l, i, hmeet, hb, hmask⟩⟩

theorem enables_unique {q' : ℕ} (hk : k < 8)
    (h : p.enables p.nativeBytes b k (p.slotAccess address mask q) = true)
    (h' : p.enables p.nativeBytes b k (p.slotAccess address mask q') = true) : q = q' := by
  obtain ⟨l, i, hmeet, hb, _⟩ := (enables_slotAccess hk).mp h
  obtain ⟨l', i', hmeet', hb', _⟩ := (enables_slotAccess hk).mp h'
  obtain rfl := laneAddress_injective hmeet.2.1 hmeet'.2.1 (hb.trans hb'.symm)
  exact hmeet.slot_unique hmeet'

theorem countP_range_of_unique {f : ℕ → Bool} (h : ∀ q q', f q = true → f q' = true → q = q')
    (N : ℕ) : (range N).countP f = if ∃ q < N, f q = true then 1 else 0 := by
  induction N with
  | zero => simp
  | succ N ih =>
    rw [range_succ, countP_append, ih, countP_singleton]
    by_cases hN : f N = true
    · have hnone : ¬∃ q < N, f q = true := by
        rintro ⟨q, hq, hf⟩
        exact absurd (h q N hf hN) (by omega)
      rw [if_neg hnone, if_pos hN, if_pos ⟨N, Nat.lt_succ_self N, hN⟩]
    · rw [if_neg hN, Nat.add_zero]
      refine if_congr ⟨?_, ?_⟩ rfl rfl
      · rintro ⟨q, hq, hf⟩
        exact ⟨q, by omega, hf⟩
      · rintro ⟨q, hq, hf⟩
        rcases Nat.lt_succ_iff_lt_or_eq.mp hq with hq | rfl
        · exact ⟨q, hq, hf⟩
        · exact absurd hf hN

/-- The accesses of all slots. -/
def slotAccesses (p : Access) (address : BitVec 32) (mask : p.Target) (N : ℕ) : p.Log :=
  (range N).map (p.slotAccess address mask)

/-- The accesses of the slots that the mask reaches. -/
def reachedAccesses (p : Access) (address : BitVec 32) (mask : p.Target) (N : ℕ) : p.Log :=
  (p.slotAccesses address mask N).filter fun a ↦ a.2 ≠ 0

theorem enablesOnce_slotAccesses
    (hN : p.byteAddress address % p.nativeBytes + p.targetBytes ≤ N * p.nativeBytes) :
    p.EnablesOnce address mask (p.slotAccesses address mask N) := by
  intro b k hk
  rw [slotAccesses, countP_map]
  exact (countP_range_of_unique (fun q q' ↦ enables_unique hk) N).trans
    (if_congr (exists_enables_iff hk hN) rfl rfl)

theorem enablesOnce_reachedAccesses
    (hN : p.byteAddress address % p.nativeBytes + p.targetBytes ≤ N * p.nativeBytes) :
    p.EnablesOnce address mask (p.reachedAccesses address mask N) := by
  intro b k hk
  rw [← enablesOnce_slotAccesses hN b k hk, reachedAccesses, countP_filter]
  refine countP_congr fun a _ ↦ ?_
  have hreached : p.enables p.nativeBytes b k a = true → decide (a.2 ≠ 0) = true := by
    intro henables
    refine decide_eq_true fun hzero ↦ ?_
    rw [show a = (a.1, 0) from Prod.ext rfl hzero, enables_zero] at henables
    exact Bool.false_ne_true henables
  rw [Bool.and_eq_true, and_iff_left_of_imp hreached]

end Access

end RoscoEmulator.Memory
