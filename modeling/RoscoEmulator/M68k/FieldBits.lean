import RoscoEmulator.M68k.BitFields

/-!
# The bits of a field

A field is a row of bits in memory, from the bit that an offset with a sign is away from the top of
the byte at an address. After an offset is normalised the field begins in the byte at the new
address. -/

namespace RoscoEmulator.M68k

open BitVec Core

/-- The byte of a bit of a field. -/
def fieldAddress (ea : BitVec 32) (offset : ℤ) (k : ℕ) : BitVec 32 :=
  BitVec.ofInt 32 ((8 * ea.toNat + offset + k) / 8)

/-- Its place in the byte, from the top. -/
def fieldIndex (ea : BitVec 32) (offset : ℤ) (k : ℕ) : ℕ := ((8 * ea.toNat + offset + k) % 8).toNat

/-- A field begins at a bit of an address. -/
def BeginsAt (ea : BitVec 32) (offset : ℤ) (ea' : BitVec 32) (o : ℕ) : Prop :=
  ∀ k, fieldAddress ea offset k = ea' + BitVec.ofNat 32 ((o + k) / 8) ∧
    fieldIndex ea offset k = (o + k) % 8

variable (ea : BitVec 32)

theorem ofInt_toNat_add (z : ℤ) : BitVec.ofInt 32 (ea.toNat + z) = ea + BitVec.ofInt 32 z := by
  rw [ofInt_add, ofInt_natCast, ofNat_toNat, setWidth_eq]

theorem beginsAt_of_eq {ea : BitVec 32} {offset d : ℤ} {o : ℕ} (h : offset = 8 * d + o) :
    BeginsAt ea offset (ea + BitVec.ofInt 32 d) o := by
  intro k
  have hdiv : (8 * (ea.toNat : ℤ) + offset + k) / 8 = ea.toNat + (d + ((o + k) / 8 : ℕ)) := by omega
  have hmod : (8 * (ea.toNat : ℤ) + offset + k) % 8 = ((o + k) % 8 : ℕ) := by omega
  constructor
  · rw [fieldAddress, hdiv, ofInt_toNat_add, ofInt_add, ofInt_natCast, BitVec.add_assoc]
  · rw [fieldIndex, hmod, Int.toNat_natCast]

theorem beginsAt_self (o : ℕ) : BeginsAt ea o ea o := by
  have h := @beginsAt_of_eq ea o 0 o (by omega)
  rwa [show BitVec.ofInt 32 0 = 0#32 from rfl, BitVec.add_zero] at h

/-- The remainder of the host has the sign of the offset. -/
theorem normalize_spec (offset : BitVec 32) : (Processor.normalize ea offset).2.toNat < 8 ∧ BeginsAt
    ea offset.toInt (Processor.normalize ea offset).1 (Processor.normalize ea offset).2.toNat := by
  have hdiv : (offset.sdiv 8#32).toInt = offset.toInt.tdiv 8 :=
    toInt_sdiv_of_ne_or_ne _ _ (.inr (by decide))
  have hrem : (offset.srem 8#32).toInt = offset.toInt.tmod 8 := toInt_srem _ _
  have hsum := Int.tmod_add_mul_tdiv offset.toInt 8
  have hlow := Int.lt_tmod_of_pos offset.toInt (b := 8) (by decide)
  have hhigh := Int.tmod_lt_of_pos offset.toInt (b := 8) (by decide)
  rw [← hrem, ← hdiv] at hsum
  rw [← hrem] at hlow hhigh
  have htoInt := toInt_eq_toNat_cond (x := offset.srem 8#32)
  by_cases hneg : (offset.srem 8#32).slt 0#32
  · have hneg' : (offset.srem 8#32).toInt < 0 := BitVec.slt_iff_toInt_lt.mp hneg
    have hnat : ((offset.srem 8#32 + 8#32).toNat : ℤ) = (offset.srem 8#32).toInt + 8 := by
      rw [toNat_add, toNat_ofNat]
      split at htoInt <;> omega
    have hea :
        ea + BitVec.ofInt 32 ((offset.sdiv 8#32).toInt - 1) = ea + offset.sdiv 8#32 - 1#32 := by
      rw [Int.sub_eq_add_neg, ofInt_add, ofInt_toInt, BitVec.sub_eq_add_neg, BitVec.add_assoc]
      rfl
    have hnormal :
        Processor.normalize ea offset = (ea + offset.sdiv 8#32 - 1#32, offset.srem 8#32 + 8#32) :=
      if_pos hneg
    rw [hnormal, ← hea]
    have height : (offset.srem 8#32 + 8#32).toNat < 8 := by omega
    exact ⟨height, beginsAt_of_eq (o := (offset.srem 8#32 + 8#32).toNat) (by omega)⟩
  · have hneg' : ¬(offset.srem 8#32).toInt < 0 := fun h ↦
      hneg (slt_iff_toInt_lt (x := offset.srem 8#32) (y := 0#32) |>.mpr h)
    have hea : ea + BitVec.ofInt 32 (offset.sdiv 8#32).toInt = ea + offset.sdiv 8#32 := by
      rw [ofInt_toInt]
    have hnormal :
        Processor.normalize ea offset = (ea + offset.sdiv 8#32, offset.srem 8#32) := if_neg hneg
    rw [hnormal, ← hea]
    have height : (offset.srem 8#32).toNat < 8 := by omega
    exact ⟨height, beginsAt_of_eq (o := (offset.srem 8#32).toNat) (by omega)⟩

/-! ## Reading -/

namespace Core

/-- A bit of memory, counted from the top of the byte at an address. -/
def bit (s : Core) (ea : BitVec 32) (q : ℕ) : Bool :=
  (s.byte (ea + BitVec.ofNat 32 (q / 8))).getMsbD (q % 8)

def fieldBit (s : Core) (ea : BitVec 32) (offset : ℤ) (k : ℕ) : Bool :=
  (s.byte (fieldAddress ea offset k)).getMsbD (fieldIndex ea offset k)

theorem fieldBit_eq {s : Core} {ea ea' : BitVec 32} {offset : ℤ} {o : ℕ}
    (h : BeginsAt ea offset ea' o) (k : ℕ) : s.fieldBit ea offset k = s.bit ea' (o + k) := by
  rw [fieldBit, (h k).1, (h k).2, bit]

variable (s : Core) (ea : BitVec 32) {q : ℕ}

theorem getMsbD_byte (hq : q < 8) : (s.byte ea).getMsbD q = s.bit ea q := by
  rw [bit, Nat.div_eq_of_lt hq, Nat.mod_eq_of_lt hq, BitVec.add_zero]

theorem bit_add (n : ℕ) : s.bit ea (8 * n + q) = s.bit (ea + BitVec.ofNat 32 n) q := by
  rw [bit, bit, Nat.mul_add_mod, Nat.mul_add_div (by decide), ← ofNat_add_ofNat, BitVec.add_assoc]

theorem getMsbD_word (hq : q < 16) : (s.byte ea ++ s.byte (ea + 1#32)).getMsbD q = s.bit ea q := by
  rw [getMsbD_append]
  by_cases h : 8 ≤ q
  · rw [if_pos h, getMsbD_byte _ _ (by omega), ← bit_add s ea 1]
    congr 1
    omega
  · rw [if_neg h, getMsbD_byte _ _ (by omega)]

theorem getMsbD_dword (hq : q < 32) : (s.byte ea ++ s.byte (ea + 1#32) ++ s.byte (ea + 2#32) ++
    s.byte (ea + 3#32)).getMsbD q = s.bit ea q := by
  rw [getMsbD_append, getMsbD_append]
  by_cases h3 : 24 ≤ q
  · rw [if_pos h3, getMsbD_byte _ _ (by omega), ← bit_add s ea 3]
    congr 1
    omega
  · rw [if_neg h3]
    by_cases h2 : 16 ≤ q
    · rw [if_pos h2, getMsbD_byte _ _ (by omega), ← bit_add s ea 2]
      congr 1
      omega
    · rw [if_neg h2, getMsbD_word _ _ (by omega)]

/-! ## Writing -/

/-- What a write to the five bytes of a field leaves: their bits, and all other cells as they
were. -/
structure Writes (s s' : Core) (ea : BitVec 32) (new : ℕ → Bool) : Prop where
  cpuType : s'.cpuType = s.cpuType
  a7 : s'.a7 = s.a7
  bit : ∀ q < 40, s'.bit ea q = new q
  other : ∀ l, (∀ i < 5, l ≠ s.location (ea + BitVec.ofNat 32 i)) → s'.memory l = s.memory l

namespace Writes

variable {s s' s'' : Core} {ea : BitVec 32} {new new' : ℕ → Bool}

theorem trans (h : Writes s s' ea new) (h' : Writes s' s'' ea new') : Writes s s'' ea new' where
  cpuType := h'.cpuType.trans h.cpuType
  a7 := h'.a7.trans h.a7
  bit := h'.bit
  other l hl := by
    refine (h'.other l fun i hi ↦ ?_).trans (h.other l hl)
    rw [location, h.cpuType]
    exact hl i hi

theorem congr (h : Writes s s' ea new) (hnew : ∀ q < 40, new q = new' q) : Writes s s' ea new' :=
  ⟨h.cpuType, h.a7, fun q hq ↦ (h.bit q hq).trans (hnew q hq), h.other⟩

end Writes

theorem writes_access (s : Core) (ea : BitVec 32) (rw : BitVec 16) (sz : BitVec 8) :
    Writes s (s.access rw sz) ea (s.bit ea) :=
  ⟨rfl, rfl, fun _ _ ↦ rfl, fun _ _ ↦ rfl⟩

theorem writes_poke (s : Core) (ea : BitVec 32) {i : ℕ} (hi : i < 5) (data : BitVec 8) :
    Writes s (s.poke (ea + BitVec.ofNat 32 i) data) ea fun q ↦
      if q / 8 = i then data.getMsbD (q % 8) else s.bit ea q where
  cpuType := rfl
  a7 := rfl
  bit q hq := by
    rw [bit, byte_poke]
    have hplace := location_add_inj s ea (i := q / 8) (j := i) (by omega) (by omega)
    by_cases h : q / 8 = i
    · rw [if_pos (hplace.mpr h), if_pos h]
    · rw [if_neg (mt hplace.mp h), if_neg h, bit]
  other l hl := Function.update_of_ne (hl i hi) _ _

theorem getMsbD_extractLsb'_eq {w : ℕ} (data : BitVec w) {start j : ℕ} (hj : j < 8)
    (hstart : start + 8 ≤ w) :
    (data.extractLsb' start 8).getMsbD j = data.getMsbD (w - 8 - start + j) := by
  rw [getMsbD_eq_getLsbD, getMsbD_eq_getLsbD, getLsbD_extractLsb',
    decide_eq_true (by omega : w - 8 - start + j < w), decide_eq_true hj,
    decide_eq_true (by omega : 8 - 1 - j < 8), Bool.true_and, Bool.true_and, Bool.true_and]
  congr 1
  omega

theorem writes_store16 (s : Core) (ea : BitVec 32) (data : BitVec 16) :
    Writes s (s.store16 ea data) ea fun q ↦ if q < 16 then data.getMsbD q else s.bit ea q := by
  have h0 := writes_poke s ea (i := 0) (by decide) (data.extractLsb' 8 8)
  rw [BitVec.add_zero] at h0
  have h1 :=
    writes_poke (s.poke ea (data.extractLsb' 8 8)) ea (i := 1) (by decide) (data.extractLsb' 0 8)
  refine (h0.trans h1).congr fun q hq ↦ ?_
  by_cases hone : q / 8 = 1
  · rw [if_pos hone, if_pos (by omega), getMsbD_extractLsb'_eq _ (by omega) (by decide)]
    congr 1
    omega
  · rw [if_neg hone, h0.bit q hq]
    by_cases hzero : q / 8 = 0
    · rw [if_pos hzero, if_pos (by omega), getMsbD_extractLsb'_eq _ (by omega) (by decide)]
      congr 1
      omega
    · rw [if_neg hzero, if_neg (by omega)]

theorem Writes.dword {s s0 s1 s2 s3 : Core} {ea data : BitVec 32} (h0 : Writes s s0 ea fun q ↦
    if q / 8 = 0 then (data.extractLsb' 24 8).getMsbD (q % 8) else s.bit ea q)
    (h1 : Writes s0 s1 ea fun q ↦ if q / 8 = 1 then (data.extractLsb' 16 8).getMsbD (q % 8)
    else s0.bit ea q) (h2 : Writes s1 s2 ea fun q ↦ if q / 8 = 2 then (data.extractLsb' 8 8).getMsbD
    (q % 8) else s1.bit ea q) (h3 : Writes s2 s3 ea fun q ↦
    if q / 8 = 3 then (data.extractLsb' 0 8).getMsbD (q % 8) else s2.bit ea q) :
    Writes s s3 ea fun q ↦ if q < 32 then data.getMsbD q else s.bit ea q := by
  refine (((h0.trans h1).trans h2).trans h3).congr fun q hq ↦ ?_
  have hbyte : ∀ start, start + 8 * (q / 8) = 24 →
      (data.extractLsb' start 8).getMsbD (q % 8) = data.getMsbD q := by
    intro start hstart
    rw [getMsbD_extractLsb'_eq _ (by omega) (by omega)]
    congr 1
    omega
  by_cases hin : q < 32
  · rw [if_pos hin]
    by_cases k3 : q / 8 = 3
    · rw [if_pos k3]
      exact hbyte 0 (by omega)
    · rw [if_neg k3, h2.bit q hq]
      by_cases k2 : q / 8 = 2
      · rw [if_pos k2]
        exact hbyte 8 (by omega)
      · rw [if_neg k2, h1.bit q hq]
        by_cases k1 : q / 8 = 1
        · rw [if_pos k1]
          exact hbyte 16 (by omega)
        · rw [if_neg k1, h0.bit q hq, if_pos (by omega)]
          exact hbyte 24 (by omega)
  · rw [if_neg hin, if_neg (by omega), h2.bit q hq, if_neg (by omega), h1.bit q hq,
      if_neg (by omega), h0.bit q hq, if_neg (by omega)]

theorem writes_store32 (s : Core) (ea : BitVec 32) (data : BitVec 32) :
    Writes s (s.store32 ea data) ea fun q ↦ if q < 32 then data.getMsbD q else s.bit ea q := by
  have h0 := writes_poke s ea (i := 0) (by decide) (data.extractLsb' 24 8)
  rw [BitVec.add_zero] at h0
  rw [store32]
  exact h0.dword (writes_poke _ ea (i := 1) (by decide) _) (writes_poke _ ea (i := 2) (by decide) _)
    (writes_poke _ ea (i := 3) (by decide) _)

end Core

/-! ## The accesses of the handlers -/

namespace Processor

variable {s : Processor} {ea : BitVec 32}

/-- A read leaves the registers and the memory. -/
structure Kept (s s' : Processor) : Prop where
  da : s'.da = s.da
  cpuType : s'.cpuType = s.cpuType
  memory : s'.memory = s.memory

variable {s' : Processor}

theorem Kept.bit (h : Kept s s') : s'.toCore.bit = s.toCore.bit := by
  funext ea q
  rw [Core.bit, Core.bit, Core.byte, Core.byte, location, location, h.cpuType, h.memory]

theorem Kept.trans {s'' : Processor} (h : Kept s s') (h' : Kept s' s'') : Kept s s'' :=
  ⟨h'.da.trans h.da, h'.cpuType.trans h.cpuType, h'.memory.trans h.memory⟩

theorem kept_access (s : Processor) (rw : BitVec 16) (sz : BitVec 8) :
    Kept s (s.withCore (s.access rw sz)) :=
  ⟨da_withCore rfl, rfl, rfl⟩

/-- How many bits an access of a size is for. -/
def span (size : BitVec 32) : ℕ := if size ≤ 8#32 then 8 else if size ≤ 16#32 then 16 else 32

theorem exists_readData (h : s.cpuType.is010Less = false) (size ea : BitVec 32) :
    ∃ data s', s.readData size ea = some (data, s') ∧ Kept s s' ∧
      ∀ q, data.getMsbD q = (decide (q < span size) && s.bit ea q) := by
  have herror : s.addressError ea = false := by rw [addressError, h, Bool.false_and]
  rw [readData, span]
  by_cases hbyte : size ≤ 8#32
  · rw [if_pos hbyte, if_pos hbyte]
    refine ⟨_, _, rfl, kept_access s 1#16 szByte, fun q ↦ ?_⟩
    rw [getMsbD_shiftLeft, getMsbD_setWidth]
    by_cases hq : q < 8
    · rw [decide_eq_true hq, decide_eq_true (by omega), ← getMsbD_byte _ _ hq]
      rfl
    · rw [decide_eq_false hq, getMsbD_of_ge _ _ (by omega), Bool.and_false, Bool.false_and]
  · rw [if_neg hbyte, if_neg hbyte]
    by_cases hword : size ≤ 16#32
    · rw [if_pos hword, if_pos hword, read16, Core.read16, herror]
      refine ⟨_, _, rfl, kept_access s 1#16 szWord, fun q ↦ ?_⟩
      rw [getMsbD_shiftLeft, getMsbD_setWidth]
      by_cases hq : q < 16
      · rw [decide_eq_true hq, decide_eq_true (by omega), ← getMsbD_word _ _ hq]
        rfl
      · rw [decide_eq_false hq, getMsbD_of_ge _ _ (by omega), Bool.and_false, Bool.false_and]
    · rw [if_neg hword, if_neg hword, read32, Core.read32, herror]
      refine ⟨_, _, rfl, kept_access s 1#16 szLong, fun q ↦ ?_⟩
      by_cases hq : q < 32
      · rw [decide_eq_true hq, ← getMsbD_dword _ _ hq]
        rfl
      · rw [decide_eq_false hq, getMsbD_of_ge _ _ (by omega), Bool.false_and]

/-- A write keeps the registers, and changes memory as the core does. -/
structure Wrote (s s' : Processor) (ea : BitVec 32) (new : ℕ → Bool) : Prop where
  da : s'.da = s.da
  core : Core.Writes s.toCore s'.toCore ea new

namespace Wrote

variable {s' s'' : Processor} {new new' : ℕ → Bool}

theorem trans (h : Wrote s s' ea new) (h' : Wrote s' s'' ea new') : Wrote s s'' ea new' :=
  ⟨h'.da.trans h.da, h.core.trans h'.core⟩

theorem congr (h : Wrote s s' ea new) (hnew : ∀ q < 40, new q = new' q) : Wrote s s' ea new' :=
  ⟨h.da, h.core.congr hnew⟩

end Wrote

theorem Kept.wrote (h : Kept s s') (ea : BitVec 32) : Wrote s s' ea (s.bit ea) :=
  ⟨h.da, ⟨h.cpuType, congrFun h.da 15, fun q _ ↦ congrFun (congrFun h.bit ea) q,
    fun l _ ↦ congrFun h.memory l⟩⟩

theorem getMsbD_high (data : BitVec 32) {n q : ℕ} (hn : n ≤ 32) (hq : q < n) :
    ((data >>> (32 - n)).setWidth n).getMsbD q = data.getMsbD q := by
  rw [getMsbD_setWidth, getMsbD_ushiftRight, decide_eq_true (by omega : n - 32 ≤ q),
    decide_eq_true (by omega : q + 32 - n < 32), decide_eq_false (by omega : ¬q + 32 - n < 32 - n),
    show q + 32 - n - (32 - n) = q by omega]
  rfl

theorem wrote_write8 (s : Processor) (ea : BitVec 32) (data : BitVec 8) :
    Wrote s (s.write8 ea data) ea fun q ↦ if q < 8 then data.getMsbD q else s.bit ea q := by
  have h := (writes_access s.toCore ea 0#16 szByte).trans
    (writes_poke (s.toCore.access 0#16 szByte) ea (i := 0) (by decide) data)
  rw [BitVec.add_zero] at h
  refine ⟨da_withCore h.a7, h.congr fun q _ ↦ ?_⟩
  by_cases hq : q < 8
  · rw [if_pos hq, if_pos (by omega), Nat.mod_eq_of_lt hq]
  · rw [if_neg hq, if_neg (by omega)]
    rfl

theorem wrote_write8_fifth (s : Processor) (ea : BitVec 32) (data : BitVec 8) :
    Wrote s (s.write8 (ea + 4#32) data) ea fun q ↦ if q < 32 then s.bit ea q
      else data.getMsbD (q - 32) := by
  have h := (writes_access s.toCore ea 0#16 szByte).trans
    (writes_poke (s.toCore.access 0#16 szByte) ea (i := 4) (by decide) data)
  refine ⟨da_withCore h.a7, h.congr fun q hq ↦ ?_⟩
  by_cases hin : q < 32
  · rw [if_pos hin, if_neg (by omega)]
    rfl
  · rw [if_neg hin, if_pos (by omega)]
    congr 1
    omega

theorem exists_writeData (h : s.cpuType.is010Less = false) (size ea data : BitVec 32) :
    ∃ s', s.writeData size ea data = some s' ∧
      Wrote s s' ea fun q ↦ if q < span size then data.getMsbD q else s.bit ea q := by
  have herror : s.addressError ea = false := by rw [addressError, h, Bool.false_and]
  rw [writeData, span]
  by_cases hbyte : size ≤ 8#32
  · rw [if_pos hbyte, if_pos hbyte]
    refine ⟨_, rfl, (wrote_write8 s ea _).congr fun q _ ↦ ?_⟩
    by_cases hq : q < 8
    · rw [if_pos hq, if_pos hq]
      exact getMsbD_high data (by decide) hq
    · rw [if_neg hq, if_neg hq]
  · rw [if_neg hbyte, if_neg hbyte]
    by_cases hword : size ≤ 16#32
    · rw [if_pos hword, if_pos hword, write16, Core.write16, herror]
      have hw := (writes_access s.toCore ea 0#16 szWord).trans
        (writes_store16 (s.toCore.access 0#16 szWord) ea ((data >>> 16).setWidth 16))
      refine ⟨_, rfl, da_withCore hw.a7, hw.congr fun q _ ↦ ?_⟩
      by_cases hq : q < 16
      · rw [if_pos hq, if_pos hq]
        exact getMsbD_high data (by decide) hq
      · rw [if_neg hq, if_neg hq]
        rfl
    · rw [if_neg hword, if_neg hword, write32, Core.write32, herror]
      have hw := (writes_access s.toCore ea 0#16 szLong).trans
        (writes_store32 (s.toCore.access 0#16 szLong) ea data)
      exact ⟨_, rfl, da_withCore hw.a7, hw⟩

end Processor

end RoscoEmulator.M68k
