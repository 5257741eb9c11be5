import RoscoEmulator.M68k.Translation

/-!
# The bus interface of the 68030

The accessors of a 32-bit bus with a PMMU, over a memory of double words: the reads and writes of
the bus, and the 16- and 32-bit accessors, which translate an address, and a second one where the
access leaves the block of 256 bytes or the double word. -/

namespace RoscoEmulator.M68k

open BitVec

/-! ## The bus -/

/-- `memory_read_generic` for a big-endian bus of double words. The memory reads a double word
whatever the mask. -/
def memoryReadGeneric (targetBytes : ℕ) (aligned : Bool) (program : Memory)
    (address : BitVec 32) : BitVec 32 :=
  let targetBits := 8 * targetBytes
  if targetBytes = 4 ∧ (aligned ∨ address &&& 3#32 = 0#32) then program (address &&& ~~~3#32)
  else
    let offsbits := 8 * (address &&& BitVec.ofNat 32 (4 - if aligned then targetBytes else 1)).toNat
    if targetBytes < 4 ∧ (aligned ∨ offsbits + targetBits ≤ 32) then
      program (address &&& ~~~3#32) >>> (32 - targetBits - offsbits)
    else
      -- two reads: the upper bits from the lower address
      let offsbits := 8 * (address &&& 3#32).toNat
      let address := address &&& ~~~3#32
      let result := program address <<< offsbits ||| program (address + 4#32) >>> (32 - offsbits)
      result >>> (32 - targetBits)

def readByte (program : Memory) (address : BitVec 32) : BitVec 8 :=
  (memoryReadGeneric 1 true program address).setWidth 8

def readWord (program : Memory) (address : BitVec 32) : BitVec 16 :=
  (memoryReadGeneric 2 true program address).setWidth 16

def readWordUnaligned (program : Memory) (address : BitVec 32) : BitVec 16 :=
  (memoryReadGeneric 2 false program address).setWidth 16

def readDword (program : Memory) (address : BitVec 32) : BitVec 32 :=
  memoryReadGeneric 4 true program address

def readDwordUnaligned (program : Memory) (address : BitVec 32) : BitVec 32 :=
  memoryReadGeneric 4 false program address

/-- `write_dword` with a mask. -/
def writeDword (address data mask : BitVec 32) (program : Memory) : Memory :=
  Function.update program (address &&& ~~~3#32)
    (program (address &&& ~~~3#32) &&& ~~~mask ||| data &&& mask)

/-! ## Data for the lanes of the bus -/

def dwordFromByte (data : BitVec 8) : BitVec 32 := data.setWidth 32 * 0x01010101#32

def dwordFromWord (data : BitVec 16) : BitVec 32 := data.setWidth 32 * 0x00010001#32

def dwordFromUnalignedWord (data : BitVec 16) : BitVec 32 :=
  data.setWidth 32 <<< 8 ||| (data >>> 8).setWidth 32 * 0x01000001#32

/-! ## The lanes of a double word -/

/-- The byte in a lane of a double word, from the top. -/
def lane (d : BitVec 32) (k : ℕ) : BitVec 8 := (d >>> (24 - 8 * k)).setWidth 8

/-- The write of a byte, as the 8-bit write accessor has it. -/
def writeByte (address : BitVec 32) (data : BitVec 8) : Memory → Memory :=
  writeDword (address &&& 0xfffffffc#32) (dwordFromByte data)
    (0xff000000#32 >>> (8 * (address &&& 3#32).toNat))

section Lanes

variable {d e mask : BitVec 32} {k : ℕ}

theorem toNat_lane (d : BitVec 32) (k : ℕ) :
    (lane d k).toNat = d.toNat / 2 ^ (24 - 8 * k) % 256 := by
  rw [lane, toNat_setWidth, toNat_ushiftRight, Nat.shiftRight_eq_div_pow]

theorem eq_of_lanes (h : ∀ k < 4, lane d k = lane e k) : d = e := by
  have hlane : ∀ k < 4, d.toNat / 2 ^ (24 - 8 * k) % 256 = e.toNat / 2 ^ (24 - 8 * k) % 256 := by
    intro k hk
    rw [← toNat_lane, ← toNat_lane, h k hk]
  have h0 := hlane 0 (by decide)
  have h1 := hlane 1 (by decide)
  have h2 := hlane 2 (by decide)
  have h3 := hlane 3 (by decide)
  refine eq_of_toNat_eq ?_
  omega

theorem lane_or (d e : BitVec 32) (k : ℕ) : lane (d ||| e) k = lane d k ||| lane e k := by
  simp only [lane, ushiftRight_or_distrib, setWidth_or]

theorem lane_and (d e : BitVec 32) (k : ℕ) : lane (d &&& e) k = lane d k &&& lane e k := by
  simp only [lane, ushiftRight_and_distrib, setWidth_and]

theorem lane_not (d : BitVec 32) (k : ℕ) : lane (~~~d) k = ~~~lane d k := by
  refine eq_of_getLsbD_eq fun i hi ↦ ?_
  simp only [lane, getLsbD_setWidth, getLsbD_ushiftRight, getLsbD_not, hi, decide_true,
    Bool.true_and, show 24 - 8 * k + i < 32 by omega]

/-- A masked write takes the lanes of the mask from the data, and leaves the others. -/
theorem lane_masked (old data : BitVec 32) (hmask : lane mask k = 0xff#8 ∨ lane mask k = 0#8) :
    lane (old &&& ~~~mask ||| data &&& mask) k =
      if lane mask k = 0xff#8 then lane data k else lane old k := by
  rw [lane_or, lane_and, lane_and, lane_not]
  rcases hmask with hmask | hmask
  · rw [hmask, if_pos rfl, show ~~~0xff#8 = 0#8 by decide, and_zero, zero_or,
      show 0xff#8 = allOnes 8 by decide, and_allOnes]
  · rw [hmask, if_neg (by decide), and_zero, or_zero, show ~~~0#8 = allOnes 8 by decide,
      and_allOnes]

theorem lane_dwordFromByte (data : BitVec 8) (hk : k < 4) : lane (dwordFromByte data) k = data := by
  have hall : ∀ data < 256, ∀ k < 4, data * 0x01010101 / 2 ^ (24 - 8 * k) % 256 = data := by
    decide +kernel
  have hlt := data.isLt
  refine eq_of_toNat_eq ?_
  rw [toNat_lane, dwordFromByte, toNat_mul, toNat_setWidth, toNat_ofNat,
    Nat.mod_eq_of_lt (by omega : data.toNat < 2 ^ 32), show 0x01010101 % 2 ^ 32 =
    0x01010101 from rfl, Nat.mod_eq_of_lt (by omega : data.toNat * 0x01010101 < 2 ^ 32)]
  exact hall data.toNat hlt k hk

end Lanes

/-! ## Addresses in a double word -/

section Base

variable {r : BitVec 32}

theorem land_three (n : ℕ) : n &&& 3 = n % 4 := Nat.and_two_pow_sub_one_eq_mod n 2

theorem toNat_base (r : BitVec 32) : (r &&& ~~~3#32).toNat = r.toNat / 4 * 4 :=
  toNat_and_allOnes_shiftLeft r 2

variable {j : ℕ}

theorem base_add (h : r.toNat % 4 + j < 4) : (r + BitVec.ofNat 32 j) &&& ~~~3#32 = r &&& ~~~3#32 ∧
    (r + BitVec.ofNat 32 j).toNat % 4 = r.toNat % 4 + j := by
  refine ⟨eq_of_toNat_eq ?_, ?_⟩
  · rw [toNat_base, toNat_base, toNat_add, toNat_ofNat]
    omega
  · rw [toNat_add, toNat_ofNat]
    omega

theorem base_sub (h : j ≤ r.toNat % 4) : (r - BitVec.ofNat 32 j) &&& ~~~3#32 = r &&& ~~~3#32 := by
  refine eq_of_toNat_eq ?_
  rw [toNat_base, toNat_base, toNat_sub, toNat_ofNat]
  omega

theorem base_next (h : r.toNat % 4 + j = 4) : r + BitVec.ofNat 32 j = (r &&& ~~~3#32) + 4#32 := by
  refine eq_of_toNat_eq ?_
  rw [toNat_add, toNat_add, toNat_base, toNat_ofNat]
  show _ = (_ + 4) % _
  omega

end Base

/-! ## Reads and writes by bytes -/

section Bytes

variable {program : Memory} {r : BitVec 32}

theorem readByte_eq (program : Memory) (r : BitVec 32) :
    readByte program r = lane (program (r &&& ~~~3#32)) (r.toNat % 4) := by
  rw [readByte, memoryReadGeneric, lane]
  simp [land_three]

theorem readWord_eq (program : Memory) (heven : r.toNat % 2 = 0) :
    readWord program r = (program (r &&& ~~~3#32) >>> (16 - 8 * (r.toNat % 4))).setWidth 16 := by
  have hand : r.toNat &&& 2 = r.toNat % 4 := by
    have hbit : r.toNat &&& 1 = 0 := (Nat.and_one_is_mod r.toNat).trans heven
    rw [← land_three, show 3 = 2 ||| 1 from rfl, Nat.and_or_distrib_left, hbit, Nat.or_zero]
  rw [readWord, memoryReadGeneric]
  simp [hand]

theorem readDword_eq (program : Memory) (r : BitVec 32) :
    readDword program r = program (r &&& ~~~3#32) := by
  rw [readDword, memoryReadGeneric]
  simp

theorem readDwordUnaligned_eq (program : Memory) (r : BitVec 32) : readDwordUnaligned program r =
    if r.toNat % 4 = 0 then program (r &&& ~~~3#32)
    else program (r &&& ~~~3#32) <<< (8 * (r.toNat % 4)) |||
      program ((r &&& ~~~3#32) + 4#32) >>> (32 - 8 * (r.toNat % 4)) := by
  have hand : r &&& 3#32 = 0#32 ↔ r.toNat % 4 = 0 := by
    rw [← land_three, ← toNat_inj, toNat_and]
    rfl
  rw [readDwordUnaligned, memoryReadGeneric]
  simp [land_three, hand]

end Bytes

namespace Pmmu

/-! ## The accessors -/

/-- The 16-bit read accessor. -/
def read16 (address : BitVec 32) (m : Pmmu) : BitVec 16 × Pmmu :=
  if m.enabled then
    let (address0, m) := m.translateAddr address true
    if m.buserrorOccurred ≠ 0#16 then (allOnes 16, m)
    else if address &&& 1#32 = 0#32 then (readWord m.program address0, m)
    else
      let (address1, m) := m.translateAddr (address + 1#32) true
      if m.buserrorOccurred ≠ 0#16 then (allOnes 16, m)
      else
        let result := (readByte m.program address0).setWidth 16 <<< 8
        (result ||| (readByte m.program address1).setWidth 16, m)
  else (readWordUnaligned m.program address, m)

/-- The 32-bit read accessor. -/
def read32 (address : BitVec 32) (m : Pmmu) : BitVec 32 × Pmmu :=
  if m.enabled then
    let (address0, m) := m.translateAddr address true
    if m.buserrorOccurred ≠ 0#16 then (allOnes 32, m)
    else if (address + 3#32) &&& 0xfc#32 ≠ 0#32 then (readDwordUnaligned m.program address0, m)
    else if address &&& 3#32 = 0#32 then (readDword m.program address0, m)
    else
      let (address2, m) := m.translateAddr (address + 2#32) true
      if m.buserrorOccurred ≠ 0#16 then (allOnes 32, m)
      else if address &&& 1#32 = 0#32 then
        let result := (readWord m.program address0).setWidth 32 <<< 16
        (result ||| (readWord m.program address2).setWidth 32, m)
      else
        let (address1, m) := m.translateAddr (address + 1#32) true
        let (address3, m) := m.translateAddr (address + 3#32) true
        if m.buserrorOccurred ≠ 0#16 then (allOnes 32, m)
        else
          let result := (readByte m.program address0).setWidth 32 <<< 24
          let result := result ||| (readWord m.program address1).setWidth 32 <<< 8
          (result ||| (readByte m.program address3).setWidth 32, m)
  else (readDwordUnaligned m.program address, m)

/-- A write of the bus, with the state of the PMMU around it. -/
def store (address data mask : BitVec 32) (m : Pmmu) : Pmmu :=
  { m with program := writeDword address data mask m.program }

/-- An address of a write accessor, translated if the PMMU is on; none at a fault. -/
def writeAddr (address : BitVec 32) (m : Pmmu) : Option (BitVec 32) × Pmmu :=
  if m.enabled then
    let (physical, m) := m.translateAddr address false
    if m.buserrorOccurred ≠ 0#16 then (none, m) else (some physical, m)
  else (some address, m)

/-- The 16-bit write accessor. -/
def write16 (address : BitVec 32) (data : BitVec 16) (m : Pmmu) : Pmmu :=
  match m.writeAddr address with
  | (none, m) => m
  | (some address0, m) =>
      match (address &&& 3#32).toNat with
      | 0 => m.store address0 (dwordFromWord data) 0xffff0000#32
      | 1 => m.store (address0 - 1#32) (dwordFromUnalignedWord data) 0x00ffff00#32
      | 2 => m.store (address0 - 2#32) (dwordFromWord data) 0x0000ffff#32
      | _ =>
          match m.writeAddr (address + 1#32) with
          | (none, m) => m
          | (some address1, m) =>
              let m := m.store (address0 - 3#32) (dwordFromUnalignedWord data) 0x000000ff#32
              m.store address1 (dwordFromByte (data.setWidth 8)) 0xff000000#32

/-- The 32-bit write accessor. -/
def write32 (address data : BitVec 32) (m : Pmmu) : Pmmu :=
  match m.writeAddr address with
  | (none, m) => m
  | (some address0, m) =>
      match (address &&& 3#32).toNat with
      | 0 => m.store address0 data 0xffffffff#32
      | 1 =>
          match m.writeAddr (address + 3#32) with
          | (none, m) => m
          | (some address3, m) =>
              let m := m.store (address0 - 1#32)
                (data &&& 0xff000000#32 ||| (data &&& 0xffffff00#32) >>> 8) 0x00ffffff#32
              m.store address3 (dwordFromByte (data.setWidth 8)) 0xff000000#32
      | 2 =>
          match m.writeAddr (address + 2#32) with
          | (none, m) => m
          | (some address2, m) =>
              let m :=
                m.store (address0 - 2#32) (dwordFromWord (data >>> 16 |>.setWidth 16)) 0x0000ffff#32
              m.store address2 (dwordFromWord (data.setWidth 16)) 0xffff0000#32
      | _ =>
          match m.writeAddr (address + 1#32) with
          | (none, m) => m
          | (some address1, m) =>
              let m := m.store (address0 - 3#32)
                (dwordFromUnalignedWord (data >>> 16 |>.setWidth 16)) 0x000000ff#32
              m.store address1 (data.rotateLeft 8) 0xffffff00#32

end Pmmu

end RoscoEmulator.M68k
