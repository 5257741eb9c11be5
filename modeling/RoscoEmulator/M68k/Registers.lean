import RoscoEmulator.M68k.Core

/-!
# The registers of the instructions

The processor with its data and address registers. A7 is that of the core, which exceptions and
changes of the status register exchange. -/

namespace RoscoEmulator.M68k

/-- The processor with D0 to D7 and A0 to A6. -/
structure Processor extends Core where
  dar : Fin 15 → BitVec 32

/-- The index of a data register in `REG_DA`. -/
def dReg (i : BitVec 3) : Fin 16 := ⟨i.toNat, i.isLt.trans (by decide)⟩

/-- The index of an address register in `REG_DA`. -/
def aReg (i : BitVec 3) : Fin 16 := ⟨8 + i.toNat, Nat.add_lt_add_left i.isLt 8⟩

namespace Processor

/-- `REG_DA`. -/
def da (s : Processor) (i : Fin 16) : BitVec 32 := if h : i.val < 15 then s.dar ⟨i.val, h⟩ else s.a7

def setDa (i : Fin 16) (value : BitVec 32) (s : Processor) : Processor :=
  if h : i.val < 15 then { s with dar := Function.update s.dar ⟨i.val, h⟩ value }
    else { s with a7 := value }

/-- `DX`. -/
def dx (s : Processor) : Fin 16 := dReg (s.ir.extractLsb' 9 3)

/-- `DY`. -/
def dy (s : Processor) : Fin 16 := dReg (s.ir.extractLsb' 0 3)

/-- `AY`. -/
def ay (s : Processor) : Fin 16 := aReg (s.ir.extractLsb' 0 3)

variable (i : Fin 16) (value : BitVec 32) (s : Processor)

theorem da_setDa (j : Fin 16) (value : BitVec 32) (s : Processor) :
    (s.setDa i value).da j = if j = i then value else s.da j := by
  rw [setDa]
  by_cases hi : i.val < 15
  · rw [dif_pos hi, da, da]
    by_cases hj : j.val < 15
    · rw [dif_pos hj, dif_pos hj]
      simp only [Function.update_apply, Fin.ext_iff]
    · rw [dif_neg hj, dif_neg hj, if_neg fun h : j = i ↦ hj (h ▸ hi)]
  · rw [dif_neg hi, da, da]
    by_cases hj : j.val < 15
    · rw [dif_pos hj, dif_pos hj, if_neg fun h : j = i ↦ hi (h ▸ hj)]
    · rw [dif_neg hj, if_pos (Fin.ext (by omega))]

@[simp] theorem da_setDa_self : (s.setDa i value).da i = value := by
  rw [da_setDa, if_pos rfl]

theorem da_setDa_of_ne {i j : Fin 16} (h : j ≠ i) (value : BitVec 32) (s : Processor) :
    (s.setDa i value).da j = s.da j := by
  rw [da_setDa, if_neg h]

@[simp] theorem memory_setDa : (s.setDa i value).memory = s.memory := by
  rw [setDa]
  split <;> rfl

@[simp] theorem cpuType_setDa : (s.setDa i value).cpuType = s.cpuType := by
  rw [setDa]
  split <;> rfl

@[simp] theorem ay_setDa : (s.setDa i value).ay = s.ay := by
  rw [setDa]
  split <;> rfl

theorem da_setDa_eq : (s.setDa i value).da = Function.update s.da i value := by
  funext j
  rw [da_setDa, Function.update_apply]

@[simp] theorem nFlag_setDa : (s.setDa i value).nFlag = s.nFlag := by
  rw [setDa]
  split <;> rfl

@[simp] theorem notZFlag_setDa : (s.setDa i value).notZFlag = s.notZFlag := by
  rw [setDa]
  split <;> rfl

@[simp] theorem vFlag_setDa : (s.setDa i value).vFlag = s.vFlag := by
  rw [setDa]
  split <;> rfl

@[simp] theorem cFlag_setDa : (s.setDa i value).cFlag = s.cFlag := by
  rw [setDa]
  split <;> rfl

/-! ## Accesses -/

/-- A write or another access of the core, which leaves the data and address registers. -/
def withCore (s : Processor) (core : Core) : Processor := { s with toCore := core }

/-- An access leaves the registers. -/
theorem da_withCore {s : Processor} {core : Core} (h : core.a7 = s.a7) :
    (s.withCore core).da = s.da := by
  funext i
  rw [da, da]
  split
  · rfl
  · exact h

def write16 (address : BitVec 32) (data : BitVec 16) (s : Processor) : Option Processor :=
  (s.toCore.write16 address data).map s.withCore

def write32 (address data : BitVec 32) (s : Processor) : Option Processor :=
  (s.toCore.write32 address data).map s.withCore

def read16 (address : BitVec 32) (s : Processor) : Option (BitVec 16 × Processor) :=
  (s.toCore.read16 address).map fun r ↦ (r.1, s.withCore r.2)

def read32 (address : BitVec 32) (s : Processor) : Option (BitVec 32 × Processor) :=
  (s.toCore.read32 address).map fun r ↦ (r.1, s.withCore r.2)

end Processor

end RoscoEmulator.M68k
