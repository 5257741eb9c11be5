import Mathlib.Tactic.IntervalCases

/-!
# The processor and its stacks

The registers that exceptions save and restore: the status register as the flags that instructions
leave behind, the bank of stack pointers that S and M select from, and memory as its bytes. The
words and double words of an access are its bytes in big-endian order, at addresses cut to the width
of the bus. -/

namespace RoscoEmulator.M68k

open Function BitVec

/-! ## The models -/

/-- The models of the processor. -/
inductive CpuType
  | cpu000
  | cpu008
  | cpu010
  | ec020
  | cpu020
  | ec030
  | cpu030
  | ec040
  | lc040
  | cpu040
  | scc070
  | fscpu32
  | coldfire
deriving DecidableEq, Repr

namespace CpuType

def is040Plus : CpuType → Bool
  | cpu040 | ec040 | lc040 => true
  | _ => false

/-- `CPU_TYPE_IS_020_PLUS`, which leaves out the 68EC020. -/
def is020Plus : CpuType → Bool
  | cpu020 | cpu030 | ec030 | cpu040 | ec040 | lc040 | fscpu32 | coldfire => true
  | _ => false

def isEc020Plus : CpuType → Bool
  | ec020 | cpu020 | cpu030 | ec030 | cpu040 | ec040 | lc040 | fscpu32 | coldfire => true
  | _ => false

def is010 (t : CpuType) : Bool := t == cpu010

def is010Plus : CpuType → Bool
  | cpu010 | ec020 | cpu020 | ec030 | cpu030 | cpu040 | ec040 | lc040 | fscpu32 | coldfire => true
  | _ => false

def is010Less : CpuType → Bool
  | cpu000 | cpu008 | cpu010 | scc070 => true
  | _ => false

def is000 (t : CpuType) : Bool := t == cpu000 || t == cpu008

def is070 (t : CpuType) : Bool := t == scc070

/-- The implemented bits of the status register. -/
def srMask : CpuType → BitVec 16
  | cpu000 | cpu008 | cpu010 | scc070 => 0xa71f#16
  | _ => 0xf71f#16

/-- The width of the addresses on the bus. -/
def addressBits : CpuType → ℕ
  | cpu000 | cpu008 | cpu010 | ec020 => 24
  | _ => 32

end CpuType

/-- What the processor does with a bus or address error. -/
inductive RunMode
  | normal
  /-- Writing the stack frame. -/
  | berrAerrResetWsf
  /-- The stack frame is done. -/
  | berrAerrReset
deriving DecidableEq, Repr

/-- The registers, the pending interrupts and the memory. The flags are raw: S and M select a stack
pointer, and the condition codes are bits of what an operation left behind. -/
structure Core where
  cpuType : CpuType
  /-- The active stack pointer. -/
  a7 : BitVec 32
  /-- The stack pointers that are not active: USP at 0, ISP at 4 and MSP at 6. -/
  sp : ℕ → BitVec 32
  t1Flag : Bool
  t0Flag : Bool
  sFlag : Bool
  mFlag : Bool
  intMask : BitVec 3
  xFlag : BitVec 32
  nFlag : BitVec 32
  notZFlag : BitVec 32
  vFlag : BitVec 32
  cFlag : BitVec 32
  pc : BitVec 32
  ppc : BitVec 32
  vbr : BitVec 32
  ir : BitVec 16
  aerrAddress : BitVec 32
  aerrWriteMode : BitVec 32
  aerrFc : BitVec 32
  instrMode : BitVec 32
  mmuTmpFc : BitVec 16
  mmuTmpRw : BitVec 16
  mmuTmpSz : BitVec 8
  mmuTmpBuserrorAddress : BitVec 32
  mmuTmpBuserrorFc : BitVec 16
  mmuTmpBuserrorRw : BitVec 16
  mmuTmpBuserrorSz : BitVec 16
  runMode : RunMode
  tracing : Bool
  stopped : BitVec 32
  nmiPending : Bool
  intLevel : BitVec 3
  memory : ℕ → BitVec 8

namespace Core

/-! ## Memory -/

/-- Where an address is on the bus. -/
def location (s : Core) (address : BitVec 32) : ℕ := address.toNat % 2 ^ s.cpuType.addressBits

def byte (s : Core) (address : BitVec 32) : BitVec 8 := s.memory (s.location address)

def poke (address : BitVec 32) (data : BitVec 8) (s : Core) : Core :=
  { s with memory := update s.memory (s.location address) data }

/-- `m68ki_check_address_error` for data: an exception of the host language, which ends what
runs. -/
def addressError (s : Core) (address : BitVec 32) : Bool := s.cpuType.is010Less && address.getLsbD 0

/-- What an access leaves for the MMU. -/
def access (rw : BitVec 16) (sz : BitVec 8) (s : Core) : Core :=
  { s with
    mmuTmpFc := if s.sFlag then 5#16 else 1#16
    mmuTmpRw := rw
    mmuTmpSz := sz }

def szLong : BitVec 8 := 0#8

def szWord : BitVec 8 := 2#8

def read16 (address : BitVec 32) (s : Core) : Option (BitVec 16 × Core) :=
  if s.addressError address then none
  else some (s.byte address ++ s.byte (address + 1#32), s.access 1#16 szWord)

def read32 (address : BitVec 32) (s : Core) : Option (BitVec 32 × Core) :=
  if s.addressError address then none
  else some (s.byte address ++ s.byte (address + 1#32) ++ s.byte (address + 2#32) ++
    s.byte (address + 3#32), s.access 1#16 szLong)

def store16 (address : BitVec 32) (data : BitVec 16) (s : Core) : Core :=
  (s.poke address (data.extractLsb' 8 8)).poke (address + 1#32) (data.extractLsb' 0 8)

def store32 (address : BitVec 32) (data : BitVec 32) (s : Core) : Core :=
  (((s.poke address (data.extractLsb' 24 8)).poke (address + 1#32) (data.extractLsb' 16 8)).poke
    (address + 2#32) (data.extractLsb' 8 8)).poke (address + 3#32) (data.extractLsb' 0 8)

def write16 (address : BitVec 32) (data : BitVec 16) (s : Core) : Option Core :=
  if s.addressError address then none else some ((s.access 0#16 szWord).store16 address data)

def write32 (address : BitVec 32) (data : BitVec 32) (s : Core) : Option Core :=
  if s.addressError address then none else some ((s.access 0#16 szLong).store32 address data)

section Memory

variable {s : Core} {a b : BitVec 32} {i j : ℕ}

theorem addressBits_eq (t : CpuType) : t.addressBits = 24 ∨ t.addressBits = 32 := by
  cases t <;> decide

/-- Near addresses are apart on the bus. -/
theorem location_add_inj (s : Core) (a : BitVec 32) (hi : i < 2 ^ 24) (hj : j < 2 ^ 24) :
    s.location (a + BitVec.ofNat 32 i) = s.location (a + BitVec.ofNat 32 j) ↔ i = j := by
  rw [location, location, toNat_add, toNat_add, toNat_ofNat, toNat_ofNat]
  rcases addressBits_eq s.cpuType with h | h <;> rw [h] <;> omega

@[simp] theorem location_poke (s : Core) (b : BitVec 32) (data : BitVec 8) :
    (s.poke b data).location a = s.location a := rfl

theorem byte_poke (s : Core) (b : BitVec 32) (data : BitVec 8) :
    (s.poke b data).byte a = if s.location a = s.location b then data else s.byte a :=
  update_apply _ _ _ _

theorem addressError_of_even (h : a.toNat % 2 = 0) (s : Core) : s.addressError a = false := by
  rw [addressError, getLsbD, Nat.testBit_zero, h]
  exact Bool.and_false _

theorem word_append (value : BitVec 16) : value.extractLsb' 8 8 ++ value.extractLsb' 0 8 = value :=
  extractLsb'_append_extractLsb'

theorem dword_append (value : BitVec 32) : value.extractLsb' 24 8 ++ value.extractLsb' 16 8 ++
    value.extractLsb' 8 8 ++ value.extractLsb' 0 8 = value := by
  have hhigh : value.extractLsb' 24 8 ++ value.extractLsb' 16 8 = value.extractLsb' 16 16 :=
    extractLsb'_append_extractLsb'_eq_extractLsb' rfl
  have hmid : value.extractLsb' 16 16 ++ value.extractLsb' 8 8 = value.extractLsb' 8 24 :=
    extractLsb'_append_extractLsb'_eq_extractLsb' rfl
  rw [hhigh, hmid]
  exact extractLsb'_append_extractLsb'

/-- The bytes of a double word are apart on the bus. -/
theorem location_add_eq_iff (s : Core) (a : BitVec 32) (hi : i < 4) (hj : j < 4) :
    s.location (a + BitVec.ofNat 32 i) = s.location (a + BitVec.ofNat 32 j) ↔ i = j :=
  location_add_inj s a (by omega) (by omega)

theorem word_store16 (s : Core) (a : BitVec 32) (value : BitVec 16) :
    (s.store16 a value).byte a ++ (s.store16 a value).byte (a + 1#32) = value := by
  have h01 := location_add_eq_iff s a (i := 0) (j := 1) (by decide) (by decide)
  rw [BitVec.add_zero] at h01
  have hne : s.location a ≠ s.location (a + 1#32) := fun h ↦ absurd (h01.mp h) (by decide)
  rw [store16, byte_poke, byte_poke, byte_poke, location_poke, location_poke, if_neg hne,
    if_pos rfl, if_pos rfl, word_append]

theorem dword_store32 (s : Core) (a : BitVec 32) (value : BitVec 32) : (s.store32 a value).byte a ++
    (s.store32 a value).byte (a + 1#32) ++ (s.store32 a value).byte (a + 2#32) ++
      (s.store32 a value).byte (a + 3#32) = value := by
  have hne : ∀ i j, i < 4 → j < 4 → i ≠ j →
      s.location (a + BitVec.ofNat 32 i) ≠ s.location (a + BitVec.ofNat 32 j) :=
    fun i j hi hj hij h ↦ hij ((location_add_eq_iff s a hi hj).mp h)
  have h01 := hne 0 1 (by decide) (by decide) (by decide)
  have h02 := hne 0 2 (by decide) (by decide) (by decide)
  have h03 := hne 0 3 (by decide) (by decide) (by decide)
  have h12 := hne 1 2 (by decide) (by decide) (by decide)
  have h13 := hne 1 3 (by decide) (by decide) (by decide)
  have h23 := hne 2 3 (by decide) (by decide) (by decide)
  rw [BitVec.add_zero] at h01 h02 h03
  simp only [store32, byte_poke, location_poke, if_neg h01, if_neg h02, if_neg h03, if_neg h12,
    if_neg h13, if_neg h23, if_true, dword_append]

end Memory

/-! ## The stacks -/

/-- The index of the stack pointer that the flags select. -/
def bank (sFlag mFlag : Bool) : ℕ :=
  let s := if sFlag then 4 else 0
  let m := if mFlag then 2 else 0
  s ||| (s >>> 1 &&& m)

/-- `m68ki_set_s_flag`. -/
def setSFlag (value : Bool) (s : Core) : Core :=
  let sp := update s.sp (bank s.sFlag s.mFlag) s.a7
  { s with sp := sp, sFlag := value, a7 := sp (bank value s.mFlag) }

/-- `m68ki_set_sm_flag`. -/
def setSmFlag (sFlag mFlag : Bool) (s : Core) : Core :=
  let sp := update s.sp (bank s.sFlag s.mFlag) s.a7
  { s with sp := sp, sFlag := sFlag, mFlag := mFlag, a7 := sp (bank sFlag mFlag) }

/-- A stack pointer, be it active or not. -/
def stack (s : Core) (i : ℕ) : BitVec 32 := if bank s.sFlag s.mFlag = i then s.a7 else s.sp i

section Stacks

variable (s : Core) (i : ℕ) (sFlag mFlag : Bool)

/-- A change of the flags keeps every stack pointer. -/
@[simp] theorem stack_setSmFlag : (s.setSmFlag sFlag mFlag).stack i = s.stack i := by
  rw [stack, stack]
  show (if bank sFlag mFlag = i then update s.sp (bank s.sFlag s.mFlag) s.a7 (bank sFlag mFlag) else
    update s.sp (bank s.sFlag s.mFlag) s.a7 i) = _
  by_cases h : bank sFlag mFlag = i
  · rw [if_pos h, h, update_apply]
    exact if_congr eq_comm rfl rfl
  · rw [if_neg h, update_apply]
    exact if_congr eq_comm rfl rfl

theorem setSFlag_eq (value : Bool) : s.setSFlag value = s.setSmFlag value s.mFlag := rfl

@[simp] theorem stack_setSFlag (value : Bool) : (s.setSFlag value).stack i = s.stack i := by
  rw [setSFlag_eq, stack_setSmFlag]

theorem stack_bank : s.stack (bank s.sFlag s.mFlag) = s.a7 := if_pos rfl

end Stacks

/-! ## The status register -/

def flag (b : Bool) (bits : BitVec 16) : BitVec 16 := if b then bits else 0#16

/-- `m68ki_get_ccr`. -/
def getCcr (s : Core) : BitVec 32 :=
  (s.xFlag &&& 0x100#32) >>> 4 ||| (s.nFlag &&& 0x80#32) >>> 4 |||
    (if s.notZFlag = 0#32 then 1#32 else 0#32) <<< 2 |||
    (s.vFlag &&& 0x80#32) >>> 6 ||| (s.cFlag &&& 0x100#32) >>> 8

/-- `m68ki_get_sr`. -/
def getSr (s : Core) : BitVec 16 :=
  flag s.t1Flag 0x8000#16 ||| flag s.t0Flag 0x4000#16 ||| flag s.sFlag 0x2000#16 |||
    flag s.mFlag 0x1000#16 ||| s.intMask.setWidth 16 <<< 8 ||| s.getCcr.setWidth 16

/-- `m68ki_set_ccr`. -/
def setCcr (value : BitVec 16) (s : Core) : Core :=
  let value := value.setWidth 32
  { s with
    xFlag := (value &&& 0x10#32) <<< 4
    nFlag := (value &&& 8#32) <<< 4
    notZFlag := if value &&& 4#32 = 0#32 then 1#32 else 0#32
    vFlag := (value &&& 2#32) <<< 6
    cFlag := (value &&& 1#32) <<< 8 }

/-- `m68ki_set_sr_noint`. -/
def setSrNoint (value : BitVec 16) (s : Core) : Core :=
  let value := value &&& s.cpuType.srMask
  (({ s with
    t1Flag := value.getLsbD 15
    t0Flag := value.getLsbD 14
    intMask := value.extractLsb' 8 3 } : Core).setCcr value).setSmFlag (value.getLsbD 13)
      (value.getLsbD 12)

section StatusRegister

variable (s : Core) (value : BitVec 16)

@[simp] theorem stack_setSrNoint (i : ℕ) : (s.setSrNoint value).stack i = s.stack i :=
  stack_setSmFlag _ _ _ _

theorem getLsbD_flag (b : Bool) (bits : BitVec 16) (i : ℕ) :
    (flag b bits).getLsbD i = (b && bits.getLsbD i) := by
  cases b <;> simp [flag]

theorem and_eq_ite {v bit : BitVec 32} (k : ℕ) (h : bit = twoPow 32 k) :
    v &&& bit = if v.getLsbD k then bit else 0#32 := by
  rw [h, and_twoPow]

theorem srMask_and (t : CpuType) : t.srMask &&& 0xf71f#16 = t.srMask := by
  cases t <;> decide

/-- The condition codes are five bits. -/
theorem getCcr_eq : s.getCcr.setWidth 16 = flag (s.xFlag.getLsbD 8) 0x10#16 |||
    flag (s.nFlag.getLsbD 7) 8#16 ||| flag (decide (s.notZFlag = 0#32)) 4#16 |||
    flag (s.vFlag.getLsbD 7) 2#16 ||| flag (s.cFlag.getLsbD 8) 1#16 := by
  have hbits : ∀ x n z v c : Bool, ((if x then 0x100#32 else 0#32) >>> 4 |||
      (if n then 0x80#32 else 0#32) >>> 4 ||| (if z then 1#32 else 0#32) <<< 2 |||
      (if v then 0x80#32 else 0#32) >>> 6 ||| (if c then 0x100#32 else 0#32) >>> 8).setWidth 16 =
        flag x 0x10#16 ||| flag n 8#16 ||| flag z 4#16 ||| flag v 2#16 ||| flag c 1#16 := by
    decide
  rw [getCcr, and_eq_ite 8 (by rfl), and_eq_ite 7 (by rfl), and_eq_ite 7 (by rfl),
    and_eq_ite 8 (by rfl), ← hbits]
  simp only [decide_eq_true_eq]

theorem getCcr_setCcr : (s.setCcr value).getCcr.setWidth 16 = value &&& 0x1f#16 := by
  have hbits : ∀ x n z v c : Bool, (((if x then 0x10#32 else 0#32) <<< 4 &&& 0x100#32) >>> 4 |||
      ((if n then 8#32 else 0#32) <<< 4 &&& 0x80#32) >>> 4 |||
      (if (if (if z then 4#32 else 0#32) = 0#32 then 1#32 else 0#32) = 0#32 then 1#32 else 0#32) <<<
      2 ||| ((if v then 2#32 else 0#32) <<< 6 &&& 0x80#32) >>> 6 |||
      ((if c then 1#32 else 0#32) <<< 8 &&& 0x100#32) >>> 8).setWidth 16 =
        flag x 0x10#16 ||| flag n 8#16 ||| flag z 4#16 ||| flag v 2#16 ||| flag c 1#16 := by
    decide
  rw [getCcr, setCcr]
  rw [and_eq_ite 4 (by rfl : 0x10#32 = _), and_eq_ite 3 (by rfl : 8#32 = _), and_eq_ite 2
    (by rfl : 4#32 = _), and_eq_ite 1 (by rfl : 2#32 = _), and_eq_ite 0 (by rfl : 1#32 = _), hbits]
  refine eq_of_getLsbD_eq fun i hi ↦ ?_
  simp only [getLsbD_or, getLsbD_and, getLsbD_flag, getLsbD_setWidth]
  interval_cases i <;> simp

/-- A status register that is set is read back, but for the bits that the model lacks. -/
theorem getSr_setSrNoint : (s.setSrNoint value).getSr = value &&& s.cpuType.srMask := by
  have hsr : ∀ v, v = value &&& s.cpuType.srMask → (s.setSrNoint value).getSr =
      flag (v.getLsbD 15) 0x8000#16 ||| flag (v.getLsbD 14) 0x4000#16 ||| flag (v.getLsbD 13)
        0x2000#16 ||| flag (v.getLsbD 12) 0x1000#16 ||| (v.extractLsb' 8 3).setWidth 16 <<< 8 |||
        (s.setCcr v).getCcr.setWidth 16 := by
    rintro v rfl
    rfl
  rw [hsr _ rfl, getCcr_setCcr, ← srMask_and, ← BitVec.and_assoc]
  generalize value &&& s.cpuType.srMask = v
  refine eq_of_getLsbD_eq fun i hi ↦ ?_
  simp only [getLsbD_or, getLsbD_and, getLsbD_flag, getLsbD_setWidth, getLsbD_shiftLeft,
    getLsbD_extractLsb']
  interval_cases i <;> simp

theorem getLsbD_getSr_master : s.getSr.getLsbD 12 = s.mFlag := by
  rw [getSr, getCcr_eq]
  simp only [getLsbD_or, getLsbD_flag, getLsbD_shiftLeft, getLsbD_setWidth]
  simp

theorem extract_getSr_intMask : s.getSr.extractLsb' 8 3 = s.intMask := by
  refine eq_of_getLsbD_eq fun i hi ↦ ?_
  rw [getSr, getCcr_eq, getLsbD_extractLsb']
  simp only [getLsbD_or, getLsbD_flag, getLsbD_setWidth, getLsbD_shiftLeft]
  interval_cases i <;> simp

end StatusRegister

end Core

end RoscoEmulator.M68k
