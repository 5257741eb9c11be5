import RoscoEmulator.M68k.Shifts

/-!
# Shifts do their steps

What a handler leaves in the register and the condition codes is what its count of steps leaves.
Where the shortcut of a handler ends, so does the operand: after as many steps as it has bits, ASR
has its sign everywhere and ASL has nothing, and the rotations start again. -/

namespace RoscoEmulator.M68k

open Nat BitVec OpSize ShiftOp

namespace Destination

variable (size : OpSize) (d : Destination)

def operand : BitVec size.bits := d.dst.setWidth size.bits

def x : Bool := d.xFlag.getLsbD 8

/-- A shift leaves its result in the low bits, all other bits as they were, and the flags. -/
structure Agrees (after : Destination) (r : Shifted size.bits) : Prop where
  value : after.operand size = r.value
  upper : ∀ i, size.bits ≤ i → after.dst.getLsbD i = d.dst.getLsbD i
  xFlag : after.xFlag.getLsbD 8 = r.x
  nFlag : after.nFlag.getLsbD 7 = r.value.msb
  zFlag : after.notZFlag = 0#32 ↔ r.value = 0#_
  vFlag : after.vFlag.getLsbD 7 = r.v
  cFlag : after.cFlag.getLsbD 8 = r.c

variable {size d}

theorem maskOutAbove_dst : size.maskOutAbove d.dst = (d.operand size).setWidth 32 :=
  size.maskOutAbove_eq d.dst

variable {k origShift i : ℕ} {r : Shifted size.bits} {c : BitVec 32}

theorem getLsbD_operand (hi : i < size.bits) :
    (size.maskOutAbove d.dst).getLsbD i = (d.operand size).getLsbD i := by
  rw [maskOutAbove_dst, getLsbD_setWidth, decide_eq_true (Nat.lt_of_lt_of_le hi size.bits_le),
    Bool.true_and]

theorem setWidth_eq_zero (value : BitVec size.bits) : value.setWidth 32 = 0#32 ↔ value = 0#_ := by
  constructor
  · intro h
    have hback := congrArg (setWidth size.bits) h
    rwa [setWidth_setWidth_of_le _ size.bits_le, setWidth_eq, setWidth_zero] at hback
  · intro h
    rw [h, setWidth_zero]

theorem maskOutAbove_eq_setWidth {y : BitVec 32} {v : BitVec size.bits}
    (h : ∀ i < size.bits, y.getLsbD i = v.getLsbD i) : size.maskOutAbove y = v.setWidth 32 := by
  refine eq_of_getLsbD_eq fun i hi ↦ ?_
  rw [getLsbD_maskOutAbove, getLsbD_setWidth, decide_eq_true hi, Bool.true_and]
  by_cases hbits : i < size.bits
  · rw [decide_eq_true hbits, Bool.true_and, h i hbits]
  · rw [decide_eq_false hbits, Bool.false_and, getLsbD_of_ge _ _ (Nat.le_of_not_lt hbits)]

theorem put_agrees {res x v : BitVec 32} (hres : res = r.value.setWidth 32) (hx : x.getLsbD 8 = r.x)
    (hv : v.getLsbD 7 = r.v) (hc : c.getLsbD 8 = r.c) :
    d.Agrees size (d.put size res x v c) r where
  value := by
    refine eq_of_getLsbD_eq fun i hi ↦ ?_
    rw [operand, put, getLsbD_setWidth, getLsbD_or, getLsbD_maskOutBelow, hres,
      getLsbD_setWidth, decide_eq_true hi, decide_eq_false (Nat.not_le_of_lt hi),
      decide_eq_true (Nat.lt_of_lt_of_le hi size.bits_le), Bool.true_and, Bool.false_and,
        Bool.false_or, Bool.true_and]
  upper i hi := by
    rw [put, getLsbD_or, getLsbD_maskOutBelow, hres, getLsbD_setWidth,
      getLsbD_of_ge r.value i hi, decide_eq_true hi, Bool.true_and, Bool.and_false, Bool.or_false]
  xFlag := hx
  nFlag := by
    rw [put, OpSize.getLsbD_nFlag, hres, setWidth_setWidth_of_le _ size.bits_le, setWidth_eq]
  zFlag := by rw [put, hres, setWidth_eq_zero]
  vFlag := hv
  cFlag := hc

theorem keep_agrees (hvalue : r.value = d.operand size) (hx : r.x = d.x) (hv : r.v = false)
    (hc : c.getLsbD 8 = r.c) :
    d.Agrees size (d.keep size c) r where
  value := hvalue.symm
  upper _ _ := rfl
  xFlag := hx.symm
  nFlag := by
    rw [keep, OpSize.getLsbD_nFlag, maskOutAbove_dst, setWidth_setWidth_of_le _ size.bits_le,
      setWidth_eq, hvalue]
  zFlag := by rw [keep, maskOutAbove_dst, setWidth_eq_zero, hvalue]
  vFlag := BitVec.getLsbD_zero.trans hv.symm
  cFlag := hc

theorem clear_agrees {x n v : BitVec 32} (hvalue : r.value = 0#_) (hx : x.getLsbD 8 = r.x)
    (hn : n.getLsbD 7 = false) (hv : v.getLsbD 7 = r.v) (hc : c.getLsbD 8 = r.c) :
    d.Agrees size ⟨size.maskOutBelow d.dst, x, n, 0#32, v, c⟩ r where
  value := by
    refine eq_of_getLsbD_eq fun i hi ↦ ?_
    rw [hvalue, operand, getLsbD_setWidth, getLsbD_maskOutBelow,
      decide_eq_false (Nat.not_le_of_lt hi), Bool.false_and, Bool.and_false, getLsbD_zero]
  upper i hi := by rw [getLsbD_maskOutBelow, decide_eq_true hi, Bool.true_and]
  xFlag := hx
  nFlag := by rw [hn, hvalue, msb_zero]
  zFlag := iff_of_true rfl hvalue
  vFlag := hv
  cFlag := hc

theorem fill_agrees (hvalue : r.value = allOnes _) (hx : r.x = true) (hv : r.v = false)
    (hc : r.c = true) :
    d.Agrees size ⟨size.fill d.dst, 0x100#32, 0x80#32, 0xffffffff#32, 0#32, 0x100#32⟩ r where
  value := by
    refine eq_of_getLsbD_eq fun i hi ↦ ?_
    rw [hvalue, operand, getLsbD_setWidth, decide_eq_true hi, getLsbD_allOnes, decide_eq_true hi,
      getLsbD_fill size _ (Nat.lt_of_lt_of_le hi size.bits_le), decide_eq_true hi]
    rfl
  upper i hi := by
    by_cases hlt : i < 32
    · rw [getLsbD_fill size _ hlt, decide_eq_false (Nat.not_lt_of_le hi), Bool.false_or]
    · rw [getLsbD_of_ge _ _ (Nat.le_of_not_lt hlt), getLsbD_of_ge _ _ (Nat.le_of_not_lt hlt)]
  xFlag := (by decide : (0x100#32).getLsbD 8 = true).trans hx.symm
  nFlag := by
    rw [hvalue, msb_allOnes size.bits_pos]
    exact (by decide : (0x80#32).getLsbD 7 = true)
  zFlag := by
    refine iff_of_false (by decide : 0xffffffff#32 ≠ 0#32) fun hzero ↦ ?_
    have hsign := congrArg BitVec.msb (hvalue.symm.trans hzero)
    rw [msb_allOnes size.bits_pos, msb_zero] at hsign
    exact Bool.false_ne_true hsign.symm
  vFlag := BitVec.getLsbD_zero.trans hv.symm
  cFlag := (by decide : (0x100#32).getLsbD 8 = true).trans hc.symm

/-! ## ASR -/

theorem getMsb_operand :
    size.getMsb (size.maskOutAbove d.dst) ≠ 0#32 ↔ (d.operand size).msb = true := by
  rw [getMsb_ne_zero, maskOutAbove_dst, setWidth_setWidth_of_le _ size.bits_le, setWidth_eq]

theorem asr_eq {shift : ℕ} (hshift : shift < 65) : (size.maskOutAbove d.dst >>> shift |||
    if size.getMsb (size.maskOutAbove d.dst) ≠ 0#32 then size.shiftMask shift
      else 0#32) = ((d.operand size).sshiftRight shift).setWidth 32 := by
  refine eq_of_getLsbD_eq fun i hi ↦ ?_
  have hmask : (if size.getMsb (size.maskOutAbove d.dst) ≠ 0#32
      then size.shiftMask shift else 0#32).getLsbD i =
      ((d.operand size).msb && (decide (i < size.bits) && decide (size.bits ≤ shift + i))) := by
    rcases Bool.eq_false_or_eq_true (d.operand size).msb with h | h
    · rw [if_pos (getMsb_operand.mpr h), getLsbD_shiftMask size hshift, h, Bool.true_and]
    · rw [if_neg (fun hmsb ↦ Bool.false_ne_true (h.symm.trans (getMsb_operand.mp hmsb))),
        getLsbD_zero, h, Bool.false_and]
  rw [getLsbD_or, getLsbD_ushiftRight, hmask, getLsbD_setWidth, getLsbD_sshiftRight,
    decide_eq_true hi, Bool.true_and]
  by_cases hbits : i < size.bits
  · by_cases hin : shift + i < size.bits
    · rw [getLsbD_operand hin, decide_eq_false (Nat.not_le_of_lt hin), if_pos hin,
        decide_eq_false (Nat.not_le_of_lt hbits), Bool.and_false, Bool.and_false, Bool.or_false,
        Bool.not_false, Bool.true_and]
    · rw [getLsbD_maskOutAbove, decide_eq_false hin, if_neg hin, decide_eq_true hbits,
        decide_eq_true (Nat.le_of_not_lt hin), decide_eq_false (Nat.not_le_of_lt hbits),
        Bool.false_and, Bool.false_or, Bool.and_true, Bool.and_true, Bool.not_false, Bool.true_and]
  · have hout : ¬shift + i < size.bits :=
      fun h ↦ hbits (Nat.lt_of_le_of_lt (Nat.le_add_left i shift) h)
    rw [getLsbD_maskOutAbove, decide_eq_false hout, decide_eq_false hbits,
      decide_eq_true (Nat.le_of_not_lt hbits), Bool.false_and, Bool.false_or, Bool.false_and,
      Bool.and_false, Bool.not_true, Bool.false_and]

theorem getLsbD_asr {w shift : ℕ} (value : BitVec w) (hpos : shift ≠ 0) (hle : shift ≤ w) :
    (value.sshiftRight (shift - 1)).getLsbD 0 = value.getLsbD (shift - 1) := by
  have hlt : shift - 1 + 0 < w := by omega
  rw [getLsbD_sshiftRight, if_pos hlt, decide_eq_false (by omega), Bool.not_false,
    Bool.true_and, Nat.add_zero]

variable {carry : BitVec 32 → ℕ → BitVec 32} {shift : ℕ}

theorem asrImmediate_agrees (hpos : shift ≠ 0) (hle : shift ≤ size.bits) (hcarry :
    (carry (size.maskOutAbove d.dst) shift).getLsbD 8 = (d.operand size).getLsbD (shift - 1)) :
    d.Agrees size (d.asrImmediate size carry shift)
      (ShiftOp.asr.shifted shift (d.operand size) d.x) := by
  have hsize := size.bits_le
  rw [shifted_asr, if_neg hpos, if_neg hpos, getLsbD_asr _ hpos hle]
  exact put_agrees (asr_eq (by omega)) hcarry rfl hcarry

theorem asrRegister_agrees (hlt : shift < 64) (hcarry : shift ≠ 0 → shift < size.bits →
      (carry (size.maskOutAbove d.dst) shift).getLsbD 8 = (d.operand size).getLsbD (shift - 1)) :
    d.Agrees size (d.asrRegister size carry shift)
    (ShiftOp.asr.shifted shift (d.operand size) d.x) := by
  by_cases hpos : shift ≠ 0
  · by_cases hin : shift < size.bits
    · rw [asrRegister, if_pos hpos, if_pos hin]
      exact asrImmediate_agrees hpos hin.le (hcarry hpos hin)
    · have hbit : ∀ {n i : ℕ}, i < size.bits → shift - 1 ≤ n →
          ((d.operand size).sshiftRight n).getLsbD i = (d.operand size).msb := fun hi hn ↦
        getLsbD_sshiftRight_of_le _ hi (by omega)
      rw [asrRegister, if_pos hpos, if_neg hin, shifted_asr, if_neg hpos, if_neg hpos]
      by_cases hmsb : (d.operand size).msb = true
      · rw [if_pos (getMsb_operand.mpr hmsb)]
        refine fill_agrees ?_ ?_ rfl ?_
        · refine eq_of_getLsbD_eq fun i hi ↦ ?_
          rw [hbit hi (sub_le shift 1), hmsb, getLsbD_allOnes, decide_eq_true hi]
        · rw [hbit size.bits_pos (Nat.le_refl _), hmsb]
        · rw [hbit size.bits_pos (Nat.le_refl _), hmsb]
      · rw [if_neg (fun h ↦ hmsb (getMsb_operand.mp h))]
        have hzero : (d.operand size).sshiftRight shift = 0#_ := by
          refine eq_of_getLsbD_eq fun i hi ↦ ?_
          rw [hbit hi (sub_le shift 1), Bool.eq_false_iff.mpr hmsb, getLsbD_zero]
        rw [hbit size.bits_pos (Nat.le_refl _), Bool.eq_false_iff.mpr hmsb, hzero]
        exact clear_agrees rfl rfl rfl rfl rfl
  · rw [asrRegister, if_neg hpos, shifted_asr, if_pos (not_not.mp hpos), if_pos (not_not.mp hpos)]
    refine keep_agrees ?_ rfl rfl rfl
    rw [not_not.mp hpos, sshiftRight_zero]

/-! ## ASL -/

theorem getLsbD_signs (hk : k < 65) (i : ℕ) :
    (size.maskOutAbove d.dst &&& size.shiftMask k).getLsbD i =
      (decide (size.bits ≤ k + i) && decide (i < size.bits) && (d.operand size).getLsbD i) := by
  rw [getLsbD_and, getLsbD_shiftMask size hk]
  by_cases hi : i < size.bits
  · rw [getLsbD_operand hi, decide_eq_true hi, Bool.true_and, Bool.and_true, Bool.and_comm]
  · rw [decide_eq_false hi, Bool.false_and, Bool.and_false, Bool.and_false, Bool.false_and]

theorem signs_eq_zero (hk : k < 65) : size.maskOutAbove d.dst &&& size.shiftMask k = 0#32 ↔
    ∀ i < size.bits, size.bits ≤ k + i → (d.operand size).getLsbD i = false := by
  constructor
  · intro h i hi hle
    have hbit := congrArg (getLsbD · i) h
    simpa only [getLsbD_signs hk, decide_eq_true hle, decide_eq_true hi, Bool.true_and,
      getLsbD_zero] using hbit
  · intro h
    refine eq_of_getLsbD_eq fun i _ ↦ ?_
    rw [getLsbD_signs hk, getLsbD_zero]
    by_cases hi : i < size.bits
    · by_cases hle : size.bits ≤ k + i
      · rw [h i hi hle, Bool.and_false]
      · rw [decide_eq_false hle, Bool.false_and, Bool.false_and]
    · rw [decide_eq_false hi, Bool.and_false, Bool.false_and]

theorem signs_eq_mask (hk : k < 65) : size.maskOutAbove d.dst &&& size.shiftMask k =
    size.shiftMask k ↔ ∀ i < size.bits, size.bits ≤ k + i → (d.operand size).getLsbD i = true := by
  constructor
  · intro h i hi hle
    have hbit := congrArg (getLsbD · i) h
    simpa only [getLsbD_signs hk, getLsbD_shiftMask size hk, decide_eq_true hle, decide_eq_true hi,
      Bool.true_and] using hbit
  · intro h
    refine eq_of_getLsbD_eq fun i _ ↦ ?_
    rw [getLsbD_signs hk, getLsbD_shiftMask size hk]
    by_cases hi : i < size.bits
    · by_cases hle : size.bits ≤ k + i
      · rw [h i hi hle, Bool.and_true, Bool.and_comm]
      · rw [decide_eq_false hle, Bool.false_and, Bool.false_and, Bool.and_false]
    · rw [decide_eq_false hi, Bool.and_false, Bool.false_and, Bool.false_and]

theorem signs_iff (hk : k < size.bits) :
    size.maskOutAbove d.dst &&& size.shiftMask (k + 1) = 0#32 ∨
        size.maskOutAbove d.dst &&& size.shiftMask (k + 1) = size.shiftMask (k + 1) ↔
      signChanges k (d.operand size) = false := by
  have hsize := size.bits_le
  rw [signs_eq_zero (by omega), signs_eq_mask (by omega), signChanges_eq_false_iff]
  have hmsb : ∀ j ≤ k,
      (d.operand size <<< j).msb = (d.operand size).getLsbD (size.bits - 1 - j) := fun j hj ↦ by
    rw [msb_eq_getLsbD_last, getLsbD_shiftLeft, decide_eq_true (by omega),
      decide_eq_false (by omega)]
    rfl
  constructor
  · rintro (h | h) j hj
    all_goals
      rw [hmsb j hj, msb_eq_getLsbD_last, h _ (by omega) (by omega), h _ (by omega) (by omega)]
  · intro h
    have hsame : ∀ i < size.bits, size.bits ≤ k + 1 + i →
        (d.operand size).getLsbD i = (d.operand size).msb := by
      intro i hi hle
      rw [← h (size.bits - 1 - i) (by omega), hmsb _ (by omega)]
      congr 1
      omega
    rcases Bool.eq_false_or_eq_true (d.operand size).msb with hsign | hsign
    · exact .inr fun i hi hle ↦ (hsame i hi hle).trans hsign
    · exact .inl fun i hi hle ↦ (hsame i hi hle).trans hsign

theorem signChanges_of_le (hk : size.bits ≤ k) :
    signChanges k (d.operand size) = false ↔ size.maskOutAbove d.dst = 0#32 := by
  rw [maskOutAbove_dst, setWidth_eq_zero, signChanges_eq_false_iff]
  constructor
  · intro h
    have hlast := h size.bits hk
    rw [shiftLeft_eq_zero (Nat.le_refl _), msb_zero] at hlast
    refine eq_of_getLsbD_eq fun i hi ↦ ?_
    have hbit := (h (size.bits - 1 - i) (by omega)).trans hlast.symm
    rw [msb_eq_getLsbD_last, getLsbD_shiftLeft, decide_eq_true (by omega), decide_eq_false
      (by omega), Bool.true_and, Bool.not_false, Bool.true_and, Nat.sub_sub_self (by omega)] at hbit
    rw [hbit, getLsbD_zero]
  · intro h j _
    rw [h, BitVec.zero_shiftLeft]

theorem getLsbD_vFlag {P : Prop} [Decidable P] {overflow : Bool} (h : P ↔ overflow = false) :
    (if P then 0#32 else 0x80#32).getLsbD 7 = overflow := by
  by_cases hP : P
  · rw [if_pos hP, h.mp hP, getLsbD_zero]
  · rw [if_neg hP, Bool.eq_true_of_not_eq_false (mt h.mpr hP)]
    decide

theorem asl_eq (shift : ℕ) : size.maskOutAbove (size.maskOutAbove d.dst <<< shift) =
    (d.operand size <<< shift).setWidth 32 := by
  refine maskOutAbove_eq_setWidth fun i hi ↦ ?_
  rw [getLsbD_shiftLeft, getLsbD_shiftLeft,
    getLsbD_operand (Nat.lt_of_le_of_lt (sub_le i shift) hi),
    decide_eq_true (Nat.lt_of_lt_of_le hi size.bits_le), decide_eq_true hi]

/-- The last bit that leaves on the left. -/
theorem msb_asl {w shift : ℕ} (value : BitVec w) (hpos : shift ≠ 0) (hle : shift ≤ w) :
    (value <<< (shift - 1)).msb = value.getLsbD (w - shift) := by
  rw [msb_eq_getLsbD_last, getLsbD_shiftLeft, decide_eq_true (by omega), decide_eq_false (by omega),
    Bool.true_and, Bool.not_false, Bool.true_and]
  congr 1
  omega

/-- The byte may be shifted by its size, and then no sign is left. -/
theorem aslImmediate_agrees {within : ℕ → Bool} (hpos : shift ≠ 0) (hle : shift ≤ size.bits)
    (hwithin : within shift = true ↔ shift < size.bits)
    (hcarry : (carry (size.maskOutAbove d.dst) shift).getLsbD 8 =
    (d.operand size).getLsbD (size.bits - shift)) : d.Agrees size
    (d.aslImmediate size carry within shift) (ShiftOp.asl.shifted shift (d.operand size) d.x) := by
  have hsize := size.bits_le
  rw [shifted_asl, if_neg hpos, if_neg hpos, msb_asl _ hpos hle]
  refine put_agrees (asl_eq shift) hcarry (getLsbD_vFlag ?_) hcarry
  by_cases hlt : shift < size.bits
  · rw [and_iff_left (hwithin.mpr hlt)]
    exact signs_iff hlt
  · rw [or_iff_left fun h ↦ hlt (hwithin.mp h.2), signChanges_of_le (Nat.le_of_not_lt hlt),
      maskOutAbove_dst, setWidth_eq_zero, ← maskOutAbove_dst, signs_eq_zero (by omega)]
    constructor
    · intro h
      refine eq_of_getLsbD_eq fun i hi ↦ ?_
      rw [h i hi (by omega), getLsbD_zero]
    · intro h i _ _
      rw [h, getLsbD_zero]

theorem aslRegister_agrees (hcarry : shift ≠ 0 → shift < size.bits →
      (carry (size.maskOutAbove d.dst) shift).getLsbD 8 =
      (d.operand size).getLsbD (size.bits - shift)) :
    d.Agrees size (d.aslRegister size carry shift)
    (ShiftOp.asl.shifted shift (d.operand size) d.x) := by
  rw [shifted_asl]
  by_cases hpos : shift ≠ 0
  · rw [aslRegister, if_pos hpos, if_neg hpos, if_neg hpos]
    by_cases hin : shift < size.bits
    · rw [if_pos hin, msb_asl _ hpos hin.le]
      exact put_agrees (asl_eq shift) (hcarry hpos hin) (getLsbD_vFlag (signs_iff hin))
        (hcarry hpos hin)
    · rw [if_neg hin]
      have hlast :
          ((if shift = size.bits then size.maskOutAbove d.dst &&& 1#32 else 0#32) <<< 8).getLsbD 8 =
          (d.operand size <<< (shift - 1)).msb := by
        by_cases heq : shift = size.bits
        · rw [if_pos heq, msb_asl _ hpos heq.le, heq, Nat.sub_self, ← getLsbD_operand size.bits_pos]
          simp
        · have hout : d.operand size <<< (shift - 1) = 0#_ := shiftLeft_eq_zero (by omega)
          rw [if_neg heq, hout, msb_zero]
          decide
      exact clear_agrees (shiftLeft_eq_zero (Nat.le_of_not_lt hin)) hlast (by decide)
        (getLsbD_vFlag (signChanges_of_le (Nat.le_of_not_lt hin)).symm) hlast
  · have hzero := not_not.mp hpos
    rw [aslRegister, if_neg hpos, if_pos hzero, if_pos hzero]
    refine keep_agrees ?_ rfl ?_ rfl
    · rw [hzero, BitVec.shiftLeft_zero]
    · rw [hzero]
      rfl

/-! ## ROR and ROL -/

theorem getLsbD_above :
    ∀ j, size.bits ≤ j → (size.maskOutAbove d.dst).getLsbD j = false := fun j hj ↦ by
  rw [getLsbD_maskOutAbove, decide_eq_false (Nat.not_lt_of_le hj), Bool.false_and]

theorem ror_eq {C : ℕ} (hC : C ≤ size.bits) :
    size.ror (size.maskOutAbove d.dst) C = ((d.operand size).rotateRight C).setWidth 32 := by
  refine maskOutAbove_eq_setWidth fun i hi ↦ ?_
  rw [getLsbD_shiftRight_or_shiftLeft getLsbD_above hC size.bits_le hi,
    getLsbD_operand (by split_ifs <;> omega), getLsbD_rotateRight_eq _ _ hi]
  congr 1
  rcases Nat.lt_or_eq_of_le hC with hlt | rfl
  · rw [mod_eq_of_lt hlt]
  · rw [mod_self]
    split_ifs <;> omega

theorem rol_eq {C : ℕ} (hC : C ≤ size.bits) :
    size.rol (size.maskOutAbove d.dst) C = ((d.operand size).rotateLeft C).setWidth 32 := by
  refine maskOutAbove_eq_setWidth fun i hi ↦ ?_
  rw [getLsbD_shiftLeft_or_shiftRight getLsbD_above hC size.bits_le hi,
    getLsbD_operand (by split_ifs <;> omega), getLsbD_rotateLeft_eq _ _ hi]
  congr 1
  rcases Nat.lt_or_eq_of_le hC with hlt | rfl
  · rw [mod_eq_of_lt hlt]
  · rw [mod_self]
    split_ifs <;> omega

theorem bits_gt_one : 1 < size.bits := by cases size <;> decide

theorem and_bits_sub_one (n : ℕ) : n &&& (size.bits - 1) = n % size.bits := by
  cases size with
  | b => exact and_two_pow_sub_one_eq_mod n 3
  | w => exact and_two_pow_sub_one_eq_mod n 4
  | l => exact and_two_pow_sub_one_eq_mod n 5

/-- What a rotation makes of the operand, and the bit that leaves it last. -/
structure Turns (size : OpSize) (op : ShiftOp) (rotate : BitVec 32 → ℕ → BitVec 32)
    (turned : BitVec size.bits → ℕ → BitVec size.bits) (out : BitVec size.bits → Bool) : Prop where
  shifted : ∀ n value x, op.shifted n value x =
    ⟨turned value n, x, false, if n = 0 then false else out (turned value n)⟩
  zero : ∀ value, turned value 0 = value
  turn : ∀ value n, turned value (n % size.bits) = turned value n
  eq : ∀ (d : Destination), ∀ C ≤ size.bits,
    rotate (size.maskOutAbove d.dst) C = (turned (d.operand size) C).setWidth 32

theorem turns_ror : Turns size .ror size.ror rotateRight BitVec.msb where
  shifted n value x := shifted_ror n value x bits_gt_one
  zero _ := rotateRight_zero _
  turn _ _ := rotateRight_mod_eq_rotateRight
  eq _ _ hC := ror_eq hC

theorem turns_rol : Turns size .rol size.rol rotateLeft (·.getLsbD 0) where
  shifted n value x := shifted_rol n value x bits_gt_one
  zero _ := rotateLeft_zero _
  turn _ _ := rotateLeft_mod_eq_rotateLeft
  eq _ _ hC := rol_eq hC

namespace Turns

variable {op : ShiftOp} {rotate : BitVec 32 → ℕ → BitVec 32}
    {turned : BitVec size.bits → ℕ → BitVec size.bits}
  {out : BitVec size.bits → Bool} (h : Turns size op rotate turned out)
include h

theorem put_agrees {C : ℕ} (hC : C ≤ size.bits) (hmod : C % size.bits = origShift % size.bits)
    (hpos : origShift ≠ 0) (hcarry : c.getLsbD 8 = out (turned (d.operand size) origShift)) :
    d.Agrees size (d.put size (rotate (size.maskOutAbove d.dst) C) d.xFlag 0#32 c)
      (op.shifted origShift (d.operand size) d.x) := by
  rw [h.shifted, if_neg hpos]
  refine Destination.put_agrees ?_ rfl rfl hcarry
  rw [h.eq d C hC, ← h.turn, hmod, h.turn]

theorem keep_agrees (hmod : origShift % size.bits = 0)
    (hcarry : c.getLsbD 8 = if origShift = 0 then false else out (d.operand size)) :
    d.Agrees size (d.keep size c) (op.shifted origShift (d.operand size) d.x) := by
  have hturned : turned (d.operand size) origShift = d.operand size := by
    rw [← h.turn, hmod, h.zero]
  rw [h.shifted, hturned]
  exact Destination.keep_agrees rfl rfl rfl hcarry

theorem rotateRegister_agrees (hcarry : ∀ shift < size.bits,
      (carry (size.maskOutAbove d.dst) shift).getLsbD 8 = out (turned (d.operand size) shift)) :
    d.Agrees size (d.rotateRegister size rotate carry origShift)
    (op.shifted origShift (d.operand size) d.x) := by
  by_cases hpos : origShift ≠ 0
  · have hlt := mod_lt origShift size.bits_pos
    rw [rotateRegister, if_pos hpos, and_bits_sub_one]
    exact h.put_agrees hlt.le (mod_mod _ _) hpos ((hcarry _ hlt).trans (by rw [h.turn]))
  · have hzero := not_not.mp hpos
    rw [rotateRegister, if_neg hpos]
    exact h.keep_agrees (by rw [hzero, zero_mod]) (by rw [if_pos hzero]; rfl)

end Turns

/-- ROL of a byte or a word does not write the register after whole turns. -/
theorem rolRegister_agrees (hcarry : ∀ shift < size.bits, shift ≠ 0 →
      (carry (size.maskOutAbove d.dst) shift).getLsbD 8 =
      (d.operand size).getLsbD (size.bits - shift)) :
    d.Agrees size (d.rolRegister size carry origShift)
      (ShiftOp.rol.shifted origShift (d.operand size) d.x) := by
  by_cases hpos : origShift ≠ 0
  · have hlt := mod_lt origShift size.bits_pos
    rw [rolRegister, if_pos hpos, and_bits_sub_one]
    by_cases hturn : origShift % size.bits ≠ 0
    · rw [if_pos hturn]
      refine turns_rol.put_agrees hlt.le (mod_mod _ _) hpos ?_
      rw [hcarry _ hlt hturn, getLsbD_rotateLeft_zero size.bits_pos, if_neg hturn]
    · rw [if_neg hturn]
      refine turns_rol.keep_agrees (not_not.mp hturn) ?_
      rw [if_neg hpos, ← getLsbD_operand size.bits_pos]
      simp
  · have hzero := not_not.mp hpos
    rw [rolRegister, if_neg hpos]
    exact turns_rol.keep_agrees (by rw [hzero, zero_mod]) (by rw [if_pos hzero]; rfl)

/-! ## ROXR and ROXL -/

theorem getLsbD_extend (i : ℕ) :
    (d.extend size).getLsbD i = (BitVec.cons d.x (d.operand size)).getLsbD i := by
  have hwide := size.bits_lt_wide
  rw [extend, getLsbD_or, getLsbD_shiftLeft, getLsbD_setWidth, getLsbD_setWidth,
    getLsbD_cons, getLsbD_maskOutAbove]
  rcases Nat.lt_trichotomy i size.bits with h | rfl | h
  · rw [if_neg h.ne, decide_eq_true h, decide_eq_true (h.trans hwide), ← getLsbD_operand h,
      getLsbD_maskOutAbove, decide_eq_true h]
    simp
  · rw [if_pos rfl, decide_eq_false (Nat.lt_irrefl _), decide_eq_true hwide, Nat.sub_self,
      decide_eq_true (zero_lt_of_lt hwide)]
    simp [x]
  · rw [if_neg h.ne', decide_eq_false (Nat.lt_asymm h), getLsbD_of_ge _ _ h.le]
    have hone : ((d.xFlag >>> 8) &&& 1#32).getLsbD (i - size.bits) = false := by
      rw [getLsbD_and, getLsbD_one, decide_eq_false (by omega : ¬i - size.bits = 0), Bool.and_false,
        Bool.and_false]
    rw [hone]
    simp

/-- Of a rotated word the operand is below and X above. -/
theorem extended_put_agrees {res : BitVec size.wide} {u : BitVec (size.bits + 1)}
    (hres : ∀ i < size.bits + 1, res.getLsbD i = u.getLsbD i)
    (hc : c.getLsbD 8 = res.getLsbD size.bits) : d.Agrees size
    (d.put size (size.maskOutAbove (res.setWidth 32)) c 0#32 c) (ShiftOp.extended u false) := by
  have hmsb : c.getLsbD 8 = u.msb := by
    rw [hc, hres _ (lt_succ_self _), msb_eq_getLsbD_last, Nat.add_sub_cancel]
  refine put_agrees (maskOutAbove_eq_setWidth fun i hi ↦ ?_) hmsb rfl hmsb
  rw [ShiftOp.extended, getLsbD_setWidth, getLsbD_setWidth, decide_eq_true hi,
    decide_eq_true (Nat.lt_of_lt_of_le hi size.bits_le), hres i (lt_succ_of_lt hi)]

theorem getLsbD_rorX {C : ℕ} (hC : C ≤ size.bits) (hi : i < size.bits + 1) :
    (size.rorX (d.extend size) C).getLsbD i =
      ((BitVec.cons d.x (d.operand size)).rotateRight C).getLsbD i := by
  rw [rorX, getLsbD_shiftRight_or_shiftLeft (fun j hj ↦
    (getLsbD_extend j).trans (getLsbD_of_ge _ _ hj)) (le_succ_of_le hC) size.bits_lt_wide hi,
    getLsbD_rotateRight_eq _ _ hi, mod_eq_of_lt (lt_succ_of_le hC), getLsbD_extend]

theorem getLsbD_rolX {C : ℕ} (hC : C ≤ size.bits) (hi : i < size.bits + 1) :
    (size.rolX (d.extend size) C).getLsbD i =
      ((BitVec.cons d.x (d.operand size)).rotateLeft C).getLsbD i := by
  rw [rolX, getLsbD_shiftLeft_or_shiftRight (fun j hj ↦
    (getLsbD_extend j).trans (getLsbD_of_ge _ _ hj)) (le_succ_of_le hC) size.bits_lt_wide hi,
    getLsbD_rotateLeft_eq _ _ hi, mod_eq_of_lt (lt_succ_of_le hC), getLsbD_extend]

/-- What a rotation through X makes of its word. -/
structure Rotates (size : OpSize) (op : ShiftOp) (rotate : BitVec size.wide → ℕ → BitVec size.wide)
    (turned : BitVec (size.bits + 1) → ℕ → BitVec (size.bits + 1)) : Prop where
  shifted :
    ∀ n value x, op.shifted n value x = ShiftOp.extended (turned (BitVec.cons x value) n) false
  zero : ∀ x, turned x 0 = x
  turn : ∀ x n, turned x (n % (size.bits + 1)) = turned x n
  bit : ∀ (d : Destination), ∀ C ≤ size.bits, ∀ i < size.bits + 1,
    (rotate (d.extend size) C).getLsbD i = (turned (BitVec.cons d.x (d.operand size)) C).getLsbD i

theorem rotates_roxr : Rotates size .roxr size.rorX rotateRight where
  shifted n value x := shifted_roxr n value x size.bits_pos
  zero _ := rotateRight_zero _
  turn _ _ := rotateRight_mod_eq_rotateRight
  bit _ _ hC _ hi := getLsbD_rorX hC hi

theorem rotates_roxl : Rotates size .roxl size.rolX rotateLeft where
  shifted n value x := shifted_roxl n value x size.bits_pos
  zero _ := rotateLeft_zero _
  turn _ _ := rotateLeft_mod_eq_rotateLeft
  bit _ _ hC _ hi := getLsbD_rolX hC hi

section Rox

variable {op : ShiftOp} {rotate : BitVec size.wide → ℕ → BitVec size.wide}
  {turned : BitVec (size.bits + 1) → ℕ →
  BitVec (size.bits + 1)} {high : BitVec size.wide → BitVec 32}

theorem roxImmediate_agrees (h : Rotates size op rotate turned)
    (hhigh : ∀ res, (high res).getLsbD 8 = res.getLsbD size.bits) (hle : shift ≤ size.bits) :
    d.Agrees size (d.roxImmediate size rotate high shift)
      (op.shifted shift (d.operand size) d.x) := by
  rw [h.shifted]
  exact extended_put_agrees (h.bit d shift hle) (hhigh _)

theorem roxRegister_agrees (h : Rotates size op rotate turned)
    (hhigh : ∀ res, (high res).getLsbD 8 = res.getLsbD size.bits) (origShift : ℕ) : d.Agrees size
    (d.roxRegister size rotate high origShift) (op.shifted origShift (d.operand size) d.x) := by
  by_cases hpos : origShift ≠ 0
  · have hlt := mod_lt origShift (succ_pos size.bits)
    rw [roxRegister, if_pos hpos, h.shifted, ← h.turn]
    exact extended_put_agrees (h.bit d _ (le_of_lt_succ hlt)) (hhigh _)
  · have hzero := not_not.mp hpos
    rw [roxRegister, if_neg hpos, hzero, h.shifted, h.zero, extended_cons]
    constructor
    · rfl
    · exact fun _ _ ↦ rfl
    · rfl
    · exact OpSize.getLsbD_nFlag size d.dst
    · rw [maskOutAbove_dst, setWidth_eq_zero]
    · exact getLsbD_zero
    · rfl

end Rox

/-! ## Carries -/

variable (src : BitVec 32) {C : ℕ}

theorem carry_shiftLeft (hC : C ≤ 8) : (src <<< C).getLsbD 8 = src.getLsbD (8 - C) := by
  rw [getLsbD_shiftLeft, decide_eq_false (Nat.not_lt_of_le hC)]
  rfl

theorem carry_shiftRight : (src >>> C).getLsbD 8 = src.getLsbD (C + 8) := getLsbD_ushiftRight ..

theorem carry_shiftRight_shiftLeft : (src >>> C <<< 8).getLsbD 8 = src.getLsbD C := by
  rw [carry_shiftLeft _ (Nat.le_refl 8), getLsbD_ushiftRight]
  rfl

theorem carry_shiftLeft_shiftRight (hC : C ≤ 16) :
    (src <<< C >>> 8).getLsbD 8 = src.getLsbD (16 - C) := by
  rw [getLsbD_ushiftRight, getLsbD_shiftLeft, decide_eq_false (Nat.not_lt_of_le hC)]
  rfl

theorem carry_eq {c : Bool} {j : ℕ} (h : c = (size.maskOutAbove d.dst).getLsbD i)
    (hj : j < size.bits) (hij : i = j) : c = (d.operand size).getLsbD j := by
  rw [h, hij, getLsbD_operand hj]

end Destination

/-! ## The handlers -/

/-- Where the count of a shift is. -/
inductive ShiftForm
  | immediate | register
deriving DecidableEq, Repr

namespace Processor

def shiftCount (s : Processor) : ShiftForm → ℕ
  | .immediate => s.immediateCount
  | .register => s.registerCount

variable (s : Processor)

theorem immediateCount_pos : s.immediateCount ≠ 0 ∧ s.immediateCount ≤ 8 := by
  have hlt : ((s.ir.setWidth 32 >>> 9) - 1#32 &&& 7#32).toNat < 8 := by
    rw [toNat_and]
    exact Nat.lt_of_le_of_lt and_le_right (by decide)
  rw [immediateCount, toNat_add, toNat_ofNat]
  omega

theorem registerCount_lt : s.registerCount < 64 := by
  rw [registerCount, toNat_and]
  exact Nat.lt_of_le_of_lt and_le_right (by decide)

theorem before_eq {shift : ℕ} (hlt : shift < 2 ^ 32) :
    before shift = if shift = 0 then 2 ^ 32 - 1 else shift - 1 := by
  rw [before, toNat_sub, toNat_ofNat, toNat_ofNat]
  split_ifs <;> omega

end Processor

namespace ShiftOp

open Processor

/-- The handler of an instruction. -/
def handler : ShiftOp → OpSize → ShiftForm → Processor → Processor
  | asr, .b, .immediate => xe000AsrB
  | asr, .w, .immediate => xe040AsrW
  | asr, .l, .immediate => xe080AsrL
  | asr, .b, .register => xe020AsrB
  | asr, .w, .register => xe060AsrW
  | asr, .l, .register => xe0a0AsrL
  | asl, .b, .immediate => xe100AslB
  | asl, .w, .immediate => xe140AslW
  | asl, .l, .immediate => xe180AslL
  | asl, .b, .register => xe120AslB
  | asl, .w, .register => xe160AslW
  | asl, .l, .register => xe1a0AslL
  | ror, .b, .immediate => xe018RorB
  | ror, .w, .immediate => xe058RorW
  | ror, .l, .immediate => xe098RorL
  | ror, .b, .register => xe038RorB
  | ror, .w, .register => xe078RorW
  | ror, .l, .register => xe0b8RorL
  | rol, .b, .immediate => xe118RolB
  | rol, .w, .immediate => xe158RolW
  | rol, .l, .immediate => xe198RolL
  | rol, .b, .register => xe138RolB
  | rol, .w, .register => xe178RolW
  | rol, .l, .register => xe1b8RolL
  | roxr, .b, .immediate => xe010RoxrB
  | roxr, .w, .immediate => xe050RoxrW
  | roxr, .l, .immediate => xe090RoxrL
  | roxr, .b, .register => xe030RoxrB
  | roxr, .w, .register => xe070RoxrW
  | roxr, .l, .register => xe0b0RoxrL
  | roxl, .b, .immediate => xe110RoxlB
  | roxl, .w, .immediate => xe150RoxlW
  | roxl, .l, .immediate => xe190RoxlL
  | roxl, .b, .register => xe130RoxlB
  | roxl, .w, .register => xe170RoxlW
  | roxl, .l, .register => xe1b0RoxlL

/-- The handler does the steps of its count to DY, and to the rest of the processor nothing. -/
structure Performs (op : ShiftOp) (size : OpSize) (n : ℕ) (s s' : Processor) : Prop where
  stores : s' = s.store s'.destination
  agrees : s.destination.Agrees size s'.destination
    (op.shifted n (s.destination.operand size) s.destination.x)

theorem dy_store (s : Processor) (d : Destination) : (s.store d).dy = s.dy := by
  have hir : (s.setDa s.dy d.dst).ir = s.ir := by
    rw [setDa]
    split <;> rfl
  exact congrArg (fun ir ↦ dReg (ir.extractLsb' 0 3)) hir

theorem destination_store (s : Processor) (d : Destination) : (s.store d).destination = d := by
  have hdst : (s.store d).da (s.store d).dy = d.dst := by
    rw [dy_store]
    exact da_setDa_self s.dy d.dst s
  exact Destination.ext hdst rfl rfl rfl rfl rfl

variable {op : ShiftOp} {size : OpSize} {form : ShiftForm} {s : Processor}

variable {d : Destination} {n : ℕ}

theorem performs_store
    (h : s.destination.Agrees size d (op.shifted n (s.destination.operand size) s.destination.x)) :
    op.Performs size n s (s.store d) where
  stores := by rw [destination_store]
  agrees := by rwa [destination_store]

theorem performs_immediate {f : ℕ → Destination → Destination} (h : ∀ (d : Destination) n, n ≠ 0 →
    n ≤ 8 → d.Agrees size (f n d) (op.shifted n (d.operand size) d.x)) :
    op.Performs size s.immediateCount s (s.byImmediate f) :=
  performs_store (h s.destination _ s.immediateCount_pos.1 s.immediateCount_pos.2)

theorem performs_register {f : ℕ → Destination → Destination}
    (h : ∀ (d : Destination), ∀ n < 64, d.Agrees size (f n d) (op.shifted n (d.operand size) d.x)) :
    op.Performs size s.registerCount s (s.byRegister f) :=
  performs_store (h s.destination _ s.registerCount_lt)

open Destination

/-! Each member of a family has the carry that its operation asks for. -/

theorem bits_eq : OpSize.b.bits = 8 ∧ OpSize.w.bits = 16 ∧ OpSize.l.bits = 32 := ⟨rfl, rfl, rfl⟩

theorem asr_performs : asr.Performs size (s.shiftCount form) s (asr.handler size form s) := by
  have hbits := bits_eq
  cases form with
  | immediate =>
    cases size with
    | b | w | l =>
      refine performs_immediate fun d n hpos hle ↦ asrImmediate_agrees hpos (by omega) ?_
      exact carry_eq (carry_shiftLeft _ (by omega)) (by omega) (by omega)
  | register =>
    cases size with
    | b =>
      refine performs_register fun d n hn ↦ asrRegister_agrees hn fun hpos hlt ↦ ?_
      exact carry_eq (carry_shiftLeft _ (by omega)) (by omega) (by omega)
    | w | l =>
      refine performs_register fun d n hn ↦ asrRegister_agrees hn fun hpos hlt ↦ ?_
      exact carry_eq (carry_shiftRight_shiftLeft _) (by omega) rfl

theorem asl_performs : asl.Performs size (s.shiftCount form) s (asl.handler size form s) := by
  have hbits := bits_eq
  cases form with
  | immediate =>
    cases size with
    | b =>
      refine performs_immediate fun d n hpos hle ↦
        aslImmediate_agrees hpos hle decide_eq_true_iff ?_
      exact carry_eq (carry_shiftLeft _ hle) (by omega) (by omega)
    | w | l =>
      refine performs_immediate fun d n hpos hle ↦
        aslImmediate_agrees hpos (by omega) (iff_of_true rfl (by omega)) ?_
      exact carry_eq (carry_shiftRight _) (by omega) (by omega)
  | register =>
    cases size with
    | b =>
      refine performs_register fun d n _ ↦ aslRegister_agrees fun hpos hlt ↦ ?_
      exact carry_eq (carry_shiftLeft _ (by omega)) (by omega) (by omega)
    | w =>
      refine performs_register fun d n _ ↦ aslRegister_agrees fun hpos hlt ↦ ?_
      exact carry_eq (carry_shiftLeft_shiftRight _ (by omega)) (by omega) (by omega)
    | l =>
      refine performs_register fun d n _ ↦ aslRegister_agrees fun hpos hlt ↦ ?_
      exact carry_eq (carry_shiftRight_shiftLeft _) (by omega) (by omega)

theorem ror_carry (hpos : n ≠ 0) (hle : n ≤ 8) :
    (size.maskOutAbove d.dst <<< (9 - n)).getLsbD 8 = ((d.operand size).rotateRight n).msb := by
  have hsize : 8 ≤ size.bits := by cases size <;> decide
  rw [getLsbD_rotateRight_msb size.bits_pos]
  refine carry_eq (carry_shiftLeft _ (by omega)) ?_ ?_
  · have := mod_lt n size.bits_pos
    split_ifs <;> omega
  · rcases Nat.lt_or_eq_of_le (hle.trans hsize) with hlt | heq
    · rw [mod_eq_of_lt hlt, if_neg hpos]
      omega
    · rw [heq, mod_self, if_pos rfl]
      omega

theorem ror_turn {shift : ℕ} (hlt : shift < size.bits) :
    before shift &&& (size.bits - 1) = if shift = 0 then size.bits - 1 else shift - 1 := by
  have hsize := size.bits_le
  rw [before_eq (by omega), and_bits_sub_one]
  split_ifs
  · cases size <;> rfl
  · exact mod_eq_of_lt (by omega)

theorem ror_register_carry {c : Bool} {shift : ℕ} (hlt : shift < size.bits)
    (hc : c = (size.maskOutAbove d.dst).getLsbD (before shift &&& (size.bits - 1))) :
    c = ((d.operand size).rotateRight shift).msb := by
  rw [getLsbD_rotateRight_msb size.bits_pos, mod_eq_of_lt hlt]
  refine carry_eq hc ?_ (ror_turn hlt)
  split_ifs <;> omega

theorem ror_performs : ror.Performs size (s.shiftCount form) s (ror.handler size form s) := by
  cases size with
  | b =>
    cases form with
    | immediate =>
      refine performs_immediate fun d n hpos hle ↦
        turns_ror.put_agrees ?_ ?_ hpos (ror_carry hpos hle)
      · exact Nat.and_le_right.trans (by decide)
      · exact (congrArg (· % 8) (and_two_pow_sub_one_eq_mod n 3)).trans (mod_mod n 8)
    | register =>
      refine performs_register fun d n _ ↦ turns_ror.rotateRegister_agrees fun shift hlt ↦ ?_
      refine ror_register_carry hlt ((carry_shiftLeft _ (sub_le _ _)).trans ?_)
      exact congrArg _ (Nat.sub_sub_self (Nat.and_le_right.trans (by decide)))
  | w | l =>
    cases form with
    | immediate =>
      exact performs_immediate fun d n hpos hle ↦
        turns_ror.put_agrees (hle.trans (by decide)) rfl hpos (ror_carry hpos hle)
    | register =>
      exact performs_register fun d n _ ↦ turns_ror.rotateRegister_agrees fun shift hlt ↦
        ror_register_carry hlt (carry_shiftRight_shiftLeft _)

theorem rol_carry {c : Bool} (hpos : n ≠ 0) (hle : n ≤ size.bits)
    (hc : c = (size.maskOutAbove d.dst).getLsbD (size.bits - n)) :
    c = ((d.operand size).rotateLeft n).getLsbD 0 := by
  have hsize := size.bits_pos
  rw [getLsbD_rotateLeft_zero hsize]
  refine carry_eq hc ?_ ?_
  · split_ifs <;> omega
  · rcases Nat.lt_or_eq_of_le hle with hlt | heq
    · rw [mod_eq_of_lt hlt, if_neg hpos]
    · rw [heq, mod_self, if_pos rfl, Nat.sub_self]

theorem rol_performs : rol.Performs size (s.shiftCount form) s (rol.handler size form s) := by
  have hbits := bits_eq
  cases form with
  | immediate =>
    cases size with
    | b =>
      refine performs_immediate fun d n hpos hle ↦
        turns_rol.put_agrees ?_ ?_ hpos (rol_carry hpos hle (carry_shiftLeft _ hle))
      · exact Nat.and_le_right.trans (by decide)
      · exact (congrArg (· % 8) (and_two_pow_sub_one_eq_mod n 3)).trans (mod_mod n 8)
    | w | l =>
      refine performs_immediate fun d n hpos hle ↦
        turns_rol.put_agrees (hle.trans (by decide)) rfl hpos ?_
      refine rol_carry hpos (hle.trans (by decide)) ((carry_shiftRight _).trans ?_)
      congr 1
      omega
  | register =>
    cases size with
    | b =>
      refine performs_register fun d n _ ↦ rolRegister_agrees fun shift hlt hpos ↦ ?_
      exact carry_eq (carry_shiftLeft _ (by omega)) (by omega) (by omega)
    | w =>
      refine performs_register fun d n _ ↦ rolRegister_agrees fun shift hlt hpos ↦ ?_
      exact carry_eq (carry_shiftLeft_shiftRight _ (by omega)) (by omega) (by omega)
    | l =>
      refine performs_register fun d n _ ↦ turns_rol.rotateRegister_agrees fun shift hlt ↦ ?_
      rw [getLsbD_rotateLeft_zero (by decide), mod_eq_of_lt hlt]
      refine carry_eq (carry_shiftRight_shiftLeft _) ?_ ?_
      · split_ifs <;> omega
      · rw [and_two_pow_sub_one_eq_mod _ 5]
        split_ifs <;> omega

theorem high_eq (res : BitVec OpSize.l.wide) :
    ((res >>> 24).setWidth 32).getLsbD 8 = res.getLsbD OpSize.l.bits := by
  rw [getLsbD_setWidth, getLsbD_ushiftRight]
  rfl

theorem roxr_performs : roxr.Performs size (s.shiftCount form) s (roxr.handler size form s) := by
  cases form with
  | immediate =>
    cases size with
    | b =>
      exact performs_immediate fun d n _ hle ↦ roxImmediate_agrees rotates_roxr (fun _ ↦ rfl) hle
    | w =>
      exact performs_immediate fun d n _ hle ↦
        roxImmediate_agrees rotates_roxr (fun _ ↦ carry_shiftRight _) (hle.trans (by decide))
    | l =>
      exact performs_immediate fun d n _ hle ↦
        roxImmediate_agrees rotates_roxr high_eq (hle.trans (by decide))
  | register =>
    cases size with
    | b => exact performs_register fun d n _ ↦ roxRegister_agrees rotates_roxr (fun _ ↦ rfl) n
    | w =>
      exact performs_register fun d n _ ↦
        roxRegister_agrees rotates_roxr (fun _ ↦ carry_shiftRight _) n
    | l => exact performs_register fun d n _ ↦ roxRegister_agrees rotates_roxr high_eq n

theorem roxl_performs : roxl.Performs size (s.shiftCount form) s (roxl.handler size form s) := by
  cases form with
  | immediate =>
    cases size with
    | b =>
      exact performs_immediate fun d n _ hle ↦ roxImmediate_agrees rotates_roxl (fun _ ↦ rfl) hle
    | w =>
      exact performs_immediate fun d n _ hle ↦
        roxImmediate_agrees rotates_roxl (fun _ ↦ carry_shiftRight _) (hle.trans (by decide))
    | l =>
      exact performs_immediate fun d n _ hle ↦
        roxImmediate_agrees rotates_roxl high_eq (hle.trans (by decide))
  | register =>
    cases size with
    | b => exact performs_register fun d n _ ↦ roxRegister_agrees rotates_roxl (fun _ ↦ rfl) n
    | w =>
      exact performs_register fun d n _ ↦
        roxRegister_agrees rotates_roxl (fun _ ↦ carry_shiftRight _) n
    | l => exact performs_register fun d n _ ↦ roxRegister_agrees rotates_roxl high_eq n

/-- Every shift and rotation of a data register, of every size and form, does as many steps as its
count says. -/
theorem handler_performs (op : ShiftOp) (size : OpSize) (form : ShiftForm) (s : Processor) :
    op.Performs size (s.shiftCount form) s (op.handler size form s) := by
  cases op with
  | asr => exact asr_performs
  | asl => exact asl_performs
  | ror => exact ror_performs
  | rol => exact rol_performs
  | roxr => exact roxr_performs
  | roxl => exact roxl_performs

end ShiftOp

end RoscoEmulator.M68k
