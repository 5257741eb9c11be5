import RoscoEmulator.M68k.Registers
import RoscoEmulator.M68k.ShiftSteps

/-!
# The shift instructions

ASR, ASL, ROR, ROL, ROXR and ROXL of a data register, by a count in the instruction or in another
data register. The handlers take the carry from a shifted operand and the overflow of ASL from a
table of masks, and each has its own shortcut for counts from the size of the operand on. They do
what as many steps by one bit do. -/

namespace RoscoEmulator.M68k

open BitVec

/-- The sizes of an operand. -/
inductive OpSize
  | b | w | l
deriving DecidableEq, Repr

namespace OpSize

def bits : OpSize → ℕ
  | b => 8
  | w => 16
  | l => 32

/-- The words that the rotations through X work on. -/
def wide : OpSize → ℕ
  | b | w => 32
  | l => 64

/-- `MASK_OUT_ABOVE_8` and its like. -/
def maskOutAbove : OpSize → BitVec 32 → BitVec 32
  | b, a => a &&& 0xff#32
  | w, a => a &&& 0xffff#32
  | l, a => a

/-- `MASK_OUT_BELOW_8` and its like. A double word replaces all of the register. -/
def maskOutBelow : OpSize → BitVec 32 → BitVec 32
  | b, a => a &&& ~~~0xff#32
  | w, a => a &&& ~~~0xffff#32
  | l, _ => 0#32

/-- The register with ones for the operand. -/
def fill : OpSize → BitVec 32 → BitVec 32
  | b, a => a ||| 0xff#32
  | w, a => a ||| 0xffff#32
  | l, _ => 0xffffffff#32

/-- `GET_MSB_8` and its like. -/
def getMsb : OpSize → BitVec 32 → BitVec 32
  | b, a => a &&& 0x80#32
  | w, a => a &&& 0x8000#32
  | l, a => a &&& 0x80000000#32

/-- `NFLAG_8` and its like. -/
def nFlag : OpSize → BitVec 32 → BitVec 32
  | b, a => a
  | w, a => a >>> 8
  | l, a => a >>> 24

/-- `m68ki_shift_8_table` and its like. -/
def shiftTable : OpSize → List (BitVec 32)
  | b =>
    [0x00#32, 0x80#32, 0xc0#32, 0xe0#32, 0xf0#32, 0xf8#32, 0xfc#32, 0xfe#32] ++
      List.replicate 57 0xff#32
  | w =>
    [0x0000#32, 0x8000#32, 0xc000#32, 0xe000#32, 0xf000#32, 0xf800#32, 0xfc00#32, 0xfe00#32,
      0xff00#32, 0xff80#32,
      0xffc0#32, 0xffe0#32, 0xfff0#32, 0xfff8#32, 0xfffc#32, 0xfffe#32] ++
      List.replicate 49 0xffff#32
  | l =>
    [0x00000000#32, 0x80000000#32, 0xc0000000#32, 0xe0000000#32, 0xf0000000#32, 0xf8000000#32,
      0xfc000000#32,
      0xfe000000#32, 0xff000000#32, 0xff800000#32, 0xffc00000#32, 0xffe00000#32, 0xfff00000#32,
      0xfff80000#32,
      0xfffc0000#32, 0xfffe0000#32, 0xffff0000#32, 0xffff8000#32, 0xffffc000#32, 0xffffe000#32,
      0xfffff000#32,
      0xfffff800#32, 0xfffffc00#32, 0xfffffe00#32, 0xffffff00#32, 0xffffff80#32, 0xffffffc0#32,
      0xffffffe0#32,
      0xfffffff0#32, 0xfffffff8#32, 0xfffffffc#32, 0xfffffffe#32] ++ List.replicate 33 0xffffffff#32

def shiftMask (size : OpSize) (k : ℕ) : BitVec 32 := size.shiftTable.getD k 0#32

variable (size : OpSize) (a : BitVec 32)

theorem bits_pos : 0 < size.bits := by cases size <;> decide

theorem bits_le : size.bits ≤ 32 := by cases size <;> decide

theorem bits_lt_wide : size.bits < size.wide := by cases size <;> decide

/-! ### Bits -/

theorem maskOutAbove_eq : size.maskOutAbove a = (a.setWidth size.bits).setWidth 32 := by
  cases size with
  | l => exact (setWidth_eq _).symm.trans (setWidth_eq _).symm
  | b =>
    refine eq_of_getLsbD_eq fun i hi ↦ ?_
    have hmask : 0xff#32 = (allOnes 8).setWidth 32 := by decide
    simp only [maskOutAbove, hmask, bits, getLsbD_and, getLsbD_setWidth, getLsbD_allOnes, hi,
      decide_true, Bool.true_and, Bool.and_comm]
  | w =>
    refine eq_of_getLsbD_eq fun i hi ↦ ?_
    have hmask : 0xffff#32 = (allOnes 16).setWidth 32 := by decide
    simp only [maskOutAbove, hmask, bits, getLsbD_and, getLsbD_setWidth, getLsbD_allOnes, hi,
      decide_true, Bool.true_and, Bool.and_comm]

theorem getLsbD_maskOutAbove (i : ℕ) :
    (size.maskOutAbove a).getLsbD i = (decide (i < size.bits) && a.getLsbD i) := by
  rw [maskOutAbove_eq, getLsbD_setWidth, getLsbD_setWidth]
  by_cases h : i < size.bits
  · rw [decide_eq_true (Nat.lt_of_lt_of_le h size.bits_le), Bool.true_and]
  · rw [decide_eq_false h, Bool.false_and, Bool.and_false]

theorem maskOutBelow_eq : size.maskOutBelow a = a &&& ~~~size.maskOutAbove (allOnes 32) := by
  cases size with
  | b => rfl
  | w => rfl
  | l => exact (and_zero (x := a)).symm

theorem getLsbD_maskOutBelow (i : ℕ) :
    (size.maskOutBelow a).getLsbD i = (decide (size.bits ≤ i) && a.getLsbD i) := by
  rw [maskOutBelow_eq, getLsbD_and, getLsbD_not, getLsbD_maskOutAbove, getLsbD_allOnes]
  by_cases hi : i < 32
  · by_cases h : i < size.bits
    · simp [hi, h]
    · simp [hi, h, Nat.le_of_not_lt h]
  · rw [getLsbD_of_ge a i (Nat.le_of_not_lt hi), Bool.false_and, Bool.and_false]

theorem fill_eq : size.fill a = a ||| size.maskOutAbove (allOnes 32) := by
  cases size with
  | b => rfl
  | w => rfl
  | l => exact (or_allOnes (x := a)).symm

theorem getLsbD_fill {i : ℕ} (hi : i < 32) :
    (size.fill a).getLsbD i = (decide (i < size.bits) || a.getLsbD i) := by
  rw [fill_eq, getLsbD_or, getLsbD_maskOutAbove, getLsbD_allOnes, decide_eq_true hi, Bool.and_true,
    Bool.or_comm]

theorem getMsb_eq : size.getMsb a = a &&& twoPow 32 (size.bits - 1) := by
  cases size with
  | b => rfl
  | w => rfl
  | l => rfl

theorem msb_setWidth_bits : (a.setWidth size.bits).msb = a.getLsbD (size.bits - 1) := by
  rw [msb_eq_getLsbD_last, getLsbD_setWidth, decide_eq_true (Nat.sub_lt size.bits_pos Nat.one_pos),
    Bool.true_and]

theorem getMsb_ne_zero : size.getMsb a ≠ 0#32 ↔ (a.setWidth size.bits).msb = true := by
  have hlt : size.bits - 1 < 32 :=
    Nat.lt_of_lt_of_le (Nat.sub_lt size.bits_pos Nat.one_pos) size.bits_le
  rw [getMsb_eq, and_twoPow, msb_setWidth_bits]
  cases a.getLsbD (size.bits - 1) with
  | false => exact iff_of_false (fun h ↦ h rfl) Bool.false_ne_true
  | true =>
    refine iff_of_true (fun h ↦ ?_) rfl
    have hbit := congrArg (getLsbD · (size.bits - 1)) h
    simp [hlt] at hbit

theorem getLsbD_nFlag : (size.nFlag a).getLsbD 7 = (a.setWidth size.bits).msb := by
  rw [msb_setWidth_bits]
  cases size with
  | b => rfl
  | w => exact getLsbD_ushiftRight ..
  | l => exact getLsbD_ushiftRight ..

theorem shiftMask_eq {k : ℕ} (hk : k < 65) :
    size.shiftMask k = size.maskOutAbove (allOnes 32 <<< (size.bits - k)) := by
  revert k
  cases size <;> decide +kernel

theorem getLsbD_shiftMask {k : ℕ} (hk : k < 65) (i : ℕ) :
    (size.shiftMask k).getLsbD i = (decide (i < size.bits) && decide (size.bits ≤ k + i)) := by
  rw [shiftMask_eq size hk, getLsbD_maskOutAbove, getLsbD_shiftLeft, getLsbD_allOnes]
  by_cases h : i < size.bits
  · have hi := Nat.lt_of_lt_of_le h size.bits_le
    have hk : decide (i - (size.bits - k) < 32) = true := decide_eq_true (by omega)
    rw [decide_eq_true h, decide_eq_true hi, hk, Bool.and_true, Bool.true_and, Bool.true_and,
      Bool.true_and, ← decide_not]
    exact decide_eq_decide.mpr (by omega)
  · rw [decide_eq_false h, Bool.false_and, Bool.false_and]

/-! ### Rotations -/

/-- `ROR_8` and its like. -/
def ror (C : ℕ) : BitVec 32 := size.maskOutAbove (a >>> C ||| a <<< (size.bits - C))

/-- `ROL_8` and its like. -/
def rol (C : ℕ) : BitVec 32 := size.maskOutAbove (a <<< C ||| a >>> (size.bits - C))

/-- `ROR_9`, `ROR_17` and `ROR_33_64`, which leave what is above the rotated bits. -/
def rorX (A : BitVec size.wide) (C : ℕ) : BitVec size.wide := A >>> C ||| A <<< (size.bits + 1 - C)

/-- `ROL_9`, `ROL_17` and `ROL_33_64`. -/
def rolX (A : BitVec size.wide) (C : ℕ) : BitVec size.wide := A <<< C ||| A >>> (size.bits + 1 - C)

end OpSize

/-- What a shift reads and writes: the destination and the condition codes. -/
@[ext] structure Destination where
  dst : BitVec 32
  xFlag : BitVec 32
  nFlag : BitVec 32
  notZFlag : BitVec 32
  vFlag : BitVec 32
  cFlag : BitVec 32
deriving DecidableEq

namespace Destination

variable (size : OpSize)

/-- The end of a shift that moves the operand. -/
def put (res x v c : BitVec 32) (d : Destination) : Destination where
  dst := size.maskOutBelow d.dst ||| res
  xFlag := x
  nFlag := size.nFlag res
  notZFlag := res
  vFlag := v
  cFlag := c

/-- The end of a shift that leaves the register and X. -/
def keep (c : BitVec 32) (d : Destination) : Destination :=
  { d with
    nFlag := size.nFlag (size.maskOutAbove d.dst)
    notZFlag := size.maskOutAbove d.dst
    vFlag := 0#32
    cFlag := c }

/-! ### ASR -/

/-- The carry of a member of the family is a part of it: it is a shifted operand, whose bit 8
counts. -/
def asrImmediate (carry : BitVec 32 → ℕ → BitVec 32) (shift : ℕ) (d : Destination) : Destination :=
  let src := size.maskOutAbove d.dst
  let res := src >>> shift ||| if size.getMsb src ≠ 0#32 then size.shiftMask shift else 0#32
  d.put size res (carry src shift) 0#32 (carry src shift)

/-- Where the count is the size of the operand or more, `res` is not read. -/
def asrRegister (carry : BitVec 32 → ℕ → BitVec 32) (shift : ℕ) (d : Destination) : Destination :=
  let src := size.maskOutAbove d.dst
  if shift ≠ 0 then
    if shift < size.bits then
      let res := src >>> shift ||| if size.getMsb src ≠ 0#32 then size.shiftMask shift else 0#32
      d.put size res (carry src shift) 0#32 (carry src shift)
    else if size.getMsb src ≠ 0#32 then
      { dst := size.fill d.dst
        cFlag := 0x100#32
        xFlag := 0x100#32
        nFlag := 0x80#32
        notZFlag := 0xffffffff#32
        vFlag := 0#32 }
    else
      { dst := size.maskOutBelow d.dst
        cFlag := 0#32
        xFlag := 0#32
        nFlag := 0#32
        notZFlag := 0#32
        vFlag := 0#32 }
  else d.keep size 0#32

/-! ### ASL -/

/-- `carry` as above, and `within` is what the byte asks of the count besides. -/
def aslImmediate (carry : BitVec 32 → ℕ → BitVec 32) (within : ℕ → Bool) (shift : ℕ)
    (d : Destination) : Destination :=
  let src := size.maskOutAbove d.dst
  let signs := src &&& size.shiftMask (shift + 1)
  let v :=
    if signs = 0#32 ∨ signs = size.shiftMask (shift + 1) ∧ within shift then 0#32 else 0x80#32
  d.put size (size.maskOutAbove (src <<< shift)) (carry src shift) v (carry src shift)

def aslRegister (carry : BitVec 32 → ℕ → BitVec 32) (shift : ℕ) (d : Destination) : Destination :=
  let src := size.maskOutAbove d.dst
  if shift ≠ 0 then
    if shift < size.bits then
      let signs := src &&& size.shiftMask (shift + 1)
      let v := if signs = 0#32 ∨ signs = size.shiftMask (shift + 1) then 0#32 else 0x80#32
      d.put size (size.maskOutAbove (src <<< shift)) (carry src shift) v (carry src shift)
    else
      let last := (if shift = size.bits then src &&& 1#32 else 0#32) <<< 8
      { dst := size.maskOutBelow d.dst
        xFlag := last
        cFlag := last
        nFlag := 0#32
        notZFlag := 0#32
        vFlag := if src = 0#32 then 0#32 else 0x80#32 }
  else d.keep size 0#32

/-! ### ROR and ROL -/

/-- The byte is rotated by the count without its multiples of 8, and `turn` is that of the
member. -/
def rotateImmediate (rotate : BitVec 32 → ℕ → BitVec 32) (turn : ℕ → ℕ)
    (carry : BitVec 32 → ℕ → BitVec 32) (origShift : ℕ) (d : Destination) : Destination :=
  let src := size.maskOutAbove d.dst
  d.put size (rotate src (turn origShift)) d.xFlag 0#32 (carry src origShift)

def rotateRegister (rotate : BitVec 32 → ℕ → BitVec 32) (carry : BitVec 32 → ℕ → BitVec 32)
    (origShift : ℕ) (d : Destination) : Destination :=
  let shift := origShift &&& (size.bits - 1)
  let src := size.maskOutAbove d.dst
  if origShift ≠ 0 then d.put size (rotate src shift) d.xFlag 0#32 (carry src shift)
    else d.keep size 0#32

/-- ROL of a byte or a word by a multiple of its size leaves the register. -/
def rolRegister (carry : BitVec 32 → ℕ → BitVec 32) (origShift : ℕ) (d : Destination) :
    Destination :=
  let shift := origShift &&& (size.bits - 1)
  let src := size.maskOutAbove d.dst
  if origShift ≠ 0 then
    if shift ≠ 0 then d.put size (size.rol src shift) d.xFlag 0#32 (carry src shift)
    else d.keep size ((src &&& 1#32) <<< 8)
  else d.keep size 0#32

/-! ### ROXR and ROXL -/

/-- The operand with X above it. -/
def extend (d : Destination) : BitVec size.wide :=
  (size.maskOutAbove d.dst).setWidth size.wide |||
    ((d.xFlag >>> 8) &&& 1#32).setWidth size.wide <<< size.bits

def roxImmediate (rotate : BitVec size.wide → ℕ → BitVec size.wide)
    (carry : BitVec size.wide → BitVec 32) (shift : ℕ) (d : Destination) : Destination :=
  let res := rotate (d.extend size) shift
  d.put size (size.maskOutAbove (res.setWidth 32)) (carry res) 0#32 (carry res)

def roxRegister (rotate : BitVec size.wide → ℕ → BitVec size.wide)
    (carry : BitVec size.wide → BitVec 32) (origShift : ℕ) (d : Destination) : Destination :=
  if origShift ≠ 0 then
    let res := rotate (d.extend size) (origShift % (size.bits + 1))
    d.put size (size.maskOutAbove (res.setWidth 32)) (carry res) 0#32 (carry res)
  else
    { d with
      cFlag := d.xFlag
      nFlag := size.nFlag d.dst
      notZFlag := size.maskOutAbove d.dst
      vFlag := 0#32 }

end Destination

/-! ## The handlers -/

namespace Processor

variable (s : Processor)

def destination : Destination where
  dst := s.da s.dy
  xFlag := s.xFlag
  nFlag := s.nFlag
  notZFlag := s.notZFlag
  vFlag := s.vFlag
  cFlag := s.cFlag

def store (d : Destination) : Processor :=
  { s.setDa s.dy d.dst with
    xFlag := d.xFlag
    nFlag := d.nFlag
    notZFlag := d.notZFlag
    vFlag := d.vFlag
    cFlag := d.cFlag }

/-- The count in the instruction, from 1 to 8. -/
def immediateCount : ℕ := ((((s.ir.setWidth 32 >>> 9) - 1#32) &&& 7#32) + 1#32).toNat

/-- The count in DX, below 64. -/
def registerCount : ℕ := (s.da s.dx &&& 0x3f#32).toNat

def byImmediate (shift : ℕ → Destination → Destination) : Processor :=
  s.store (shift s.immediateCount s.destination)

def byRegister (shift : ℕ → Destination → Destination) : Processor :=
  s.store (shift s.registerCount s.destination)

open Destination OpSize

def xe000AsrB : Processor := s.byImmediate (asrImmediate b fun src shift ↦ src <<< (9 - shift))

def xe040AsrW : Processor := s.byImmediate (asrImmediate w fun src shift ↦ src <<< (9 - shift))

def xe080AsrL : Processor := s.byImmediate (asrImmediate l fun src shift ↦ src <<< (9 - shift))

def xe020AsrB : Processor := s.byRegister (asrRegister b fun src shift ↦ src <<< (9 - shift))

def xe060AsrW : Processor :=
  s.byRegister (asrRegister w fun src shift ↦ (src >>> (shift - 1)) <<< 8)

def xe0a0AsrL : Processor :=
  s.byRegister (asrRegister l fun src shift ↦ (src >>> (shift - 1)) <<< 8)

def xe100AslB : Processor :=
  s.byImmediate (aslImmediate b (fun src shift ↦ src <<< shift) fun shift ↦ shift < 8)

def xe140AslW : Processor :=
  s.byImmediate (aslImmediate w (fun src shift ↦ src >>> (8 - shift)) fun _ ↦ true)

def xe180AslL : Processor :=
  s.byImmediate (aslImmediate l (fun src shift ↦ src >>> (24 - shift)) fun _ ↦ true)

def xe120AslB : Processor := s.byRegister (aslRegister b fun src shift ↦ src <<< shift)

def xe160AslW : Processor := s.byRegister (aslRegister w fun src shift ↦ (src <<< shift) >>> 8)

def xe1a0AslL : Processor :=
  s.byRegister (aslRegister l fun src shift ↦ (src >>> (32 - shift)) <<< 8)

def xe018RorB : Processor :=
  s.byImmediate (rotateImmediate b b.ror (· &&& 7) fun src shift ↦ src <<< (9 - shift))

def xe058RorW : Processor :=
  s.byImmediate (rotateImmediate w w.ror id fun src shift ↦ src <<< (9 - shift))

def xe098RorL : Processor :=
  s.byImmediate (rotateImmediate l l.ror id fun src shift ↦ src <<< (9 - shift))

/-- The count less one, as an unsigned word. -/
def before (shift : ℕ) : ℕ := (BitVec.ofNat 32 shift - 1#32).toNat

def xe038RorB : Processor :=
  s.byRegister (rotateRegister b b.ror fun src shift ↦ src <<< (8 - (before shift &&& 7)))

def xe078RorW : Processor :=
  s.byRegister (rotateRegister w w.ror fun src shift ↦ (src >>> (before shift &&& 15)) <<< 8)

def xe0b8RorL : Processor :=
  s.byRegister (rotateRegister l l.ror fun src shift ↦ (src >>> (before shift &&& 31)) <<< 8)

def xe118RolB : Processor :=
  s.byImmediate (rotateImmediate b b.rol (· &&& 7) fun src shift ↦ src <<< shift)

def xe158RolW : Processor :=
  s.byImmediate (rotateImmediate w w.rol id fun src shift ↦ src >>> (8 - shift))

def xe198RolL : Processor :=
  s.byImmediate (rotateImmediate l l.rol id fun src shift ↦ src >>> (24 - shift))

def xe138RolB : Processor := s.byRegister (rolRegister b fun src shift ↦ src <<< shift)

def xe178RolW : Processor := s.byRegister (rolRegister w fun src shift ↦ (src <<< shift) >>> 8)

def xe1b8RolL : Processor :=
  s.byRegister (rotateRegister l l.rol fun src shift ↦ (src >>> ((32 - shift) &&& 0x1f)) <<< 8)

def xe010RoxrB : Processor := s.byImmediate (roxImmediate b b.rorX fun res ↦ res)

def xe050RoxrW : Processor := s.byImmediate (roxImmediate w w.rorX fun res ↦ res >>> 8)

def xe090RoxrL : Processor :=
  s.byImmediate (roxImmediate l l.rorX fun res ↦ (res >>> 24).setWidth 32)

def xe030RoxrB : Processor := s.byRegister (roxRegister b b.rorX fun res ↦ res)

def xe070RoxrW : Processor := s.byRegister (roxRegister w w.rorX fun res ↦ res >>> 8)

def xe0b0RoxrL : Processor := s.byRegister (roxRegister l l.rorX fun res ↦ (res >>> 24).setWidth 32)

def xe110RoxlB : Processor := s.byImmediate (roxImmediate b b.rolX fun res ↦ res)

def xe150RoxlW : Processor := s.byImmediate (roxImmediate w w.rolX fun res ↦ res >>> 8)

def xe190RoxlL : Processor :=
  s.byImmediate (roxImmediate l l.rolX fun res ↦ (res >>> 24).setWidth 32)

def xe130RoxlB : Processor := s.byRegister (roxRegister b b.rolX fun res ↦ res)

def xe170RoxlW : Processor := s.byRegister (roxRegister w w.rolX fun res ↦ res >>> 8)

def xe1b0RoxlL : Processor := s.byRegister (roxRegister l l.rolX fun res ↦ (res >>> 24).setWidth 32)

end Processor

end RoscoEmulator.M68k
