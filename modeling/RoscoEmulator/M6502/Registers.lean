import Mathlib.Data.BitVec
import Mathlib.Tactic.IntervalCases
import RoscoEmulator.M6502.Make

/-!
# The registers of the 6502

The registers and lines of `m6502_device`, and the arithmetic that its opcodes share. The arithmetic
works on `Alu`, the accumulator, the index registers and the status, and leaves the rest alone by
its type. -/

namespace RoscoEmulator.M6502

abbrev Byte : Type := BitVec 8
abbrev Word : Type := BitVec 16

/-! ## Status -/

def flagN : Byte := 0x80
def flagV : Byte := 0x40
def flagE : Byte := 0x20
def flagB : Byte := 0x10
def flagD : Byte := 0x08
def flagI : Byte := 0x04
def flagZ : Byte := 0x02
def flagC : Byte := 0x01

/-- `m_A`, `m_X`, `m_Y` and `m_P`. -/
structure Alu where
  a : Byte
  x : Byte
  y : Byte
  p : Byte
deriving DecidableEq, Repr

namespace Alu

/-- `m_P & flag`. -/
def has (flag : Byte) (s : Alu) : Bool := s.p &&& flag != 0

/-- `m_P &= ~flags`. -/
def clear (flags : Byte) (s : Alu) : Alu := { s with p := s.p &&& ~~~flags }

/-- `if(c) m_P |= flags`. -/
def raise (flags : Byte) (c : Bool) (s : Alu) : Alu :=
  if c then { s with p := s.p ||| flags } else s

/-- `if(!v) m_P |= F_Z; else if(int8_t(v) < 0) m_P |= F_N`. -/
def raiseZn (v : Byte) (s : Alu) : Alu := if v = 0 then s.raise flagZ true else s.raise flagN v.msb

/-- `set_nz`. -/
def setNz (v : Byte) (s : Alu) : Alu :=
  ((s.clear (flagZ ||| flagN)).raise flagN v.msb).raise flagZ (v == 0)

/-! ## Arithmetic -/

/-- `do_adc_d`. -/
def doAdcD (val : Byte) (s : Alu) : Alu :=
  let c : Byte := if s.has flagC then 1 else 0
  let al : Byte := (s.a &&& 15) + (val &&& 15) + c
  let al := if 9 < al then al + 6 else al
  let ah : Byte := (s.a >>> 4) + (val >>> 4) + (if 15 < al then 1 else 0)
  let s := s.clear (flagN ||| flagV ||| flagZ ||| flagC)
  let s := if s.a + val + c = 0 then s.raise flagZ true else s.raise flagN (ah &&& 8 != 0)
  let s := s.raise flagV (~~~(s.a ^^^ val) &&& (s.a ^^^ (ah <<< 4))).msb
  let ah := if 9 < ah then ah + 6 else ah
  { s.raise flagC (15 < ah) with a := (ah <<< 4) ||| (al &&& 15) }

/-- `do_adc_nd`. -/
def doAdcNd (val : Byte) (s : Alu) : Alu :=
  let sum : Word := s.a.setWidth 16 + val.setWidth 16 + (if s.has flagC then 1 else 0)
  let low : Byte := sum.setWidth 8
  let s := (s.clear (flagN ||| flagV ||| flagZ ||| flagC)).raiseZn low
  let s := s.raise flagV (~~~(s.a ^^^ val) &&& (s.a ^^^ low)).msb
  { s.raise flagC (sum &&& 0xff00 != 0) with a := low }

/-- `do_adc`. -/
def doAdc (val : Byte) (s : Alu) : Alu := if s.has flagD then s.doAdcD val else s.doAdcNd val

/-- `do_sbc_nd`. -/
def doSbcNd (val : Byte) (s : Alu) : Alu :=
  let diff : Word := s.a.setWidth 16 - val.setWidth 16 - (if s.has flagC then 0 else 1)
  let low : Byte := diff.setWidth 8
  let s := (s.clear (flagN ||| flagV ||| flagZ ||| flagC)).raiseZn low
  let s := s.raise flagV ((s.a ^^^ val) &&& (s.a ^^^ low)).msb
  { s.raise flagC (diff &&& 0xff00 == 0) with a := low }

/-- `do_sbc_cd` of the 65C02, which leaves N and Z for the next cycle. -/
def doSbcCd (val : Byte) (s : Alu) : Alu :=
  let c : Byte := if s.has flagC then 0 else 1
  let diff : Word := s.a.setWidth 16 - val.setWidth 16 - c.setWidth 16
  let al : Byte := (s.a &&& 15) - (val &&& 15) - c
  let ah : Byte := (s.a >>> 4) - (val >>> 4) - (if al.msb then 1 else 0)
  let s := s.clear (flagN ||| flagV ||| flagZ ||| flagC)
  let s := s.raise flagV ((s.a ^^^ val) &&& (s.a ^^^ diff.setWidth 8)).msb
  let s := s.raise flagC (diff &&& 0xff00 == 0)
  let a := (ah <<< 4) ||| (al &&& 15)
  let a := if al.msb then a - 6 else a
  { s with a := if ah.msb then a - 0x60 else a }

/-- `do_sbc_c`. -/
def doSbcC (val : Byte) (s : Alu) : Alu := if s.has flagD then s.doSbcCd val else s.doSbcNd val

/-- `do_cmp`. -/
def doCmp (val1 val2 : Byte) (s : Alu) : Alu :=
  let r : Word := val1.setWidth 16 - val2.setWidth 16
  ((s.clear (flagN ||| flagZ ||| flagC)).raiseZn (r.setWidth 8)).raise flagC (r &&& 0xff00 == 0)

/-- `do_bit`. -/
def doBit (val : Byte) (s : Alu) : Alu :=
  (((s.clear (flagN ||| flagZ ||| flagV)).raise flagZ (s.a &&& val == 0)).raise flagN val.msb).raise
    flagV (val &&& 0x40 != 0)

/-- `do_asl`. -/
def doAsl (v : Byte) (s : Alu) : Byte × Alu :=
  (v <<< 1, ((s.clear (flagN ||| flagZ ||| flagC)).raiseZn (v <<< 1)).raise flagC v.msb)

/-- `do_lsr`. -/
def doLsr (v : Byte) (s : Alu) : Byte × Alu :=
  (v >>> 1,
    ((s.clear (flagN ||| flagZ ||| flagC)).raise flagC (v &&& 1 != 0)).raise flagZ (v >>> 1 == 0))

/-- `do_ror`. -/
def doRor (v : Byte) (s : Alu) : Byte × Alu :=
  let r := if s.has flagC then (v >>> 1) ||| 0x80 else v >>> 1
  (r, ((s.clear (flagN ||| flagZ ||| flagC)).raise flagC (v &&& 1 != 0)).raiseZn r)

/-- `do_rol`. -/
def doRol (v : Byte) (s : Alu) : Byte × Alu :=
  let r := if s.has flagC then (v <<< 1) ||| 0x01 else v <<< 1
  (r, ((s.clear (flagN ||| flagZ ||| flagC)).raise flagC v.msb).raiseZn r)

end Alu

/-! ## Registers and lines -/

/-- The registers and lines of `m6502_device`. -/
structure Regs extends Alu where
  /-- The previous program counter. -/
  ppc : Word
  /-- The program counter at the start of the next instruction. -/
  npc : Word
  pc : Word
  sp : Word
  tmp : Word
  tmp2 : Byte
  ir : Byte
  nmiState : Bool
  irqState : Bool
  apuIrqState : Bool
  vState : Bool
  rdyState : Bool
  nmiPending : Bool
  irqTaken : Bool
  sync : Bool
  inhibitInterrupts : Bool
deriving DecidableEq, Repr

/-- `set_l`. -/
def setL (base : Word) (val : Byte) : Word := (base &&& 0xff00) ||| val.setWidth 16

/-- `set_h`. -/
def setH (base : Word) (val : Byte) : Word := (base &&& 0x00ff) ||| (val.setWidth 16 <<< 8)

/-- The low byte of a word. -/
def lowByte (w : Word) : Byte := w.setWidth 8

/-- The high byte of a word. -/
def highByte (w : Word) : Byte := (w >>> 8).setWidth 8

/-- `page_changing`. -/
def pageChanging (base delta : Word) : Bool := ((base + delta) ^^^ base) &&& 0xff00 != 0

theorem setH_eq (w : Word) (v : Byte) : setH w v = v ++ lowByte w := by
  unfold setH lowByte
  ext i hi
  rw [BitVec.getElem_append]
  interval_cases i <;> simp

@[simp] theorem lowByte_append (a b : Byte) : lowByte (a ++ b) = b := by
  unfold lowByte
  ext i hi
  rw [BitVec.getElem_setWidth, BitVec.getLsbD_append]
  simp [hi]

@[simp] theorem append_highByte_lowByte (w : Word) : highByte w ++ lowByte w = w := by
  unfold highByte lowByte
  ext i hi
  rw [BitVec.getElem_append]
  interval_cases i <;> simp

@[simp] theorem lowByte_setWidth (v : Byte) : lowByte (v.setWidth 16) = v :=
  BitVec.setWidth_setWidth_of_le v (by decide)

namespace Regs

/-- The arithmetic on its part of the registers. -/
def onAlu (f : Alu → Alu) (r : Regs) : Regs := { r with toAlu := f r.toAlu }

/-- `dec_SP`. -/
def decSp (r : Regs) : Regs := { r with sp := setL r.sp (lowByte r.sp - 1) }

/-- `inc_SP`. -/
def incSp (r : Regs) : Regs := { r with sp := setL r.sp (lowByte r.sp + 1) }

/-- `prefetch_start`. -/
def prefetchStart (r : Regs) : Regs := { r with sync := true, npc := r.pc }

/-- `prefetch_end`. -/
def prefetchEnd (r : Regs) : Regs :=
  let r := { r with sync := false }
  if (r.nmiPending ||
    ((r.irqState || r.apuIrqState) && !r.toAlu.has flagI)) && !r.inhibitInterrupts then
    { r with irqTaken := true, ir := 0x00 }
  else { r with pc := r.pc + 1 }

end Regs

/-- The input lines of the processor. -/
inductive InputLine
  | irq | apuIrq | nmi | v | rdy
deriving DecidableEq, Repr

/-- `execute_set_input`, where `started` says that `total_cycles` is not zero. -/
def Regs.executeSetInput (started : Bool) (line : InputLine) (state : Bool) (r : Regs) : Regs :=
  match line with
  | .irq => { r with irqState := state }
  | .apuIrq => { r with apuIrqState := state }
  | .nmi =>
    { r with nmiPending := r.nmiPending || (!r.nmiState && state && started), nmiState := state }
  | .v => { r.onAlu (·.raise flagV (!r.vState && state && started)) with vState := state }
  | .rdy => { r with rdyState := state }

/-- The registers after `init`. -/
def Regs.init : Regs where
  a := 0x00
  x := 0x80
  y := 0x00
  p := 0x36
  ppc := 0x0000
  npc := 0x0000
  pc := 0x0000
  sp := 0x0100
  tmp := 0x0000
  tmp2 := 0x00
  ir := 0x00
  nmiState := false
  irqState := false
  apuIrqState := false
  vState := false
  rdyState := true
  nmiPending := false
  irqTaken := false
  sync := false
  inhibitInterrupts := false

end RoscoEmulator.M6502
