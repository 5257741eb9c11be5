import RoscoEmulator.M6502.Registers

/-!
# The lines of the opcode lists

The lists that `m6502make.py` reads are C++ lines of few kinds: an access to memory, whose address
is an expression in the registers and whose value goes to one register, a change of the registers,
and the conditions in front of some lines. `Code` is the text of an opcode and `Code.toBlock` what
it means to the generator.

The bus is any type with the operations of `Bus`. A machine carries the accesses that the memory
system is going to defer: for each access that it makes next the values that are thrown away
first. -/

namespace RoscoEmulator.M6502

/-! ## Text -/

/-- `m_A`, `m_X` or `m_Y`. -/
inductive Reg
  | a | x | y
deriving DecidableEq, Repr

/-- The addresses of the accesses. -/
inductive Addr
  | const (a : Word)
  | pc
  | sp
  | tmp
  | tmp2
  /-- `m_TMP+1` -/
  | tmpNext
  /-- `(m_TMP+1) & 0xff` -/
  | tmpNextZp
  /-- `(m_TMP2+1) & 0xff` -/
  | tmp2Next
  /-- `m_TMP+m_X` -/
  | indexed (r : Reg)
  /-- `uint8_t(m_TMP+m_X)` -/
  | indexedZp (r : Reg)
  /-- `set_l(m_TMP, m_TMP+m_X)` -/
  | indexedLow (r : Reg)
  /-- `set_l(m_TMP, m_TMP+1)` -/
  | tmpNextLow
  /-- `set_l(m_PC, m_PC+int8_t(m_TMP))` -/
  | branchLow
deriving DecidableEq, Repr

/-- Where the value of a read goes. -/
inductive Target
  | none
  | reg (r : Reg)
  | tmp
  /-- `m_TMP = set_h(m_TMP, ..)` -/
  | tmpHigh
  | tmp2
  | pc
  /-- `m_PC = set_h(m_PC, ..)` -/
  | pcHigh
  | ir
  /-- `m_P = .. | (F_B|F_E)` -/
  | p
  /-- `m_TMP = .. | (F_B|F_E)` -/
  | tmpStatus
deriving DecidableEq, Repr

/-- What is written. -/
inductive Data
  | reg (r : Reg)
  | p
  | tmp2
  | zero
  /-- `m_PC >> 8` -/
  | pcHigh
  /-- `m_PC` -/
  | pcLow
  /-- `m_irq_taken || m_nmi_pending ? m_P & ~F_B : m_P` -/
  | pushedStatus
deriving DecidableEq, Repr

/-- The functions of the memory interface that read. -/
inductive ReadKind
  | read | readSync | readArg
deriving DecidableEq, Repr

/-- What an operand comes from. -/
inductive Operand
  | tmp | tmp2
deriving DecidableEq, Repr

/-- What is done with an operand. -/
inductive Operation
  | and | eor | ora | adc | sbcC | bit
  | cmp (r : Reg)
deriving DecidableEq, Repr

/-- What is done to a byte. -/
inductive Modification
  | asl | lsr | rol | ror | inc | dec
deriving DecidableEq, Repr

/-- The lines that access no memory. -/
inductive Line
  /-- `m_PC++` -/
  | incPc
  /-- `m_PC = m_TMP` -/
  | jump
  /-- `m_PC = m_TMP + 1` -/
  | jumpNext
  /-- `m_PC += int8_t(m_TMP)` -/
  | takeBranch
  | incSp
  | decSp
  /-- `m_TMP += m_X` -/
  | addIndex (r : Reg)
  /-- `m_TMP = uint8_t(m_TMP+m_X)` -/
  | addIndexZp (r : Reg)
  /-- `m_TMP2 += m_X` -/
  | addIndexTmp2 (r : Reg)
  /-- An operation on the accumulator or the status, with `set_nz` where it comes behind. -/
  | operate (op : Operation) (operand : Operand)
  /-- `m_TMP2 = do_asl(m_TMP2)` and so on, with `set_nz` behind `++` and `--` -/
  | modify (m : Modification)
  /-- `m_A = do_asl(m_A)` and so on, with `set_nz` behind `++` and `--` -/
  | modifyReg (m : Modification) (r : Reg)
  /-- `set_nz(m_A)` -/
  | setNz (r : Reg)
  /-- `m_X = m_A; set_nz(m_X)` -/
  | transfer (dest source : Reg)
  /-- `m_X = m_SP; set_nz(m_X)` -/
  | tsx
  /-- `m_SP = set_l(m_SP, m_X)` -/
  | txs
  /-- `m_P &= ~flag` -/
  | clear (flag : Byte)
  /-- `m_P |= flag` -/
  | raise (flag : Byte)
  /-- `if(m_A & m_TMP) m_P &= ~F_Z; else m_P |= F_Z` -/
  | testBits (operand : Operand)
  /-- `m_TMP2 &= ~m_A` -/
  | resetBits
  /-- `m_TMP2 |= m_A` -/
  | setBits
  /-- `m_TMP2 &= ~(1 << ((m_inst_state >> 4) & 7))` -/
  | resetBit
  /-- `m_TMP2 |= 1 << ((m_inst_state >> 4) & 7)` -/
  | setBit
  /-- `m_P = m_TMP` -/
  | pullStatus
  /-- `m_P = (m_P | F_I) & ~F_D` -/
  | enterInterrupt
  /-- `m_nmi_pending = false` -/
  | clearNmiPending
  /-- `m_irq_taken = false` -/
  | clearIrqTaken
  | prefetchStart
  | prefetchEnd
  /-- `standard_irq_callback`, which tells the driver. -/
  | standardIrqCallback
  /-- `end_interrupt`, which is empty. -/
  | endInterrupt
deriving DecidableEq, Repr

/-- The conditions. -/
inductive Cond
  /-- `page_changing(m_TMP, m_X)` -/
  | pageChanging (r : Reg)
  /-- `page_changing(m_PC, int8_t(m_TMP))` -/
  | branchPageChanging
  /-- `m_P & flag` -/
  | flag (flag : Byte)
  /-- `!(m_P & flag)` -/
  | notFlag (flag : Byte)
  /-- `m_TMP2 & (1 << ((m_inst_state >> 4) & 7))` -/
  | bitSet
  /-- `!(m_TMP2 & (1 << ((m_inst_state >> 4) & 7)))` -/
  | bitClear
  /-- `m_irq_taken || m_nmi_pending` -/
  | interrupted
  /-- `m_irq_taken && m_nmi_pending` -/
  | nmiTaken
  | irqTaken
  /-- `!m_nmi_pending && !m_irq_state` -/
  | noInterrupt
deriving DecidableEq, Repr

/-- The text of an opcode. -/
inductive Code
  | nop
  | line (l : Line)
  | read (kind : ReadKind) (addr : Addr) (target : Target)
  | write (addr : Addr) (data : Data)
  | seq (a b : Code)
  | ite (c : Cond) (a b : Code)
  | eatWhile (c : Cond)
  | eatForever
deriving DecidableEq, Repr

/-- Lines one after the other. -/
def Code.block : List Code → Code
  | [] => .nop
  | a :: as => .seq a (block as)

/-- An opcode of a list. -/
structure Handler where
  device : ListDevice
  code : Code
  /-- The last line is `m_inst_state = -1`. -/
  ends : Bool := false
deriving DecidableEq

/-! ## Meaning -/

/-- What `m_inst_state` may hold. -/
inductive InstState
  /-- `STATE_RESET` -/
  | reset
  | opcode (ir : Byte)
  /-- `-1` -/
  | none
deriving DecidableEq, Repr

/-- `1 << ((m_inst_state >> 4) & 7)`. -/
def InstState.bit : InstState → Byte
  | reset => 1
  | opcode ir => (1 : Byte) <<< ((ir.toNat >>> 4) % 8)
  | none => 0x80

namespace Reg

def get (r : Reg) (s : Alu) : Byte :=
  match r with
  | a => s.a
  | x => s.x
  | y => s.y

def set (r : Reg) (v : Byte) (s : Alu) : Alu :=
  match r with
  | a => { s with a := v }
  | x => { s with x := v }
  | y => { s with y := v }

end Reg

/-- `int8_t(m_TMP)`. -/
def Regs.offset (r : Regs) : Word := (lowByte r.tmp).signExtend 16

def Addr.eval (r : Regs) : Addr → Word
  | const a => a
  | pc => r.pc
  | sp => r.sp
  | tmp => r.tmp
  | tmp2 => r.tmp2.setWidth 16
  | tmpNext => r.tmp + 1
  | tmpNextZp => (r.tmp + 1) &&& 0xff
  | tmp2Next => (r.tmp2 + 1).setWidth 16
  | indexed i => r.tmp + (i.get r.toAlu).setWidth 16
  | indexedZp i => (lowByte r.tmp + i.get r.toAlu).setWidth 16
  | indexedLow i => setL r.tmp (lowByte r.tmp + i.get r.toAlu)
  | tmpNextLow => setL r.tmp (lowByte r.tmp + 1)
  | branchLow => setL r.pc (lowByte (r.pc + r.offset))

def Target.store (v : Byte) (r : Regs) : Target → Regs
  | none => r
  | reg i => r.onAlu (i.set v)
  | tmp => { r with tmp := v.setWidth 16 }
  | tmpHigh => { r with tmp := setH r.tmp v }
  | tmp2 => { r with tmp2 := v }
  | pc => { r with pc := v.setWidth 16 }
  | pcHigh => { r with pc := setH r.pc v }
  | ir => { r with ir := v }
  | p => { r with p := v ||| (flagB ||| flagE) }
  | tmpStatus => { r with tmp := (v ||| (flagB ||| flagE)).setWidth 16 }

def Data.eval (r : Regs) : Data → Byte
  | reg i => i.get r.toAlu
  | p => r.p
  | tmp2 => r.tmp2
  | zero => 0x00
  | pcHigh => highByte r.pc
  | pcLow => lowByte r.pc
  | pushedStatus => if r.irqTaken || r.nmiPending then r.p &&& ~~~flagB else r.p

def Operand.eval (r : Regs) : Operand → Byte
  | tmp => lowByte r.tmp
  | tmp2 => r.tmp2

def Operation.run (v : Byte) (s : Alu) : Operation → Alu
  | and => { s with a := s.a &&& v }.setNz (s.a &&& v)
  | eor => { s with a := s.a ^^^ v }.setNz (s.a ^^^ v)
  | ora => { s with a := s.a ||| v }.setNz (s.a ||| v)
  | adc => s.doAdc v
  | sbcC => s.doSbcC v
  | bit => s.doBit v
  | cmp r => s.doCmp (r.get s) v

def Modification.run (v : Byte) (s : Alu) : Modification → Byte × Alu
  | asl => s.doAsl v
  | lsr => s.doLsr v
  | rol => s.doRol v
  | ror => s.doRor v
  | inc => (v + 1, s.setNz (v + 1))
  | dec => (v - 1, s.setNz (v - 1))

def Line.run (q : InstState) (r : Regs) : Line → Regs
  | incPc => { r with pc := r.pc + 1 }
  | jump => { r with pc := r.tmp }
  | jumpNext => { r with pc := r.tmp + 1 }
  | takeBranch => { r with pc := r.pc + r.offset }
  | incSp => r.incSp
  | decSp => r.decSp
  | addIndex i => { r with tmp := r.tmp + (i.get r.toAlu).setWidth 16 }
  | addIndexZp i => { r with tmp := (lowByte r.tmp + i.get r.toAlu).setWidth 16 }
  | addIndexTmp2 i => { r with tmp2 := r.tmp2 + i.get r.toAlu }
  | operate op operand => r.onAlu (op.run (operand.eval r))
  | modify m => { r with toAlu := (m.run r.tmp2 r.toAlu).2, tmp2 := (m.run r.tmp2 r.toAlu).1 }
  | modifyReg m i => r.onAlu fun s ↦ i.set (m.run (i.get s) s).1 (m.run (i.get s) s).2
  | setNz i => r.onAlu fun s ↦ s.setNz (i.get s)
  | transfer dest source => r.onAlu fun s ↦ (dest.set (source.get s) s).setNz (source.get s)
  | tsx => r.onAlu fun s ↦ { s with x := lowByte r.sp }.setNz (lowByte r.sp)
  | txs => { r with sp := setL r.sp r.x }
  | clear flag => r.onAlu (·.clear flag)
  | raise flag => r.onAlu (·.raise flag true)
  | testBits operand =>
      r.onAlu fun s ↦ if s.a &&& operand.eval r ≠ 0 then s.clear flagZ else s.raise flagZ true
  | resetBits => { r with tmp2 := r.tmp2 &&& ~~~r.a }
  | setBits => { r with tmp2 := r.tmp2 ||| r.a }
  | resetBit => { r with tmp2 := r.tmp2 &&& ~~~q.bit }
  | setBit => { r with tmp2 := r.tmp2 ||| q.bit }
  | pullStatus => { r with p := lowByte r.tmp }
  | enterInterrupt => { r with p := (r.p ||| flagI) &&& ~~~flagD }
  | clearNmiPending => { r with nmiPending := false }
  | clearIrqTaken => { r with irqTaken := false }
  | prefetchStart => r.prefetchStart
  | prefetchEnd => r.prefetchEnd
  | standardIrqCallback | endInterrupt => r

def Cond.eval (q : InstState) (r : Regs) : Cond → Bool
  | pageChanging i => M6502.pageChanging r.tmp ((i.get r.toAlu).setWidth 16)
  | branchPageChanging => M6502.pageChanging r.pc r.offset
  | flag f => r.has f
  | notFlag f => !r.has f
  | bitSet => r.tmp2 &&& q.bit != 0
  | bitClear => r.tmp2 &&& q.bit == 0
  | interrupted => r.irqTaken || r.nmiPending
  | nmiTaken => r.irqTaken && r.nmiPending
  | irqTaken => r.irqTaken
  | noInterrupt => !r.nmiPending && !r.irqState

/-! ## What an address is made of -/

namespace Addr

def usesReg (r : Reg) : Addr → Bool
  | indexed i | indexedZp i | indexedLow i => i = r
  | _ => false

def usesTmp : Addr → Bool
  | tmp | tmpNext | tmpNextZp | indexed _ | indexedZp _ | indexedLow _ | tmpNextLow | branchLow =>
    true
  | const _ | pc | sp | tmp2 | tmp2Next => false

def usesTmp2 : Addr → Bool
  | tmp2 | tmp2Next => true
  | _ => false

def usesPc : Addr → Bool
  | pc | branchLow => true
  | _ => false

/-- A value that goes to the target leaves the address as it is. -/
def survives (addr : Addr) : Target → Bool
  | .none | .ir | .p => true
  | .reg r => !addr.usesReg r
  | .tmp | .tmpHigh | .tmpStatus => !addr.usesTmp
  | .tmp2 => !addr.usesTmp2
  | .pc | .pcHigh => !addr.usesPc

theorem get_set_of_ne {i r : Reg} (h : i ≠ r) (v : Byte) (s : Alu) :
    i.get (r.set v s) = i.get s := by
  cases r <;> cases i <;> first | rfl | exact absurd rfl h

theorem eval_store {addr : Addr} {target : Target} (h : addr.survives target = true) (v : Byte)
    (r : Regs) : addr.eval (target.store v r) = addr.eval r := by
  cases target with
  | none | ir | p => cases addr <;> rfl
  | tmp | tmpHigh | tmpStatus | tmp2 | pc | pcHigh => cases addr <;> first | rfl | cases h
  | reg i =>
    cases addr with
    | indexed j | indexedZp j | indexedLow j =>
      have hj : j ≠ i := by simpa [survives, usesReg] using h
      simp only [eval, Target.store, Regs.onAlu, get_set_of_ne hj]
    | _ => rfl

end Addr

/-! ## The machine -/

/-- What is behind the bus. A read may change it too. -/
class Bus (B : Type*) where
  read : ReadKind → Word → B → Byte × B
  write : Word → Byte → B → B

/-- What happens to the processor from outside, and what it does to the outside. -/
inductive Event
  | read (kind : ReadKind) (addr : Word) (data : Byte)
  | write (addr : Word) (data : Byte)
  | input (line : InputLine) (state : Bool)
deriving DecidableEq, Repr

/-- The processor with what is behind its bus. -/
structure Machine (B : Type*) where
  regs : Regs
  bus : B
  /-- What has happened, oldest first. An access that is deferred has not happened. -/
  log : List Event
  /-- `m_access_to_be_redone` -/
  toBeRedone : Bool
  /-- For each access that comes next the values of the attempts that the memory system defers. -/
  deferrals : List (List Byte)

namespace Machine

variable {B : Type*}

def onRegs (f : Regs → Regs) (m : Machine B) : Machine B := { m with regs := f m.regs }

/-- `m_icount` and `access_to_be_redone` aside, what the generated code looks at. -/
def pins : Pins (Machine B) where
  rdyState m := m.regs.rdyState
  accessToBeRedone m := m.toBeRedone
  accessRedone m := { m with toBeRedone := false }

/-- The memory system is asked for an access: `some` value if it defers the access. -/
def asked (m : Machine B) : Option Byte × Machine B :=
  match m.deferrals with
  | (v :: vs) :: rest => (some v, { m with deferrals := vs :: rest, toBeRedone := true })
  | rest => (none, { m with deferrals := rest.tail })

variable [Bus B]

/-- A read that is made. -/
def makeRead (kind : ReadKind) (addr : Addr) (target : Target) (m : Machine B) : Machine B :=
  let a := addr.eval m.regs
  let (v, bus) := Bus.read kind a m.bus
  { m with regs := target.store v m.regs, bus := bus, log := m.log ++ [.read kind a v] }

/-- A write that is made. -/
def makeWrite (addr : Addr) (data : Data) (m : Machine B) : Machine B :=
  let a := addr.eval m.regs
  let v := data.eval m.regs
  { m with bus := Bus.write a v m.bus, log := m.log ++ [.write a v] }

/-- A line that makes an access if the memory system does not defer it. -/
def deferrable (target : Target) (make : Machine B → Machine B) (m : Machine B) : Machine B :=
  match m.asked with
  | (some v, m) => m.onRegs fun r ↦ target.store v r
  | (none, m) => make m

/-- The line of a read. The value of a read that is deferred is stored too. -/
def readLine (kind : ReadKind) (addr : Addr) (target : Target) : Machine B → Machine B :=
  deferrable target (makeRead kind addr target)

/-- The line of a write. -/
def writeLine (addr : Addr) (data : Data) : Machine B → Machine B :=
  deferrable .none (makeWrite addr data)

end Machine

variable {B : Type*} [Bus B]

/-- What the text of an opcode is to the generator. -/
def Code.toBlock : Code → Block InstState (Machine B)
  | nop => .nop
  | line l => .line .none fun q ↦ Machine.onRegs fun r ↦ l.run q r
  | read kind addr target => .line .memoryRead fun _ ↦ Machine.readLine kind addr target
  | write addr data => .line .memoryWrite fun _ ↦ Machine.writeLine addr data
  | seq a b => .seq a.toBlock b.toBlock
  | ite c a b => .ite (fun q m ↦ c.eval q m.regs) a.toBlock b.toBlock
  | eatWhile c => .eatWhile fun m ↦ c.eval .none m.regs
  | eatForever => .eatForever

/-- An opcode of a list with its device. -/
def Handler.toOpcode (h : Handler) : Opcode InstState (Machine B) where
  device := h.device
  instructions := h.code.toBlock
  next := if h.ends then some .none else none

end RoscoEmulator.M6502
