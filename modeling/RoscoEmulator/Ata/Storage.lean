import Mathlib

/-!
# ATA mass storage: the transfer of sectors

`device_ata_mass_storage_device_interface` keeps the address of the sector it works on in the
task-file registers themselves. `lba_address` reads it out of them, `next_sector` advances it, and a
command runs through its sectors by the busy timer and the data buffer: a tick of the timer ends in
`finished_read` or `finished_write`, an emptied buffer in `fill_buffer`, and a full one in
`process_buffer`.

The drive logs the address of every sector it accesses. The sectors are all there: an access that
fails ends the command.
-/

namespace RoscoEmulator.Ata

/-! ## Commands -/

/-- The commands that transfer sectors. -/
inductive Command
  | readSectors | readSectorsNoretry | readSectorsExt
  | readMultiple | readMultipleExt
  | readDma | readDmaExt
  | writeSectors | writeSectorsNoretry | writeSectorsExt
  | writeMultiple | writeMultipleExt
  | writeDma | writeDmaExt
deriving DecidableEq, Repr

namespace Command

/-- `is_lba48`. -/
def isLba48 : Command → Bool
  | readSectorsExt | readDmaExt | readMultipleExt => true
  | writeSectorsExt | writeDmaExt | writeMultipleExt => true
  | _ => false

/-- The commands that `finished_command` ends with `finished_read`. -/
def isRead : Command → Bool
  | readSectors | readSectorsNoretry | readSectorsExt => true
  | readMultiple | readMultipleExt | readDma | readDmaExt => true
  | _ => false

def isMultiple : Command → Bool
  | readMultiple | readMultipleExt | writeMultiple | writeMultipleExt => true
  | _ => false

def isDma : Command → Bool
  | readDma | readDmaExt | writeDma | writeDmaExt => true
  | _ => false

end Command

/-! ## Registers -/

/-- The registers that hold the address and the count of a transfer, the geometry that the address
refers to, and the addresses of the sectors accessed so far. -/
structure TaskFile where
  command : Command
  numSectors : BitVec 8
  numHeads : BitVec 8
  deviceHead : BitVec 8
  sectorCount : BitVec 8
  sectorCountHob : BitVec 8
  sectorNumber : BitVec 8
  sectorNumberHob : BitVec 8
  cylinderLow : BitVec 8
  cylinderLowHob : BitVec 8
  cylinderHigh : BitVec 8
  cylinderHighHob : BitVec 8
  sectorsRemaining : ℕ
  accessed : List ℕ
deriving DecidableEq, Repr

namespace TaskFile

variable (t : TaskFile)

/-- `m_device_head & IDE_DEVICE_HEAD_L`. -/
def isLba : Bool := t.deviceHead &&& 0x40#8 ≠ 0

/-- `m_device_head & IDE_DEVICE_HEAD_HS`. -/
def head : BitVec 8 := t.deviceHead &&& 0x0f#8

def cylinder : ℕ := t.cylinderHigh.toNat <<< 8 ||| t.cylinderLow.toNat

/-- The standard CHS address as an `int`, which wraps around at 32 bits. -/
def chsAddress : ℤ :=
  Int.bmod ((((t.cylinder * t.numHeads.toNat) + t.head.toNat) * t.numSectors.toNat : ℕ) +
    (t.sectorNumber.toNat : ℤ) - 1) (2 ^ 32)

/-- The high bits of an LBA. -/
def lbaHigh : ℕ :=
  if t.command.isLba48 then
    t.cylinderHighHob.toNat <<< 16 ||| t.cylinderLowHob.toNat <<< 8 ||| t.sectorNumberHob.toNat
  else t.head.toNat

/-- `lba_address`. -/
def lbaAddress : ℕ :=
  if t.isLba then
    t.lbaHigh <<< 24 ||| t.cylinderHigh.toNat <<< 16 ||| t.cylinderLow.toNat <<< 8 |||
      t.sectorNumber.toNat
  -- the conversion of the `int` to `uint64_t`
  else (t.chsAddress % 2 ^ 64).toNat

/-- `sectors_remaining`. -/
def sectorsRequested : ℕ :=
  if t.command.isLba48 then
    if t.sectorCountHob ≠ 0 ∨ t.sectorCount ≠ 0 then
      t.sectorCountHob.toNat <<< 8 ||| t.sectorCount.toNat
    else 0x10000
  else if t.sectorCount ≠ 0 then t.sectorCount.toNat else 0x100

/-- `next_sector` where the address is an LBA: the registers but for the head, and the head. -/
def nextLba (t : TaskFile) : TaskFile × BitVec 8 :=
  let curHead := t.head
  let t := { t with sectorNumber := t.sectorNumber + 1 }
  if t.sectorNumber = 0 then
    let t := { t with cylinderLow := t.cylinderLow + 1 }
    if t.cylinderLow = 0 then
      let t := { t with cylinderHigh := t.cylinderHigh + 1 }
      if t.cylinderHigh = 0 then (t, curHead + 1) else (t, curHead)
    else (t, curHead)
  else (t, curHead)

/-- `next_sector` where the address is a CHS. -/
def nextChs (t : TaskFile) : TaskFile × BitVec 8 :=
  let curHead := t.head
  let t := { t with sectorNumber := t.sectorNumber + 1 }
  if t.numSectors < t.sectorNumber then
    let t := { t with sectorNumber := 1 }
    let curHead := curHead + 1
    if t.numHeads ≤ curHead then
      let t := { t with cylinderLow := t.cylinderLow + 1 }
      if t.cylinderLow = 0 then ({ t with cylinderHigh := t.cylinderHigh + 1 }, 0) else (t, 0)
    else (t, curHead)
  else (t, curHead)

/-- `next_sector`. -/
def nextSector : TaskFile :=
  let next := if t.isLba then t.nextLba else t.nextChs
  { next.1 with deviceHead := (next.1.deviceHead &&& ~~~0x0f#8) ||| next.2 }

/-- What `finished_read` and `finished_write` do with the address: the access, and the advance to
the next sector unless this is the last one. -/
def access : TaskFile :=
  let t := { t with accessed := t.accessed ++ [t.lbaAddress] }
  if t.sectorsRemaining ≠ 1 then t.nextSector else t

/-- What `fill_buffer` and `finished_write` do with the count. -/
def countDown : TaskFile :=
  if 0 < t.sectorsRemaining then
    { t with
      sectorsRemaining := t.sectorsRemaining - 1
      sectorCount := BitVec.ofNat 8 (t.sectorsRemaining - 1)
      sectorCountHob := BitVec.ofNat 8 ((t.sectorsRemaining - 1) >>> 8) }
  else t

end TaskFile

/-! ## The drive -/

/-- What the drive waits for: a command, its busy timer, or the host's transfer of the buffer. -/
inductive Phase
  | ready | busy | drq
deriving DecidableEq, Repr

structure Drive where
  task : TaskFile
  phase : Phase
  /-- `m_identify_buffer[83] & COMMAND_SET_SUPPORTED_LBA48`. -/
  lba48 : Bool
  blockCount : ℕ
  sectorsUntilInt : BitVec 16
  irq : Bool
  dmarq : Bool
  /-- `IDE_STATUS_ERR`. -/
  err : Bool
deriving DecidableEq, Repr

namespace Drive

variable (d : Drive)

/-- The part of `finished_read` and `finished_write` that signals an interrupt. -/
def signal (last : Bool) : Drive :=
  let d := { d with sectorsUntilInt := d.sectorsUntilInt - 1 }
  if d.sectorsUntilInt = 0 ∨ last then
    { d with
      sectorsUntilInt := if d.task.command.isMultiple then BitVec.ofNat 16 d.blockCount else 1
      irq := true }
  else d

/-- `finished_read`. -/
def finishedRead : Drive :=
  let last := d.task.sectorsRemaining = 1 ∧ ¬ d.task.command.isMultiple
  let d := { d with task := d.task.access }
  let d := d.signal last
  { d with phase := .drq, dmarq := d.dmarq || d.task.command.isDma }

/-- `fill_buffer` behind `read_buffer_empty`. -/
def fillBuffer : Drive :=
  let d := { d with phase := .ready, dmarq := false, task := d.task.countDown }
  if 0 < d.task.sectorsRemaining then
    if d.task.command.isMultiple then d.finishedRead
    else { d with irq := false, phase := .busy }
  else d

/-- `finished_write`. -/
def finishedWrite : Drive :=
  let last := d.task.sectorsRemaining = 1
  let d := { d with task := d.task.access, phase := .ready }
  let d := d.signal last
  let d := { d with task := d.task.countDown }
  if 0 < d.task.sectorsRemaining then
    { d with phase := .drq, dmarq := d.dmarq || d.task.command.isDma }
  else d

/-- `process_buffer` behind `write_buffer_full`. -/
def processBuffer : Drive :=
  let d := { d with phase := .ready, dmarq := false }
  if d.task.command.isMultiple ∧ d.sectorsUntilInt ≠ 1 then d.finishedWrite
  else { d with phase := .busy }

/-- `process_command` for the commands that transfer sectors. -/
def processCommand : Drive :=
  if d.task.command.isLba48 ∧ ¬ d.lba48 then { d with phase := .ready, err := true, irq := true }
  else
    let d :=
      { d with
        task := { d.task with sectorsRemaining := d.task.sectorsRequested, accessed := [] } }
    if d.task.command.isRead then
      { d with
        sectorsUntilInt :=
          if d.task.command.isDma then BitVec.ofNat 16 d.task.sectorsRemaining else 1
        phase := .busy }
    else
      { d with
        sectorsUntilInt :=
          if d.task.command.isDma then BitVec.ofNat 16 d.task.sectorsRemaining
          else if d.task.command.isMultiple then BitVec.ofNat 16 d.blockCount else 1
        phase := .drq
        dmarq := d.dmarq || d.task.command.isDma }

/-- The next event of a transfer: a tick of the busy timer, or the end of the host's transfer of the
buffer. -/
def advance : Drive :=
  match d.phase, d.task.command.isRead with
  | .ready, _ => d
  | .busy, true => d.finishedRead
  | .busy, false => d.finishedWrite
  | .drq, true => d.fillBuffer
  | .drq, false => d.processBuffer

/-- A command from the write of the command register to the end of its last sector. A sector takes
two events at most. -/
def transfer : Drive := advance^[2 * d.task.sectorsRequested] d.processCommand

end Drive

end RoscoEmulator.Ata
