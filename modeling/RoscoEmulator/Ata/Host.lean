import RoscoEmulator.Ata.Hdd
import RoscoEmulator.Lib.GuardedRun

/-!
# What reaches an ATA hard disk

The host reads and writes the data, command and control registers of a drive, with or without DMA,
by words of 16 bits; the bus passes on the lines of the other drive; the two timers expire; and the
machine is reset. `Hdd.step` is all that can happen to a drive.
-/

namespace RoscoEmulator.Ata

open SdCard (HardDisk)

/-- `data.b.l = byte`. -/
def setLow (data : BitVec 16) (byte : Byte) : BitVec 16 := (data &&& 0xff00) ||| byte.setWidth 16

namespace Hdd

variable {M : Type} (d : Hdd M)

/-! ## Lines -/

/-- `set_dmack_in`. -/
def setDmackIn (state : Bool) : Hdd M :=
  let d := if state ∧ ¬ d.lines.dmack ∧ d.singleWordDmaMode.isSome then d.setDmarq false else d
  d.onLines fun l ↦ { l with dmack := state }

/-- `set_dasp_in`. -/
def setDaspIn (state : Bool) : Hdd M := d.onLines fun l ↦ { l with daspin := state }

/-- `set_pdiag_in`. -/
def setPdiagIn (state : Bool) : Hdd M :=
  let d := d.onLines fun l ↦ { l with pdiagin := state }
  if state ∧ d.busyTimer.param = .waitForPdiag then d.stopBusy.finishedDiagnostic else d

/-! ## The data register -/

/-- The number of bytes that an access of the data register moves. -/
def width : ℕ := if d.modes.eightBitDataTransfers then 1 else 2

/-- `m_buffer[m_buffer_offset++] = byte`. -/
def pushByte (byte : Byte) : Hdd M :=
  (d.putBytes d.buffer.offset.toNat [byte]).setOffset (d.buffer.offset + 1)

/-- The bytes of a word that the host writes go into the buffer. -/
def pushWord (data : BitVec 16) : Hdd M :=
  let d' := d.pushByte (data.setWidth 8)
  if d.width = 2 then d'.pushByte ((data >>> 8).setWidth 8) else d'

/-- The drive takes a data access by DMA. -/
def takesDma : Bool :=
  d.deviceSelected && d.lines.dmack && !(d.lines.dmarq && d.singleWordDmaMode.isSome) &&
    !(!d.lines.dmarq && d.multiWordDmaMode.isSome) &&
    !(!d.lines.dmarq && d.ultraDmaMode.isSome) && !d.status.bsy && d.status.drq

/-- The part of `dma_r` and `dma_w` behind the access. -/
def requestWord : Hdd M :=
  if d.status.drq ∧ d.singleWordDmaMode.isSome then d.setDmarq true else d

/-- The error of a data phase that a register write ends. -/
def abortTransfer : Hdd M :=
  ((d.stopBusy.setDrq false).setDmarq false).abortCommand

/-- A register write that ends a data phase: all but that of the data, and of the device and head
that are there already. The comparison is of all 16 bits. -/
def abortsTransfer (offset : ℕ) (data : BitVec 16) : Bool :=
  d.status.drq && offset ≠ 0 && (offset ≠ 6 || data ≠ d.regs.deviceHead.setWidth 16)

/-- The write of the device and head register. -/
def writeDeviceHead (data : Byte) : Hdd M :=
  let drvChanged := (d.regs.deviceHead ^^^ data).getLsbD 4
  let d := d.onRegs fun r ↦ { r with deviceHead := data }
  if drvChanged then d.updateIrq else d

/-- The write of the command register by a drive that executes the command. -/
def startCommand (data : Byte) : Hdd M :=
  let d := (d.logged (.started data)).onRegs fun r ↦ { r with command := data }
  let d := ((d.setOffset 0).setErr false).setError 0
  ((d.setIrq false).setDasp false).processCommand

/-- A drive takes a write of the command register: one that is selected, and one that has just
executed `EXECUTE DEVICE DIAGNOSTIC`. -/
def takesCommand : Bool := d.deviceSelected || d.regs.command = 0x90

/-- A drive answers a read of its registers. -/
def responds : Bool := d.deviceSelected || (d.setup.singleDevice && !d.lines.csel)

/-- The status that a read gives. -/
def readStatus : Byte := if d.deviceSelected then d.status.toByte else 0

/-- `control_r`. -/
def controlR (offset : ℕ) (data : BitVec 16) : BitVec 16 × Hdd M :=
  if ¬ d.responds then (data, d)
  else if d.lines.dmack then (data, d)
  else
    match offset with
    | 6 => (setLow data d.readStatus, d)
    | 7 => (setLow data (if d.deviceSelected then 1 else 0), d)
    | _ => (data, d)

/-- `control_w` behind a change of `IDE_DEVICE_CONTROL_SRST`. -/
def changeSrst : Hdd M :=
  if d.srst then
    if d.setup.resetting then d
    else ((((d.setDasp false).setDmarq false).setIrq false).setPdiag false).startBusy false .reset
  else if d.busyTimer.param = .reset then d.softReset
  else d

/-- The write of the device control register. -/
def writeDeviceControl (data : Byte) : Hdd M :=
  let changed := d.regs.deviceControl ^^^ data
  let d := d.onRegs fun r ↦ { r with deviceControl := data }
  let d := if changed.getLsbD 1 then d.updateIrq else d
  if changed.getLsbD 2 then d.changeSrst else d

/-- `control_w`. -/
def controlW (offset : ℕ) (data : BitVec 16) : Hdd M :=
  if d.lines.dmack then d
  else if offset = 6 then d.writeDeviceControl (data.setWidth 8)
  else d

section Image

variable [HardDisk M]

/-- `read_data`. -/
def readData (data : BitVec 16) : BitVec 16 × Hdd M :=
  let offset := d.buffer.offset.toNat
  let data := setLow data (d.buffer.bytes offset)
  let data :=
    if d.width = 2 then (d.buffer.bytes (offset + 1)).setWidth 16 <<< 8 ||| data &&& 0xff else data
  let d := d.logged (.bufferUsed offset d.width)
  let d := d.setOffset (d.buffer.offset + BitVec.ofNat 16 d.width)
  (data, if d.buffer.size ≤ d.buffer.offset then d.readBufferEmpty else d)

/-- `write_data`. -/
def writeData (data : BitVec 16) : Hdd M :=
  let d := d.pushWord data
  if d.buffer.size ≤ d.buffer.offset then d.writeBufferFull else d

/-- `dma_r`. -/
def dmaR (data : BitVec 16) : BitVec 16 × Hdd M :=
  if d.takesDma then ((d.readData data).1, (d.readData data).2.requestWord) else (data, d)

/-- `dma_w`. -/
def dmaW (data : BitVec 16) : Hdd M := if d.takesDma then (d.writeData data).requestWord else d

/-- `command_r` from a drive that responds and is neither in a DMA cycle nor busy, or from the data
register of one that is. -/
def readRegister (offset : ℕ) (data : BitVec 16) : BitVec 16 × Hdd M :=
  match offset with
  | 0 => if d.deviceSelected ∧ ¬ d.status.bsy ∧ d.status.drq then d.readData data else (data, d)
  | 1 => (setLow data d.regs.error, d)
  | 2 => (setLow data (if d.isHob then d.regs.sectorCountHob else d.regs.sectorCount), d)
  | 3 => (setLow data (if d.isHob then d.regs.sectorNumberHob else d.regs.sectorNumber), d)
  | 4 => (setLow data (if d.isHob then d.regs.cylinderLowHob else d.regs.cylinderLow), d)
  | 5 => (setLow data (if d.isHob then d.regs.cylinderHighHob else d.regs.cylinderHigh), d)
  | 6 => (setLow data d.regs.deviceHead, d)
  | 7 => (setLow data d.readStatus, if d.deviceSelected then d.setIrq false else d)
  | _ => (data, d)

/-- `command_r`. -/
def commandR (offset : ℕ) (data : BitVec 16) : BitVec 16 × Hdd M :=
  if ¬ d.responds then (data, d)
  else if d.lines.dmack then (data, d)
  else if d.status.bsy ∧ offset ≠ 0 then (setLow data d.readStatus, d)
  else d.readRegister offset data

/-- `command_w` to a drive that is neither busy nor in a DMA cycle. -/
def writeRegister (offset : ℕ) (data : BitVec 16) : Hdd M :=
  let byte := data.setWidth 8
  match offset with
  | 0 => if d.deviceSelected ∧ d.status.drq then d.writeData data else d
  | 1 => d.onRegs fun r ↦ { r with feature := byte }
  | 2 => d.onRegs fun r ↦ { r with sectorCountHob := r.sectorCount, sectorCount := byte }
  | 3 => d.onRegs fun r ↦ { r with sectorNumberHob := r.sectorNumber, sectorNumber := byte }
  | 4 => d.onRegs fun r ↦ { r with cylinderLowHob := r.cylinderLow, cylinderLow := byte }
  | 5 => d.onRegs fun r ↦ { r with cylinderHighHob := r.cylinderHigh, cylinderHigh := byte }
  | 6 => d.writeDeviceHead byte
  | 7 => if d.takesCommand then d.startCommand byte else d
  | _ => d

/-- The abort of a data phase with which `command_w` begins. -/
def beginWrite (offset : ℕ) (data : BitVec 16) : Hdd M :=
  if d.abortsTransfer offset data then d.abortTransfer else d

/-- `command_w`. -/
def commandW (offset : ℕ) (data : BitVec 16) : Hdd M :=
  let d := d.beginWrite offset data
  if d.status.bsy then d else if d.lines.dmack then d else d.writeRegister offset data

/-! ## Timers -/

/-- `finished_busy`. -/
def finishedBusy (param : Param) : Hdd M :=
  match param with
  | .reset => d
  | .detectDevice1 => (d.onSetup fun s ↦ { s with singleDevice := !d.lines.daspin }).softReset
  | .diagnostic => d.startDiagnostic
  | .waitForPdiag => (d.setError (d.regs.error ||| 0x80)).finishedDiagnostic
  | .command => d.finishedCommand

/-- `busy_tick`, when the timer has expired. -/
def busyTick : Hdd M :=
  if d.busyTimer.pending then
    ((d.setBsy false).setBusyTimer { d.busyTimer with pending := false }).finishedBusy
      d.busyTimer.param
  else d

/-- `empty_tick`, when the timer has expired. -/
def emptyTick : Hdd M := if d.bufferEmpty then (d.setBufferEmpty false).fillBuffer else d

/-! ## Resets -/

/-- The geometry of a disk whose sectors have 512 bytes. -/
def diskGeometry (info : SdCard.Info) : Geometry where
  cylinders := BitVec.ofNat 32 info.cylinders
  heads := BitVec.ofNat 8 info.heads
  sectors := BitVec.ofNat 8 info.sectors

/-- `device_reset`. -/
def deviceReset : Hdd M :=
  match d.image with
  | none => d
  | some m =>
      if d.setup.canIdentifyDevice then d
      else
        let info := HardDisk.info m
        let d := if info.sectorbytes = 512 then d.setGeometry (diskGeometry info) else d
        let d := d.onModes fun m ↦
          { m with identifyBuffer := featuresPage d.inquiryData d.geometry }
        d.onSetup fun s ↦ { s with canIdentifyDevice := true }

/-- A reset of the machine. -/
def reset : Hdd M := d.deviceReset.interfacePostReset

end Image

/-- The drive behind its constructor, as device number `csel`. -/
def start (csel : Bool) (image : Option M) (inquiryData : List Byte)
    (masterPassword userPassword : Option (List Byte)) : Hdd M where
  regs := ⟨0, 0, 0, 0, 0, 0, 0, 0, 0, 0, 0, 0, 0⟩
  status := ⟨false, false, false, false, false⟩
  lines := ⟨csel, false, false, false, false, false, false, false, false⟩
  busyTimer := ⟨.reset, false⟩
  bufferEmpty := false
  buffer := ⟨fun _ ↦ 0, 0, 0⟩
  progress := ⟨0, 0, 0⟩
  modes := ⟨fun _ ↦ 0, true, false⟩
  security := ⟨masterPassword, userPassword, masterPassword.isSome, userPassword.isSome⟩
  setup := ⟨false, false, false⟩
  geometry := ⟨0, 0, 0⟩
  image := image
  inquiryData := inquiryData
  log := []

end Hdd

/-! ## Steps -/

/-- What can happen to a drive. -/
inductive Event
  | readDma
  | writeDma (data : BitVec 16)
  | dmackIn (state : Bool)
  | readCs0 (offset : ℕ)
  | writeCs0 (offset : ℕ) (data : BitVec 16)
  | readCs1 (offset : ℕ)
  | writeCs1 (offset : ℕ) (data : BitVec 16)
  | daspIn (state : Bool)
  | pdiagIn (state : Bool)
  | busyTick
  | emptyTick
  | reset
deriving DecidableEq, Repr

namespace Hdd

variable {M : Type} [HardDisk M]

/-- The drive after an event. -/
def step (d : Hdd M) : Event → Hdd M
  | .readDma => (d.dmaR 0xffff).2
  | .writeDma data => d.dmaW data
  | .dmackIn state => d.setDmackIn state
  | .readCs0 offset => (d.commandR offset 0xffff).2
  | .writeCs0 offset data => d.commandW offset data
  | .readCs1 offset => (d.controlR offset 0xffff).2
  | .writeCs1 offset data => d.controlW offset data
  | .daspIn state => d.setDaspIn state
  | .pdiagIn state => d.setPdiagIn state
  | .busyTick => d.busyTick
  | .emptyTick => d.emptyTick
  | .reset => d.reset

/-- What an event answers. -/
def answer (d : Hdd M) : Event → BitVec 16
  | .readDma => (d.dmaR 0xffff).1
  | .readCs0 offset => (d.commandR offset 0xffff).1
  | .readCs1 offset => (d.controlR offset 0xffff).1
  | _ => 0xffff

/-- The drive after events. -/
def run (d : Hdd M) (es : List Event) : Hdd M := Run.run step d es

end Hdd

end RoscoEmulator.Ata
