import RoscoEmulator.Ata.Addressing
import RoscoEmulator.Ata.Identify
import RoscoEmulator.SdCard.Card

/-!
# The ATA hard disk

`ide_hdd_device_base` over `device_ata_mass_storage_device_interface` over
`device_ata_hle_interface`: the registers, the sector buffer and the two timers of one drive, and
the commands that it executes on them. A drive waits for the host between two calls; what the host
and the timers can call is in the module behind this one.

The drive keeps a log of what it does, oldest first. No operation reads the log. The times that the
timers are set to are left out: a timer is set or not, and one that is set may expire at any time.
-/

namespace RoscoEmulator.Ata

open SdCard (HardDisk)

/-! ## Commands -/

/-- The commands that the drive tells apart. -/
inductive IdeCommand
  | transfer (c : Command)
  | verifySectors | verifySectorsNoretry | verifySectorsExt
  | readBuffer | writeBuffer
  | diagnostic | setFeatures | cacheFlush
  | identifyDevice | setConfig | recalibrate | readNativeMaxAddress
  | securityUnlock | securityDisablePassword
  | idle | idleImmediate | seek | setMax | setBlockCount
  | unknown
deriving DecidableEq, Repr

namespace IdeCommand

/-- The command of a value of `m_command`. -/
def ofByte (command : Byte) : IdeCommand :=
  match command.toNat with
  | 0x10 => recalibrate
  | 0x20 => transfer .readSectors
  | 0x21 => transfer .readSectorsNoretry
  | 0x24 => transfer .readSectorsExt
  | 0x25 => transfer .readDmaExt
  | 0x29 => transfer .readMultipleExt
  | 0x30 => transfer .writeSectors
  | 0x31 => transfer .writeSectorsNoretry
  | 0x34 => transfer .writeSectorsExt
  | 0x35 => transfer .writeDmaExt
  | 0x39 => transfer .writeMultipleExt
  | 0x40 => verifySectors
  | 0x41 => verifySectorsNoretry
  | 0x42 => verifySectorsExt
  | 0x70 => seek
  | 0x90 => diagnostic
  | 0x91 => setConfig
  | 0xc4 => transfer .readMultiple
  | 0xc5 => transfer .writeMultiple
  | 0xc6 => setBlockCount
  | 0xc8 => transfer .readDma
  | 0xca => transfer .writeDma
  | 0xe1 => idleImmediate
  | 0xe3 => idle
  | 0xe4 => readBuffer
  | 0xe7 => cacheFlush
  | 0xe8 => writeBuffer
  | 0xec => identifyDevice
  | 0xef => setFeatures
  | 0xf2 => securityUnlock
  | 0xf6 => securityDisablePassword
  | 0xf8 => readNativeMaxAddress
  | 0xf9 => setMax
  | _ => unknown

/-- `is_lba48`. -/
def isLba48 : IdeCommand → Bool
  | transfer c => c.isLba48
  | verifySectorsExt => true
  | _ => false

/-- `IDE_COMMAND_READ_MULTIPLE`, `IDE_COMMAND_WRITE_MULTIPLE` and their 48-bit forms. -/
def isMultiple : IdeCommand → Bool
  | transfer c => c.isMultiple
  | _ => false

def isDma : IdeCommand → Bool
  | transfer c => c.isDma
  | _ => false

def isVerify : IdeCommand → Bool
  | verifySectors | verifySectorsNoretry | verifySectorsExt => true
  | _ => false

/-- A command that transfers sectors with an address of the same kind. -/
def taskCommand : IdeCommand → Command
  | transfer c => c
  | verifySectorsExt => .readSectorsExt
  | _ => .readSectors

end IdeCommand

/-! ## State -/

/-- The registers that the host sees, and those behind them that hold what was in them before. -/
structure Registers where
  error : Byte
  feature : Byte
  sectorCount : Byte
  sectorCountHob : Byte
  sectorNumber : Byte
  sectorNumberHob : Byte
  cylinderLow : Byte
  cylinderLowHob : Byte
  cylinderHigh : Byte
  cylinderHighHob : Byte
  deviceHead : Byte
  command : Byte
  deviceControl : Byte
deriving DecidableEq, Repr

/-- The bits of `m_status` that the drive uses. -/
structure Status where
  err : Bool
  drq : Bool
  dsc : Bool
  drdy : Bool
  bsy : Bool
deriving DecidableEq, Repr

def Status.toByte (s : Status) : Byte :=
  (if s.err then 0x01 else 0) ||| (if s.drq then 0x08 else 0) ||| (if s.dsc then 0x10 else 0) |||
    (if s.drdy then 0x40 else 0) ||| (if s.bsy then 0x80 else 0)

/-- The lines between the drive and its bus. The outputs for DMARQ, DASP and PDIAG are driven on
every change of their flags. -/
structure Lines where
  csel : Bool
  daspin : Bool
  daspout : Bool
  dmack : Bool
  dmarq : Bool
  irq : Bool
  pdiagin : Bool
  pdiagout : Bool
  /-- The level last driven by `set_irq_out`. -/
  irqOut : Bool
deriving DecidableEq, Repr

/-- The parameter of `m_busy_timer`. -/
inductive Param
  | reset | detectDevice1 | diagnostic | waitForPdiag | command
deriving DecidableEq, Repr

/-- `m_busy_timer`. It keeps its parameter when it has expired. -/
structure BusyTimer where
  param : Param
  pending : Bool
deriving DecidableEq, Repr

/-- `m_buffer`, with the place that the host has got to. -/
structure Buffer where
  bytes : ℕ → Byte
  offset : BitVec 16
  size : BitVec 16

/-- How far a transfer has got. -/
structure Progress where
  blockCount : BitVec 16
  sectorsUntilInt : BitVec 16
  sectorsRemaining : ℕ
deriving DecidableEq, Repr

/-- What `SET FEATURES` changes. -/
structure Modes where
  identifyBuffer : ℕ → BitVec 16
  revertToDefaults : Bool
  eightBitDataTransfers : Bool

/-- Which passwords there are, and which of them the drive still asks for. -/
structure Security where
  masterPassword : Option (List Byte)
  userPassword : Option (List Byte)
  masterPasswordEnable : Bool
  userPasswordEnable : Bool
deriving DecidableEq, Repr

/-- What the drive knows about its place on the bus and about its image. -/
structure Setup where
  singleDevice : Bool
  resetting : Bool
  canIdentifyDevice : Bool
deriving DecidableEq, Repr

/-- What the drive does, as far as its log goes. -/
inductive Effect
  /-- A write of the command register has the drive execute a command. -/
  | started (command : Byte)
  /-- `m_buffer[start]` and the bytes behind it are used. -/
  | bufferUsed (start len : ℕ)
  /-- `SECURITY UNLOCK` compares the buffer with a password. -/
  | passwordUsed (password : Option (List Byte))
  /-- `soft_reset` is called. -/
  | softReset
deriving DecidableEq, Repr

/-- `ide_hdd_device_base`. -/
structure Hdd (M : Type) where
  regs : Registers
  status : Status
  lines : Lines
  busyTimer : BusyTimer
  /-- `m_buffer_empty_timer` is set. -/
  bufferEmpty : Bool
  buffer : Buffer
  progress : Progress
  modes : Modes
  security : Security
  setup : Setup
  geometry : Geometry
  image : Option M
  /-- `get_inquiry_data` of the image. -/
  inquiryData : List Byte
  log : List Effect

namespace Hdd

variable {M : Type} (d : Hdd M)

/-! ## Parts of the drive -/

@[simps] def onRegs (f : Registers → Registers) : Hdd M := { d with regs := f d.regs }

@[simps] def onStatus (f : Status → Status) : Hdd M := { d with status := f d.status }

@[simps] def onLines (f : Lines → Lines) : Hdd M := { d with lines := f d.lines }

@[simps] def onBuffer (f : Buffer → Buffer) : Hdd M := { d with buffer := f d.buffer }

@[simps] def onProgress (f : Progress → Progress) : Hdd M := { d with progress := f d.progress }

@[simps] def onModes (f : Modes → Modes) : Hdd M := { d with modes := f d.modes }

@[simps] def onSecurity (f : Security → Security) : Hdd M := { d with security := f d.security }

@[simps] def onSetup (f : Setup → Setup) : Hdd M := { d with setup := f d.setup }

@[simps] def setBusyTimer (t : BusyTimer) : Hdd M := { d with busyTimer := t }

@[simps] def setBufferEmpty (pending : Bool) : Hdd M := { d with bufferEmpty := pending }

@[simps] def setGeometry (g : Geometry) : Hdd M := { d with geometry := g }

@[simps] def setImage (image : Option M) : Hdd M := { d with image := image }

@[simps] def logged (e : Effect) : Hdd M := { d with log := d.log ++ [e] }

/-- `m_error = error`. -/
def setError (error : Byte) : Hdd M := d.onRegs fun r ↦ { r with error := error }

/-- `IDE_STATUS_ERR`. -/
def setErr (state : Bool) : Hdd M := d.onStatus fun s ↦ { s with err := state }

/-- `IDE_STATUS_DRQ`. -/
def setDrq (state : Bool) : Hdd M := d.onStatus fun s ↦ { s with drq := state }

/-- `IDE_STATUS_BSY`. -/
def setBsy (state : Bool) : Hdd M := d.onStatus fun s ↦ { s with bsy := state }

/-- `m_status = 0`. -/
def clearStatus : Hdd M := d.onStatus fun _ ↦ ⟨false, false, false, false, false⟩

/-- `m_buffer_offset = offset`. -/
def setOffset (offset : BitVec 16) : Hdd M := d.onBuffer fun b ↦ { b with offset := offset }

/-- `m_buffer_size = size`. -/
def setSize (size : BitVec 16) : Hdd M := d.onBuffer fun b ↦ { b with size := size }

/-- `m_block_count = n`. -/
def setBlockCount (n : BitVec 16) : Hdd M := d.onProgress fun p ↦ { p with blockCount := n }

/-- `m_sectors_until_int = n`. -/
def setUntilInt (n : BitVec 16) : Hdd M := d.onProgress fun p ↦ { p with sectorsUntilInt := n }

/-- `m_sectors_remaining = n`. -/
def setRemaining (n : ℕ) : Hdd M := d.onProgress fun p ↦ { p with sectorsRemaining := n }

/-- The command in `m_command`. -/
def command : IdeCommand := IdeCommand.ofByte d.regs.command

/-- `dev`: whether `IDE_DEVICE_HEAD_DRV` is set. -/
def dev : Bool := d.regs.deviceHead.getLsbD 4

/-- `device_selected`. -/
def deviceSelected : Bool := d.lines.csel == d.dev

/-- `m_device_control & IDE_DEVICE_CONTROL_NIEN`. -/
def nIEN : Bool := d.regs.deviceControl.getLsbD 1

/-- `m_device_control & IDE_DEVICE_CONTROL_SRST`. -/
def srst : Bool := d.regs.deviceControl.getLsbD 2

/-- `m_identify_buffer[83] & COMMAND_SET_SUPPORTED_LBA48`. -/
def supportsLba48 : Bool := d.modes.identifyBuffer 83 &&& commandSetSupportedLba48 ≠ 0

/-- `is_hob`. -/
def isHob : Bool := d.regs.deviceControl.getLsbD 7 && d.supportsLba48

/-- The registers that the sector address is in. -/
def taskFile : TaskFile where
  command := d.command.taskCommand
  numSectors := d.geometry.sectors
  numHeads := d.geometry.heads
  deviceHead := d.regs.deviceHead
  sectorCount := d.regs.sectorCount
  sectorCountHob := d.regs.sectorCountHob
  sectorNumber := d.regs.sectorNumber
  sectorNumberHob := d.regs.sectorNumberHob
  cylinderLow := d.regs.cylinderLow
  cylinderLowHob := d.regs.cylinderLowHob
  cylinderHigh := d.regs.cylinderHigh
  cylinderHighHob := d.regs.cylinderHighHob
  sectorsRemaining := d.progress.sectorsRemaining
  accessed := []

/-- `lba_address`. -/
def lbaAddress : ℕ := d.taskFile.lbaAddress

/-- `sectors_remaining`. -/
def sectorsRequested : ℕ := d.taskFile.sectorsRequested

/-! ## Transfer modes -/

/-- `bit_to_mode`. The modes of a word are in its high byte; `none` is `-1`. -/
def bitToMode (word : BitVec 16) : Option ℕ :=
  match (word >>> 8).toNat with
  | 0x01 => some 0
  | 0x02 => some 1
  | 0x04 => some 2
  | 0x08 => some 3
  | 0x10 => some 4
  | 0x20 => some 5
  | 0x40 => some 6
  | 0x80 => some 7
  | _ => none

/-- `single_word_dma_mode`. -/
def singleWordDmaMode : Option ℕ := bitToMode (d.modes.identifyBuffer 62)

/-- `multi_word_dma_mode`. -/
def multiWordDmaMode : Option ℕ := bitToMode (d.modes.identifyBuffer 63)

/-- `ultra_dma_mode`. -/
def ultraDmaMode : Option ℕ := bitToMode (d.modes.identifyBuffer 88)

/-! ## Lines -/

/-- `update_irq`. -/
def updateIrq : Hdd M :=
  if d.deviceSelected ∧ ¬ d.nIEN then d.onLines fun l ↦ { l with irqOut := l.irq }
  else d.onLines fun l ↦ { l with irqOut := false }

/-- `set_irq`. -/
def setIrq (state : Bool) : Hdd M :=
  if d.lines.irq ≠ state then (d.onLines fun l ↦ { l with irq := state }).updateIrq else d

/-- `set_dmarq`. -/
def setDmarq (state : Bool) : Hdd M := d.onLines fun l ↦ { l with dmarq := state }

/-- `set_dasp`. -/
def setDasp (state : Bool) : Hdd M := d.onLines fun l ↦ { l with daspout := state }

/-- `set_pdiag`. -/
def setPdiag (state : Bool) : Hdd M := d.onLines fun l ↦ { l with pdiagout := state }

/-! ## The busy timer -/

/-- `start_busy`. A time of `never` sets the parameter only. -/
def startBusy (expires : Bool) (param : Param) : Hdd M :=
  (d.setBsy true).setBusyTimer ⟨param, expires⟩

/-- `stop_busy`. `adjust` has a parameter of `0` by default, which is `PARAM_RESET`. -/
def stopBusy : Hdd M :=
  (d.setBsy false).setBusyTimer ⟨.reset, false⟩

/-- The error that ends a command which the drive does not execute. -/
def abortCommand : Hdd M := (d.setErr true).setError 0x04

/-! ## Reset and diagnostic -/

/-- `soft_reset`. -/
def softReset : Hdd M :=
  let d := (((d.logged .softReset).setOffset 0).setSize 0).clearStatus
  let d := d.startBusy true .diagnostic
  let d := d.onStatus fun s ↦ { s with dsc := true }
  d.onSecurity fun s ↦
    { s with
      masterPasswordEnable := s.masterPassword.isSome
      userPasswordEnable := s.userPassword.isSome }

/-- `interface_post_reset`. -/
def interfacePostReset : Hdd M :=
  let d := (((d.setDasp false).setDmarq false).setIrq false).setPdiag false
  let d := d.clearStatus
  let d := d.onRegs fun r ↦ { r with deviceControl := 0 }
  let d := d.onSetup fun s ↦ { s with resetting := true }
  if ¬ d.lines.csel then d.startBusy true .detectDevice1 else (d.setDasp true).softReset

/-- `signature`. -/
def signature : Hdd M :=
  d.onRegs fun r ↦
    { r with
      sectorCount := 1, sectorNumber := 1, cylinderLow := 0, cylinderHigh := 0, deviceHead := 0 }

/-- `perform_diagnostic`. -/
def performDiagnostic : Hdd M :=
  if d.setup.canIdentifyDevice then d.setError 0x01 else d

/-- `finished_diagnostic`. -/
def finishedDiagnostic : Hdd M :=
  let d := d.onSetup fun s ↦ { s with resetting := false }
  let d := d.onStatus fun s ↦ { s with drdy := true }
  d.signature

/-- `start_diagnostic` up to the point where it may have to wait for the other drive. -/
def diagnose : Hdd M :=
  let d := (d.setError 0x00).performDiagnostic
  if d.lines.csel ∧ d.regs.error = 0x01 then d.setPdiag true else d

/-- `start_diagnostic`. -/
def startDiagnostic : Hdd M :=
  let d := d.diagnose
  if ¬ d.lines.csel ∧ ¬ d.setup.singleDevice ∧ ¬ d.lines.pdiagin then
    d.startBusy true .waitForPdiag
  else d.finishedDiagnostic

/-! ## Sectors -/

/-- The drive puts bytes into its buffer. -/
def putBytes (start : ℕ) (bytes : List Byte) : Hdd M :=
  (d.logged (.bufferUsed start bytes.length)).onBuffer fun b ↦
    { b with
      bytes := fun i ↦
        if start ≤ i ∧ i < start + bytes.length then bytes.getD (i - start) 0 else b.bytes i }

/-- `next_sector`. -/
def nextSector : Hdd M :=
  let t := d.taskFile.nextSector
  d.onRegs fun r ↦
    { r with
      sectorNumber := t.sectorNumber
      cylinderLow := t.cylinderLow
      cylinderHigh := t.cylinderHigh
      deviceHead := t.deviceHead }

/-- `m_sectors_remaining` goes down by one, with the registers that show it. -/
def countDown : Hdd M :=
  if 0 < d.progress.sectorsRemaining then
    (d.setRemaining (d.progress.sectorsRemaining - 1)).onRegs fun r ↦
      { r with
        sectorCount := BitVec.ofNat 8 (d.progress.sectorsRemaining - 1)
        sectorCountHob := BitVec.ofNat 8 ((d.progress.sectorsRemaining - 1) >>> 8) }
  else d

/-- The part of `finished_read` and `finished_write` that advances the address, unless this is the
last sector. -/
def passSector : Hdd M := if d.progress.sectorsRemaining ≠ 1 then d.nextSector else d

/-- The part of `finished_read` and `finished_write` that signals an interrupt. -/
def signal (last : Bool) : Hdd M :=
  let d := d.setUntilInt (d.progress.sectorsUntilInt - 1)
  if d.progress.sectorsUntilInt = 0 ∨ last then
    (d.setUntilInt (if d.command.isMultiple then d.progress.blockCount else 1)).setIrq true
  else d

/-- The part of `finished_read` and `finished_write` that asks the host for the next buffer. -/
def requestData : Hdd M :=
  let d := d.setDrq true
  if d.command.isDma then d.setDmarq true else d

/-- The part of `finished_read` and `finished_write` that reports an error. -/
def badSector : Hdd M := ((d.setErr true).setError 0x80).setIrq true

/-- `security_error`. -/
def securityError : Hdd M := d.abortCommand

/-- `read_first_sector`. -/
def readFirstSector : Hdd M :=
  if d.security.masterPasswordEnable ∨ d.security.userPasswordEnable then d.securityError
  else (d.setDasp true).startBusy true .command

/-- The password that `SECURITY UNLOCK` compares. -/
def selectedPassword : Option (List Byte) :=
  if (d.buffer.bytes 0).getLsbD 0 then d.security.masterPassword else d.security.userPassword

/-- `process_buffer` for `SECURITY UNLOCK`. -/
def unlock : Hdd M :=
  let password := d.selectedPassword
  let d := ((d.logged (.bufferUsed 0 1)).logged (.passwordUsed password)).logged (.bufferUsed 2 32)
  let d :=
    if password.map (List.take 32) = some ((List.range 32).map fun i ↦ d.buffer.bytes (2 + i)) then
      if (d.buffer.bytes 0).getLsbD 0 then
        d.onSecurity fun s ↦ { s with masterPasswordEnable := false }
      else d.onSecurity fun s ↦ { s with userPasswordEnable := false }
    else d
  if d.security.masterPasswordEnable ∨ d.security.userPasswordEnable then d.securityError else d

/-! ## Execution of commands -/

/-- `clear_dma_modes`. -/
def clearDmaModes : Hdd M :=
  d.onModes fun m ↦
    { m with
      identifyBuffer := fun i ↦
        if i = 62 ∨ i = 63 ∨ i = 88 then m.identifyBuffer i &&& 0xff else m.identifyBuffer i }

/-- `set_dma_mode`. -/
def setDmaMode (word : ℕ) : Bool × Hdd M :=
  let mode := (d.regs.sectorCount &&& 7).toNat
  if (d.modes.identifyBuffer word).getLsbD mode then
    (true, d.clearDmaModes.onModes fun m ↦
      { m with
        identifyBuffer := fun i ↦
          if i = word then m.identifyBuffer i ||| 0x100#16 <<< mode else m.identifyBuffer i })
  else (false, d)

/-- `set_features`. -/
def setFeatures : Bool × Hdd M :=
  match d.regs.feature.toNat with
  | 0x01 => (true, d.onModes fun m ↦ { m with eightBitDataTransfers := true })
  | 0x03 =>
      let mode := (d.regs.sectorCount &&& 7).toNat
      match (d.regs.sectorCount &&& 0xf8).toNat with
      | 0x00 => (decide (mode ≤ 1), d)
      | 0x08 =>
          if mode ≤ 2 then (true, d)
          else if (d.modes.identifyBuffer 64).getLsbD (mode - 3) then (true, d.clearDmaModes)
          else (false, d)
      | 0x10 => d.setDmaMode 62
      | 0x20 => d.setDmaMode 63
      | 0x40 => d.setDmaMode 88
      | _ => (false, d)
  | 0x66 => (true, d.onModes fun m ↦ { m with revertToDefaults := false })
  | 0x81 => (true, d.onModes fun m ↦ { m with eightBitDataTransfers := false })
  | 0xcc => (true, d.onModes fun m ↦ { m with revertToDefaults := true })
  | 0x88 | 0x99 | 0xaa => (true, d)
  | _ => (false, d)

/-- The bytes of `m_identify_buffer`. -/
def identifyBytes : List Byte :=
  (List.range 512).map fun i ↦
    if i % 2 = 0 then (d.modes.identifyBuffer (i / 2)).setWidth 8
    else (d.modes.identifyBuffer (i / 2) >>> 8).setWidth 8

/-- `finished_command` for `IDENTIFY DEVICE`. -/
def finishedIdentify : Hdd M :=
  let d :=
    if d.setup.canIdentifyDevice then (d.putBytes 0 d.identifyBytes).setDrq true
    else (d.setErr true).setError 0
  d.setIrq true

/-- `finished_command` for `SET FEATURES`. -/
def finishedSetFeatures : Hdd M :=
  (if d.setFeatures.1 then d.setFeatures.2 else d.setFeatures.2.abortCommand).setIrq true

/-- The geometry that `SET CONFIG` sets. The number of sectors is a byte, so that the `0x100` that a
count of zero stands for becomes zero. -/
def configuredGeometry : Geometry :=
  { d.geometry with
    sectors := BitVec.ofNat 8 (if d.regs.sectorCount ≠ 0 then d.regs.sectorCount.toNat else 0x100)
    heads := (d.regs.deviceHead &&& 0x0f) + 1 }

/-- The big-endian bytes of a 32-bit number. -/
def bigEndian (n : BitVec 32) : List Byte :=
  [(n >>> 24).setWidth 8, (n >>> 16).setWidth 8, (n >>> 8).setWidth 8, n.setWidth 8]

/-- The block count that `SET MULTIPLE` sets. -/
def blockCountArgument : BitVec 16 :=
  BitVec.ofNat 16 (if d.regs.sectorCount ≠ 0 then d.regs.sectorCount.toNat else 0x100)

/-- `process_command` for a command that the drive does not know. -/
def unknownCommand : Hdd M := d.abortCommand.setIrq true

/-- `process_command` for the commands that transfer sectors. -/
def processTransfer (c : Command) : Hdd M :=
  let d := d.setRemaining d.sectorsRequested
  let sectors := BitVec.ofNat 16 d.progress.sectorsRemaining
  if c.isRead then (d.setUntilInt (if c.isDma then sectors else 1)).readFirstSector
  else
    let d :=
      d.setUntilInt
        (if c.isDma then sectors else if c.isMultiple then d.progress.blockCount else 1)
    if c.isDma then (d.setDrq true).setDmarq true else d.setDrq true

/-- The switch of `process_command`. -/
def dispatchCommand : Hdd M :=
  match d.command with
  | .transfer c => d.processTransfer c
  | .readBuffer => (((d.setRemaining d.sectorsRequested).setUntilInt 1).setOffset 0).readFirstSector
  | .verifySectors | .verifySectorsNoretry | .verifySectorsExt =>
      ((d.setRemaining d.sectorsRequested).setUntilInt
        (BitVec.ofNat 16 d.sectorsRequested)).readFirstSector
  | .writeBuffer => (((d.setRemaining d.sectorsRequested).setUntilInt 1).setOffset 0).setDrq true
  | .securityUnlock | .securityDisablePassword => (d.setDrq true).setIrq true
  | .identifyDevice | .recalibrate | .setConfig | .readNativeMaxAddress | .diagnostic
    | .setFeatures | .cacheFlush => d.startBusy true .command
  | .setBlockCount => (d.setBlockCount d.blockCountArgument).setIrq true
  | .idle | .idleImmediate | .setMax | .seek => d.setIrq true
  | .unknown => d.unknownCommand

/-- `process_command`. -/
def processCommand : Hdd M :=
  if d.command.isLba48 ∧ ¬ d.supportsLba48 then d.unknownCommand
  else ((d.setUntilInt 0).setSize 512).dispatchCommand

/-! ## The ends of a command -/

section Image

variable [HardDisk M]

/-- `read_sector` into the buffer. -/
def readSector (lba : ℕ) : Bool × Hdd M :=
  match d.image with
  | none => (false, d)
  | some m =>
      let (status, bytes) := HardDisk.read m (BitVec.ofNat 32 lba)
      (status, d.putBytes 0 bytes)

/-- `write_sector` from the buffer. -/
def writeSector (lba : ℕ) : Bool × Hdd M :=
  match d.image with
  | none => (false, d)
  | some m =>
      let bytes := (List.range (HardDisk.unitBytes m)).map d.buffer.bytes
      let (status, m) := HardDisk.write m (BitVec.ofNat 32 lba) bytes
      (status, (d.logged (.bufferUsed 0 bytes.length)).setImage (some m))

/-- The read of `finished_read`. -/
def fetchSector : Bool × Hdd M :=
  if d.command = .readBuffer then (true, d) else d.readSector d.lbaAddress

/-- The write of `finished_write`. -/
def storeSector : Bool × Hdd M :=
  if d.command = .writeBuffer then (true, d) else d.writeSector d.lbaAddress

/-- `finished_read`, with `read_buffer_empty` as a parameter. -/
def finishedReadWith (readBufferEmpty : Hdd M → Hdd M) : Hdd M :=
  let fetched := (d.setDasp false).fetchSector
  let d := fetched.2
  if fetched.1 then
    let d := d.passSector.signal (d.progress.sectorsRemaining = 1 ∧ ¬ d.command.isMultiple)
    if d.command.isVerify then readBufferEmpty d else d.requestData
  else d.badSector

/-- `fill_buffer`, with `finished_read` as a parameter. -/
def fillBufferWith (finishedRead : Hdd M → Hdd M) : Hdd M :=
  match d.command with
  | .identifyDevice => d
  | .transfer .readMultiple | .transfer .readMultipleExt =>
      let d := d.countDown
      if 0 < d.progress.sectorsRemaining then finishedRead d else d
  | .readBuffer => d.setIrq true
  | _ =>
      let d := d.countDown
      if 0 < d.progress.sectorsRemaining then
        ((d.setIrq false).setDasp true).startBusy true .command
      else d

/-- `read_buffer_empty`, with `fill_buffer` as a parameter. -/
def readBufferEmptyWith (fillBuffer : Hdd M → Hdd M) : Hdd M :=
  let d := ((d.setOffset 0).setDrq false).setDmarq false
  if d.ultraDmaMode.isSome then d.setBufferEmpty true else fillBuffer d

/-- `finished_read`. Of the three functions that call each other only a verify gets here to
`read_buffer_empty`, and its `fill_buffer` does not come back. -/
def finishedRead : Hdd M :=
  d.finishedReadWith fun d ↦ d.readBufferEmptyWith fun d ↦ d.fillBufferWith fun d ↦ d

/-- `fill_buffer`. -/
def fillBuffer : Hdd M := d.fillBufferWith fun d ↦ d.finishedRead

/-- `read_buffer_empty`. -/
def readBufferEmpty : Hdd M := d.readBufferEmptyWith fun d ↦ d.fillBuffer

/-- `finished_write`. -/
def finishedWrite : Hdd M :=
  let stored := (d.setDasp false).storeSector
  let d := stored.2
  if stored.1 then
    let d := (d.passSector.signal (d.progress.sectorsRemaining = 1)).countDown
    if 0 < d.progress.sectorsRemaining then d.requestData else d
  else d.badSector

/-- `process_buffer`. -/
def processBuffer : Hdd M :=
  match d.command with
  | .securityUnlock => d.unlock
  | .securityDisablePassword => d
  | .writeBuffer => d.setIrq true
  | .transfer .writeMultiple | .transfer .writeMultipleExt =>
      let d := d.setDasp true
      if d.progress.sectorsUntilInt ≠ 1 then d.finishedWrite else d.startBusy true .command
  | _ => (d.setDasp true).startBusy true .command

/-- `write_buffer_full`. -/
def writeBufferFull : Hdd M := (((d.setOffset 0).setDrq false).setDmarq false).processBuffer

/-- `finished_command`. -/
def finishedCommand : Hdd M :=
  match d.command with
  | .identifyDevice => d.finishedIdentify
  | .setConfig => (d.setGeometry d.configuredGeometry).setIrq true
  | .transfer c => if c.isRead then d.finishedRead else d.finishedWrite
  | .verifySectors | .verifySectorsNoretry | .verifySectorsExt | .readBuffer => d.finishedRead
  | .writeBuffer => d.finishedWrite
  | .readNativeMaxAddress => (d.putBytes 0 (bigEndian d.geometry.totalSectors)).setIrq true
  | .diagnostic =>
      let d := d.startDiagnostic
      if ¬ d.lines.csel then d.setIrq true else d
  | .setFeatures => d.finishedSetFeatures
  | .recalibrate | .cacheFlush => d.setIrq true
  | _ => d

end Image

end Hdd

end RoscoEmulator.Ata
