import Mathlib
import RoscoEmulator.Util.Hashing

/-!
# The SPI SD card

The card is a byte machine behind a pair of shift registers. The byte machine, `Core`, has two
operations: `receive` is what `latch_in` does with a completed byte, and `shiftByte` is what
`shift_out` does at a byte boundary, where it takes the next byte to send. The registers and lines
around it, `Wire`, count clock edges. The mounted hard disk is any type with the operations of
`HardDisk`.

The card keeps a log of what it does, oldest first: the bytes it receives, the commands it executes,
the parts of its buffers that it uses, and its calls of the hard disk. No operation reads the log.

Lengths of at most `2048` bytes are all that a card accepts, so that of the 16-bit counters only
`m_write_ptr` can wrap.
-/

namespace RoscoEmulator.SdCard

abbrev Byte : Type := BitVec 8

/-! ## The hard disk -/

/-- `hard_disk_file::info`. -/
structure Info where
  cylinders : ℕ
  heads : ℕ
  sectors : ℕ
  sectorbytes : ℕ
deriving DecidableEq, Repr

/-- `total_blocks`, a 64-bit number. -/
def Info.totalBlocks (info : Info) : ℕ := info.cylinders * info.heads * info.sectors % 2 ^ 64

/-- What the card uses of the hard disk behind `harddisk_image_device`. -/
class HardDisk (M : Type) where
  info : M → Info
  /-- How many bytes of a buffer a read fills and a write takes: the sector size of a raw image, and
  `unit_bytes` of a CHD, which need not be its sector size. -/
  unitBytes : M → ℕ
  /-- Whether the read succeeds, and the bytes that it puts into the buffer. -/
  read : M → BitVec 32 → Bool × List Byte
  /-- Whether the write succeeds, and the disk after it. -/
  write : M → BitVec 32 → List Byte → Bool × M
  length_read_le : ∀ m lba, (read m lba).2.length ≤ unitBytes m
  info_write : ∀ m lba bytes, info (write m lba bytes).2 = info m
  unitBytes_write : ∀ m lba bytes, unitBytes (write m lba bytes).2 = unitBytes m

/-- A hard disk in memory. -/
structure MemoryDisk where
  info : Info
  blocks : BitVec 32 → List Byte

instance : HardDisk MemoryDisk where
  info m := m.info
  unitBytes m := m.info.sectorbytes
  read m lba := (true, (m.blocks lba).take m.info.sectorbytes)
  write m lba bytes := (true, { m with blocks := fun i ↦ if i = lba then bytes else m.blocks i })
  length_read_le m lba := by
    rw [List.length_take]
    exact Nat.min_le_left _ _
  info_write _ _ _ := rfl
  unitBytes_write _ _ _ := rfl

/-! ## State -/

/-- `sd_type`. -/
inductive SdType
  | v2 | hc
deriving DecidableEq, Repr

/-- `sd_state`. -/
inductive SdState
  | idle | ready | ident | stby | tran | data | dataMulti | rcv | prg | dis | ina
  | writeWaitFE | writeData
deriving DecidableEq, Repr

/-- What the card does, as far as its log goes. -/
inductive Effect
  /-- `latch_in` has completed a byte. -/
  | received (byte : Byte)
  /-- `do_command` executes the bytes in `m_cmd`. -/
  | executed (cmd : List Byte)
  /-- `send_data` is called. -/
  | sent (count delay : ℕ)
  /-- `m_data[start]` and the bytes behind it are written. -/
  | dataWritten (start len : ℕ)
  /-- `m_data[start]` and the bytes behind it are read. -/
  | dataRead (start len : ℕ)
  /-- The sector buffer, of `size` bytes, is used from `start` on. -/
  | sectorUsed (start len size : ℕ)
  /-- `m_image->read` or `m_image->write` is called. -/
  | imageUsed (mounted : Bool)
deriving DecidableEq, Repr

/-- The byte machine. -/
structure Core (M : Type) where
  image : Option M
  preferredType : SdType
  sectorbuf : List Byte
  blksize : ℕ
  type : SdType
  csd : List Byte
  data : ℕ → Byte
  cmd : List Byte
  state : SdState
  outDelay : ℕ
  outCount : ℕ
  outPtr : ℕ
  writePtr : ℕ
  xferblk : ℕ
  blknext : BitVec 32
  crcOff : Bool
  bACMD : Bool
  log : List Effect

/-- The lines of the SPI bus and the registers behind them. -/
structure Wire where
  ss : Bool
  inBit : Bool
  clkState : Bool
  inLatch : Byte
  outLatch : Byte
  curBit : ℕ
  /-- The level last driven by `write_miso`. -/
  miso : Bool
deriving DecidableEq, Repr

/-- `spi_sdcard_device`. -/
structure Card (M : Type) where
  wire : Wire
  core : Core M

def responseDelay : ℕ := 1
def dataToken : Byte := 0xfe
def dataResponseOk : Byte := 0x05
def dataResponseIoError : Byte := 0x0d

/-- `m_cmd` with nothing in it. -/
def noCommand : List Byte := List.replicate 6 0xff

namespace Core

variable {M : Type}

/-! ## Buffers -/

def logged (e : Effect) (k : Core M) : Core M := { k with log := k.log ++ [e] }

/-- Store bytes into `m_data`. -/
def setData (start : ℕ) (bytes : List Byte) (k : Core M) : Core M :=
  { k with
    data := fun i ↦ if start ≤ i then (bytes[i - start]?).getD (k.data i) else k.data i
    log := k.log ++ [.dataWritten start bytes.length] }

/-- The contents of a part of `m_data`. -/
def slice (k : Core M) (start len : ℕ) : List Byte :=
  (List.range len).map fun i ↦ k.data (start + i)

/-- Append the CRC of a part of `m_data` behind it. -/
def setCrc16 (start len : ℕ) (k : Core M) : Core M :=
  let crc := Util.crc16 (k.slice start len)
  (k.logged (.dataRead start len)).setData (start + len) [(crc >>> 8).setWidth 8, crc.setWidth 8]

/-- `send_data`. -/
def sendData (count : ℕ) (state : SdState) (delay : ℕ) (k : Core M) : Core M :=
  { k with
    outDelay := delay
    outPtr := 0
    outCount := count
    state := state
    log := k.log ++ [.sent count delay] }

/-- The pattern of most commands: put a response into `m_data` and send it. -/
def respond (bytes : List Byte) (state : SdState) (k : Core M) : Core M :=
  (k.setData 0 bytes).sendData bytes.length state responseDelay

/-- A byte of `m_cmd`. -/
def cmdByte (k : Core M) (i : ℕ) : Byte := k.cmd.getD i 0xff

/-- A byte enters `m_cmd`, and the oldest one leaves it. -/
def shiftCmd (byte : Byte) (k : Core M) : Core M := { k with cmd := k.cmd.drop 1 ++ [byte] }

/-- The argument of a command, `get_u32be(&m_cmd[1])`. -/
def argument (k : Core M) : BitVec 32 :=
  k.cmdByte 1 ++ k.cmdByte 2 ++ k.cmdByte 3 ++ k.cmdByte 4

/-- `m_image->exists()`. -/
def mounted (k : Core M) : Bool := k.image.isSome

/-! ## Commands -/

/-- `CMD0`. -/
def goIdleState (k : Core M) : Core M :=
  if k.mounted then k.respond [0x01] .idle else k.respond [0x00] .ina

/-- `CMD1`. -/
def sendOpCond (k : Core M) : Core M := k.respond [0x00] .ready

/-- `CMD8`. -/
def sendIfCond (k : Core M) : Core M := k.respond [0x01, 0, 0, 0x01, 0xaa] .idle

/-- `CMD9`. -/
def sendCsd (k : Core M) : Core M := k.respond ([0x00, 0xff, 0xfe] ++ k.csd) .stby

/-- The card identification of `CMD10`: `M`, `MD`, `MCARD`, revision, serial number and date. -/
def cid : List Byte :=
  [0x4d, 0x4d, 0x44, 0x4d, 0x43, 0x41, 0x52, 0x44, 0x10, 0x12, 0x34, 0x56, 0x78, 0x01, 0x59, 0x00]

/-- `CMD10`. -/
def sendCid (k : Core M) : Core M :=
  ((k.setData 0 ([0x00, 0xff, 0xfe] ++ cid)).setCrc16 3 16).sendData
    (3 + 16 + 2) .stby responseDelay

/-- `CMD12`. -/
def stopTransmission (k : Core M) : Core M :=
  k.respond [0] (if k.state = .rcv then .prg else .tran)

/-- `CMD13`. -/
def sendStatus (k : Core M) : Core M := k.respond [0, 0] .stby

/-- `CMD16`. -/
def setBlocklen (k : Core M) : Core M :=
  if k.mounted then
    let blocklen := (k.cmdByte 3 ++ k.cmdByte 4).toNat
    if blocklen ≠ 0 ∧ (k.type = .v2 ∨ blocklen = k.blksize) ∧ blocklen ≤ k.blksize then
      { k with xferblk := blocklen }.respond [0x00] .tran
    else k.respond [0x40] .tran
  else k.respond [0xff] .tran

/-- A read of `m_xferblk` bytes at a byte address crosses the end of a block. -/
def crossesBlock (k : Core M) (blk : BitVec 32) : Prop :=
  blk / BitVec.ofNat 32 k.blksize ≠
    (blk + (BitVec.ofNat 32 k.xferblk - 1)) / BitVec.ofNat 32 k.blksize

instance (k : Core M) (blk : BitVec 32) : Decidable (k.crossesBlock blk) :=
  inferInstanceAs (Decidable (_ ≠ _))

/-- Put bytes into the sector buffer. -/
def setSector (bytes : List Byte) (k : Core M) : Core M :=
  { k with
    sectorbuf := bytes ++ k.sectorbuf.drop bytes.length
    log := k.log ++ [.sectorUsed 0 bytes.length k.sectorbuf.length] }

/-- `CMD18`. -/
def readMultipleBlock (k : Core M) : Core M :=
  if k.mounted then
    if k.xferblk = k.blksize then
      let blk := k.argument
      { k.setData 0 [0x00] with
        blknext := if k.type = SdType.v2 then blk / BitVec.ofNat 32 k.xferblk else blk }.sendData
        1 .dataMulti responseDelay
    else k.respond [0x40] .tran
  else k.respond [0xff] .tran

/-- `CMD24`. -/
def writeBlock (k : Core M) : Core M :=
  if k.xferblk ≠ k.blksize then k.respond [0x40] .tran
  else
    let k := { k with blknext := k.argument }
    if k.type = .v2 ∧ k.blknext % BitVec.ofNat 32 k.blksize ≠ 0 then k.respond [0x40] .tran
    else
      { k with
        blknext := if k.type = SdType.v2 then k.blknext / BitVec.ofNat 32 k.xferblk
          else k.blknext }.respond [0] .writeWaitFE

/-- `CMD41`, which is a command of its own behind `CMD55` only. -/
def sdSendOpCond (k : Core M) : Core M :=
  if k.bACMD then k.respond [0] .ready else k.respond [0xff] .ina

/-- `CMD55`. -/
def appCmd (k : Core M) : Core M := k.respond [0x01] .idle

/-- `CMD58`. -/
def readOcr (k : Core M) : Core M :=
  k.respond [0, 0x80 ||| if k.type = .v2 then 0 else 0x40, 0, 0, 0] .data

/-- `CMD59`. -/
def crcOnOff (k : Core M) : Core M :=
  { k with crcOff := !(k.cmdByte 4).getLsbD 0 }.respond [0] .stby

/-- The command number in `m_cmd`. -/
def commandIndex (k : Core M) : ℕ := (k.cmdByte 0 &&& 0x3f).toNat

/-- The test of `do_command` for a command in `m_cmd`. -/
def holdsCommand (k : Core M) : Prop :=
  k.cmdByte 0 &&& 0xc0 = 0x40 ∧ ((k.cmdByte 5).getLsbD 0 = true ∨ k.crcOff = true)

instance (k : Core M) : Decidable k.holdsCommand := inferInstanceAs (Decidable (_ ∧ _))

/-! ## Bytes to send -/

/-- The byte that `shift_out` takes at a byte boundary, if there is one. -/
def shiftByte (k : Core M) : Option Byte × Core M :=
  if k.outPtr < k.outDelay then (none, { k with outPtr := k.outPtr + 1 })
  else if 0 < k.outCount then
    (some (k.data (k.outPtr - k.outDelay)),
      { k.logged (.dataRead (k.outPtr - k.outDelay) 1) with
        outPtr := k.outPtr + 1
        outCount := k.outCount - 1 })
  else (none, k)

/-- What a selection does to the byte machine. -/
def select (k : Core M) : Core M :=
  { k with cmd := noCommand, state := .idle, outDelay := 0, outCount := 0 }

/-! ## Commands that use the image -/

variable [HardDisk M]

/-- `m_image->read`: the bytes that it puts into the buffer. -/
def imageRead (lba : BitVec 32) (k : Core M) : List Byte × Core M :=
  match k.image with
  | some m => ((HardDisk.read m lba).2, k.logged (.imageUsed true))
  | none => ([], k.logged (.imageUsed false))

/-- `m_image->write` of a block at the start of `m_data`. -/
def imageWrite (lba : BitVec 32) (k : Core M) : Bool × Core M :=
  match k.image with
  | some m =>
      let len := HardDisk.unitBytes m
      let (ok, m') := HardDisk.write m lba (k.slice 0 len)
      (ok, { (k.logged (.imageUsed true)).logged (.dataRead 0 len) with image := some m' })
  | none => (false, k.logged (.imageUsed false))

/-- `CMD17`. -/
def readSingleBlock (k : Core M) : Core M :=
  if k.mounted then
    let k := k.setData 0 [0x00, 0xff, dataToken]
    let blk := k.argument
    if k.type = .v2 ∧ k.crossesBlock blk then k.respond [0x40] .tran
    else if k.xferblk = k.blksize then
      let blk := if k.type = .v2 then blk / BitVec.ofNat 32 k.blksize else blk
      let (bytes, k) := k.imageRead blk
      ((k.setData 3 bytes).setCrc16 3 k.xferblk).sendData (3 + k.xferblk + 2) .data responseDelay
    else
      let (bytes, k) := k.imageRead (blk / BitVec.ofNat 32 k.blksize)
      let k := k.setSector bytes
      let start := (blk % BitVec.ofNat 32 k.blksize).toNat
      let k := k.logged (.sectorUsed start k.xferblk k.sectorbuf.length)
      ((k.setData 3 ((k.sectorbuf.drop start).take k.xferblk)).setCrc16 3 k.xferblk).sendData
        (3 + k.xferblk + 2) .data responseDelay
  else k.respond [0xff] .tran

/-- The commands that the card supports. -/
def command (index : ℕ) (k : Core M) : Option (Core M) :=
  match index with
  | 0 => some k.goIdleState
  | 1 => some k.sendOpCond
  | 8 => some k.sendIfCond
  | 9 => some k.sendCsd
  | 10 => some k.sendCid
  | 12 => some k.stopTransmission
  | 13 => some k.sendStatus
  | 16 => some k.setBlocklen
  | 17 => some k.readSingleBlock
  | 18 => some k.readMultipleBlock
  | 24 => some k.writeBlock
  | 41 => some k.sdSendOpCond
  | 55 => some k.appCmd
  | 58 => some k.readOcr
  | 59 => some k.crcOnOff
  | _ => none

/-- `do_command`: a command that the card does not support leaves `m_cmd` as it is. -/
def doCommand (k : Core M) : Core M :=
  if k.holdsCommand then
    let index := k.commandIndex
    let k := k.logged (.executed k.cmd)
    match k.command index with
    | some k => { k with bACMD := index == 55, cmd := noCommand }
    | none => { k with bACMD := index == 55 }
  else k

/-! ## Bytes received -/

/-- The end of a data block of `CMD24`: the block goes to the image. -/
def writeBlockData (k : Core M) : Core M :=
  let (ok, k) := k.imageWrite k.blknext
  let k := k.setData 0 [if ok then dataResponseOk else dataResponseIoError, 0x01]
  k.sendData 2 .idle 0

/-- A byte of a data block of `CMD24`. -/
def receiveData (byte : Byte) (k : Core M) : Core M :=
  let k := { k.setData k.writePtr [byte] with writePtr := (k.writePtr + 1) % 2 ^ 16 }
  if k.writePtr = k.xferblk + 2 then k.writeBlockData else k

/-- The next block of a multiple block read. -/
def readNextBlock (k : Core M) : Core M :=
  let k := k.setData 0 [dataToken]
  let (bytes, k) := k.imageRead k.blknext
  let k := { k.setData 1 bytes with blknext := k.blknext + 1 }
  (k.setCrc16 1 k.blksize).sendData (1 + k.blksize + 2) .dataMulti responseDelay

/-- A byte of a command. -/
def receiveCmd (byte : Byte) (k : Core M) : Core M :=
  let k := k.shiftCmd byte
  if k.state = .dataMulti then
    let k := k.doCommand
    if k.state = .dataMulti ∧ k.outCount = 0 then k.readNextBlock else k
  else if k.state = .idle ∨ k.cmdByte 0 &&& 0x70 = 0x40 ∨ k.outCount = 0 then k.doCommand
  else k

/-- What `latch_in` does with a completed byte. -/
def receive (byte : Byte) (k : Core M) : Core M :=
  let k := k.logged (.received byte)
  if k.state = .writeWaitFE then
    if byte = dataToken then { k with state := .writeData, writePtr := 0 } else k
  else if k.state = .writeData then k.receiveData byte
  else k.receiveCmd byte

end Core

/-! ## Images -/

/-- `BIT(n, start, len)`, as a byte. -/
def bitField (n start len : ℕ) : Byte := BitVec.ofNat 8 ((n >>> start) % 2 ^ len)

/-- The odd part of a number and the power of two in it, by at most `fuel` halvings. -/
def splitTwos : ℕ → ℕ → ℕ × ℕ
  | 0, n => (n, 0)
  | fuel + 1, n =>
      if n % 2 = 1 then (n, 0) else ((splitTwos fuel (n / 2)).1, (splitTwos fuel (n / 2)).2 + 1)

/-- The CSD of a card of `c_size + 1` times 1024 blocks. -/
def csdV20 (blockSizeExp cSize : ℕ) : List Byte :=
  [0x40, 0x0e, 0x00, 0x32, 0x5b, 0x50 ||| BitVec.ofNat 8 blockSizeExp, 0x00, bitField cSize 16 6,
    bitField cSize 8 8, bitField cSize 0 8, 0x3f, 0x80, 0x04 ||| bitField blockSizeExp 2 2,
    bitField blockSizeExp 0 2 <<< 6, 0x00, 0x01]

/-- The CSD of a card of `c_size + 1` times `2 ^ (c_size_mult + 2)` blocks. -/
def csdV10 (blockSizeExp cSize cSizeMult : ℕ) : List Byte :=
  [0x00, 0x26, 0x00, 0x32, 0x5b, 0x50 ||| BitVec.ofNat 8 blockSizeExp, 0x80 ||| bitField cSize 10 2,
    bitField cSize 2 8, (bitField cSize 0 2 <<< 6) ||| 0x38 ||| 0x06,
    0xe0 ||| 0x18 ||| bitField cSizeMult 1 2, 0x3f ||| (bitField cSizeMult 0 1 <<< 7),
    0x80 ||| 0x3f, 0x04 ||| bitField blockSizeExp 2 2, bitField blockSizeExp 0 2 <<< 6, 0x00, 0x01]

/-- A sector size that the card accepts: a power of two from 512 to 2048. -/
def Info.sectorbytesOk (info : Info) : Prop :=
  info.sectorbytes ≠ 0 ∧ info.sectorbytes &&& (info.sectorbytes - 1) = 0 ∧
    512 ≤ info.sectorbytes ∧ info.sectorbytes ≤ 2048

instance (info : Info) : Decidable info.sectorbytesOk := inferInstanceAs (Decidable (_ ∧ _))

/-- `total_mant`. -/
def Info.totalMant (info : Info) : ℕ := (splitTwos 64 info.totalBlocks).1

/-- `total_exp`. -/
def Info.totalExp (info : Info) : ℕ := (splitTwos 64 info.totalBlocks).2

/-- The number of blocks has a standard capacity encoding. -/
def Info.sdOk (info : Info) : Prop :=
  2 ≤ info.totalExp ∧
    info.totalMant <<< (if 9 < info.totalExp then info.totalExp - 9 else 0) ≤ 2 ^ 12

instance (info : Info) : Decidable info.sdOk := inferInstanceAs (Decidable (_ ∧ _))

/-- The number of blocks has a high capacity encoding. -/
def Info.sdhcOk (info : Info) : Prop :=
  info.sectorbytes = 512 ∧ 10 ≤ info.totalExp ∧
    info.totalMant <<< (info.totalExp - 10) ≤ 2 ^ 16

instance (info : Info) : Decidable info.sdhcOk := inferInstanceAs (Decidable (_ ∧ _))

/-- The images that `image_loaded` does not reject. -/
def Info.accepted (info : Info) : Prop :=
  info.totalBlocks ≠ 0 ∧ info.sectorbytesOk ∧ (info.sdOk ∨ info.sdhcOk)

instance (info : Info) : Decidable info.accepted := inferInstanceAs (Decidable (_ ∧ _))

/-- The card type and the CSD of an image that `image_loaded` accepts. -/
def Info.register (info : Info) (preferredType : SdType) : SdType × List Byte :=
  let blockSizeExp := (splitTwos 32 info.sectorbytes).2
  if info.sdhcOk ∧ (preferredType = .hc ∨ ¬info.sdOk) then
    let cSize := ((info.totalBlocks >>> 10) + 2 ^ 32 - 1) % 2 ^ 32
    (.hc, csdV20 blockSizeExp cSize)
  else
    let cSizeMult := min info.totalExp 9 - 2
    let cSize := ((info.totalBlocks >>> (cSizeMult + 2)) + 2 ^ 16 - 1) % 2 ^ 16
    (.v2, csdV10 blockSizeExp cSize cSizeMult)

namespace Core

variable {M : Type}

/-- `std::vector::resize`. -/
def resize (size : ℕ) (bytes : List Byte) : List Byte :=
  bytes.take size ++ List.replicate (size - bytes.length) 0

/-- `image_loaded`, for an image that it accepts. -/
def imageLoaded (info : Info) (k : Core M) : Core M :=
  { k with
    sectorbuf := resize info.sectorbytes k.sectorbuf
    blksize := info.sectorbytes
    xferblk := info.sectorbytes
    crcOff := true
    type := (info.register k.preferredType).1
    csd := (info.register k.preferredType).2 }

/-- `unload` of the image device, which calls `image_unloaded` if an image is mounted. -/
def unload (k : Core M) : Core M :=
  if k.mounted then { k with image := none, csd := List.replicate 16 0 } else k

variable [HardDisk M]

/-- `load` of the image device: what is mounted is unloaded first, and an image that `image_loaded`
rejects is not mounted. -/
def load (m : M) (k : Core M) : Core M :=
  if (HardDisk.info m).accepted then { k.unload with image := some m }.imageLoaded (HardDisk.info m)
  else k.unload

end Core

/-! ## The bus -/

namespace Card

variable {M : Type}

/-- `shift_out`: the falling edge of the clock. -/
def shiftOut (c : Card M) : Card M :=
  let wire := { c.wire with
    inLatch := c.wire.inLatch <<< 1
    outLatch := (c.wire.outLatch <<< 1) ||| 1
    curBit := c.wire.curBit % 8 }
  let c : Card M :=
    if wire.curBit = 0 then
      { wire := { wire with outLatch := c.core.shiftByte.1.getD wire.outLatch }
        core := c.core.shiftByte.2 }
    else { c with wire := wire }
  { c with wire := { c.wire with miso := c.wire.outLatch.msb } }

/-- `spi_ss_w`. -/
def spiSsW (state : Bool) (c : Card M) : Card M :=
  let c : Card M :=
    if !c.wire.ss && state then
      { wire := { c.wire with inLatch := 0, curBit := 0, outLatch := 0xff }
        core := c.core.select }
    else c
  { c with wire := { c.wire with ss := state } }

/-- `spi_mosi_w`. -/
def spiMosiW (state : Bool) (c : Card M) : Card M :=
  { c with wire := { c.wire with inBit := state } }

variable [HardDisk M]

/-- `latch_in`: the rising edge of the clock. -/
def latchIn (c : Card M) : Card M :=
  let wire := { c.wire with
    inLatch := (c.wire.inLatch &&& ~~~1) ||| (BitVec.ofBool c.wire.inBit).setWidth 8
    curBit := c.wire.curBit + 1 }
  if wire.curBit = 8 then
    { wire := if c.core.state = .writeWaitFE ∧ wire.inLatch = dataToken
        then { wire with outLatch := 0xff } else wire
      core := c.core.receive wire.inLatch }
  else { c with wire := wire }

/-- `spi_clock_w`. -/
def spiClockW (state : Bool) (c : Card M) : Card M :=
  let c : Card M :=
    if c.wire.ss && (state != c.wire.clkState) then if state then c.latchIn else c.shiftOut else c
  { c with wire := { c.wire with clkState := state } }

end Card

/-! ## Events -/

/-- What can happen to the card. -/
inductive Event (M : Type)
  | ss (state : Bool)
  | mosi (state : Bool)
  | clock (state : Bool)
  /-- The user mounts an image. -/
  | load (m : M)
  /-- The user tries to mount a file that cannot be opened as a hard disk. -/
  | loadFails
  /-- The user ejects the image. -/
  | unload

namespace Card

variable {M : Type} [HardDisk M]

/-- The state after an event. -/
def step (c : Card M) : Event M → Card M
  | .ss state => c.spiSsW state
  | .mosi state => c.spiMosiW state
  | .clock state => c.spiClockW state
  | .load m => { c with core := c.core.load m }
  | .loadFails => { c with core := c.core.unload }
  | .unload => { c with core := c.core.unload }

/-- The card when the machine starts, with an arbitrary level on its undriven output. -/
def start (preferredType : SdType) (miso : Bool) : Card M where
  wire :=
    { ss := false, inBit := false, clkState := false, inLatch := 0, outLatch := 0xff, curBit := 0
      miso := miso }
  core :=
    { image := none, preferredType := preferredType, sectorbuf := [], blksize := 512, type := .v2
      csd := List.replicate 16 0, data := fun _ ↦ 0, cmd := noCommand, state := .idle
      outDelay := 0, outCount := 0, outPtr := 0, writePtr := 0, xferblk := 512, blknext := 0
      crcOff := true, bACMD := false, log := [] }

end Card

end RoscoEmulator.SdCard
