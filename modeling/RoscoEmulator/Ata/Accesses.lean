import RoscoEmulator.Ata.Host

/-!
# Accesses of sectors

A drive gets to `finished_read` or `finished_write` when its busy timer expires at the end of a
command that accesses sectors. In the MULTIPLE forms it also gets there at once from an access of
the data register that empties or fills the buffer, and from the other timer where the modes make
the drive set that one. `sectorsLeft` says which events these are. With the access goes the advance
to the next sector, whose carry out of head 15 reaches the DRV bit.
-/

namespace RoscoEmulator.Ata

open SdCard (HardDisk)

/-! ## The carry into the DRV bit -/

namespace TaskFile

variable (t : TaskFile)

/-- `next_sector` carries out of head 15. -/
def HeadOverflows : Prop :=
  t.head.toNat = 15 ∧
    if t.isLba then t.low + 1 = 2 ^ 24
    else t.numSectors < t.sectorNumber + 1 ∧ 16 < t.numHeads.toNat

instance : Decidable t.HeadOverflows := inferInstanceAs (Decidable (_ ∧ ite _ _ _))

theorem toNat_nextChs_head :
    t.nextChs.2.toNat =
      if t.numSectors < t.sectorNumber + 1 then
        if t.numHeads.toNat ≤ t.head.toNat + 1 then 0 else t.head.toNat + 1
      else t.head.toNat := by
  have hhead := t.head_lt
  have hsucc : (t.head + 1).toNat = t.head.toNat + 1 := by
    rw [toNat_succ]
    omega
  simp only [nextChs, BitVec.le_def, hsucc]
  split_ifs <;> first | rfl | exact hsucc

/-- The head behind a sector: it leaves its four bits just where it overflows. -/
theorem toNat_next_head :
    (if t.isLba then t.nextLba else t.nextChs).2.toNat < 16 ∧ ¬ t.HeadOverflows ∨
      (if t.isLba then t.nextLba else t.nextChs).2.toNat = 16 ∧ t.HeadOverflows := by
  have hhead := t.head_lt
  rw [HeadOverflows]
  split_ifs with hlba
  · rw [toNat_nextLba_head]
    split_ifs with hlow
    · rcases Nat.lt_or_ge t.head.toNat 15 with hlt | hge
      · exact .inl ⟨by omega, fun h ↦ by omega⟩
      · exact .inr ⟨by omega, by omega, hlow⟩
    · exact .inl ⟨hhead, fun h ↦ hlow h.2⟩
  · rw [toNat_nextChs_head]
    split_ifs with hend hheads
    · exact .inl ⟨by decide, fun h ↦ by omega⟩
    · rcases Nat.lt_or_ge t.head.toNat 15 with hlt | hge
      · exact .inl ⟨by omega, fun h ↦ by omega⟩
      · exact .inr ⟨by omega, by omega, hend, by omega⟩
    · exact .inl ⟨hhead, fun h ↦ hend h.2.1⟩

/-- `next_sector` leaves the DRV bit alone, except that an overflow of the head sets it. -/
theorem getLsbD_deviceHead_nextSector :
    t.nextSector.deviceHead.getLsbD 4 = (t.deviceHead.getLsbD 4 || decide t.HeadOverflows) := by
  have hbit (x : BitVec 8) : (withHead t.deviceHead x).getLsbD 4 =
      (t.deviceHead.getLsbD 4 || x.getLsbD 4) := by
    rw [withHead, BitVec.getLsbD_or, BitVec.getLsbD_and, show (~~~0x0f#8).getLsbD 4 = true from rfl,
      Bool.and_true]
  have hnext : (if t.isLba then t.nextLba else t.nextChs).2.getLsbD 4 = decide t.HeadOverflows := by
    obtain ⟨hlt, hno⟩ | ⟨heq, hover⟩ := t.toNat_next_head
    · rw [decide_eq_false hno, BitVec.getLsbD, Nat.testBit_lt_two_pow hlt]
    · rw [decide_eq_true hover, BitVec.getLsbD, heq]
      rfl
  rw [deviceHead_nextSector, hbit, hnext]

end TaskFile

/-! ## Which events access a sector -/

/-- The commands that end in `finished_read` or `finished_write`. -/
def IdeCommand.accesses : IdeCommand → Bool
  | .transfer _ | .verifySectors | .verifySectorsNoretry | .verifySectorsExt => true
  | .readBuffer | .writeBuffer => true
  | _ => false

/-- `READ MULTIPLE` in both forms. -/
def IdeCommand.isReadMultiple : IdeCommand → Bool
  | .transfer c => c.isRead && c.isMultiple
  | _ => false

/-- `WRITE MULTIPLE` in both forms. -/
def IdeCommand.isWriteMultiple : IdeCommand → Bool
  | .transfer c => !c.isRead && c.isMultiple
  | _ => false

namespace Hdd

variable {M : Type} (d : Hdd M)

/-- The drive takes an access of the data register. -/
def takesPio : Bool := d.deviceSelected && !d.lines.dmack && !d.status.bsy && d.status.drq

/-- An access of the data register is the last of its buffer. -/
def completes : Bool := decide (d.buffer.size ≤ d.buffer.offset + BitVec.ofNat 16 d.width)

/-- `m_sectors_remaining` in `finished_read`, when `fill_buffer` gets there. -/
def leftOfFill : Option ℕ :=
  if d.command.isReadMultiple ∧ 1 < d.progress.sectorsRemaining then
    some (d.progress.sectorsRemaining - 1)
  else none

/-- The same behind the last read of a buffer. -/
def leftOfRead : Option ℕ := if d.completes ∧ d.ultraDmaMode.isNone then d.leftOfFill else none

/-- The same in `finished_write` behind the last write of a buffer. -/
def leftOfWrite : Option ℕ :=
  if d.completes ∧ d.command.isWriteMultiple ∧ d.progress.sectorsUntilInt ≠ 1 then
    some d.progress.sectorsRemaining
  else none

/-- `m_sectors_remaining` in `finished_read` or `finished_write`, when an event gets there. -/
def sectorsLeft : Event → Option ℕ
  | .readDma => if d.takesDma then d.leftOfRead else none
  | .readCs0 0 => if d.takesPio then d.leftOfRead else none
  | .writeDma _ => if d.takesDma then d.leftOfWrite else none
  | .writeCs0 0 _ => if d.takesPio then d.leftOfWrite else none
  | .busyTick =>
      if d.busyTimer.pending ∧ d.busyTimer.param = .command ∧ d.command.accesses then
        some d.progress.sectorsRemaining
      else none
  | .emptyTick => if d.bufferEmpty then d.leftOfFill else none
  | _ => none

/-- The diagnostic does not wait for the other drive. -/
def finishesDiagnostic : Bool := d.lines.csel || d.setup.singleDevice || d.lines.pdiagin

theorem finishesDiagnostic_diagnose : d.diagnose.finishesDiagnostic = d.finishesDiagnostic := by
  simp only [diagnose, performDiagnostic]
  split_ifs <;> rfl

/-! ## The log -/

@[simp] theorem log_updateIrq : d.updateIrq.log = d.log := by
  rw [updateIrq]
  split_ifs <;> rfl

@[simp] theorem log_setIrq (state : Bool) : (d.setIrq state).log = d.log := by
  rw [setIrq]
  split_ifs
  · exact log_updateIrq _
  · rfl

theorem log_readFirstSector : d.readFirstSector.log = d.log := by
  rw [readFirstSector]
  split_ifs <;> rfl

theorem log_processTransfer (c : Command) : (d.processTransfer c).log = d.log := by
  simp only [processTransfer]
  split
  · exact log_readFirstSector _
  · split <;> rfl

theorem log_dispatchCommand : d.dispatchCommand.log = d.log := by
  rw [dispatchCommand]
  split
  case h_1 => exact log_processTransfer d _
  case h_2 => exact log_readFirstSector _
  case h_3 => exact log_readFirstSector _
  case h_4 => exact log_readFirstSector _
  case h_5 => exact log_readFirstSector _
  all_goals first
    | rfl
    | exact log_setIrq _ true

theorem log_processCommand : d.processCommand.log = d.log := by
  rw [processCommand]
  split_ifs
  · exact log_setIrq _ true
  · exact log_dispatchCommand _

theorem log_startCommand (data : Byte) : (d.startCommand data).log = d.log ++ [.started data] := by
  rw [startCommand, log_processCommand, setDasp, onLines_log, log_setIrq]
  rfl

theorem log_passSector : d.passSector.log = d.log := by
  rw [passSector]
  split_ifs <;> rfl

variable (last : Bool) (data : BitVec 16)

theorem log_signal : (d.signal last).log = d.log := by
  simp only [signal]
  split
  · exact log_setIrq _ true
  · rfl

@[simp] theorem regs_updateIrq : d.updateIrq.regs = d.regs := by
  rw [updateIrq]
  split_ifs <;> rfl

@[simp] theorem regs_setIrq (state : Bool) : (d.setIrq state).regs = d.regs := by
  rw [setIrq]
  split_ifs
  · exact regs_updateIrq _
  · rfl

theorem command_passSector : d.passSector.command = d.command := by
  rw [passSector]
  split_ifs <;> rfl

theorem regs_signal : (d.signal last).regs = d.regs := by
  simp only [signal]
  split
  · exact regs_setIrq _ true
  · rfl

theorem command_advance : (d.passSector.signal last).command = d.command := by
  rw [command, regs_signal]
  exact d.command_passSector

theorem log_requestData : d.requestData.log = d.log := by
  simp only [requestData]
  split_ifs <;> rfl

theorem log_badSector : d.badSector.log = d.log := log_setIrq _ true

/-! ## What the parts of an access leave alone -/

theorem taskFile_congr {d' : Hdd M} (hregs : d'.regs = d.regs)
    (hgeometry : d'.geometry = d.geometry)
    (hprogress : d'.progress.sectorsRemaining = d.progress.sectorsRemaining) :
    d'.taskFile = d.taskFile := by
  rw [taskFile, taskFile, command, command, hregs, hgeometry, hprogress]

theorem sectorsRemaining_countDown :
    d.countDown.progress.sectorsRemaining = d.progress.sectorsRemaining - 1 := by
  rw [countDown]
  split_ifs with h
  · rfl
  · omega

theorem command_congr {d' : Hdd M} (hregs : d'.regs = d.regs) : d'.command = d.command := by
  rw [command, command, hregs]

/-- What an access of a sector leaves alone. -/
structure SameTask (d d' : Hdd M) : Prop where
  regs : d'.regs = d.regs
  status : d'.status = d.status
  lines : d'.lines = d.lines
  busyTimer : d'.busyTimer = d.busyTimer
  bufferEmpty : d'.bufferEmpty = d.bufferEmpty
  progress : d'.progress = d.progress
  modes : d'.modes = d.modes
  setup : d'.setup = d.setup
  geometry : d'.geometry = d.geometry

/-- Reading a control register changes nothing. -/
theorem controlR_snd (offset : ℕ) (data : BitVec 16) : (d.controlR offset data).2 = d := by
  rw [controlR.eq_def]
  split
  · rfl
  · split
    · rfl
    · split <;> rfl

theorem width_cases : d.width = 1 ∨ d.width = 2 := by
  rw [width]
  split_ifs
  · exact .inl rfl
  · exact .inr rfl

namespace SameTask

variable {d d' : Hdd M}

theorem taskFile (h : SameTask d d') : d'.taskFile = d.taskFile :=
  taskFile_congr d h.regs h.geometry (congrArg Progress.sectorsRemaining h.progress)

theorem refl (d : Hdd M) : SameTask d d := ⟨rfl, rfl, rfl, rfl, rfl, rfl, rfl, rfl, rfl⟩

theorem onBuffer (h : SameTask d d') (f : Buffer → Buffer) : SameTask d (d'.onBuffer f) :=
  ⟨h.regs, h.status, h.lines, h.busyTimer, h.bufferEmpty, h.progress, h.modes, h.setup, h.geometry⟩

theorem logged (h : SameTask d d') (e : Effect) : SameTask d (d'.logged e) :=
  ⟨h.regs, h.status, h.lines, h.busyTimer, h.bufferEmpty, h.progress, h.modes, h.setup, h.geometry⟩

theorem setImage (h : SameTask d d') (m : Option M) : SameTask d (d'.setImage m) :=
  ⟨h.regs, h.status, h.lines, h.busyTimer, h.bufferEmpty, h.progress, h.modes, h.setup, h.geometry⟩

theorem putBytes (h : SameTask d d') (start : ℕ) (bytes : List Byte) :
    SameTask d (d'.putBytes start bytes) := by
  rw [Hdd.putBytes]
  exact (h.logged _).onBuffer _

theorem pushByte (h : SameTask d d') (byte : Byte) : SameTask d (d'.pushByte byte) := by
  rw [Hdd.pushByte, setOffset]
  exact (h.putBytes _ _).onBuffer _

end SameTask

theorem sameTask_pushWord : SameTask d (d.pushWord data) := by
  simp only [pushWord]
  split_ifs
  · exact ((SameTask.refl d).pushByte _).pushByte _
  · exact (SameTask.refl d).pushByte _

theorem offset_pushByte (byte : Byte) : (d.pushByte byte).buffer.offset = d.buffer.offset + 1 := rfl

theorem size_pushByte (byte : Byte) : (d.pushByte byte).buffer.size = d.buffer.size := rfl

theorem offset_pushWord :
    (d.pushWord data).buffer.offset = d.buffer.offset + BitVec.ofNat 16 d.width := by
  simp only [pushWord]
  split_ifs with h
  · rw [h, offset_pushByte, offset_pushByte, BitVec.add_assoc]
    rfl
  · rw [d.width_cases.resolve_right h, offset_pushByte]
    rfl

theorem size_pushWord : (d.pushWord data).buffer.size = d.buffer.size := by
  simp only [pushWord]
  split_ifs
  · rw [size_pushByte, size_pushByte]
  · rw [size_pushByte]

section Image

variable [HardDisk M]

theorem sameTask_fetchSector : SameTask d d.fetchSector.2 := by
  rw [fetchSector]
  split_ifs
  · exact .refl d
  · rw [readSector]
    split
    · exact .refl d
    · exact (SameTask.refl d).putBytes _ _

theorem sameTask_storeSector : SameTask d d.storeSector.2 := by
  rw [storeSector]
  split_ifs
  · exact .refl d
  · rw [writeSector]
    split
    · exact .refl d
    · exact ((SameTask.refl d).logged _).setImage _

end Image

theorem dev_nextSector : d.nextSector.dev = (d.dev || decide d.taskFile.HeadOverflows) :=
  d.taskFile.getLsbD_deviceHead_nextSector

end Hdd

end RoscoEmulator.Ata
