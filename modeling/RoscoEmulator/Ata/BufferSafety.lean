import RoscoEmulator.Ata.Accesses

/-!
# The sector buffer

The buffer has 512 bytes, and the place of the host in it is a 16-bit offset that moves by one byte
or two. It stays even while the transfers are of two bytes, because the mode changes only in
`SET FEATURES`, which the drive executes with the offset at zero and nobody asking for data. Two
accesses are not bounded by that: a sector of the image is as long as the image says, and
`SECURITY UNLOCK` compares the buffer with a password that need not be there. -/

namespace RoscoEmulator.Ata

open Nat BitVec

open SdCard (HardDisk)

/-- The buffer is used inside its 512 bytes, and a password only where there is one. -/
def Effect.Safe : Effect → Prop
  | .bufferUsed start len => start + len ≤ 512
  | .passwordUsed password => password.isSome = true
  | _ => True

/-- The commands that read or write sectors of the image. -/
def IdeCommand.usesImage : IdeCommand → Bool
  | .transfer _ | .verifySectors | .verifySectorsNoretry | .verifySectorsExt => true
  | _ => false

namespace Hdd

variable {M : Type}

/-- The drive has used its buffer and its passwords safely so far. -/
def Safe (d : Hdd M) : Prop := ∀ e ∈ d.log, e.Safe

/-- What keeps a drive safe: the offset is inside the buffer, and even where it moves by two. -/
structure Sound (d : Hdd M) : Prop where
  safe : d.Safe
  size : d.buffer.size.toNat ≤ 512
  offset : d.buffer.offset.toNat < 512
  even : d.modes.eightBitDataTransfers = false → d.buffer.offset.toNat % 2 = 0
  setFeatures : d.command = .setFeatures → d.buffer.offset = 0 ∧ d.status.drq = false

/-- The password that an event has the drive compare. -/
def comparedPassword (d : Hdd M) : Event → Option (Option (List Byte))
  | .writeDma data =>
      if d.takesDma ∧ d.completes ∧ d.command = .securityUnlock then
        some (d.pushWord data).selectedPassword
      else none
  | .writeCs0 0 data =>
      if d.takesPio ∧ d.completes ∧ d.command = .securityUnlock then
        some (d.pushWord data).selectedPassword
      else none
  | _ => none

/-- What the image reads and writes at a time fits into the buffer. -/
def SectorsFit [HardDisk M] (d : Hdd M) : Prop := ∀ m ∈ d.image, HardDisk.unitBytes m ≤ 512

instance [HardDisk M] (d : Hdd M) : Decidable d.SectorsFit :=
  inferInstanceAs (Decidable (∀ m ∈ d.image, _ ≤ _))

/-- An event that gets to the image finds sectors that fit, and one that compares a password finds
it installed. -/
def UsesSafely [HardDisk M] (d : Hdd M) (e : Event) : Prop :=
  ((d.sectorsLeft e).isSome = true → d.command.usesImage = true → d.SectorsFit) ∧
  ∀ password ∈ d.comparedPassword e, password.isSome = true

instance [HardDisk M] (d : Hdd M) (e : Event) : Decidable (d.UsesSafely e) :=
  inferInstanceAs (Decidable ((_ → _ → _) ∧ _))

variable (d : Hdd M)

theorem command_countDown : d.countDown.command = d.command := by
  rw [countDown]
  split_ifs <;> rfl

theorem image_countDown : d.countDown.image = d.image := by
  rw [countDown]
  split_ifs <;> rfl

theorem image_pushWord (data : BitVec 16) : (d.pushWord data).image = d.image := by
  simp only [pushWord]
  split_ifs <;> rfl

theorem security_pushWord (data : BitVec 16) : (d.pushWord data).security = d.security := by
  simp only [pushWord]
  split_ifs <;> rfl

theorem passwordUsed_mem_unlock {d : Hdd M} {password : Option (List Byte)}
    (hpassword : d.selectedPassword = password) : .passwordUsed password ∈ d.unlock.log := by
  have hmem : Effect.passwordUsed password ∈
      (((d.logged (.bufferUsed 0 1)).logged (.passwordUsed d.selectedPassword)).logged
        (.bufferUsed 2 32)).log := by simp [hpassword]
  simp only [unlock]
  split_ifs <;> exact hmem

theorem readBufferEmpty_setOffset [HardDisk M] (offset : BitVec 16) :
    (d.setOffset offset).readBufferEmpty = d.readBufferEmpty := rfl

/-! ## The parts of the drive -/

namespace Sound

variable {d : Hdd M}

section

variable (h : d.Sound)
include h

theorem onLines (f : Lines → Lines) : (d.onLines f).Sound :=
  ⟨h.safe, h.size, h.offset, h.even, h.setFeatures⟩

theorem onProgress (f : Progress → Progress) : (d.onProgress f).Sound :=
  ⟨h.safe, h.size, h.offset, h.even, h.setFeatures⟩

theorem onSecurity (f : Security → Security) : (d.onSecurity f).Sound :=
  ⟨h.safe, h.size, h.offset, h.even, h.setFeatures⟩

theorem onSetup (f : Setup → Setup) : (d.onSetup f).Sound :=
  ⟨h.safe, h.size, h.offset, h.even, h.setFeatures⟩

theorem setBusyTimer (t : BusyTimer) : (d.setBusyTimer t).Sound :=
  ⟨h.safe, h.size, h.offset, h.even, h.setFeatures⟩

theorem setBufferEmpty (pending : Bool) : (d.setBufferEmpty pending).Sound :=
  ⟨h.safe, h.size, h.offset, h.even, h.setFeatures⟩

theorem setGeometry (g : Geometry) : (d.setGeometry g).Sound :=
  ⟨h.safe, h.size, h.offset, h.even, h.setFeatures⟩

theorem setImage (m : Option M) : (d.setImage m).Sound :=
  ⟨h.safe, h.size, h.offset, h.even, h.setFeatures⟩

end

theorem onRegs {f : Registers → Registers} (h : d.Sound)
    (hcommand : (f d.regs).command = d.regs.command) : (d.onRegs f).Sound := by
  refine ⟨h.safe, h.size, h.offset, h.even, fun hset ↦ h.setFeatures ?_⟩
  rwa [command, onRegs_regs, hcommand] at hset

theorem onStatus {f : Status → Status} (h : d.Sound)
    (hdrq : d.command ≠ .setFeatures ∨ (f d.status).drq = d.status.drq ∨ (f d.status).drq = false) :
    (d.onStatus f).Sound := by
  refine ⟨h.safe, h.size, h.offset, h.even, fun hset ↦ ⟨(h.setFeatures hset).1, ?_⟩⟩
  rcases hdrq with hne | hsame | hclear
  · exact absurd hset hne
  · exact hsame.trans (h.setFeatures hset).2
  · exact hclear

theorem logged (h : d.Sound) {e : Effect} (he : e.Safe) : (d.logged e).Sound := by
  refine ⟨fun e' he' ↦ ?_, h.size, h.offset, h.even, h.setFeatures⟩
  rcases List.mem_append.mp he' with hold | hnew
  · exact h.safe e' hold
  · rwa [List.mem_singleton.mp hnew]

theorem putBytes (h : d.Sound) {start : ℕ} {bytes : List Byte} (hfit : start + bytes.length ≤ 512) :
    (d.putBytes start bytes).Sound := by
  have hlogged : (d.logged (.bufferUsed start bytes.length)).Sound := h.logged hfit
  exact ⟨hlogged.safe, h.size, h.offset, h.even, h.setFeatures⟩

/-- The modes may change with the offset at zero. -/
theorem onModes {f : Modes → Modes} (h : d.Sound) (hmode : d.buffer.offset = 0 ∨
    (f d.modes).eightBitDataTransfers = d.modes.eightBitDataTransfers) : (d.onModes f).Sound := by
  refine ⟨h.safe, h.size, h.offset, fun height ↦ ?_, h.setFeatures⟩
  rcases hmode with hzero | hsame
  · show d.buffer.offset.toNat % 2 = 0
    rw [hzero]
    rfl
  · exact h.even (hsame.symm.trans height)

section

variable (h : d.Sound)
include h

theorem setOffset : (d.setOffset 0).Sound :=
  ⟨h.safe, h.size, zero_lt_succ 511, fun _ ↦ rfl, fun hset ↦ ⟨rfl, (h.setFeatures hset).2⟩⟩

theorem setSize {size : BitVec 16} (hsize : size.toNat ≤ 512) : (d.setSize size).Sound :=
  ⟨h.safe, hsize, h.offset, h.even, h.setFeatures⟩

theorem setError (error : Byte) : (d.setError error).Sound := h.onRegs rfl

theorem setErr (state : Bool) : (d.setErr state).Sound := h.onStatus (.inr (.inl rfl))

theorem setBsy (state : Bool) : (d.setBsy state).Sound := h.onStatus (.inr (.inl rfl))

theorem clearDrq : (d.setDrq false).Sound := h.onStatus (.inr (.inr rfl))

theorem setDrq (hcommand : d.command ≠ .setFeatures) : (d.setDrq true).Sound :=
  h.onStatus (.inl hcommand)

theorem clearStatus : d.clearStatus.Sound := h.onStatus (.inr (.inr rfl))

theorem setUntilInt (n : BitVec 16) : (d.setUntilInt n).Sound := h.onProgress _

theorem setRemaining (n : ℕ) : (d.setRemaining n).Sound := h.onProgress _

theorem setDmarq (state : Bool) : (d.setDmarq state).Sound := h.onLines _

theorem setDasp (state : Bool) : (d.setDasp state).Sound := h.onLines _

theorem setPdiag (state : Bool) : (d.setPdiag state).Sound := h.onLines _

theorem startBusy (expires : Bool) (param : Param) : (d.startBusy expires param).Sound :=
  (h.setBsy true).setBusyTimer _

theorem stopBusy : d.stopBusy.Sound := (h.setBsy false).setBusyTimer _

theorem abortCommand : d.abortCommand.Sound := (h.setErr true).setError _

theorem updateIrq : d.updateIrq.Sound := by
  rw [Hdd.updateIrq]
  split_ifs <;> exact h.onLines _

theorem setIrq (state : Bool) : (d.setIrq state).Sound := by
  rw [Hdd.setIrq]
  split_ifs
  · exact (h.onLines _).updateIrq
  · exact h

theorem softReset : d.softReset.Sound := by
  have hbuffer : (((d.logged .softReset).setOffset 0).setSize 0).Sound :=
    ((h.logged (e := .softReset) trivial).setOffset).setSize (by decide)
  rw [Hdd.softReset]
  exact ((hbuffer.clearStatus.startBusy _ _).onStatus (.inr (.inl rfl))).onSecurity _

theorem interfacePostReset : d.interfacePostReset.Sound := by
  have hlines : ((((d.setDasp false).setDmarq false).setIrq false).setPdiag false).Sound :=
    (((h.setDasp _).setDmarq _).setIrq _).setPdiag _
  simp only [Hdd.interfacePostReset]
  split_ifs
  · exact (((hlines.clearStatus.onRegs rfl).onSetup _).setDasp _).softReset
  · exact ((hlines.clearStatus.onRegs rfl).onSetup _).startBusy _ _

theorem performDiagnostic : d.performDiagnostic.Sound := by
  rw [Hdd.performDiagnostic]
  split_ifs
  · exact h.setError _
  · exact h

theorem diagnose : d.diagnose.Sound := by
  have hperform : (d.setError 0).performDiagnostic.Sound := (h.setError _).performDiagnostic
  simp only [Hdd.diagnose]
  split
  · exact hperform.setPdiag _
  · exact hperform

theorem finishedDiagnostic : d.finishedDiagnostic.Sound := by
  simp only [Hdd.finishedDiagnostic, signature]
  exact ((h.onSetup _).onStatus (.inr (.inl rfl))).onRegs rfl

theorem startDiagnostic : d.startDiagnostic.Sound := by
  rw [Hdd.startDiagnostic]
  split_ifs
  · exact h.diagnose.startBusy _ _
  · exact h.diagnose.finishedDiagnostic

theorem countDown : d.countDown.Sound := by
  rw [Hdd.countDown]
  split_ifs
  · exact (h.setRemaining _).onRegs rfl
  · exact h

theorem passSector : d.passSector.Sound := by
  rw [Hdd.passSector]
  split_ifs
  · rw [nextSector]
    exact h.onRegs rfl
  · exact h

theorem signal (last : Bool) : (d.signal last).Sound := by
  simp only [Hdd.signal]
  split
  · exact ((h.setUntilInt _).setUntilInt _).setIrq _
  · exact h.setUntilInt _

theorem requestData (hcommand : d.command ≠ .setFeatures) : d.requestData.Sound := by
  simp only [Hdd.requestData]
  split
  · exact (h.setDrq hcommand).setDmarq _
  · exact h.setDrq hcommand

theorem badSector : d.badSector.Sound := ((h.setErr _).setError _).setIrq _

theorem securityError : d.securityError.Sound := h.abortCommand

theorem readFirstSector : d.readFirstSector.Sound := by
  rw [Hdd.readFirstSector]
  split_ifs
  · exact h.securityError
  · exact (h.setDasp _).startBusy _ _

theorem unknownCommand : d.unknownCommand.Sound := h.abortCommand.setIrq _

theorem processTransfer (c : Command) (hcommand : d.command ≠ .setFeatures) :
    (d.processTransfer c).Sound := by
  simp only [Hdd.processTransfer]
  split
  · exact ((h.setRemaining _).setUntilInt _).readFirstSector
  · split
    · refine setDmarq (setDrq ((h.setRemaining _).setUntilInt _) ?_) _
      exact hcommand
    · refine setDrq ((h.setRemaining _).setUntilInt _) ?_
      exact hcommand

theorem dispatchCommand : d.dispatchCommand.Sound := by
  have hdata (hcommand : d.command ≠ .setFeatures) : ((d.setDrq true).setIrq true).Sound :=
    (h.setDrq hcommand).setIrq _
  have hverify : ((d.setRemaining d.sectorsRequested).setUntilInt
      (BitVec.ofNat 16 d.sectorsRequested)).readFirstSector.Sound :=
    ((h.setRemaining _).setUntilInt _).readFirstSector
  have hbusy : (d.startBusy true .command).Sound := h.startBusy _ _
  have hirq : (d.setIrq true).Sound := h.setIrq _
  rw [Hdd.dispatchCommand]
  split
  case h_1 hcommand => exact h.processTransfer _ (by rw [hcommand]; exact IdeCommand.noConfusion)
  case h_2 => exact ((h.setRemaining _).setUntilInt _).setOffset.readFirstSector
  case h_6 hcommand =>
    exact ((h.setRemaining _).setUntilInt _).setOffset.setDrq (by
      show d.command ≠ _
      rw [hcommand]
      decide)
  case h_7 hcommand => exact hdata (by rw [hcommand]; decide)
  case h_8 hcommand => exact hdata (by rw [hcommand]; decide)
  case h_16 => exact (h.onProgress _).setIrq _
  case h_21 => exact h.unknownCommand
  all_goals assumption

theorem processCommand : d.processCommand.Sound := by
  rw [Hdd.processCommand]
  split_ifs
  · exact h.unknownCommand
  · exact ((h.setUntilInt _).setSize (by decide)).dispatchCommand

/-- A command starts with the offset at zero, and with no data phase left open. -/
theorem startCommand (data : Byte) (hdrq : d.status.drq = false) : (d.startCommand data).Sound := by
  have hlogged : (d.logged (.started data)).Sound := h.logged (e := .started data) trivial
  have hoffset : (((d.logged (.started data)).onRegs fun r ↦ { r with command := data }).setOffset
      0).Sound :=
    ⟨hlogged.safe, h.size, zero_lt_succ 511, fun _ ↦ rfl, fun _ ↦ ⟨rfl, hdrq⟩⟩
  rw [Hdd.startCommand]
  exact ((((hoffset.setErr _).setError _).setIrq _).setDasp _).processCommand

theorem clearDmaModes : d.clearDmaModes.Sound := h.onModes (.inr rfl)

theorem setDmaMode (word : ℕ) : (d.setDmaMode word).2.Sound := by
  simp only [Hdd.setDmaMode]
  split_ifs
  · dsimp only
    exact h.clearDmaModes.onModes (.inr rfl)
  · exact h

/-- The width of the transfers changes while the offset is zero. -/
theorem setFeatures' (hoffset : d.buffer.offset = 0) : d.setFeatures.2.Sound := by
  rw [Hdd.setFeatures]
  split
  case h_2 =>
    split
    case h_2 =>
      dsimp only
      split_ifs
      · exact h
      · exact h.clearDmaModes
      · exact h
    case h_3 => exact h.setDmaMode 62
    case h_4 => exact h.setDmaMode 63
    case h_5 => exact h.setDmaMode 88
    all_goals exact h
  all_goals
    dsimp only
    first
      | exact h
      | exact h.onModes (.inl hoffset)

theorem finishedSetFeatures (hcommand : d.command = .setFeatures) :
    d.finishedSetFeatures.Sound := by
  have hset : d.setFeatures.2.Sound := h.setFeatures' (h.setFeatures hcommand).1
  rw [Hdd.finishedSetFeatures]
  split_ifs
  · exact hset.setIrq _
  · exact hset.abortCommand.setIrq _

theorem finishedIdentify (hcommand : d.command = .identifyDevice) : d.finishedIdentify.Sound := by
  rw [Hdd.finishedIdentify]
  split_ifs
  · have hput : (d.putBytes 0 d.identifyBytes).Sound := h.putBytes (Nat.le_of_eq (by
      rw [identifyBytes, List.length_map, List.length_range]))
    refine (hput.setDrq ?_).setIrq _
    rw [command_congr d ((SameTask.refl d).putBytes 0 _).regs, hcommand]
    decide
  · exact ((h.setErr _).setError _).setIrq _

theorem requestWord : d.requestWord.Sound := by
  rw [Hdd.requestWord]
  split_ifs
  · exact h.setDmarq _
  · exact h

theorem unlock (hpassword : d.selectedPassword.isSome = true) : d.unlock.Sound := by
  have hused : (((d.logged (.bufferUsed 0 1)).logged (.passwordUsed d.selectedPassword)).logged
      (.bufferUsed 2 32)).Sound :=
    ((h.logged (e := .bufferUsed 0 1) (le_of_ble_eq_true rfl)).logged
      (e := .passwordUsed d.selectedPassword) hpassword).logged (e := .bufferUsed 2 32)
      (le_of_ble_eq_true rfl)
  simp only [Hdd.unlock]
  split_ifs
  all_goals first
    | exact hused.securityError
    | exact (hused.onSecurity _).securityError
    | exact hused.onSecurity _
    | exact hused

end

/-- An access of a sector or of the data register leaves a drive sound that uses the buffer safely
and moves the offset to a place where the host may go on. -/
theorem ofSameTask {d' : Hdd M} (h : d.Sound) (hsame : SameTask d d') (hsafe : d'.Safe)
    (hsize : d'.buffer.size = d.buffer.size) (hlt : d'.buffer.offset.toNat < 512)
    (heven : d.modes.eightBitDataTransfers = false → d'.buffer.offset.toNat % 2 = 0)
    (hset : d.command = .setFeatures → d'.buffer.offset = 0) : d'.Sound := by
  refine ⟨hsafe, by rw [hsize]; exact h.size, hlt, ?_, ?_⟩
  · rw [hsame.modes]
    exact heven
  · rw [command_congr d hsame.regs, hsame.status]
    exact fun hcommand ↦ ⟨hset hcommand, (h.setFeatures hcommand).2⟩

theorem fillBufferWith {finishedRead : Hdd M → Hdd M} (h : d.Sound)
    (hread : d.leftOfFill.isSome = true → (finishedRead d.countDown).Sound) :
    (d.fillBufferWith finishedRead).Sound := by
  have hmultiple (hm : d.command.isReadMultiple = true) :
      (if 0 < d.countDown.progress.sectorsRemaining then finishedRead d.countDown
        else d.countDown).Sound := by
    split_ifs with hmore
    · rw [sectorsRemaining_countDown] at hmore
      exact hread (by rw [leftOfFill, if_pos ⟨hm, by omega⟩]; rfl)
    · exact h.countDown
  simp only [Hdd.fillBufferWith]
  split
  case h_1 => exact h
  case h_2 hcommand => exact hmultiple (by rw [hcommand]; rfl)
  case h_3 hcommand => exact hmultiple (by rw [hcommand]; rfl)
  case h_4 => exact h.setIrq _
  case h_5 =>
    split_ifs
    · exact ((h.countDown.setIrq _).setDasp _).startBusy _ _
    · exact h.countDown

theorem readBufferEmptyWith {fillBuffer : Hdd M → Hdd M} (h : d.Sound)
    (hfill : d.ultraDmaMode.isNone = true →
      (fillBuffer (((d.setOffset 0).setDrq false).setDmarq false)).Sound) :
    (d.readBufferEmptyWith fillBuffer).Sound := by
  have hempty : (((d.setOffset 0).setDrq false).setDmarq false).Sound :=
    (h.setOffset.clearDrq).setDmarq _
  simp only [Hdd.readBufferEmptyWith]
  split_ifs with hultra
  · exact hempty.setBufferEmpty _
  · exact hfill (Option.isNone_iff_eq_none.mpr (Option.not_isSome_iff_eq_none.mp hultra))

/-! ## Accesses of sectors -/

section Image

variable [HardDisk M]

theorem fetchSector (h : d.Sound) (hfit : d.command ≠ .readBuffer → d.SectorsFit) :
    d.fetchSector.2.Sound := by
  rw [Hdd.fetchSector]
  split_ifs with hbuffer
  · exact h
  · rw [readSector]
    split
    case h_1 => exact h
    case h_2 m himage =>
      refine h.putBytes ?_
      rw [Nat.zero_add]
      exact Nat.le_trans (HardDisk.length_read_le m _) (hfit hbuffer m himage)

theorem storeSector (h : d.Sound) (hfit : d.command ≠ .writeBuffer → d.SectorsFit) :
    d.storeSector.2.Sound := by
  rw [Hdd.storeSector]
  split_ifs with hbuffer
  · exact h
  · rw [writeSector]
    split
    case h_1 => exact h
    case h_2 m himage =>
      refine (h.logged (e := .bufferUsed 0 _) ?_).setImage _
      show 0 + _ ≤ 512
      rw [List.length_map, List.length_range, Nat.zero_add]
      exact hfit hbuffer m himage

theorem finishedReadWith {readBufferEmpty : Hdd M → Hdd M} (h : d.Sound)
    (hcommand : d.command ≠ .setFeatures) (hfit : d.command ≠ .readBuffer → d.SectorsFit)
    (hempty : ∀ d' : Hdd M, d'.Sound → (readBufferEmpty d').Sound) :
    (d.finishedReadWith readBufferEmpty).Sound := by
  have hfetched : (d.setDasp false).fetchSector.2.Sound := (h.setDasp false).fetchSector hfit
  have hsame : (d.setDasp false).fetchSector.2.command = d.command :=
    command_congr (d.setDasp false) (sameTask_fetchSector _).regs
  have hadvance (last : Bool) : ((d.setDasp false).fetchSector.2.passSector.signal last).Sound :=
    hfetched.passSector.signal last
  simp only [Hdd.finishedReadWith]
  split_ifs
  · exact hempty _ (hadvance _)
  · refine (hadvance _).requestData ?_
    rw [command_advance, hsame]
    exact hcommand
  · exact hfetched.badSector

theorem finishedRead (h : d.Sound) (hcommand : d.command ≠ .setFeatures)
    (hfit : d.command ≠ .readBuffer → d.SectorsFit) : d.finishedRead.Sound := by
  refine h.finishedReadWith hcommand hfit fun d' h' ↦ h'.readBufferEmptyWith fun _ ↦ ?_
  have hempty : (((d'.setOffset 0).setDrq false).setDmarq false).Sound :=
    (h'.setOffset.clearDrq).setDmarq _
  exact hempty.fillBufferWith fun _ ↦ hempty.countDown

theorem fillBuffer (h : d.Sound) (hfit : d.leftOfFill.isSome = true → d.SectorsFit) :
    d.fillBuffer.Sound := by
  refine h.fillBufferWith fun hleft ↦ h.countDown.finishedRead ?_ fun _ ↦ ?_
  · rw [command_countDown]
    intro hcommand
    rw [leftOfFill, hcommand, if_neg fun hm ↦ Bool.false_ne_true hm.1] at hleft
    exact Bool.false_ne_true hleft
  · rw [SectorsFit, image_countDown]
    exact hfit hleft

theorem readBufferEmpty (h : d.Sound)
    (hfit : d.ultraDmaMode.isNone = true → d.leftOfFill.isSome = true → d.SectorsFit) :
    d.readBufferEmpty.Sound := by
  refine h.readBufferEmptyWith fun hultra ↦ fillBuffer ?_ (hfit hultra)
  exact (h.setOffset.clearDrq).setDmarq _

theorem finishedWrite (h : d.Sound) (hcommand : d.command ≠ .setFeatures)
    (hfit : d.command ≠ .writeBuffer → d.SectorsFit) : d.finishedWrite.Sound := by
  have hstored : (d.setDasp false).storeSector.2.Sound := (h.setDasp false).storeSector hfit
  have hsame : (d.setDasp false).storeSector.2.command = d.command :=
    command_congr (d.setDasp false) (sameTask_storeSector _).regs
  have hadvance (last : Bool) :
      ((d.setDasp false).storeSector.2.passSector.signal last).countDown.Sound :=
    (hstored.passSector.signal last).countDown
  simp only [Hdd.finishedWrite]
  split_ifs
  · refine (hadvance _).requestData ?_
    rw [command_countDown, command_advance, hsame]
    exact hcommand
  · exact hadvance _
  · exact hstored.badSector

theorem processBuffer (h : d.Sound)
    (hfit : d.command.isWriteMultiple = true → d.progress.sectorsUntilInt ≠ 1 → d.SectorsFit)
    (hpassword : d.command = .securityUnlock → d.selectedPassword.isSome = true) :
    d.processBuffer.Sound := by
  have hmultiple (hm : d.command.isWriteMultiple = true) :
      (if d.progress.sectorsUntilInt ≠ 1 then (d.setDasp true).finishedWrite
        else (d.setDasp true).startBusy true .command).Sound := by
    split_ifs with hmore
    · refine (h.setDasp true).finishedWrite (fun hcommand ↦ ?_) fun _ ↦ hfit hm hmore
      rw [show d.command = .setFeatures from hcommand] at hm
      exact absurd hm (by decide)
    · exact (h.setDasp _).startBusy _ _
  simp only [Hdd.processBuffer]
  split
  case h_1 hcommand => exact h.unlock (hpassword hcommand)
  case h_2 => exact h
  case h_3 => exact h.setIrq _
  case h_4 hcommand => exact hmultiple (by rw [hcommand]; rfl)
  case h_5 hcommand => exact hmultiple (by rw [hcommand]; rfl)
  case h_6 => exact (h.setDasp _).startBusy _ _

/-! ## The data register -/

omit [HardDisk M] in
theorem toNat_move (h : d.Sound) :
    (d.buffer.offset + BitVec.ofNat 16 d.width).toNat = d.buffer.offset.toNat + d.width := by
  have hoffset : d.buffer.offset.toNat < 512 := h.offset
  rcases d.width_cases with hwidth | hwidth <;>
    simp only [hwidth, toNat_add, toNat_ofNat] <;> omega

omit [HardDisk M] in
theorem width_fits (h : d.Sound) : d.buffer.offset.toNat + d.width ≤ 512 := by
  have hoffset : d.buffer.offset.toNat < 512 := h.offset
  rw [width]
  split_ifs with height
  · exact hoffset
  · have heven : d.buffer.offset.toNat % 2 = 0 := h.even (Bool.eq_false_iff.mpr height)
    omega

omit [HardDisk M] in
/-- Where the host goes on behind an access that is not the last of its buffer. -/
theorem moved (h : d.Sound) (hmore : ¬ d.buffer.size ≤ d.buffer.offset + BitVec.ofNat 16 d.width) :
    (d.buffer.offset + BitVec.ofNat 16 d.width).toNat < 512 ∧
      (d.modes.eightBitDataTransfers = false →
        (d.buffer.offset + BitVec.ofNat 16 d.width).toNat % 2 = 0) := by
  have hsize : d.buffer.size.toNat ≤ 512 := h.size
  have hlt : (d.buffer.offset + BitVec.ofNat 16 d.width).toNat < d.buffer.size.toNat :=
    BitVec.not_le.mp hmore
  refine ⟨by omega, fun height ↦ ?_⟩
  have heven : d.buffer.offset.toNat % 2 = 0 := h.even height
  rw [h.toNat_move, width, height]
  show (_ + 2) % 2 = 0
  omega

omit [HardDisk M] in
theorem safe_pushByte {d : Hdd M} (h : d.Safe) (byte : Byte) (hlt : d.buffer.offset.toNat < 512) :
    (d.pushByte byte).Safe := by
  intro e he
  rcases List.mem_append.mp he with hold | hnew
  · exact h e hold
  · rw [List.mem_singleton.mp hnew]
    exact hlt

omit [HardDisk M] in
theorem safe_pushWord (h : d.Sound) (data : BitVec 16) : (d.pushWord data).Safe := by
  have hfits : d.buffer.offset.toNat + d.width ≤ 512 := h.width_fits
  have hlow : (d.pushByte (data.setWidth 8)).Safe := safe_pushByte h.safe _ h.offset
  simp only [pushWord]
  split_ifs with hwidth
  · refine safe_pushByte hlow _ ?_
    rw [offset_pushByte, toNat_add]
    show (_ + 1) % 2 ^ 16 < 512
    omega
  · exact hlow

theorem readData (h : d.Sound) (data : BitVec 16) (hset : d.command ≠ .setFeatures)
    (hfit : d.leftOfRead.isSome = true → d.SectorsFit) : (d.readData data).2.Sound := by
  have hused : (d.logged (.bufferUsed d.buffer.offset.toNat d.width)).Sound :=
    h.logged (e := .bufferUsed _ _) h.width_fits
  simp only [Hdd.readData]
  split
  case isTrue hfull =>
    rw [readBufferEmpty_setOffset]
    refine hused.readBufferEmpty fun hultra hleft ↦ hfit ?_
    rw [leftOfRead, if_pos ⟨decide_eq_true hfull, hultra⟩]
    exact hleft
  case isFalse hmore =>
    obtain ⟨hlt, heven⟩ := h.moved hmore
    exact ⟨hused.safe, h.size, hlt, heven, fun hcommand ↦ absurd hcommand hset⟩

theorem writeData (h : d.Sound) (data : BitVec 16) (hset : d.command ≠ .setFeatures)
    (hfit : d.leftOfWrite.isSome = true → d.SectorsFit)
    (hpassword : d.completes = true → d.command = .securityUnlock →
      (d.pushWord data).selectedPassword.isSome = true) : (d.writeData data).Sound := by
  have hsame : SameTask d (d.pushWord data) := d.sameTask_pushWord data
  have hcommand : (d.pushWord data).command = d.command := command_congr d hsame.regs
  simp only [Hdd.writeData]
  split
  case isTrue hfull =>
    rw [offset_pushWord, size_pushWord] at hfull
    have hpush : ((d.pushWord data).setOffset 0).Sound :=
      h.ofSameTask (hsame.onBuffer _) (h.safe_pushWord data) (d.size_pushWord data)
        (zero_lt_succ 511) (fun _ ↦ rfl) fun _ ↦ rfl
    rw [writeBufferFull]
    refine (hpush.clearDrq.setDmarq false).processBuffer (fun hm huntil ↦ ?_) fun hunlock ↦ ?_
    · have hm' : d.command.isWriteMultiple = true := hcommand ▸ hm
      have huntil' : d.progress.sectorsUntilInt ≠ 1 := hsame.progress ▸ huntil
      show (d.pushWord data).SectorsFit
      rw [SectorsFit, image_pushWord]
      refine hfit ?_
      rw [leftOfWrite, if_pos ⟨decide_eq_true hfull, hm', huntil'⟩]
      rfl
    · exact hpassword (decide_eq_true hfull) (hcommand.symm.trans hunlock)
  case isFalse hmore =>
    rw [offset_pushWord, size_pushWord] at hmore
    obtain ⟨hlt, heven⟩ := h.moved hmore
    rw [← offset_pushWord d data] at hlt heven
    exact h.ofSameTask hsame (h.safe_pushWord data) (d.size_pushWord data) hlt heven
      fun hcommand ↦ absurd hcommand hset

theorem finishedCommand (h : d.Sound)
    (hfit : d.command.accesses = true → d.command.usesImage = true → d.SectorsFit) :
    d.finishedCommand.Sound := by
  have hirq : (d.setIrq true).Sound := h.setIrq _
  have hread (hcommand : d.command.accesses = true) (himage : d.command.usesImage = true) :
      d.finishedRead.Sound := by
    refine h.finishedRead (fun hset ↦ ?_) fun _ ↦ hfit hcommand himage
    rw [hset] at himage
    exact Bool.false_ne_true himage
  rw [Hdd.finishedCommand]
  split
  case h_1 hcommand => exact h.finishedIdentify hcommand
  case h_2 => exact (h.setGeometry _).setIrq _
  case h_3 hcommand =>
    split_ifs
    · exact hread (by rw [hcommand]; rfl) (by rw [hcommand]; rfl)
    · refine h.finishedWrite ?_ fun _ ↦ hfit (by rw [hcommand]; rfl) (by rw [hcommand]; rfl)
      rw [hcommand]
      exact IdeCommand.noConfusion
  case h_4 hcommand => exact hread (by rw [hcommand]; rfl) (by rw [hcommand]; rfl)
  case h_5 hcommand => exact hread (by rw [hcommand]; rfl) (by rw [hcommand]; rfl)
  case h_6 hcommand => exact hread (by rw [hcommand]; rfl) (by rw [hcommand]; rfl)
  case h_7 hcommand =>
    exact h.finishedRead (by rw [hcommand]; decide) fun hbuffer ↦ absurd hcommand hbuffer
  case h_8 hcommand =>
    exact h.finishedWrite (by rw [hcommand]; decide) fun hbuffer ↦ absurd hcommand hbuffer
  case h_9 =>
    have hfits : 0 + (bigEndian d.geometry.totalSectors).length ≤ 512 := le_of_ble_eq_true rfl
    exact (h.putBytes hfits).setIrq _
  case h_10 =>
    dsimp only
    split_ifs
    · exact h.startDiagnostic
    · exact h.startDiagnostic.setIrq _
  case h_11 hcommand => exact h.finishedSetFeatures hcommand
  case h_12 => exact hirq
  case h_13 => exact hirq
  case h_14 => exact h

end Image

end Sound

/-! ## The events -/

section Parts

variable {d : Hdd M}

/-- A drive that asks for data is not in the middle of `SET FEATURES`. -/
theorem Sound.not_setFeatures (h : d.Sound) (hdrq : d.status.drq = true) :
    d.command ≠ .setFeatures := fun hcommand ↦
  Bool.false_ne_true ((h.setFeatures hcommand).2.symm.trans hdrq)

theorem drq_of_takesPio (hpio : d.takesPio = true) : d.status.drq = true := by
  rw [takesPio, Bool.and_eq_true] at hpio
  exact hpio.2

theorem drq_of_takesDma (hdma : d.takesDma = true) : d.status.drq = true := by
  rw [takesDma, Bool.and_eq_true] at hdma
  exact hdma.2

theorem IdeCommand.usesImage_of_isReadMultiple {c : IdeCommand} (h : c.isReadMultiple = true) :
    c.usesImage = true := by
  cases c <;> first | rfl | exact absurd h Bool.false_ne_true

theorem IdeCommand.usesImage_of_isWriteMultiple {c : IdeCommand} (h : c.isWriteMultiple = true) :
    c.usesImage = true := by
  cases c <;> first | rfl | exact absurd h Bool.false_ne_true

theorem usesImage_of_leftOfFill (hleft : d.leftOfFill.isSome = true) :
    d.command.usesImage = true := by
  rw [leftOfFill] at hleft
  split_ifs at hleft with hmultiple
  · exact IdeCommand.usesImage_of_isReadMultiple hmultiple.1
  · exact absurd hleft Bool.false_ne_true

theorem usesImage_of_leftOfRead (hleft : d.leftOfRead.isSome = true) :
    d.command.usesImage = true := by
  rw [leftOfRead] at hleft
  split_ifs at hleft
  · exact usesImage_of_leftOfFill hleft
  · exact absurd hleft Bool.false_ne_true

theorem usesImage_of_leftOfWrite (hleft : d.leftOfWrite.isSome = true) :
    d.command.usesImage = true := by
  rw [leftOfWrite] at hleft
  split_ifs at hleft with hmultiple
  · exact IdeCommand.usesImage_of_isWriteMultiple hmultiple.2.1
  · exact absurd hleft Bool.false_ne_true

theorem Sound.abortTransfer (h : d.Sound) : d.abortTransfer.Sound := by
  rw [Hdd.abortTransfer]
  exact ((h.stopBusy.clearDrq).setDmarq _).abortCommand

theorem Sound.beginWrite (h : d.Sound) (offset : ℕ) (data : BitVec 16) :
    (d.beginWrite offset data).Sound := by
  rw [Hdd.beginWrite]
  split_ifs
  · exact h.abortTransfer
  · exact h

theorem drq_beginWrite_command (data : BitVec 16) : (d.beginWrite 7 data).status.drq = false := by
  rw [Hdd.beginWrite]
  cases hdrq : d.status.drq with
  | true =>
    rw [if_pos (by simp [abortsTransfer, hdrq])]
    rfl
  | false =>
    rw [if_neg (by simp [abortsTransfer, hdrq])]
    exact hdrq

theorem Sound.writeDeviceHead (h : d.Sound) (data : Byte) : (d.writeDeviceHead data).Sound := by
  simp only [Hdd.writeDeviceHead]
  split
  · exact (h.onRegs rfl).updateIrq
  · exact h.onRegs rfl

theorem Sound.changeSrst (h : d.Sound) : d.changeSrst.Sound := by
  rw [Hdd.changeSrst]
  split_ifs
  · exact h
  · exact ((((h.setDasp _).setDmarq _).setIrq _).setPdiag _).startBusy _ _
  · exact h.softReset
  · exact h

theorem Sound.writeDeviceControl (h : d.Sound) (data : Byte) :
    (d.writeDeviceControl data).Sound := by
  have hregs : (d.onRegs fun r ↦ { r with deviceControl := data }).Sound := h.onRegs rfl
  simp only [Hdd.writeDeviceControl]
  split_ifs
  · exact hregs.updateIrq.changeSrst
  · exact hregs.changeSrst
  · exact hregs.updateIrq
  · exact hregs

theorem Sound.controlW (h : d.Sound) (offset : ℕ) (data : BitVec 16) :
    (d.controlW offset data).Sound := by
  rw [Hdd.controlW]
  split_ifs
  · exact h
  · exact h.writeDeviceControl _
  · exact h

end Parts

section Image

variable [HardDisk M] {d : Hdd M}

theorem Sound.commandR (h : d.Sound) (offset : ℕ) (data : BitVec 16)
    (huse : d.UsesSafely (.readCs0 offset)) : (d.commandR offset data).2.Sound := by
  rw [Hdd.commandR]
  split_ifs with hrespond hdmack hbusy
  · exact h
  · exact h
  · rw [readRegister.eq_def]
    split
    case h_1 =>
      split
      case isTrue htake =>
        have hpio : d.takesPio = true := by simp [takesPio, htake, hdmack]
        have hleft : d.sectorsLeft (.readCs0 0) = d.leftOfRead := if_pos hpio
        refine h.readData data (h.not_setFeatures (drq_of_takesPio hpio)) fun hsome ↦ ?_
        exact huse.1 (by rwa [hleft]) (usesImage_of_leftOfRead hsome)
      case isFalse => exact h
    case h_8 =>
      split
      · exact h.setIrq _
      · exact h
    all_goals exact h
  · exact h

theorem Sound.commandW (h : d.Sound) (offset : ℕ) (data : BitVec 16)
    (huse : d.UsesSafely (.writeCs0 offset data)) : (d.commandW offset data).Sound := by
  have hbegin : (d.beginWrite offset data).Sound := h.beginWrite offset data
  simp only [Hdd.commandW]
  split_ifs with hbsy hdmack
  · exact hbegin
  · exact hbegin
  · rw [writeRegister.eq_def]
    split
    case h_1 =>
      split
      case isTrue htake =>
        have hsame : d.beginWrite 0 data = d := by simp [Hdd.beginWrite, abortsTransfer]
        rw [hsame] at hbsy hdmack htake ⊢
        have hpio : d.takesPio = true := by simp [takesPio, htake, hbsy, hdmack]
        have hleft : d.sectorsLeft (.writeCs0 0 data) = d.leftOfWrite := if_pos hpio
        refine h.writeData data (h.not_setFeatures (drq_of_takesPio hpio)) (fun hsome ↦ ?_)
          fun hfull hunlock ↦ ?_
        · exact huse.1 (by rwa [hleft]) (usesImage_of_leftOfWrite hsome)
        · exact huse.2 _ (if_pos ⟨hpio, hfull, hunlock⟩)
      case isFalse => exact hbegin
    case h_7 => exact hbegin.writeDeviceHead _
    case h_8 =>
      split_ifs
      · exact hbegin.startCommand _ (drq_beginWrite_command data)
      · exact hbegin
    case h_9 => exact hbegin
    all_goals exact hbegin.onRegs rfl

theorem Sound.busyTick (h : d.Sound) (huse : d.UsesSafely .busyTick) : d.busyTick.Sound := by
  rw [Hdd.busyTick]
  split_ifs with hpending
  · have hbegin : ((d.setBsy false).setBusyTimer { d.busyTimer with pending := false }).Sound :=
      (h.setBsy _).setBusyTimer _
    rw [finishedBusy.eq_def]
    split
    case h_1 => exact hbegin
    case h_2 => exact (hbegin.onSetup _).softReset
    case h_3 => exact hbegin.startDiagnostic
    case h_4 => exact (hbegin.setError _).finishedDiagnostic
    case h_5 hparam =>
      refine hbegin.finishedCommand fun haccess himage ↦ huse.1 ?_ himage
      have hleft : d.sectorsLeft .busyTick = some d.progress.sectorsRemaining :=
        if_pos ⟨hpending, hparam, haccess⟩
      rw [hleft]
      rfl
  · exact h

theorem Sound.emptyTick (h : d.Sound) (huse : d.UsesSafely .emptyTick) : d.emptyTick.Sound := by
  rw [Hdd.emptyTick]
  split_ifs with hempty
  · have hleft : d.sectorsLeft .emptyTick = d.leftOfFill := if_pos hempty
    refine (h.setBufferEmpty false).fillBuffer fun hsome ↦ huse.1 ?_ (usesImage_of_leftOfFill hsome)
    rw [hleft]
    exact hsome
  · exact h

theorem Sound.reset (h : d.Sound) : d.reset.Sound := by
  have hdevice : d.deviceReset.Sound := by
    rw [deviceReset]
    split
    · exact h
    · dsimp only
      split_ifs
      · exact h
      · exact ((h.setGeometry _).onModes (.inr rfl)).onSetup _
      · exact (h.onModes (.inr rfl)).onSetup _
  exact hdevice.interfacePostReset

/-- **A step uses the buffer and the passwords safely.** -/
theorem Sound.step (h : d.Sound) (e : Event) (huse : d.UsesSafely e) : (d.step e).Sound := by
  cases e with
  | readDma =>
    rw [Hdd.step, dmaR]
    split_ifs with hdma
    · have hleft : d.sectorsLeft .readDma = d.leftOfRead := if_pos hdma
      refine (h.readData _ (h.not_setFeatures (drq_of_takesDma hdma)) fun hsome ↦ ?_).requestWord
      exact huse.1 (by rwa [hleft]) (usesImage_of_leftOfRead hsome)
    · exact h
  | writeDma data =>
    rw [Hdd.step, dmaW]
    split_ifs with hdma
    · have hleft : d.sectorsLeft (.writeDma data) = d.leftOfWrite := if_pos hdma
      refine (h.writeData data (h.not_setFeatures (drq_of_takesDma hdma)) (fun hsome ↦ ?_)
        fun hfull hunlock ↦ ?_).requestWord
      · exact huse.1 (by rwa [hleft]) (usesImage_of_leftOfWrite hsome)
      · exact huse.2 _ (if_pos ⟨hdma, hfull, hunlock⟩)
    · exact h
  | dmackIn state =>
    rw [Hdd.step, setDmackIn]
    split_ifs
    · exact (h.setDmarq _).onLines _
    · exact h.onLines _
  | readCs0 offset => exact h.commandR offset _ huse
  | writeCs0 offset data => exact h.commandW offset data huse
  | readCs1 offset => rwa [Hdd.step, controlR_snd]
  | writeCs1 offset data => exact h.controlW offset data
  | daspIn state =>
    rw [Hdd.step, setDaspIn]
    exact h.onLines _
  | pdiagIn state =>
    rw [Hdd.step, setPdiagIn]
    split_ifs
    · exact (h.onLines _).stopBusy.finishedDiagnostic
    · exact h.onLines _
  | busyTick => exact h.busyTick huse
  | emptyTick => exact h.emptyTick huse
  | reset => exact h.reset

/-- **The sector buffer.** In every run of a drive from its start the buffer is used inside its 512
bytes, as long as the sectors of its image fit, and `SECURITY UNLOCK` compares it with a password,
as long as the one that is asked for is installed. -/
theorem always_safe (csel : Bool) (image : Option M) (inquiryData : List Byte)
    (masterPassword userPassword : Option (List Byte)) (es : List Event)
    (huse : Run.Meets Hdd.step UsesSafely
      (start csel image inquiryData masterPassword userPassword) es) :
    Run.Always Hdd.step Safe (start csel image inquiryData masterPassword userPassword) es := by
  have hstart : (start csel image inquiryData masterPassword userPassword).Sound :=
    ⟨fun e he ↦ absurd he List.not_mem_nil, Nat.zero_le 512, zero_lt_succ 511, fun _ ↦ rfl,
      fun hset ↦ absurd hset IdeCommand.noConfusion⟩
  have hsound : Run.Always Hdd.step Sound
      (start csel image inquiryData masterPassword userPassword) es :=
    Run.always_of_meets (fun _ e h hG ↦ h.step e hG) hstart huse
  exact hsound.imp fun _ h ↦ h.safe

end Image

/-- `READ SECTORS` of a disk with a sector of 512 bytes, up to the first word. -/
theorem always_safe_readSectors :
    Run.Always Hdd.step Safe
      (start false (some (⟨⟨1, 1, 1, 512⟩, fun _ ↦ []⟩ : SdCard.MemoryDisk)) [] none none)
      [.reset, .busyTick, .busyTick, .writeCs0 2 1, .writeCs0 7 0x20, .busyTick, .readCs0 0] :=
  always_safe _ _ _ _ _ _ (by decide)

/-! ## A password that is not there -/

/-- A drive without passwords has got `n` words of the buffer of `SECURITY UNLOCK`. -/
structure Unlocking (n : ℕ) (d : Hdd M) : Prop where
  takes : d.takesPio = true
  command : d.command = .securityUnlock
  width : d.width = 2
  size : d.buffer.size = 512
  offset : d.buffer.offset.toNat = 2 * n
  security : d.security.masterPassword = none ∧ d.security.userPassword = none

theorem run_append [HardDisk M] (es fs : List Event) : d.run (es ++ fs) = (d.run es).run fs :=
  Run.run_append d es fs

theorem run_singleton [HardDisk M] (e : Event) : d.run [e] = d.step e := rfl

namespace Unlocking

variable {n : ℕ} {d : Hdd M}

theorem offset_push (h : Unlocking n d) (hn : n ≤ 255) (data : BitVec 16) :
    (d.pushWord data).buffer.offset.toNat = 2 * (n + 1) := by
  have hoffset : d.buffer.offset.toNat = 2 * n := h.offset
  rw [offset_pushWord, h.width, toNat_add, hoffset]
  show (2 * n + 2) % 2 ^ 16 = 2 * (n + 1)
  omega

variable [HardDisk M]

theorem step_eq (h : Unlocking n d) (data : BitVec 16) :
    d.step (.writeCs0 0 data) = d.writeData data := by
  have htakes : d.takesPio = true := h.takes
  have hbegin : d.beginWrite 0 data = d := by simp [beginWrite, abortsTransfer]
  simp only [takesPio, Bool.and_eq_true, Bool.not_eq_true'] at htakes
  obtain ⟨⟨⟨hselected, hdmack⟩, hbsy⟩, hdrq⟩ := htakes
  simp [Hdd.step, commandW, writeRegister, hbegin, hselected, hdmack, hbsy, hdrq]

theorem step (h : Unlocking n d) (hn : n < 255) (data : BitVec 16) :
    Unlocking (n + 1) (d.step (.writeCs0 0 data)) := by
  have hsame : SameTask d (d.pushWord data) := d.sameTask_pushWord data
  have hoffset := h.offset_push (by omega) data
  have hmore : ¬ (d.pushWord data).buffer.size ≤ (d.pushWord data).buffer.offset := by
    rw [le_def, hoffset, size_pushWord, h.size]
    show ¬ 512 ≤ 2 * (n + 1)
    omega
  have hstep : d.step (.writeCs0 0 data) = d.pushWord data := by
    rw [h.step_eq, Hdd.writeData, if_neg hmore]
  rw [hstep]
  exact
    { takes := by
        rw [takesPio, deviceSelected, dev, hsame.lines, hsame.regs, hsame.status]
        exact h.takes
      command := (command_congr d hsame.regs).trans h.command
      width := by
        rw [Hdd.width, hsame.modes]
        exact h.width
      size := (d.size_pushWord data).trans h.size
      offset := hoffset
      security := by
        rw [security_pushWord]
        exact h.security }

/-- The last word has the drive compare the buffer with a null pointer. -/
theorem last (h : Unlocking 255 d) (data : BitVec 16) :
    Effect.passwordUsed none ∈ (d.step (.writeCs0 0 data)).log := by
  have hsame : SameTask d (d.pushWord data) := d.sameTask_pushWord data
  have hfull : (d.pushWord data).buffer.size ≤ (d.pushWord data).buffer.offset := by
    rw [le_def, h.offset_push (Nat.le_refl 255) data, size_pushWord, h.size]
    decide
  have hcommand : ((((d.pushWord data).setOffset 0).setDrq false).setDmarq false).command =
      .securityUnlock := (command_congr d hsame.regs).trans h.command
  have hpassword :
      ((((d.pushWord data).setOffset 0).setDrq false).setDmarq false).selectedPassword =
      none := by
    have hsecurity : (d.pushWord data).security.masterPassword = none ∧
        (d.pushWord data).security.userPassword = none := by
      rw [security_pushWord]
      exact h.security
    rw [selectedPassword]
    split_ifs
    · exact hsecurity.1
    · exact hsecurity.2
  rw [h.step_eq, Hdd.writeData, if_pos hfull, writeBufferFull, processBuffer, hcommand]
  generalize (((d.pushWord data).setOffset 0).setDrq false).setDmarq false = d' at hpassword
  exact passwordUsed_mem_unlock hpassword

theorem run (h : Unlocking n d) (data : BitVec 16) (k : ℕ) (hk : n + k ≤ 255) :
    Unlocking (n + k) (d.run (List.replicate k (.writeCs0 0 data))) := by
  induction k generalizing n d with
  | zero => exact h
  | succ k ih =>
    have hstep : Unlocking (n + 1) (d.step (.writeCs0 0 data)) := h.step (by omega) data
    rw [add_succ, ← succ_add]
    exact ih hstep (by omega)

end Unlocking

/-- `SECURITY UNLOCK` of a drive without passwords, with a buffer of zeros. -/
theorem not_safe_unlock :
    ¬ (run (start false (none : Option SdCard.MemoryDisk) [] none none)
      ([.reset, .busyTick, .busyTick, .writeCs0 7 0xf2] ++
      List.replicate 256 (.writeCs0 0 0))).Safe := by
  have hbegin : Unlocking 0 (run (start false (none : Option SdCard.MemoryDisk) [] none none)
      [.reset, .busyTick, .busyTick, .writeCs0 7 0xf2]) :=
    ⟨by decide, by decide, by decide, by decide, by decide, by decide⟩
  have hsplit : List.replicate 256 (Event.writeCs0 0 0) =
      List.replicate 255 (.writeCs0 0 0) ++ [.writeCs0 0 0] := List.replicate_succ'
  intro hsafe
  refine Bool.false_ne_true (hsafe (.passwordUsed none) ?_)
  rw [hsplit, run_append, run_append, run_singleton]
  generalize run (start false (none : Option SdCard.MemoryDisk) [] none none) _ = d at hbegin ⊢
  exact (hbegin.run 0 255 (Nat.le_refl 255)).last 0

end Hdd

end RoscoEmulator.Ata
