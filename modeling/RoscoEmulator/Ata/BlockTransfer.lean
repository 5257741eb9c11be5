import RoscoEmulator.Ata.BufferSafety
import RoscoEmulator.Ata.SoftReset

/-!
# A transfer in blocks

`READ MULTIPLE` and `WRITE MULTIPLE` assert the interrupt once for a block of sectors, as many as
`SET MULTIPLE` has set. A read does so with the first sector of a block and a write behind the last
one. The countdown `m_sectors_until_int` starts with 1 for a read and with the length of a block for
a write, and goes on with the length of a block for both; a write also asserts the interrupt behind
its last sector.

`Transferring` says what the registers of a drive hold when it has accessed some of the sectors, and
`Steps` what a step does to it: it goes on waiting, or it accesses the next sector.
-/

namespace RoscoEmulator.Ata

open Nat

open SdCard (HardDisk)

namespace Hdd

variable {M : Type}

/-! ## What a transfer goes by -/

/-- What moves a transfer on is the same in two states, and the interrupt has not been asserted. -/
structure SameTransfer (d d' : Hdd M) : Prop where
  command : d'.regs.command = d.regs.command
  progress : d'.progress = d.progress
  drq : d'.status.drq = d.status.drq
  bsy : d'.status.bsy = d.status.bsy
  pending : d'.busyTimer.pending = d.busyTimer.pending
  param : d.busyTimer.pending = true → d'.busyTimer.param = d.busyTimer.param
  bufferEmpty : d'.bufferEmpty = d.bufferEmpty
  irq : d.lines.irq = false → d'.lines.irq = false

namespace SameTransfer

variable {d d' d'' : Hdd M}

theorem refl (d : Hdd M) : SameTransfer d d := ⟨rfl, rfl, rfl, rfl, rfl, fun _ ↦ rfl, rfl, id⟩

theorem trans (h : SameTransfer d d') (h' : SameTransfer d' d'') : SameTransfer d d'' where
  command := h'.command.trans h.command
  progress := h'.progress.trans h.progress
  drq := h'.drq.trans h.drq
  bsy := h'.bsy.trans h.bsy
  pending := h'.pending.trans h.pending
  param := fun hd ↦ (h'.param (h.pending.trans hd)).trans (h.param hd)
  bufferEmpty := h'.bufferEmpty.trans h.bufferEmpty
  irq := fun hd ↦ h'.irq (h.irq hd)

theorem of_sameTask (h : SameTask d d') : SameTransfer d d' where
  command := by rw [h.regs]
  progress := h.progress
  drq := by rw [h.status]
  bsy := by rw [h.status]
  pending := by rw [h.busyTimer]
  param := fun _ ↦ by rw [h.busyTimer]
  bufferEmpty := h.bufferEmpty
  irq := fun hd ↦ by rw [h.lines, hd]

theorem onRegs (d : Hdd M) {f : Registers → Registers} (hf : (f d.regs).command = d.regs.command) :
    SameTransfer d (d.onRegs f) := ⟨hf, rfl, rfl, rfl, rfl, fun _ ↦ rfl, rfl, id⟩

theorem onLines (d : Hdd M) {f : Lines → Lines} (hf : (f d.lines).irq = d.lines.irq) :
    SameTransfer d (d.onLines f) := ⟨rfl, rfl, rfl, rfl, rfl, fun _ ↦ rfl, rfl, fun h ↦ hf.trans h⟩

theorem updateIrq (d : Hdd M) : SameTransfer d d.updateIrq := by
  rw [Hdd.updateIrq]
  split_ifs
  · exact onLines d rfl
  · exact onLines d rfl

theorem acknowledge (d : Hdd M) : SameTransfer d (d.setIrq false) := by
  rw [setIrq]
  split_ifs
  · have hoff : SameTransfer d (d.onLines fun l ↦ { l with irq := false }) :=
      ⟨rfl, rfl, rfl, rfl, rfl, fun _ ↦ rfl, rfl, fun _ ↦ rfl⟩
    exact hoff.trans (updateIrq _)
  · exact refl d

end SameTransfer

/-! ## Steps that do not move a transfer on -/

/-- The event ends a buffer, or a timer expires. -/
def moves (d : Hdd M) : Event → Bool
  | .readDma | .writeDma _ => d.takesDma && d.completes
  | .readCs0 0 | .writeCs0 0 _ => d.takesPio && d.completes
  | .busyTick => d.busyTimer.pending
  | .emptyTick => d.bufferEmpty
  | _ => false

/-- The event belongs to a transfer: the data of the host go in the direction of the command, no
command is written to a drive that is not busy, and there is no reset. -/
def undisturbed (isRead : Bool) (d : Hdd M) : Event → Bool
  | .readDma => !d.takesDma || isRead
  | .writeDma _ => !d.takesDma || !isRead
  | .readCs0 0 => !d.takesPio || isRead
  | .writeCs0 0 _ => !d.takesPio || !isRead
  | .writeCs0 7 _ => d.status.bsy
  | .writeCs1 6 data => data.getLsbD 2 == d.srst
  | .reset => false
  | _ => true

variable {d : Hdd M}

theorem completes_of_pio (hpio : d.takesPio = true) (h : (d.takesPio && d.completes) = false) :
    d.completes = false := by
  rwa [hpio, Bool.true_and] at h

theorem completes_of_dma (hdma : d.takesDma = true) (h : (d.takesDma && d.completes) = false) :
    d.completes = false := by
  rwa [hdma, Bool.true_and] at h

section Quiet

variable [HardDisk M] {d : Hdd M} {data : BitVec 16}

theorem sameTransfer_readData (hmore : d.completes = false) :
    SameTransfer d (d.readData data).2 := by
  simp only [readData]
  split
  case isTrue hfull => exact absurd hfull (of_decide_eq_false hmore)
  case isFalse => exact .of_sameTask (((SameTask.refl d).logged _).onBuffer _)

theorem sameTransfer_writeData (hmore : d.completes = false) :
    SameTransfer d (d.writeData data) := by
  simp only [writeData]
  split
  case isTrue hfull =>
    rw [offset_pushWord, size_pushWord] at hfull
    exact absurd hfull (of_decide_eq_false hmore)
  case isFalse => exact .of_sameTask (d.sameTask_pushWord data)

omit [HardDisk M] in
theorem sameTransfer_requestWord (d : Hdd M) : SameTransfer d d.requestWord := by
  rw [requestWord]
  split_ifs
  · exact .onLines d rfl
  · exact .refl d

omit [HardDisk M] in
theorem sameTransfer_writeDeviceHead (d : Hdd M) (data : Byte) :
    SameTransfer d (d.writeDeviceHead data) := by
  have hregs : SameTransfer d (d.onRegs fun r ↦ { r with deviceHead := data }) := .onRegs d rfl
  simp only [writeDeviceHead]
  split_ifs
  · exact hregs.trans (.updateIrq _)
  · exact hregs

variable (offset : ℕ)

theorem sameTransfer_commandR (hmoves : d.moves (.readCs0 offset) = false) :
    SameTransfer d (d.commandR offset data).2 := by
  rw [commandR]
  split_ifs with hrespond hdmack hbusy
  · exact .refl d
  · exact .refl d
  · rw [readRegister.eq_def]
    split
    case h_1 =>
      split
      case isTrue htake =>
        have hpio : d.takesPio = true := by simp [takesPio, htake, hdmack]
        exact sameTransfer_readData (completes_of_pio hpio hmoves)
      case isFalse => exact .refl d
    case h_8 =>
      split
      · exact .acknowledge d
      · exact .refl d
    all_goals exact .refl d
  · exact .refl d

/-- A register write in a data phase sets the error bit, and no write but that of a command clears
it. -/
theorem err_commandW_of_abortsTransfer {offset : ℕ} (habort : d.abortsTransfer offset data = true)
    (hseven : offset ≠ 7) : (d.commandW offset data).status.err = true := by
  have hbegin : d.beginWrite offset data = d.abortTransfer := if_pos habort
  have herr : d.abortTransfer.status.err = true := rfl
  simp only [commandW, hbegin]
  generalize d.abortTransfer = d' at herr
  split
  · exact herr
  split
  · exact herr
  · rw [writeRegister.eq_def]
    split
    case h_1 =>
      rw [abortsTransfer] at habort
      simp at habort
    case h_7 =>
      simp only [writeDeviceHead]
      split
      · rw [status_updateIrq]
        exact herr
      · exact herr
    case h_8 => exact absurd rfl hseven
    all_goals exact herr

/-- The event is a register write that ends a data phase. -/
def aborts (d : Hdd M) : Event → Bool
  | .writeCs0 offset data => d.abortsTransfer offset data
  | _ => false

/-- What does not set the error bit does not end a data phase. -/
theorem aborts_of_err {isRead : Bool} {e : Event} (hundisturbed : d.undisturbed isRead e = true)
    (hbusy : d.status.bsy = true → d.status.drq = false) (herr : (d.step e).status.err = false) :
    d.aborts e = false := by
  cases e with
  | writeCs0 offset data =>
    by_contra habort
    rw [Bool.not_eq_false] at habort
    by_cases hoffset : offset = 7
    · subst hoffset
      have habort' : d.abortsTransfer 7 data = true := habort
      rw [abortsTransfer, hbusy hundisturbed] at habort'
      exact Bool.noConfusion habort'
    · have herr' : (d.commandW offset data).status.err = false := herr
      rw [err_commandW_of_abortsTransfer habort hoffset] at herr'
      exact Bool.noConfusion herr'
  | _ => rfl

theorem sameTransfer_commandW (hmoves : d.moves (.writeCs0 offset data) = false)
    (hseven : offset = 7 → d.status.bsy = true) (habort : d.abortsTransfer offset data = false) :
    SameTransfer d (d.commandW offset data) := by
  have hbegin : d.beginWrite offset data = d := if_neg (by rw [habort]; exact Bool.false_ne_true)
  simp only [commandW, hbegin]
  split_ifs with hbsy hdmack
  · exact .refl d
  · exact .refl d
  · rw [writeRegister.eq_def]
    split
    case h_1 =>
      split
      case isTrue htake =>
        have hpio : d.takesPio = true := by simp [takesPio, htake, hbsy, hdmack]
        exact sameTransfer_writeData (completes_of_pio hpio hmoves)
      case isFalse => exact .refl d
    case h_7 => exact sameTransfer_writeDeviceHead d _
    case h_8 => exact absurd (hseven rfl) hbsy
    case h_9 => exact .refl d
    all_goals exact .onRegs d rfl

omit [HardDisk M] in
/-- A write of the control register that leaves `SRST` as it is. -/
theorem sameTransfer_controlW (hsrst : offset = 6 → data.getLsbD 2 = d.srst) :
    SameTransfer d (d.controlW offset data) := by
  rw [controlW]
  split_ifs with hdmack hoffset
  · exact .refl d
  · have hregs : SameTransfer d (d.onRegs fun r ↦ { r with deviceControl := data.setWidth 8 }) :=
      .onRegs d rfl
    have hsame : (d.regs.deviceControl ^^^ data.setWidth 8).getLsbD 2 = false := by
      refine srst_unchanged ?_
      rw [getLsbD_setWidth_control]
      exact hsrst hoffset
    simp only [writeDeviceControl, hsame, Bool.false_eq_true, if_false]
    split
    · exact hregs.trans (.updateIrq _)
    · exact hregs
  · exact .refl d

omit [HardDisk M] in
theorem sameTransfer_setPdiagIn
    (state : Bool) (hbusy : d.busyTimer.pending = true → d.busyTimer.param = .command)
    (hidle : d.busyTimer.pending = false → d.status.bsy = false) :
    SameTransfer d (d.setPdiagIn state) := by
  have hlines : SameTransfer d (d.onLines fun l ↦ { l with pdiagin := state }) := .onLines d rfl
  rw [setPdiagIn]
  split_ifs with hwait
  · obtain ⟨-, hparam⟩ := hwait
    have hparam' : d.busyTimer.param = .waitForPdiag := hparam
    have hpending : d.busyTimer.pending = false := by
      by_contra hpending
      rw [hbusy (Bool.not_eq_false _ ▸ hpending)] at hparam'
      cases hparam'
    exact ⟨rfl, rfl, rfl, (hidle hpending).symm, hpending.symm,
      fun hd ↦ absurd hd (by rw [hpending]; exact Bool.false_ne_true), rfl, id⟩
  · exact hlines

omit [HardDisk M] in
theorem sameTransfer_setDmackIn (d : Hdd M) (state : Bool) :
    SameTransfer d (d.setDmackIn state) := by
  simp only [setDmackIn]
  split_ifs
  · have hdmarq : SameTransfer d (d.setDmarq false) := .onLines d rfl
    exact hdmarq.trans (.onLines _ rfl)
  · exact .onLines d rfl

/-- **What does not move a transfer on**: every other step of its run. -/
theorem sameTransfer_step {isRead : Bool} {e : Event} (hmoves : d.moves e = false)
    (hundisturbed : d.undisturbed isRead e = true)
    (hpending : d.busyTimer.pending = true → d.busyTimer.param = .command)
    (hidle : d.busyTimer.pending = false → d.status.bsy = false) (habort : d.aborts e = false) :
    SameTransfer d (d.step e) := by
  cases e with
  | readDma =>
    rw [step, dmaR]
    split_ifs with htakes
    · exact (sameTransfer_readData (completes_of_dma htakes hmoves)).trans
        (sameTransfer_requestWord _)
    · exact .refl d
  | writeDma data =>
    rw [step, dmaW]
    split_ifs with htakes
    · exact (sameTransfer_writeData (completes_of_dma htakes hmoves)).trans
        (sameTransfer_requestWord _)
    · exact .refl d
  | dmackIn state => exact sameTransfer_setDmackIn d state
  | readCs0 offset => exact sameTransfer_commandR offset hmoves
  | writeCs0 offset data =>
    refine sameTransfer_commandW offset hmoves ?_ habort
    rintro rfl
    exact hundisturbed
  | readCs1 offset =>
    rw [step, controlR_snd]
    exact .refl d
  | writeCs1 offset data =>
    refine sameTransfer_controlW offset ?_
    rintro rfl
    exact beq_iff_eq.mp hundisturbed
  | daspIn state =>
    rw [step, setDaspIn]
    exact .onLines d rfl
  | pdiagIn state => exact sameTransfer_setPdiagIn state hpending hidle
  | busyTick =>
    rw [step, busyTick,
      if_neg (by rw [show d.busyTimer.pending = false from hmoves]; exact Bool.false_ne_true)]
    exact .refl d
  | emptyTick =>
    rw [step, emptyTick,
      if_neg (by rw [show d.bufferEmpty = false from hmoves]; exact Bool.false_ne_true)]
    exact .refl d
  | reset => exact Bool.noConfusion hundisturbed

end Quiet

/-! ## The end of a sector -/

/-- The countdown to the next interrupt is over, or a write has no more sectors. -/
def Signals (d : Hdd M) (last : Bool) : Prop := d.progress.sectorsUntilInt - 1 = 0 ∨ last = true

instance (d : Hdd M) (last : Bool) : Decidable (d.Signals last) :=
  inferInstanceAs (Decidable (_ ∨ _))

/-- What `finished_read` and `finished_write` do to the countdown and the interrupt of a transfer in
blocks. -/
structure Accesses (d : Hdd M) (last : Bool) (left : ℕ) (drq : Bool) (d' : Hdd M) : Prop where
  command : d'.regs.command = d.regs.command
  blockCount : d'.progress.blockCount = d.progress.blockCount
  untilInt : d'.progress.sectorsUntilInt =
    if d.Signals last then d.progress.blockCount else d.progress.sectorsUntilInt - 1
  remaining : d'.progress.sectorsRemaining = left
  drq : d'.status.drq = drq
  bsy : d'.status.bsy = d.status.bsy
  pending : d'.busyTimer.pending = d.busyTimer.pending
  bufferEmpty : d'.bufferEmpty = d.bufferEmpty
  raised : d.Signals last → d'.lines.irq = true
  kept : ¬ d.Signals last → d.lines.irq = false → d'.lines.irq = false

namespace Accesses

variable {d d₀ d' d'' : Hdd M} {last drq : Bool} {left : ℕ}

theorem of_same (h : d.Accesses last left drq d') (hsame : SameTransfer d₀ d) :
    d₀.Accesses last left drq d' := by
  have hsignals : d.Signals last ↔ d₀.Signals last := by rw [Signals, Signals, hsame.progress]
  refine ⟨h.command.trans hsame.command, by rw [h.blockCount, hsame.progress], ?_,
    h.remaining, h.drq,
    h.bsy.trans hsame.bsy, h.pending.trans hsame.pending, h.bufferEmpty.trans hsame.bufferEmpty,
    fun hs ↦ h.raised (hsignals.mpr hs), fun hs hirq ↦
      h.kept (fun hs' ↦ hs (hsignals.mp hs')) (hsame.irq hirq)⟩
  rw [h.untilInt, hsame.progress]
  by_cases hs : d.Signals last
  · rw [if_pos hs, if_pos (hsignals.mp hs)]
  · rw [if_neg hs, if_neg fun hs' ↦ hs (hsignals.mpr hs')]

theorem setDrq (h : d.Accesses last left drq d') (state : Bool) :
    d.Accesses last left state (d'.setDrq state) :=
  ⟨h.command, h.blockCount, h.untilInt, h.remaining, rfl, h.bsy, h.pending, h.bufferEmpty,
    h.raised, h.kept⟩

theorem countDown (h : d.Accesses last left drq d') :
    d.Accesses last (left - 1) drq d'.countDown := by
  have hremaining := d'.sectorsRemaining_countDown
  rw [h.remaining] at hremaining
  rw [Hdd.countDown] at hremaining ⊢
  split_ifs at hremaining ⊢
  · exact ⟨h.command, h.blockCount, h.untilInt, hremaining, h.drq, h.bsy, h.pending, h.bufferEmpty,
      h.raised, h.kept⟩
  · exact ⟨h.command, h.blockCount, h.untilInt, hremaining, h.drq, h.bsy, h.pending, h.bufferEmpty,
      h.raised, h.kept⟩

end Accesses

theorem irq_setIrq (d : Hdd M) (state : Bool) : (d.setIrq state).lines.irq = state := by
  rw [setIrq, updateIrq]
  split_ifs with hchange
  · rfl
  · rfl
  · exact not_not.mp hchange

theorem setIrq_frame (d : Hdd M) (state : Bool) :
    (d.setIrq state).progress = d.progress ∧ (d.setIrq state).status = d.status ∧
      (d.setIrq state).busyTimer = d.busyTimer ∧ (d.setIrq state).bufferEmpty = d.bufferEmpty := by
  obtain ⟨f, hf⟩ := exists_setIrq d state
  rw [hf]
  exact ⟨rfl, rfl, rfl, rfl⟩

theorem signal_of_signals {last : Bool} (hmultiple : d.command.isMultiple = true)
    (h : d.Signals last) : d.signal last =
      ((d.setUntilInt (d.progress.sectorsUntilInt - 1)).setUntilInt
      d.progress.blockCount).setIrq true := by
  have hcommand :
      (d.setUntilInt (d.progress.sectorsUntilInt - 1)).command.isMultiple = true := hmultiple
  have hsignal : d.signal last = ((d.setUntilInt (d.progress.sectorsUntilInt - 1)).setUntilInt
      (if (d.setUntilInt (d.progress.sectorsUntilInt - 1)).command.isMultiple
      then d.progress.blockCount
        else 1)).setIrq true := if_pos h
  rw [hsignal, if_pos hcommand]

theorem signal_of_not_signals {last : Bool} (h : ¬ d.Signals last) :
    d.signal last = d.setUntilInt (d.progress.sectorsUntilInt - 1) := if_neg h

theorem accesses_signal (hmultiple : d.command.isMultiple = true) (last : Bool) :
    d.Accesses last d.progress.sectorsRemaining d.status.drq (d.signal last) := by
  by_cases hs : d.Signals last
  · rw [signal_of_signals hmultiple hs]
    obtain ⟨hprogress, hstatus, htimer, hempty⟩ := setIrq_frame
      ((d.setUntilInt (d.progress.sectorsUntilInt - 1)).setUntilInt d.progress.blockCount) true
    refine ⟨by rw [regs_setIrq]; rfl, by rw [hprogress]; rfl,
      ?_, by rw [hprogress]; rfl, by rw [hstatus]; rfl,
      by rw [hstatus]; rfl, by rw [htimer]; rfl, by rw [hempty]; rfl, fun _ ↦
      irq_setIrq _ _, fun hn ↦ absurd hs hn⟩
    rw [hprogress, if_pos hs]
    rfl
  · rw [signal_of_not_signals hs]
    refine ⟨rfl, rfl, ?_, rfl, rfl, rfl, rfl, rfl, fun h ↦ absurd h hs, fun _ h ↦ h⟩
    rw [if_neg hs]
    rfl

section Sectors

variable [HardDisk M] {d : Hdd M} {c : Command}

omit [HardDisk M] in
theorem sameTransfer_passSector (d : Hdd M) : SameTransfer d d.passSector := by
  rw [passSector, nextSector]
  split_ifs
  · exact .onRegs d rfl
  · exact .refl d

omit [HardDisk M] in
/-- The error bit stays set behind a bad sector. -/
theorem err_badSector (d : Hdd M) : d.badSector.status.err = true := by
  obtain ⟨-, hstatus, -⟩ := setIrq_frame ((d.setErr true).setError 0x80) true
  rw [badSector, hstatus]
  rfl

omit [HardDisk M] in
theorem requestData_of_multiple (hcommand : d.command = .transfer c)
    (hmultiple : c.isMultiple = true) : d.requestData = d.setDrq true := by
  have hdma : (d.setDrq true).command.isDma = false := by
    have hsame : (d.setDrq true).command = .transfer c := hcommand
    rw [hsame]
    cases c <;> first | rfl | exact Bool.noConfusion hmultiple
  exact if_neg (by rw [hdma]; exact Bool.false_ne_true)

theorem accesses_finishedRead (hcommand : d.command = .transfer c) (hmultiple : c.isMultiple = true)
    (herr : d.finishedRead.status.err = false) :
    d.Accesses false d.progress.sectorsRemaining true d.finishedRead := by
  have hdasp : SameTransfer d (d.setDasp false) := .onLines d rfl
  have hfetch : SameTransfer d (d.setDasp false).fetchSector.2 :=
    hdasp.trans (.of_sameTask (sameTask_fetchSector _))
  rw [finishedRead, finishedReadWith] at herr ⊢
  generalize (d.setDasp false).fetchSector = fetched at hfetch herr ⊢
  by_cases hok : fetched.1 = true
  · have hsame := hfetch.trans (sameTransfer_passSector fetched.2)
    have hcommand' : fetched.2.passSector.command = .transfer c := by
      rw [command, hsame.command]
      exact hcommand
    have hmultiple' : fetched.2.passSector.command.isMultiple = true := by
      rw [hcommand']
      exact hmultiple
    have hlast : decide (fetched.2.progress.sectorsRemaining = 1 ∧
        ¬ fetched.2.command.isMultiple) = false := by
      rw [← command_passSector]
      exact decide_eq_false fun h ↦ h.2 hmultiple'
    have hsignal := accesses_signal hmultiple' false
    have hcommand'' : (fetched.2.passSector.signal false).command = .transfer c := by
      rw [command_advance, ← command_passSector]
      exact hcommand'
    have hverify : (fetched.2.passSector.signal false).command.isVerify = false := by
      rw [hcommand'']
      rfl
    have haccesses := (hsignal.of_same hsame).setDrq true
    rw [hsame.progress] at haccesses
    rw [if_pos hok, hlast, if_neg (by rw [hverify]; exact Bool.false_ne_true),
      requestData_of_multiple hcommand'' hmultiple]
    exact haccesses
  · rw [if_neg hok, err_badSector] at herr
    exact Bool.noConfusion herr

theorem fillBuffer_of_multiple (hcommand : d.command = .transfer c) (hread : c.isRead = true)
    (hmultiple : c.isMultiple = true) : d.fillBuffer =
      if 0 < d.countDown.progress.sectorsRemaining then d.countDown.finishedRead
      else d.countDown := by
  rw [fillBuffer, fillBufferWith, hcommand]
  cases c <;> first | rfl | exact Bool.noConfusion hread | exact Bool.noConfusion hmultiple

theorem accesses_finishedWrite (hcommand : d.command = .transfer c)
    (hmultiple : c.isMultiple = true)
    (hdrq : d.status.drq = false) (herr : d.finishedWrite.status.err = false) :
    d.Accesses (decide (d.progress.sectorsRemaining = 1)) (d.progress.sectorsRemaining - 1)
      (decide (1 < d.progress.sectorsRemaining)) d.finishedWrite := by
  have hdasp : SameTransfer d (d.setDasp false) := .onLines d rfl
  have hstore : SameTransfer d (d.setDasp false).storeSector.2 :=
    hdasp.trans (.of_sameTask (sameTask_storeSector _))
  rw [finishedWrite] at herr ⊢
  generalize (d.setDasp false).storeSector = stored at hstore herr ⊢
  dsimp only at herr ⊢
  by_cases hok : stored.1 = true
  · have hsame := hstore.trans (sameTransfer_passSector stored.2)
    have hcommand' : stored.2.passSector.command = .transfer c := by
      rw [command, hsame.command]
      exact hcommand
    have hmultiple' : stored.2.passSector.command.isMultiple = true := by
      rw [hcommand']
      exact hmultiple
    have hsignal := accesses_signal hmultiple' (decide (stored.2.progress.sectorsRemaining = 1))
    have haccesses := (hsignal.of_same hsame).countDown
    rw [hsame.progress, hstore.progress, hsame.drq, hdrq] at haccesses
    rw [if_pos hok]
    rw [hstore.progress]
    have hcommand'' : ((stored.2.passSector.signal
        (decide (d.progress.sectorsRemaining = 1))).countDown).command = .transfer c := by
      rw [command, haccesses.command]
      exact hcommand
    have hremaining := haccesses.remaining
    generalize
      (stored.2.passSector.signal (decide (d.progress.sectorsRemaining = 1))).countDown = d' at *
    split_ifs with hmore
    · have hleft : decide (1 < d.progress.sectorsRemaining) = true := decide_eq_true (by omega)
      rw [requestData_of_multiple hcommand'' hmultiple, hleft]
      exact haccesses.setDrq true
    · have hleft : decide (1 < d.progress.sectorsRemaining) = false := decide_eq_false (by omega)
      rw [hleft]
      exact haccesses
  · rw [if_neg hok, err_badSector] at herr
    exact Bool.noConfusion herr

end Sectors

/-! ## How far a transfer has got -/

/-- The sectors by which a read is ahead of its blocks: it asserts the interrupt at the start of
them. -/
def lead (c : Command) (b : ℕ) : ℕ := if c.isRead then b - 1 else 0

/-- The countdown when `k` sectors have been accessed. -/
def countdown (c : Command) (b k : ℕ) : ℕ := b - (k + lead c b) % b

/-- The interrupt is asserted with the access of sector `k` of `n`. -/
def SignalsAt (c : Command) (b n k : ℕ) : Prop :=
  if c.isRead then b ∣ k - 1 else b ∣ k ∨ k = n

instance (c : Command) (b n : ℕ) : DecidablePred (SignalsAt c b n) := fun k ↦
  inferInstanceAs (Decidable (if c.isRead then b ∣ k - 1 else b ∣ k ∨ k = n))

section Countdown

variable {c : Command} {b n k : ℕ} (hb : 0 < b)
include hb

theorem countdown_pos : 0 < countdown c b k := Nat.sub_pos_of_lt (mod_lt _ hb)

theorem countdown_start : countdown c b 0 = if c.isRead then 1 else b := by
  rw [countdown, lead]
  split_ifs
  · rw [Nat.zero_add, mod_eq_of_lt (sub_lt hb Nat.one_pos), Nat.sub_sub_self hb]
  · rw [Nat.zero_add, zero_mod, Nat.sub_zero]

/-- The countdown is over where a block ends. -/
theorem countdown_eq_one_iff : countdown c b k = 1 ↔ b ∣ k + lead c b + 1 := by
  have hmod := mod_lt (k + lead c b) hb
  have hsucc : (k + lead c b + 1) % b = ((k + lead c b) % b + 1) % b := (mod_add_mod _ _ _).symm
  rw [countdown, dvd_iff_mod_eq_zero, hsucc]
  by_cases hend : (k + lead c b) % b + 1 = b
  · rw [hend, mod_self]
    exact iff_of_true (by omega) rfl
  · have hstay : ((k + lead c b) % b + 1) % b = (k + lead c b) % b + 1 := mod_eq_of_lt (by omega)
    rw [hstay]
    exact iff_of_false (by omega) (by omega)

theorem countdown_succ : countdown c b (k + 1) =
    if countdown c b k = 1 then b else countdown c b k - 1 := by
  have hmod := mod_lt (k + lead c b) hb
  have hsucc : (k + 1 + lead c b) % b = ((k + lead c b) % b + 1) % b := by
    rw [mod_add_mod, Nat.add_right_comm]
  rw [countdown, countdown, hsucc]
  by_cases hend : (k + lead c b) % b + 1 = b
  · rw [hend, mod_self, if_pos (by omega)]
    rfl
  · have hstay : ((k + lead c b) % b + 1) % b = (k + lead c b) % b + 1 := mod_eq_of_lt (by omega)
    rw [hstay, if_neg (by omega)]
    omega

/-- A read asserts the interrupt where the countdown is over, and a write also with its last
sector. -/
theorem signalsAt_succ : SignalsAt c b n (k + 1) ↔
    countdown c b k = 1 ∨ c.isRead = false ∧ k + 1 = n := by
  rw [SignalsAt, countdown_eq_one_iff hb, lead]
  split_ifs with hread
  · have hblock : k + (b - 1) + 1 = k + b := by omega
    rw [hblock, Nat.dvd_add_self_right, Nat.add_sub_cancel, hread]
    simp
  · simp [hread]

end Countdown

/-- Where a transfer is between two accesses of a sector. -/
inductive Phase (isRead : Bool) (n k : ℕ) (d : Hdd M) : Prop
  /-- The busy timer runs: before the first sector of a read, or behind a full buffer of a write. -/
  | wait (hfirst : isRead = true → k = 0) (hmore : k < n) (hbsy : d.status.bsy = true)
      (hdrq : d.status.drq = false) (hpending : d.busyTimer.pending = true)
      (hparam : d.busyTimer.param = .command) (hempty : d.bufferEmpty = false)
      (hleft : d.progress.sectorsRemaining = n - k)
  /-- The host moves the data of a sector. -/
  | data (hsector : if isRead then 0 < k else k < n) (hbsy : d.status.bsy = false)
      (hdrq : d.status.drq = true) (hpending : d.busyTimer.pending = false)
      (hempty : d.bufferEmpty = false)
      (hleft : d.progress.sectorsRemaining = if isRead then n + 1 - k else n - k)
  /-- The buffer has been read by ultra DMA, and the timer that fills it again runs. -/
  | emptied (hread : isRead = true) (hsector : 0 < k) (hbsy : d.status.bsy = false)
      (hdrq : d.status.drq = false) (hpending : d.busyTimer.pending = false)
      (hempty : d.bufferEmpty = true) (hleft : d.progress.sectorsRemaining = n + 1 - k)
  | done (hlast : k = n) (hbsy : d.status.bsy = false) (hdrq : d.status.drq = false)
      (hpending : d.busyTimer.pending = false) (hempty : d.bufferEmpty = false)
      (hleft : d.progress.sectorsRemaining = 0)

/-- A transfer of `n` sectors in blocks of `b`, of which `k` have been accessed. -/
structure Transferring (c : Command) (b n k : ℕ) (d : Hdd M) : Prop where
  command : d.command = .transfer c
  block : d.progress.blockCount = BitVec.ofNat 16 b
  count : k < n → d.progress.sectorsUntilInt = BitVec.ofNat 16 (countdown c b k)
  phase : Phase c.isRead n k d
  le : k ≤ n

namespace Transferring

variable {c : Command} {b n k : ℕ} {d d' : Hdd M}

theorem of_same (h : Transferring c b n k d) (hsame : SameTransfer d d') :
    Transferring c b n k d' := by
  refine ⟨?_, by rw [hsame.progress, h.block],
    fun hk ↦ by rw [hsame.progress, h.count hk], ?_, h.le⟩
  · rw [Hdd.command, hsame.command]
    exact h.command
  · cases h.phase with
    | wait hfirst hmore hbsy hdrq hpending hparam hempty hleft =>
      exact .wait hfirst hmore (hsame.bsy.trans hbsy) (hsame.drq.trans hdrq)
        (hsame.pending.trans hpending)
        ((hsame.param hpending).trans hparam) (hsame.bufferEmpty.trans hempty)
        (by rw [hsame.progress, hleft])
    | data hsector hbsy hdrq hpending hempty hleft =>
      exact .data hsector (hsame.bsy.trans hbsy) (hsame.drq.trans hdrq) (hsame.pending.trans
        hpending) (hsame.bufferEmpty.trans hempty) (by rw [hsame.progress, hleft])
    | emptied hread hsector hbsy hdrq hpending hempty hleft =>
      exact .emptied hread hsector (hsame.bsy.trans hbsy) (hsame.drq.trans hdrq)
        (hsame.pending.trans hpending) (hsame.bufferEmpty.trans hempty)
        (by rw [hsame.progress, hleft])
    | done hlast hbsy hdrq hpending hempty hleft =>
      exact .done hlast (hsame.bsy.trans hbsy) (hsame.drq.trans hdrq) (hsame.pending.trans hpending)
        (hsame.bufferEmpty.trans hempty) (by rw [hsame.progress, hleft])

end Transferring

/-- What a step does to a transfer: it goes on waiting, or a sector is accessed. -/
inductive Steps (c : Command) (b n k : ℕ) (left : Option ℕ) (d d' : Hdd M) : Prop
  | stay (hleft : left = none) (h : Transferring c b n k d') (hkept : d.lines.irq = false →
    d'.lines.irq = false)
  | access (hk : k < n) (hleft : left = some (n - k)) (h : Transferring c b n (k + 1) d')
      (hraised : SignalsAt c b n (k + 1) → d'.lines.irq = true)
      (hkept : ¬ SignalsAt c b n (k + 1) → d.lines.irq = false → d'.lines.irq = false)

section Steps

variable {c : Command} {b n k : ℕ} {d d' : Hdd M} (hb : 0 < b) (hb' : b < 2 ^ 16)
include hb hb'

omit hb' in
theorem ofNat_countdown_sub_one :
    BitVec.ofNat 16 (countdown c b k) - 1 = BitVec.ofNat 16 (countdown c b k - 1) :=
  BitVec.ofNat_sub_ofNat_of_le _ 1 (show 1 < 2 ^ 16 by decide) (countdown_pos hb)

theorem signals_iff {last : Bool}
    (hcount : d.progress.sectorsUntilInt = BitVec.ofNat 16 (countdown c b k))
    (hlast : last = true ↔ c.isRead = false ∧ k + 1 = n) :
    d.Signals last ↔ SignalsAt c b n (k + 1) := by
  have hpos := @countdown_pos c b k hb
  have hle : countdown c b k ≤ b := sub_le _ _
  have hover : BitVec.ofNat 16 (countdown c b k) - 1 = 0 ↔ countdown c b k = 1 := by
    rw [ofNat_countdown_sub_one hb, ← BitVec.toNat_inj, BitVec.toNat_ofNat, mod_eq_of_lt (by omega)]
    exact ⟨fun h ↦ by have hzero : countdown c b k - 1 = 0 := h; omega, fun h ↦ by rw [h]; rfl⟩
  rw [Signals, hcount, hover, hlast, signalsAt_succ hb]

theorem steps_of_accesses {last drq : Bool} {left : ℕ} (hcommand : d.command = .transfer c)
    (hblock : d.progress.blockCount = BitVec.ofNat 16 b)
    (hcount : d.progress.sectorsUntilInt = BitVec.ofNat 16 (countdown c b k)) (hk : k < n)
    (hlast : last = true ↔ c.isRead = false ∧ k + 1 = n) (h : d.Accesses last left drq d')
    (hphase : Phase c.isRead n (k + 1) d') : Steps c b n k (some (n - k)) d d' := by
  have hsignals := signals_iff hb hb' hcount hlast
  refine .access hk rfl ⟨?_, h.blockCount.trans hblock, fun hmore ↦ ?_, hphase, hk⟩
    (fun hs ↦ h.raised (hsignals.mpr hs)) (fun hs ↦ h.kept fun hs' ↦ hs (hsignals.mp hs'))
  · rw [Hdd.command, h.command]
    exact hcommand
  · have hone : SignalsAt c b n (k + 1) ↔ countdown c b k = 1 := by
      rw [signalsAt_succ hb]
      exact or_iff_left fun hend ↦ absurd hend.2 (Nat.ne_of_lt hmore)
    rw [h.untilInt, countdown_succ hb, hcount, hblock]
    by_cases hend : countdown c b k = 1
    · rw [if_pos (hsignals.mpr (hone.mpr hend)), if_pos hend]
    · rw [if_neg fun hs ↦ hend (hone.mp (hsignals.mp hs)), if_neg hend]
      exact ofNat_countdown_sub_one hb

variable [HardDisk M]

theorem steps_finishedRead (hread : c.isRead = true) (hmultiple : c.isMultiple = true)
    (hcommand : d.command = .transfer c) (hblock : d.progress.blockCount = BitVec.ofNat 16 b)
    (hcount : d.progress.sectorsUntilInt = BitVec.ofNat 16 (countdown c b k)) (hk : k < n)
    (hleft : d.progress.sectorsRemaining = n - k) (hbsy : d.status.bsy = false)
    (hpending : d.busyTimer.pending = false) (hempty : d.bufferEmpty = false)
    (herr : d.finishedRead.status.err = false) : Steps c b n k (some (n - k)) d d.finishedRead := by
  have haccesses := accesses_finishedRead hcommand hmultiple herr
  refine steps_of_accesses hb hb' hcommand hblock hcount hk ?_ haccesses ?_
  · rw [hread]
    simp
  · refine .data ?_ (haccesses.bsy.trans hbsy) haccesses.drq (haccesses.pending.trans hpending)
      (haccesses.bufferEmpty.trans hempty) ?_
    · rw [if_pos hread]
      exact succ_pos k
    · rw [haccesses.remaining, hleft, if_pos hread]
      omega

theorem steps_finishedWrite (hwrite : c.isRead = false) (hmultiple : c.isMultiple = true)
    (hcommand : d.command = .transfer c) (hblock : d.progress.blockCount = BitVec.ofNat 16 b)
    (hcount : d.progress.sectorsUntilInt = BitVec.ofNat 16 (countdown c b k)) (hk : k < n)
    (hleft : d.progress.sectorsRemaining = n - k) (hbsy : d.status.bsy = false)
    (hdrq : d.status.drq = false) (hpending : d.busyTimer.pending = false)
    (hempty : d.bufferEmpty = false) (herr : d.finishedWrite.status.err = false) :
    Steps c b n k (some (n - k)) d d.finishedWrite := by
  have haccesses := accesses_finishedWrite hcommand hmultiple hdrq herr
  have hleft' := haccesses.remaining
  have hdrq' := haccesses.drq
  refine steps_of_accesses hb hb' hcommand hblock hcount hk ?_ haccesses ?_
  · rw [hwrite, decide_eq_true_iff]
    simp only [true_and]
    omega
  · by_cases hend : k + 1 = n
    · refine .done hend (haccesses.bsy.trans hbsy) (hdrq'.trans (decide_eq_false (by omega)))
        (haccesses.pending.trans hpending) (haccesses.bufferEmpty.trans hempty) (by omega)
    · refine .data ?_ (haccesses.bsy.trans hbsy) (hdrq'.trans (decide_eq_true (by omega)))
        (haccesses.pending.trans hpending) (haccesses.bufferEmpty.trans hempty) ?_
      · rw [hwrite, if_neg Bool.false_ne_true]
        omega
      · rw [hwrite, if_neg Bool.false_ne_true]
        omega

theorem steps_fillBuffer (hread : c.isRead = true) (hmultiple : c.isMultiple = true)
    (hcommand : d.command = .transfer c) (hblock : d.progress.blockCount = BitVec.ofNat 16 b)
    (hcount : k < n → d.progress.sectorsUntilInt = BitVec.ofNat 16 (countdown c b k)) (hk : k ≤ n)
    (hleft : d.progress.sectorsRemaining = n + 1 - k) (hbsy : d.status.bsy = false)
    (hdrq : d.status.drq = false) (hpending : d.busyTimer.pending = false)
    (hempty : d.bufferEmpty = false)
    (herr : d.fillBuffer.status.err = false) : Steps c b n k d.leftOfFill d d.fillBuffer := by
  have hfill := fillBuffer_of_multiple hcommand hread hmultiple
  have hremaining := d.sectorsRemaining_countDown
  have hcommand' : d.countDown.command = .transfer c := d.command_countDown.trans hcommand
  have hmoved : d.countDown.progress.blockCount = d.progress.blockCount ∧
      d.countDown.progress.sectorsUntilInt = d.progress.sectorsUntilInt ∧ d.countDown.status =
        d.status ∧ d.countDown.lines = d.lines ∧ d.countDown.busyTimer = d.busyTimer ∧
          d.countDown.bufferEmpty = d.bufferEmpty := by
    rw [countDown]
    split_ifs <;> exact ⟨rfl, rfl, rfl, rfl, rfl, rfl⟩
  obtain ⟨hblock', huntil, hstatus, hlines, htimer, hempty'⟩ := hmoved
  have hfill' : d.leftOfFill = if 1 < n + 1 - k then some (n - k) else none := by
    have hmultiple' : d.command.isReadMultiple = true := by
      rw [hcommand, IdeCommand.isReadMultiple, hread, hmultiple]
      rfl
    rw [leftOfFill, hmultiple', hleft]
    simp only [true_and, show n + 1 - k - 1 = n - k by omega]
  rw [hfill] at herr ⊢
  rw [hfill']
  by_cases hmore : k < n
  · have hpos : 0 < d.countDown.progress.sectorsRemaining := by omega
    rw [if_pos hpos] at herr ⊢
    rw [if_pos (by omega)]
    have hsteps := steps_finishedRead (n := n) hb hb' hread hmultiple hcommand'
      (hblock'.trans hblock) (huntil.trans (hcount hmore)) hmore (by omega) (by rw [hstatus, hbsy])
      (by rw [htimer, hpending]) (hempty'.trans hempty) herr
    rcases hsteps with ⟨hleft, -, -⟩ | ⟨hk, hleft, h, hraised, hkept⟩
    · cases hleft
    · rw [hlines] at hkept
      exact .access hk hleft h hraised hkept
  · have hzero : ¬ 0 < d.countDown.progress.sectorsRemaining := by omega
    rw [if_neg hzero, if_neg (by omega)]
    refine .stay rfl ⟨hcommand', hblock'.trans hblock, fun h ↦ absurd h hmore, ?_,
      hk⟩ fun h ↦ by rw [hlines, h]
    exact .done (by omega) (by rw [hstatus, hbsy]) (by rw [hstatus, hdrq])
      (by rw [htimer, hpending]) (hempty'.trans hempty) (by omega)

end Steps

end Hdd

end RoscoEmulator.Ata
