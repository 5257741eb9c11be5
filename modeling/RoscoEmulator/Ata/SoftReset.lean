import RoscoEmulator.Ata.Accesses

/-!
# The software reset

A write of `SRST` sets `BSY` and gives the busy timer the parameter `PARAM_RESET` without setting
the timer, so that nothing happens until `SRST` is cleared, which starts `soft_reset` if the
parameter is still there. What can get in between are the paths that stop or set the busy timer by
themselves. Since the write of `SRST` leaves `DRQ` as it is, a register write still ends the data
phase of the command before, with `stop_busy`, and the drive then takes the write. And the timer
that fills the buffer in the ultra DMA modes is not stopped either.
-/

namespace RoscoEmulator.Ata

open SdCard (HardDisk)

/-- An event while the host holds `SRST` set: no write that clears it, and no reset of the
machine. -/
def Event.holdsSrst : Event → Bool
  | .writeCs1 6 data => data.getLsbD 2
  | .reset => false
  | _ => true

namespace Hdd

variable {M : Type}

/-- The drive is in its software reset, and since `d₀` it has executed no command and moved no
data. -/
structure Held (d₀ d : Hdd M) : Prop where
  bsy : d.status.bsy = true
  busyTimer : d.busyTimer = ⟨.reset, false⟩
  srst : d.srst = true
  log : d.log = d₀.log
  buffer : d.buffer = d₀.buffer
  image : d.image = d₀.image

/-- `fill_buffer` goes on with a transfer. -/
def resumes (d : Hdd M) : Bool :=
  decide (1 < d.progress.sectorsRemaining) &&
    match d.command with
    | .identifyDevice | .readBuffer => false
    | .transfer .readMultiple | .transfer .readMultipleExt => d.image.isSome
    | _ => true

/-- The event neither ends a data phase nor fills the buffer. -/
def StaysHeld (d : Hdd M) : Event → Prop
  | .writeCs0 offset data => d.abortsTransfer offset data = false
  | .emptyTick => (d.bufferEmpty && d.resumes) = false
  | _ => True

instance (d : Hdd M) : DecidablePred d.StaysHeld
  | .writeCs0 _ _ => inferInstanceAs (Decidable (_ = _))
  | .emptyTick => inferInstanceAs (Decidable (_ = _))
  | .readDma | .writeDma _ | .dmackIn _ | .readCs0 _ | .readCs1 _ | .writeCs1 _ _ =>
    instDecidableTrue
  | .daspIn _ | .pdiagIn _ | .busyTick | .reset => instDecidableTrue

/-- The drive is ready, with its signature in the registers. -/
structure Ready (d : Hdd M) : Prop where
  status : d.status = ⟨false, false, true, true, false⟩
  signature : d.regs.sectorCount = 1 ∧ d.regs.sectorNumber = 1 ∧ d.regs.cylinderLow = 0 ∧
    d.regs.cylinderHigh = 0 ∧ d.regs.deviceHead = 0
  resetting : d.setup.resetting = false
  busyTimer : d.busyTimer.pending = false

section

variable [HardDisk M]

/-- From `d` on, `soft_reset` has started: the busy timer leads to the diagnostic, and that, at once
or when the other drive has answered or failed to, to a drive that is ready. -/
structure SoftResets (d d' : Hdd M) : Prop where
  log : d'.log = d.log ++ [.softReset]
  status : d'.status = ⟨false, false, true, false, true⟩
  busyTimer : d'.busyTimer = ⟨.diagnostic, true⟩
  ready : d'.finishesDiagnostic = true → (d'.step .busyTick).Ready
  waits : d'.finishesDiagnostic = false →
    (d'.step .busyTick).status = ⟨false, false, true, false, true⟩ ∧
      (d'.step .busyTick).busyTimer = ⟨.waitForPdiag, true⟩ ∧
      ((d'.step .busyTick).step .busyTick).Ready ∧
      ((d'.step .busyTick).step (.pdiagIn true)).Ready

end

/-! ## What keeps a drive in its reset -/

namespace Held

variable {d₀ d : Hdd M}

theorem onLines (h : Held d₀ d) (f : Lines → Lines) : Held d₀ (d.onLines f) :=
  ⟨h.bsy, h.busyTimer, h.srst, h.log, h.buffer, h.image⟩

theorem onProgress (h : Held d₀ d) (f : Progress → Progress) : Held d₀ (d.onProgress f) :=
  ⟨h.bsy, h.busyTimer, h.srst, h.log, h.buffer, h.image⟩

theorem setBufferEmpty (h : Held d₀ d) (pending : Bool) : Held d₀ (d.setBufferEmpty pending) :=
  ⟨h.bsy, h.busyTimer, h.srst, h.log, h.buffer, h.image⟩

theorem setErr (h : Held d₀ d) (state : Bool) : Held d₀ (d.setErr state) :=
  ⟨h.bsy, h.busyTimer, h.srst, h.log, h.buffer, h.image⟩

theorem onRegs {f : Registers → Registers} (h : Held d₀ d)
    (hsrst : (f d.regs).deviceControl.getLsbD 2 = true) : Held d₀ (d.onRegs f) :=
  ⟨h.bsy, h.busyTimer, hsrst, h.log, h.buffer, h.image⟩

theorem setError (h : Held d₀ d) (error : Byte) : Held d₀ (d.setError error) := h.onRegs h.srst

theorem updateIrq (h : Held d₀ d) : Held d₀ d.updateIrq := by
  rw [Hdd.updateIrq]
  split_ifs <;> exact h.onLines _

theorem setIrq (h : Held d₀ d) (state : Bool) : Held d₀ (d.setIrq state) := by
  rw [Hdd.setIrq]
  split_ifs
  · exact (h.onLines _).updateIrq
  · exact h

theorem countDown (h : Held d₀ d) : Held d₀ d.countDown := by
  rw [Hdd.countDown]
  split_ifs
  · exact Held.onRegs (h.onProgress _) h.srst
  · exact h

end Held

section

variable [HardDisk M] {d₀ d : Hdd M}

omit [HardDisk M] in
theorem not_held_of_idle (h : d.status.bsy = false) : ¬ Held d₀ d := by
  intro hheld
  rw [hheld.bsy] at h
  exact Bool.noConfusion h

omit [HardDisk M] in
theorem not_held_of_logged {e : Effect} (hd : d.log = d₀.log ++ [e]) : ¬ Held d₀ d := by
  intro hheld
  have hlength := congrArg List.length (hheld.log.symm.trans hd)
  rw [List.length_append] at hlength
  exact absurd hlength (by simp)

omit [HardDisk M] in
theorem status_updateIrq : d.updateIrq.status = d.status := by
  rw [updateIrq]
  split_ifs <;> rfl

variable {data : BitVec 16}

/-- A register write that ends a data phase gets the drive out of its reset. -/
theorem not_held_of_abortsTransfer (h : Held d₀ d) {offset : ℕ}
    (habort : d.abortsTransfer offset data = true) : ¬ Held d₀ (d.commandW offset data) := by
  have hlog : d.abortTransfer.log = d₀.log := h.log
  have hbegin : d.beginWrite offset data = d.abortTransfer := if_pos habort
  have hbsy : d.abortTransfer.status.bsy = false := rfl
  simp only [commandW, hbegin]
  generalize d.abortTransfer = d' at hlog hbsy
  rw [if_neg (by rw [hbsy]; exact Bool.false_ne_true)]
  split
  · exact not_held_of_idle hbsy
  · rw [writeRegister.eq_def]
    split
    case h_1 =>
      rw [abortsTransfer] at habort
      simp at habort
    case h_7 =>
      refine not_held_of_idle ?_
      simp only [writeDeviceHead]
      split
      · rw [status_updateIrq]
        exact hbsy
      · exact hbsy
    case h_8 =>
      split
      · exact not_held_of_logged ((log_startCommand _ _).trans (by rw [hlog]))
      · exact not_held_of_idle hbsy
    all_goals exact not_held_of_idle hbsy

/-- Without an end of a data phase the drive takes no register write. -/
theorem commandW_of_held (h : Held d₀ d) {offset : ℕ}
    (habort : d.abortsTransfer offset data = false) : d.commandW offset data = d := by
  have hbegin : d.beginWrite offset data = d := if_neg (by rw [habort]; exact Bool.false_ne_true)
  simp only [commandW, hbegin]
  rw [if_pos h.bsy]

/-- A read of a sector keeps the reset just where there is no image to read from. -/
theorem held_finishedRead_iff (h : Held d₀ d) (hread : d.command.isReadMultiple = true) :
    Held d₀ d.finishedRead ↔ d.image.isSome = false := by
  have hbuffer : d.command ≠ .readBuffer := by
    rintro hcommand
    rw [hcommand] at hread
    exact Bool.noConfusion hread
  have hverify : d.command.isVerify = false := by
    cases hcommand : d.command <;> rw [hcommand] at hread <;>
      first | rfl | exact Bool.noConfusion hread
  have hfetch : (d.setDasp false).fetchSector = (d.setDasp false).readSector d.lbaAddress :=
    if_neg hbuffer
  rw [finishedRead, finishedReadWith, hfetch, readSector]
  cases himage : d.image with
  | none =>
    have hnone : (d.setDasp false).image = none := himage
    simp only [hnone]
    refine iff_of_true ?_ rfl
    exact (((h.onLines _).setErr true).setError 0x80).setIrq true
  | some m =>
    have hsome : (d.setDasp false).image = some m := himage
    simp only [hsome]
    refine iff_of_false ?_ (by simp)
    have hlog (bytes : List Byte) : ((d.setDasp false).putBytes 0 bytes).log =
        d₀.log ++ [.bufferUsed 0 bytes.length] := by
      rw [← h.log]
      rfl
    have hcommand (bytes : List Byte) :
        ((d.setDasp false).putBytes 0 bytes).command = d.command := rfl
    split
    · rw [command_advance, hcommand, if_neg (by rw [hverify]; exact Bool.false_ne_true)]
      exact not_held_of_logged ((log_requestData _).trans
        ((log_signal _ _).trans ((log_passSector _).trans (hlog _))))
    · exact not_held_of_logged ((log_badSector _).trans (hlog _))

/-- Filling the buffer keeps the reset just where it does not go on with the transfer. -/
theorem held_fillBuffer_iff (h : Held d₀ d) : Held d₀ d.fillBuffer ↔ d.resumes = false := by
  have hmultiple (hm : d.command.isReadMultiple = true) :
      Held d₀ (if 0 < d.countDown.progress.sectorsRemaining then d.countDown.finishedRead
        else d.countDown) ↔
        (decide (1 < d.progress.sectorsRemaining) && d.image.isSome) = false := by
    have hcommand : d.countDown.command.isReadMultiple = true := by
      rw [countDown]
      split_ifs <;> exact hm
    have himage : d.countDown.image = d.image := by
      rw [countDown]
      split_ifs <;> rfl
    rw [sectorsRemaining_countDown]
    split_ifs with hmore
    · rw [held_finishedRead_iff h.countDown hcommand, himage, decide_eq_true (by omega),
        Bool.true_and]
    · exact iff_of_true h.countDown (by rw [decide_eq_false (by omega), Bool.false_and])
  rw [fillBuffer]
  simp only [fillBufferWith]
  split
  case h_1 hcommand => exact iff_of_true h (by simp [resumes, hcommand])
  case h_2 hcommand => simpa [resumes, hcommand] using hmultiple (by rw [hcommand]; rfl)
  case h_3 hcommand => simpa [resumes, hcommand] using hmultiple (by rw [hcommand]; rfl)
  case h_4 hcommand => exact iff_of_true (h.setIrq true) (by simp [resumes, hcommand])
  case h_5 hidentify hread hreadExt hbuffer =>
    rw [sectorsRemaining_countDown, resumes]
    split_ifs with hmore
    · refine iff_of_false (fun hheld ↦ ?_) ?_
      · exact absurd hheld.busyTimer (by simp [startBusy])
      · rw [decide_eq_true (by omega), Bool.true_and]
        split <;> simp_all
    · exact iff_of_true h.countDown (by rw [decide_eq_false (by omega), Bool.false_and])

omit [HardDisk M] in
theorem held_writeDeviceControl (h : Held d₀ d) {data : Byte} (hdata : data.getLsbD 2 = true) :
    Held d₀ (d.writeDeviceControl data) := by
  have hsame : (d.regs.deviceControl ^^^ data).getLsbD 2 = false := by
    rw [BitVec.getLsbD_xor, hdata, show d.regs.deviceControl.getLsbD 2 = true from h.srst]
    rfl
  have hregs : Held d₀ (d.onRegs fun r ↦ { r with deviceControl := data }) := h.onRegs hdata
  simp only [writeDeviceControl, hsame, Bool.false_eq_true, if_false]
  split
  · exact hregs.updateIrq
  · exact hregs

/-- **A step keeps the reset exactly if it neither ends a data phase nor goes on filling the
buffer.** -/
theorem held_step_iff (h : Held d₀ d) {e : Event} (he : e.holdsSrst = true) :
    Held d₀ (d.step e) ↔ d.StaysHeld e := by
  have hdma : d.takesDma = false := by simp [takesDma, h.bsy]
  cases e with
  | readDma =>
    rw [step, dmaR, hdma]
    exact iff_of_true h trivial
  | writeDma data =>
    rw [step, dmaW, hdma]
    exact iff_of_true h trivial
  | dmackIn state =>
    refine iff_of_true ?_ trivial
    rw [step, setDmackIn]
    split_ifs
    · exact (h.onLines _).onLines _
    · exact h.onLines _
  | readCs0 offset =>
    refine iff_of_true ?_ trivial
    rw [step, commandR]
    split_ifs with hrespond hdmack hbusy
    · exact h
    · exact h
    · rw [h.bsy, not_and_not_right] at hbusy
      rw [hbusy rfl, readRegister, if_neg (by simp [h.bsy])]
      exact h
    · exact h
  | writeCs0 offset data =>
    rw [step, StaysHeld]
    constructor
    · intro hheld
      by_contra habort
      exact not_held_of_abortsTransfer h (Bool.not_eq_false _ ▸ habort) hheld
    · intro habort
      rw [commandW_of_held h habort]
      exact h
  | readCs1 offset =>
    refine iff_of_true ?_ trivial
    rw [step, controlR_snd]
    exact h
  | writeCs1 offset data =>
    refine iff_of_true ?_ trivial
    rw [step, controlW]
    split_ifs with hdmack hoffset
    · exact h
    · subst hoffset
      refine held_writeDeviceControl h ?_
      rw [BitVec.getLsbD_setWidth, show data.getLsbD 2 = true from he]
      rfl
    · exact h
  | daspIn state =>
    refine iff_of_true ?_ trivial
    rw [step, setDaspIn]
    exact h.onLines _
  | pdiagIn state =>
    refine iff_of_true ?_ trivial
    have hparam : d.busyTimer.param ≠ .waitForPdiag := by
      rw [h.busyTimer]
      decide
    rw [step, setPdiagIn, if_neg fun hwait ↦ hparam hwait.2]
    exact h.onLines _
  | busyTick =>
    refine iff_of_true ?_ trivial
    rw [step, busyTick, h.busyTimer]
    exact h
  | emptyTick =>
    rw [step, emptyTick, StaysHeld]
    split_ifs with hempty
    · rw [held_fillBuffer_iff (h.setBufferEmpty false), hempty, Bool.true_and]
      exact Iff.rfl
    · exact iff_of_true h (by rw [Bool.eq_false_iff.mpr hempty, Bool.false_and])
  | reset => exact Bool.noConfusion he

/-- The reset goes on as long as no step ends a data phase or goes on filling the buffer. -/
theorem always_held_iff (h : Held d₀ d) {es : List Event} (hes : ∀ e ∈ es, e.holdsSrst = true) :
    Run.Always step (Held d₀) d es ↔ Run.Meets step StaysHeld d es := by
  induction es generalizing d with
  | nil => exact iff_of_true h trivial
  | cons e es ih =>
    have hstep := held_step_iff h (hes e List.mem_cons_self)
    have htail : ∀ e ∈ es, e.holdsSrst = true := fun e he ↦ hes e (List.mem_cons_of_mem _ he)
    constructor
    · rintro ⟨-, hrest⟩
      exact ⟨hstep.mp hrest.head, (ih hrest.head htail).mp hrest⟩
    · rintro ⟨hstays, hrest⟩
      exact ⟨h, (ih (hstep.mpr hstays) htail).mpr hrest⟩

/-! ## The two writes of `SRST` -/

omit [HardDisk M] in
theorem srst_changed {data : Byte} (hdata : data.getLsbD 2 = !d.srst) :
    (d.regs.deviceControl ^^^ data).getLsbD 2 = true := by
  rw [BitVec.getLsbD_xor, hdata, srst]
  cases d.regs.deviceControl.getLsbD 2 <;> rfl

omit [HardDisk M] in
theorem srst_unchanged {data : Byte} (hdata : data.getLsbD 2 = d.srst) :
    (d.regs.deviceControl ^^^ data).getLsbD 2 = false := by
  rw [BitVec.getLsbD_xor, hdata, srst]
  cases d.regs.deviceControl.getLsbD 2 <;> rfl

omit [HardDisk M] in
theorem exists_updateIrq (d : Hdd M) (c : Prop) [Decidable c] :
    ∃ f : Lines → Lines, (if c then d.updateIrq else d) = d.onLines f := by
  rw [updateIrq]
  split_ifs
  · exact ⟨_, rfl⟩
  · exact ⟨_, rfl⟩
  · exact ⟨fun l ↦ l, rfl⟩

omit [HardDisk M] in
/-- The write of the device control register: besides the change of `SRST` it reaches the lines. -/
theorem exists_writeDeviceControl (d : Hdd M) (data : Byte) :
    ∃ f : Lines → Lines, d.writeDeviceControl data =
      if (d.regs.deviceControl ^^^ data).getLsbD 2 = true then
        ((d.onRegs fun r ↦ { r with deviceControl := data }).onLines f).changeSrst
      else (d.onRegs fun r ↦ { r with deviceControl := data }).onLines f := by
  obtain ⟨f, hf⟩ := (d.onRegs fun r ↦ { r with deviceControl := data }).exists_updateIrq
    ((d.regs.deviceControl ^^^ data).getLsbD 1 = true)
  refine ⟨f, ?_⟩
  simp only [writeDeviceControl]
  rw [hf]

omit [HardDisk M] in
theorem getLsbD_setWidth_control (data : BitVec 16) :
    (data.setWidth 8).getLsbD 2 = data.getLsbD 2 := by
  rw [BitVec.getLsbD_setWidth]
  rfl

omit [HardDisk M] in
theorem exists_setIrq (d : Hdd M) (state : Bool) :
    ∃ f : Lines → Lines, d.setIrq state = d.onLines f := by
  rw [setIrq, updateIrq]
  split_ifs
  · exact ⟨fun l ↦ { l with irq := state, irqOut := state }, rfl⟩
  · exact ⟨fun l ↦ { l with irq := state, irqOut := false }, rfl⟩
  · exact ⟨fun l ↦ l, rfl⟩

omit [HardDisk M] in
theorem held_changeSrst (hsrst : d.srst = true) (hresetting : d.setup.resetting = false)
    (hlog : d.log = d₀.log)
    (hbuffer : d.buffer = d₀.buffer) (himage : d.image = d₀.image) : Held d₀ d.changeSrst := by
  obtain ⟨f, hf⟩ := ((d.setDasp false).setDmarq false).exists_setIrq false
  rw [changeSrst, if_pos hsrst, if_neg (by rw [hresetting]; exact Bool.false_ne_true), hf]
  exact ⟨rfl, rfl, hsrst, hlog, hbuffer, himage⟩

/-- The write that sets `SRST` takes effect outside a DMA cycle, if `SRST` was clear. -/
theorem held_setSrst_iff (hdata : data.getLsbD 2 = true) (hresetting : d.setup.resetting = false) :
    Held d (d.step (.writeCs1 6 data)) ↔ d.lines.dmack = false ∧ d.srst = false ∨ Held d d := by
  have hbit : (data.setWidth 8).getLsbD 2 = true := (getLsbD_setWidth_control data).trans hdata
  rw [step, controlW]
  cases hdmack : d.lines.dmack with
  | true => simp
  | false =>
    rw [if_neg Bool.false_ne_true, if_pos rfl]
    obtain ⟨f, hf⟩ := d.exists_writeDeviceControl (data.setWidth 8)
    rw [hf]
    cases hsrst : d.srst with
    | false =>
      refine iff_of_true ?_ (.inl ⟨rfl, rfl⟩)
      rw [if_pos (srst_changed (by rw [hbit, hsrst]; rfl))]
      exact held_changeSrst hbit hresetting rfl rfl rfl
    | true =>
      rw [srst_unchanged (by rw [hbit, hsrst]), if_neg Bool.false_ne_true]
      constructor
      · intro hheld
        exact .inr ⟨hheld.bsy, hheld.busyTimer, hsrst, rfl, rfl, rfl⟩
      · rintro (⟨-, hfalse⟩ | hheld)
        · exact Bool.noConfusion hfalse
        · exact Held.onLines (hheld.onRegs hbit) f

omit [HardDisk M] in
theorem ready_finishedDiagnostic (hstatus : d.status = ⟨false, false, true, false, false⟩)
    (htimer : d.busyTimer.pending = false) : d.finishedDiagnostic.Ready := by
  refine ⟨?_, ⟨rfl, rfl, rfl, rfl, rfl⟩, rfl, htimer⟩
  rw [finishedDiagnostic, signature, onRegs_status, onStatus_status, onSetup_status, hstatus]

omit [HardDisk M] in
theorem diagnose_frame (d : Hdd M) :
    d.diagnose.status = d.status ∧ d.diagnose.busyTimer = d.busyTimer := by
  simp only [diagnose, performDiagnostic]
  split_ifs <;> exact ⟨rfl, rfl⟩

omit [HardDisk M] in
/-- The two ends of a diagnostic. -/
theorem startDiagnostic_eq (d : Hdd M) :
    d.startDiagnostic = if d.finishesDiagnostic then d.diagnose.finishedDiagnostic
      else d.diagnose.startBusy true .waitForPdiag := by
  rw [startDiagnostic, ← finishesDiagnostic_diagnose, finishesDiagnostic]
  cases d.diagnose.lines.csel <;> cases d.diagnose.setup.singleDevice <;>
    cases d.diagnose.lines.pdiagin <;> rfl

/-- What follows a drive whose timer is set to the diagnostic. -/
theorem softResets_of_timer {d' : Hdd M} (hlog : d'.log = d.log ++ [.softReset])
    (hstatus : d'.status = ⟨false, false, true, false, true⟩)
    (htimer : d'.busyTimer = ⟨.diagnostic, true⟩) : SoftResets d d' := by
  have hbegin : ((d'.setBsy false).setBusyTimer ⟨.diagnostic, false⟩).status =
      ⟨false, false, true, false, false⟩ := by
    rw [setBusyTimer_status, setBsy, onStatus_status, hstatus]
  have htick : d'.step .busyTick =
      ((d'.setBsy false).setBusyTimer ⟨.diagnostic, false⟩).startDiagnostic := by
    rw [step, busyTick, htimer]
    rfl
  have hfinish : ((d'.setBsy false).setBusyTimer ⟨.diagnostic, false⟩).finishesDiagnostic =
      d'.finishesDiagnostic := rfl
  have hpending : ((d'.setBsy false).setBusyTimer ⟨.diagnostic, false⟩).busyTimer.pending = false :=
    rfl
  rw [startDiagnostic_eq, hfinish] at htick
  generalize (d'.setBsy false).setBusyTimer ⟨.diagnostic, false⟩ = begun at hbegin hpending htick
  have hdiagnose : begun.diagnose.status = ⟨false, false, true, false, false⟩ :=
    begun.diagnose_frame.1.trans hbegin
  refine ⟨hlog, hstatus, htimer, fun halone ↦ ?_, fun hwait ↦ ?_⟩
  · rw [htick, if_pos halone]
    refine ready_finishedDiagnostic hdiagnose ?_
    rw [begun.diagnose_frame.2, hpending]
  · rw [htick, if_neg (by rw [hwait]; exact Bool.false_ne_true)]
    have hbusy : (begun.diagnose.startBusy true .waitForPdiag).status =
        ⟨false, false, true, false, true⟩ := by
      rw [startBusy, setBusyTimer_status, setBsy, onStatus_status, hdiagnose]
    generalize hw : begun.diagnose.startBusy true .waitForPdiag = waiting at hbusy
    have hparam : waiting.busyTimer = ⟨.waitForPdiag, true⟩ := by
      rw [← hw]
      rfl
    refine ⟨hbusy, hparam, ?_, ?_⟩
    · rw [step, busyTick, hparam, if_pos rfl]
      refine ready_finishedDiagnostic ?_ rfl
      rw [setError, onRegs_status, setBusyTimer_status, setBsy, onStatus_status, hbusy]
    · rw [step, setPdiagIn, if_pos ⟨rfl, congrArg BusyTimer.param hparam⟩]
      refine ready_finishedDiagnostic ?_ rfl
      rw [stopBusy, setBusyTimer_status, setBsy, onStatus_status, onLines_status, hbusy]

theorem softResets_clearSrst_iff (h : Held d₀ d) (hdata : data.getLsbD 2 = false) :
    SoftResets d (d.step (.writeCs1 6 data)) ↔ d.lines.dmack = false := by
  have hbit : (data.setWidth 8).getLsbD 2 = false := (getLsbD_setWidth_control data).trans hdata
  rw [step, controlW]
  cases hdmack : d.lines.dmack with
  | true =>
    refine iff_of_false (fun hsoft ↦ ?_) (by simp)
    exact absurd hsoft.log (by simp)
  | false =>
    refine iff_of_true ?_ rfl
    obtain ⟨f, hf⟩ := d.exists_writeDeviceControl (data.setWidth 8)
    rw [if_neg Bool.false_ne_true, if_pos rfl, hf,
      if_pos (srst_changed (by rw [hbit, h.srst]; rfl)), changeSrst, if_neg, if_pos]
    · exact softResets_of_timer rfl rfl rfl
    · exact congrArg BusyTimer.param h.busyTimer
    · intro hsrst
      exact Bool.noConfusion (hbit.symm.trans hsrst)

/-- **The software reset.** From the write that sets `SRST`, the drive stays busy, executes nothing
and moves no data until the write that clears `SRST`, which starts `soft_reset`, exactly if both
writes are outside a DMA cycle, the first of them changes `SRST`, and meanwhile no register write
ends a data phase and no expiry of the other timer goes on filling the buffer. -/
theorem softReset_iff (d : Hdd M) (hresetting : d.setup.resetting = false) (set clear : BitVec 16)
    (hset : set.getLsbD 2 = true) (hclear : clear.getLsbD 2 = false) (es : List Event)
    (hes : ∀ e ∈ es, e.holdsSrst = true) :
    (Run.Always step (Held d) (d.step (.writeCs1 6 set)) es ∧
      SoftResets ((d.step (.writeCs1 6 set)).run es)
        (((d.step (.writeCs1 6 set)).run es).step (.writeCs1 6 clear))) ↔
      (d.lines.dmack = false ∧ d.srst = false ∨ Held d d) ∧
        Run.Meets step StaysHeld (d.step (.writeCs1 6 set)) es ∧
        ((d.step (.writeCs1 6 set)).run es).lines.dmack = false := by
  have hstart := held_setSrst_iff hset hresetting
  constructor
  · rintro ⟨hheld, hsoft⟩
    have hlast : Held d ((d.step (.writeCs1 6 set)).run es) := hheld.last
    exact ⟨hstart.mp hheld.head, (always_held_iff hheld.head hes).mp hheld,
      (softResets_clearSrst_iff hlast hclear).mp hsoft⟩
  · rintro ⟨hbegin, hstays, hdmack⟩
    have hheld : Run.Always step (Held d) (d.step (.writeCs1 6 set)) es :=
      (always_held_iff (hstart.mpr hbegin) hes).mpr hstays
    have hlast : Held d ((d.step (.writeCs1 6 set)).run es) := hheld.last
    exact ⟨hheld, (softResets_clearSrst_iff hlast hclear).mpr hdmack⟩

end

/-- A reset of an idle drive, with two accesses that the drive ignores. -/
theorem softReset_idle :
    Run.Always step (Held ((start false (none : Option SdCard.MemoryDisk) [] none none).run
        [.reset, .busyTick, .busyTick]))
      (((start false (none : Option SdCard.MemoryDisk) [] none none).run
        [.reset, .busyTick, .busyTick]).step (.writeCs1 6 4)) [.writeCs0 7 0x30, .readCs0 7] ∧
    SoftResets ((((start false (none : Option SdCard.MemoryDisk) [] none none).run
        [.reset, .busyTick, .busyTick]).step (.writeCs1 6 4)).run [.writeCs0 7 0x30, .readCs0 7])
      (((((start false (none : Option SdCard.MemoryDisk) [] none none).run
        [.reset, .busyTick, .busyTick]).step (.writeCs1 6 4)).run
        [.writeCs0 7 0x30, .readCs0 7]).step (.writeCs1 6 0)) :=
  (softReset_iff _ (by decide) 4 0 (by decide) (by decide) [.writeCs0 7 0x30, .readCs0 7]
    (by decide)).mpr ⟨.inl (by decide), by decide, by decide⟩

/-- `WRITE SECTORS` waits for its data when the host sets `SRST`. The command that the host writes
next ends that wait, and the drive executes it. -/
theorem not_held_writeSectors :
    ¬ Run.Always step (Held ((start false (none : Option SdCard.MemoryDisk) [] none none).run
        [.reset, .busyTick, .busyTick, .writeCs0 7 0x30]))
      (((start false (none : Option SdCard.MemoryDisk) [] none none).run
        [.reset, .busyTick, .busyTick, .writeCs0 7 0x30]).step (.writeCs1 6 4))
      [.writeCs0 7 0xe3] := by
  intro h
  exact absurd h.last.bsy (by decide)

end Hdd

end RoscoEmulator.Ata
