import RoscoEmulator.Ata.Accesses

/-!
# The interrupt output

`update_irq` drives the interrupt output with the interrupt flag, if the drive is selected and
`nIEN` is clear, and low otherwise. It is called where the flag changes, where the host changes the
DRV bit, and where it changes `nIEN`. The drive rewrites its DRV bit by itself in two other places:
the signature clears it, and the carry of `next_sector` out of head 15 sets it. There the output is
left as it was, which is wrong if the flag is set at that time.

`Gate` is that part of a drive. Every function of the drive acts on it by a few operations, of which
`moveDrive` is the only one that does not drive the output.
-/

namespace RoscoEmulator.Ata

open SdCard (HardDisk)

/-! ## The gate -/

/-- What the interrupt output depends on, and the level last driven on it. -/
structure Gate where
  irq : Bool
  csel : Bool
  dev : Bool
  nIEN : Bool
  irqOut : Bool
deriving DecidableEq, Repr

namespace Gate

variable {g : Gate}

/-- The level that the output should have. -/
def level (g : Gate) : Bool := g.irq && (g.csel == g.dev) && !g.nIEN

/-- The level last driven on the output is the right one. -/
def Ok (g : Gate) : Prop := g.irqOut = g.level

instance (g : Gate) : Decidable g.Ok := inferInstanceAs (Decidable (_ = _))

/-- The output is low whichever drive is selected. -/
def Settled (g : Gate) : Prop := g.irq = false ∨ g.nIEN = true

instance (g : Gate) : Decidable g.Settled := inferInstanceAs (Decidable (_ ∨ _))

def updateIrq (g : Gate) : Gate := { g with irqOut := g.level }

def setIrq (g : Gate) (state : Bool) : Gate :=
  if g.irq ≠ state then { g with irq := state }.updateIrq else g

/-- The drive rewrites its DRV bit by itself. -/
def moveDrive (g : Gate) (dev : Bool) : Gate := { g with dev := dev }

/-- The drive clears `nIEN` by itself. -/
def clearNIEN (g : Gate) : Gate := { g with nIEN := false }

@[simp] theorem ok_updateIrq (g : Gate) : g.updateIrq.Ok := rfl

@[simp] theorem ok_setIrq (h : g.Ok) (state : Bool) : (g.setIrq state).Ok := by
  rw [setIrq]
  split_ifs
  · exact ok_updateIrq _
  · exact h

/-- The DRV bit may change where the output is low anyway. -/
theorem ok_moveDrive (h : g.Ok) {dev : Bool} (hdev : g.Settled ∨ dev = g.dev) :
    (g.moveDrive dev).Ok := by
  rw [Ok, level] at h
  rcases hdev with (hirq | hoff) | rfl
  · rw [Ok, level, moveDrive, h, hirq]
    rfl
  · rw [Ok, level, moveDrive, h, hoff]
    simp
  · exact h

theorem irq_setIrq (g : Gate) (state : Bool) : (g.setIrq state).irq = state := by
  rw [setIrq]
  split_ifs with h
  · rfl
  · exact not_ne_iff.mp h

theorem ok_clearNIEN (h : g.Ok) (hirq : g.irq = false) : g.clearNIEN.Ok := by
  rw [Ok, level, hirq] at h
  rw [Ok, level, clearNIEN, hirq, h]
  rfl

end Gate

theorem getLsbD_of_not_changed {old new : Byte} {i : ℕ} (h : ¬ (old ^^^ new).getLsbD i = true) :
    new.getLsbD i = old.getLsbD i := by
  rw [BitVec.getLsbD_xor, Bool.not_eq_true] at h
  exact (bne_eq_false_iff_eq.mp h).symm

namespace Hdd

variable {M : Type} (d : Hdd M)

def gate : Gate := ⟨d.lines.irq, d.lines.csel, d.dev, d.nIEN, d.lines.irqOut⟩

/-- The interrupt output of the drive has the right level. -/
def Gated : Prop := d.gate.Ok

instance : Decidable d.Gated := inferInstanceAs (Decidable d.gate.Ok)

/-- The event has the drive put its signature into the registers. -/
def signs : Event → Bool
  | .busyTick =>
      d.busyTimer.pending &&
        match d.busyTimer.param with
        | .diagnostic => d.finishesDiagnostic
        | .waitForPdiag => true
        | .command => d.command = .diagnostic && d.finishesDiagnostic
        | _ => false
  | .pdiagIn state => state && d.busyTimer.param = .waitForPdiag
  | _ => false

/-- With `n` sectors left, the advance behind an access leaves the DRV bit alone. -/
def AdvanceKeeps (n : ℕ) : Prop := n = 1 ∨ d.dev = true ∨ ¬ d.taskFile.HeadOverflows

instance (n : ℕ) : Decidable (d.AdvanceKeeps n) := inferInstanceAs (Decidable (_ ∨ _ ∨ _))

/-- The drive rewrites its DRV bit by itself only where that does not matter to the output. -/
def KeepsGate (e : Event) : Prop :=
  d.gate.Settled ∨ (∀ n ∈ d.sectorsLeft e, d.AdvanceKeeps n) ∧ (d.signs e = true → d.dev = false)

instance (e : Event) : Decidable (d.KeepsGate e) := inferInstanceAs (Decidable (_ ∨ _ ∧ _))

/-! ## The functions of the drive on its gate -/

section Parts

variable {d}

@[simp] theorem gate_onRegs {f : Registers → Registers}
    (hcontrol : (f d.regs).deviceControl = d.regs.deviceControl)
    (hhead : (f d.regs).deviceHead = d.regs.deviceHead) : (d.onRegs f).gate = d.gate := by
  rw [gate, dev, nIEN, onRegs_regs, hcontrol, hhead]
  rfl

@[simp] theorem gate_onStatus (f : Status → Status) : (d.onStatus f).gate = d.gate := rfl

@[simp] theorem gate_onBuffer (f : Buffer → Buffer) : (d.onBuffer f).gate = d.gate := rfl

@[simp] theorem gate_onProgress (f : Progress → Progress) : (d.onProgress f).gate = d.gate := rfl

@[simp] theorem gate_onModes (f : Modes → Modes) : (d.onModes f).gate = d.gate := rfl

@[simp] theorem gate_onSecurity (f : Security → Security) : (d.onSecurity f).gate = d.gate := rfl

@[simp] theorem gate_onSetup (f : Setup → Setup) : (d.onSetup f).gate = d.gate := rfl

@[simp] theorem gate_setBusyTimer (t : BusyTimer) : (d.setBusyTimer t).gate = d.gate := rfl

@[simp] theorem gate_setBufferEmpty (p : Bool) : (d.setBufferEmpty p).gate = d.gate := rfl

@[simp] theorem gate_setGeometry (g : Geometry) : (d.setGeometry g).gate = d.gate := rfl

@[simp] theorem gate_setImage (m : Option M) : (d.setImage m).gate = d.gate := rfl

@[simp] theorem gate_logged (e : Effect) : (d.logged e).gate = d.gate := rfl

@[simp] theorem gate_setError (error : Byte) : (d.setError error).gate = d.gate := rfl

variable (state : Bool) (n : BitVec 16)

@[simp] theorem gate_setErr : (d.setErr state).gate = d.gate := rfl

@[simp] theorem gate_setDrq : (d.setDrq state).gate = d.gate := rfl

@[simp] theorem gate_setBsy : (d.setBsy state).gate = d.gate := rfl

@[simp] theorem gate_clearStatus : d.clearStatus.gate = d.gate := rfl

@[simp] theorem gate_setOffset : (d.setOffset n).gate = d.gate := rfl

@[simp] theorem gate_setSize : (d.setSize n).gate = d.gate := rfl

@[simp] theorem gate_setBlockCount : (d.setBlockCount n).gate = d.gate := rfl

@[simp] theorem gate_setUntilInt : (d.setUntilInt n).gate = d.gate := rfl

@[simp] theorem gate_setRemaining (n : ℕ) : (d.setRemaining n).gate = d.gate := rfl

@[simp] theorem gate_setDmarq : (d.setDmarq state).gate = d.gate := rfl

@[simp] theorem gate_setDasp : (d.setDasp state).gate = d.gate := rfl

@[simp] theorem gate_setPdiag : (d.setPdiag state).gate = d.gate := rfl

@[simp] theorem gate_startBusy (expires : Bool) (p : Param) :
    (d.startBusy expires p).gate = d.gate :=
  rfl

@[simp] theorem gate_stopBusy : d.stopBusy.gate = d.gate := rfl

@[simp] theorem gate_putBytes (start : ℕ) (bytes : List Byte) :
    (d.putBytes start bytes).gate = d.gate :=
  rfl

@[simp] theorem gate_abortCommand : d.abortCommand.gate = d.gate := rfl

@[simp] theorem gate_softReset : d.softReset.gate = d.gate := rfl

@[simp] theorem gate_countDown : d.countDown.gate = d.gate := by
  rw [countDown]
  split_ifs <;> rfl

@[simp] theorem gate_requestData : d.requestData.gate = d.gate := by
  simp only [requestData]
  split_ifs <;> rfl

@[simp] theorem gate_performDiagnostic : d.performDiagnostic.gate = d.gate := by
  rw [performDiagnostic]
  split_ifs <;> rfl

@[simp] theorem gate_diagnose : d.diagnose.gate = d.gate := by
  simp only [diagnose]
  split_ifs <;> simp

theorem gate_updateIrq (d : Hdd M) : d.updateIrq.gate = d.gate.updateIrq := by
  have hlevel : d.gate.level = (d.lines.irq && d.deviceSelected && !d.nIEN) := rfl
  rw [updateIrq, Gate.updateIrq, hlevel]
  split_ifs with h
  · rw [h.1, Bool.eq_false_iff.mpr h.2, Bool.and_true, Bool.not_false, Bool.and_true]
    rfl
  · rw [Bool.and_assoc, show (d.deviceSelected && !d.nIEN) = false by simpa using h, Bool.and_false]
    rfl

@[simp] theorem gate_setIrq : (d.setIrq state).gate = d.gate.setIrq state := by
  rw [setIrq, Gate.setIrq]
  split_ifs with h1 h2 h2
  · exact gate_updateIrq _
  · exact absurd h1 h2
  · exact absurd h2 h1
  · rfl

@[simp] theorem gate_nextSector :
    d.nextSector.gate = d.gate.moveDrive (d.dev || decide d.taskFile.HeadOverflows) := by
  rw [← dev_nextSector]
  rfl

@[simp] theorem gate_finishedDiagnostic : d.finishedDiagnostic.gate = d.gate.moveDrive false := by
  have hdev : d.finishedDiagnostic.dev = (0#8).getLsbD 4 := rfl
  rw [gate, hdev]
  rfl

theorem gated_setIrq (h : d.Gated) (state : Bool) : (d.setIrq state).Gated := by
  rw [Gated, gate_setIrq]
  exact Gate.ok_setIrq h state

theorem gated_badSector (h : d.Gated) : d.badSector.Gated := by
  rw [badSector, Gated, gate_setIrq, gate_setError, gate_setErr]
  exact Gate.ok_setIrq h true

theorem gated_finishedDiagnostic (h : d.Gated) (hdev : d.gate.Settled ∨ d.dev = false) :
    d.finishedDiagnostic.Gated := by
  rw [Gated, gate_finishedDiagnostic]
  exact Gate.ok_moveDrive h (hdev.imp_right Eq.symm)

theorem gated_startDiagnostic (h : d.Gated)
    (hdev : d.gate.Settled ∨ (d.finishesDiagnostic = true → d.dev = false)) :
    d.startDiagnostic.Gated := by
  have hdiagnose : d.diagnose.Gated := by rwa [Gated, gate_diagnose]
  rw [startDiagnostic]
  split_ifs with hwait
  · rwa [Gated, gate_startBusy]
  · refine gated_finishedDiagnostic hdiagnose ?_
    rw [gate_diagnose, show d.diagnose.dev = d.gate.dev from congrArg Gate.dev gate_diagnose]
    refine hdev.imp_right fun hfinish ↦ hfinish ?_
    rw [← finishesDiagnostic_diagnose, finishesDiagnostic]
    by_contra hcon
    exact hwait (by simpa [and_assoc] using hcon)

theorem gated_passSector (h : d.Gated)
    (hkeep : d.gate.Settled ∨ d.AdvanceKeeps d.progress.sectorsRemaining) : d.passSector.Gated := by
  rw [passSector]
  split_ifs with hmore
  · rw [Gated, gate_nextSector]
    refine Gate.ok_moveDrive h (hkeep.imp_right ?_)
    rintro (hlast | hdev | hfits)
    · exact absurd hlast hmore
    · show (d.dev || _) = d.dev
      rw [hdev, Bool.true_or]
    · show (d.dev || _) = d.dev
      rw [decide_eq_false hfits, Bool.or_false]
  · exact h

theorem gated_signal (h : d.Gated) (last : Bool) : (d.signal last).Gated := by
  simp only [signal]
  split
  · exact gated_setIrq (by rwa [Gated, gate_setUntilInt, gate_setUntilInt]) true
  · rwa [Gated, gate_setUntilInt]

theorem SameTask.gate {d' : Hdd M} (h : SameTask d d') : d'.gate = d.gate := by
  rw [Hdd.gate, Hdd.gate, dev, dev, nIEN, nIEN, h.regs, h.lines]

theorem SameTask.advanceKeeps {d' : Hdd M} (h : SameTask d d') {n : ℕ} :
    d'.AdvanceKeeps n ↔ d.AdvanceKeeps n := by
  rw [AdvanceKeeps, AdvanceKeeps, h.taskFile, dev, dev, h.regs]

theorem gated_fillBufferWith {finishedRead : Hdd M → Hdd M} (h : d.Gated)
    (hread : d.leftOfFill.isSome → (finishedRead d.countDown).Gated) :
    (d.fillBufferWith finishedRead).Gated := by
  have hcount : d.countDown.Gated := by rwa [Gated, gate_countDown]
  have hmultiple (hm : d.command.isReadMultiple)
      (hmore : 0 < d.countDown.progress.sectorsRemaining) : (finishedRead d.countDown).Gated := by
    refine hread ?_
    rw [sectorsRemaining_countDown] at hmore
    rw [leftOfFill, if_pos ⟨hm, by omega⟩]
    rfl
  simp only [fillBufferWith]
  split
  case h_1 => exact h
  case h_2 hcommand =>
    split_ifs with hmore
    · exact hmultiple (by rw [hcommand]; rfl) hmore
    · exact hcount
  case h_3 hcommand =>
    split_ifs with hmore
    · exact hmultiple (by rw [hcommand]; rfl) hmore
    · exact hcount
  case h_4 => exact gated_setIrq h true
  case h_5 =>
    split_ifs
    · rw [Gated, gate_startBusy, gate_setDasp]
      exact gated_setIrq hcount false
    · exact hcount

theorem gated_readBufferEmptyWith {fillBuffer : Hdd M → Hdd M} (h : d.Gated)
    (hfill : d.ultraDmaMode.isNone →
      (fillBuffer (((d.setOffset 0).setDrq false).setDmarq false)).Gated) :
    (d.readBufferEmptyWith fillBuffer).Gated := by
  simp only [readBufferEmptyWith]
  split_ifs with hultra
  · exact h
  · exact hfill (Option.isNone_iff_eq_none.mpr (Option.not_isSome_iff_eq_none.mp hultra))

@[simp] theorem gate_clearDmaModes : d.clearDmaModes.gate = d.gate := rfl

@[simp] theorem gate_setDmaMode (word : ℕ) : (d.setDmaMode word).2.gate = d.gate := by
  simp only [setDmaMode]
  split_ifs <;> rfl

@[simp] theorem gate_setFeatures : d.setFeatures.2.gate = d.gate := by
  rw [setFeatures]
  split
  case h_2 =>
    split
    case h_2 =>
      dsimp only
      split_ifs <;> rfl
    case h_3 => exact gate_setDmaMode 62
    case h_4 => exact gate_setDmaMode 63
    case h_5 => exact gate_setDmaMode 88
    all_goals rfl
  all_goals rfl

section

variable (h : d.Gated)
include h

theorem gated_finishedIdentify : d.finishedIdentify.Gated := by
  rw [finishedIdentify]
  refine gated_setIrq ?_ true
  split_ifs
  · rwa [Gated, gate_setDrq, gate_putBytes]
  · rwa [Gated, gate_setError, gate_setErr]

theorem gated_finishedSetFeatures : d.finishedSetFeatures.Gated := by
  rw [finishedSetFeatures]
  refine gated_setIrq ?_ true
  split_ifs
  · rwa [Gated, gate_setFeatures]
  · rwa [Gated, gate_abortCommand, gate_setFeatures]

theorem gated_requestWord : d.requestWord.Gated := by
  rw [requestWord]
  split_ifs
  · rwa [Gated, gate_setDmarq]
  · exact h

theorem gated_readFirstSector : d.readFirstSector.Gated := by
  rw [readFirstSector]
  split_ifs
  · rwa [Gated, securityError, gate_abortCommand]
  · rwa [Gated, gate_startBusy, gate_setDasp]

theorem gated_unknownCommand : d.unknownCommand.Gated := by
  rw [unknownCommand]
  exact gated_setIrq (by rwa [Gated, gate_abortCommand]) true

theorem gated_processTransfer (c : Command) : (d.processTransfer c).Gated := by
  simp only [processTransfer]
  split
  · exact gated_readFirstSector (by rwa [Gated, gate_setUntilInt, gate_setRemaining])
  · split
    · rwa [Gated, gate_setDmarq, gate_setDrq, gate_setUntilInt, gate_setRemaining]
    · rwa [Gated, gate_setDrq, gate_setUntilInt, gate_setRemaining]

theorem gated_dispatchCommand : d.dispatchCommand.Gated := by
  have hirq : (d.setIrq true).Gated := gated_setIrq h true
  have hverify : ((d.setRemaining d.sectorsRequested).setUntilInt
      (BitVec.ofNat 16 d.sectorsRequested)).readFirstSector.Gated :=
    gated_readFirstSector (by rwa [Gated, gate_setUntilInt, gate_setRemaining])
  have hdata : ((d.setDrq true).setIrq true).Gated :=
    gated_setIrq (by rwa [Gated, gate_setDrq]) true
  rw [dispatchCommand]
  split
  case h_1 => exact gated_processTransfer h _
  case h_2 =>
    exact gated_readFirstSector
      (by rwa [Gated, gate_setOffset, gate_setUntilInt, gate_setRemaining])
  case h_6 => rwa [Gated, gate_setDrq, gate_setOffset, gate_setUntilInt, gate_setRemaining]
  case h_16 => exact gated_setIrq (by rwa [Gated, gate_setBlockCount]) true
  case h_21 => exact gated_unknownCommand h
  all_goals assumption

theorem gated_processCommand : d.processCommand.Gated := by
  rw [processCommand]
  split_ifs
  · exact gated_unknownCommand h
  · exact gated_dispatchCommand (by rwa [Gated, gate_setSize, gate_setUntilInt])

theorem gated_startCommand (data : Byte) : (d.startCommand data).Gated := by
  have hgate : d.gate.Ok := h
  exact gated_processCommand (by simp [Gated, hgate])

end

theorem KeepsGate.ofReadCs0 (h : d.KeepsGate (.readCs0 0)) (hpio : d.takesPio = true) :
    d.gate.Settled ∨ ∀ n ∈ d.leftOfRead, d.AdvanceKeeps n := by
  have hleft : d.sectorsLeft (.readCs0 0) = d.leftOfRead := if_pos hpio
  rw [KeepsGate, hleft] at h
  exact h.imp_right And.left

theorem KeepsGate.ofWriteCs0 {data : BitVec 16} (h : d.KeepsGate (.writeCs0 0 data))
    (hpio : d.takesPio = true) : d.gate.Settled ∨ ∀ n ∈ d.leftOfWrite, d.AdvanceKeeps n := by
  have hleft : d.sectorsLeft (.writeCs0 0 data) = d.leftOfWrite := if_pos hpio
  rw [KeepsGate, hleft] at h
  exact h.imp_right And.left

theorem KeepsGate.ofReadDma (h : d.KeepsGate .readDma) (hdma : d.takesDma = true) :
    d.gate.Settled ∨ ∀ n ∈ d.leftOfRead, d.AdvanceKeeps n := by
  have hleft : d.sectorsLeft .readDma = d.leftOfRead := if_pos hdma
  rw [KeepsGate, hleft] at h
  exact h.imp_right And.left

theorem KeepsGate.ofWriteDma {data : BitVec 16} (h : d.KeepsGate (.writeDma data))
    (hdma : d.takesDma = true) : d.gate.Settled ∨ ∀ n ∈ d.leftOfWrite, d.AdvanceKeeps n := by
  have hleft : d.sectorsLeft (.writeDma data) = d.leftOfWrite := if_pos hdma
  rw [KeepsGate, hleft] at h
  exact h.imp_right And.left

variable [HardDisk M]

theorem gated_finishedReadWith {readBufferEmpty : Hdd M → Hdd M} (h : d.Gated)
    (hkeep : d.gate.Settled ∨ d.AdvanceKeeps d.progress.sectorsRemaining)
    (hempty : ∀ d' : Hdd M, d'.Gated → (readBufferEmpty d').Gated) :
    (d.finishedReadWith readBufferEmpty).Gated := by
  have hsame : SameTask (d.setDasp false) (d.setDasp false).fetchSector.2 := sameTask_fetchSector _
  have hfetched : (d.setDasp false).fetchSector.2.Gated := by
    rw [Gated, hsame.gate]
    exact h
  have hadvance (last : Bool) : ((d.setDasp false).fetchSector.2.passSector.signal last).Gated := by
    refine gated_signal (gated_passSector hfetched ?_) last
    rw [hsame.gate, hsame.progress]
    exact hkeep.imp_right hsame.advanceKeeps.mpr
  simp only [finishedReadWith]
  split_ifs
  · exact hempty _ (hadvance _)
  · rw [Gated, gate_requestData]
    exact hadvance _
  · exact gated_badSector hfetched

theorem gated_finishedRead (h : d.Gated)
    (hkeep : d.gate.Settled ∨ d.AdvanceKeeps d.progress.sectorsRemaining) :
    d.finishedRead.Gated := by
  refine gated_finishedReadWith h hkeep fun d' h' ↦ gated_readBufferEmptyWith h' fun _ ↦ ?_
  refine gated_fillBufferWith (by exact h') fun _ ↦ ?_
  rw [Gated, gate_countDown]
  exact h'

omit [HardDisk M] in
theorem advanceKeeps_countDown {n : ℕ} : d.countDown.AdvanceKeeps n ↔ d.AdvanceKeeps n := by
  rw [countDown]
  split_ifs <;> exact Iff.rfl

theorem gated_fillBuffer (h : d.Gated)
    (hkeep : d.gate.Settled ∨ ∀ n ∈ d.leftOfFill, d.AdvanceKeeps n) : d.fillBuffer.Gated := by
  refine gated_fillBufferWith h fun hleft ↦ gated_finishedRead ?_ ?_
  · rwa [Gated, gate_countDown]
  · rw [gate_countDown, sectorsRemaining_countDown]
    refine hkeep.imp_right fun hall ↦ advanceKeeps_countDown.mpr (hall _ ?_)
    rw [leftOfFill] at hleft ⊢
    split_ifs at hleft ⊢ with hmore
    · exact rfl
    · exact absurd hleft (by simp)

theorem gated_readBufferEmpty (h : d.Gated)
    (hkeep : d.gate.Settled ∨ ∀ n ∈ d.leftOfFill, d.ultraDmaMode.isNone → d.AdvanceKeeps n) :
    d.readBufferEmpty.Gated :=
  gated_readBufferEmptyWith h fun hultra ↦
    gated_fillBuffer h (hkeep.imp_right fun hall n hn ↦ hall n hn hultra)

theorem gated_finishedWrite (h : d.Gated)
    (hkeep : d.gate.Settled ∨ d.AdvanceKeeps d.progress.sectorsRemaining) :
    d.finishedWrite.Gated := by
  have hsame : SameTask (d.setDasp false) (d.setDasp false).storeSector.2 := sameTask_storeSector _
  have hstored : (d.setDasp false).storeSector.2.Gated := by
    rw [Gated, hsame.gate]
    exact h
  have hadvance (last : Bool) : ((d.setDasp false).storeSector.2.passSector.signal last).Gated := by
    refine gated_signal (gated_passSector hstored ?_) last
    rw [hsame.gate, hsame.progress]
    exact hkeep.imp_right hsame.advanceKeeps.mpr
  simp only [finishedWrite]
  split_ifs
  · rw [Gated, gate_requestData, gate_countDown]
    exact hadvance _
  · rw [Gated, gate_countDown]
    exact hadvance _
  · exact gated_badSector hstored

omit [HardDisk M] in
@[simp] theorem gate_unlock : d.unlock.gate = d.gate := by
  simp only [unlock]
  split_ifs <;> rfl

theorem gated_processBuffer (h : d.Gated)
    (hkeep : d.gate.Settled ∨ (d.command.isWriteMultiple = true → d.progress.sectorsUntilInt ≠ 1 →
      d.AdvanceKeeps d.progress.sectorsRemaining)) : d.processBuffer.Gated := by
  have hmultiple (hm : d.command.isWriteMultiple = true) :
      (if d.progress.sectorsUntilInt ≠ 1 then (d.setDasp true).finishedWrite
        else (d.setDasp true).startBusy true .command).Gated := by
    split_ifs with hmore
    · exact gated_finishedWrite (d := d.setDasp true) h (hkeep.imp_right fun hall ↦ hall hm hmore)
    · exact h
  simp only [processBuffer]
  split
  case h_1 => rwa [Gated, gate_unlock]
  case h_2 => exact h
  case h_3 => exact gated_setIrq h true
  case h_4 hcommand => exact hmultiple (by rw [hcommand]; rfl)
  case h_5 hcommand => exact hmultiple (by rw [hcommand]; rfl)
  case h_6 => exact h

theorem gated_readData (h : d.Gated) (data : BitVec 16)
    (hkeep : d.gate.Settled ∨ ∀ n ∈ d.leftOfRead, d.AdvanceKeeps n) :
    (d.readData data).2.Gated := by
  simp only [readData]
  split
  case isTrue hfull =>
    refine gated_readBufferEmpty h (hkeep.imp_right fun hall n hn hultra ↦ hall n ?_)
    rw [leftOfRead, if_pos ⟨decide_eq_true hfull, hultra⟩]
    exact hn
  case isFalse => exact h

theorem gated_writeData (h : d.Gated) (data : BitVec 16)
    (hkeep : d.gate.Settled ∨ ∀ n ∈ d.leftOfWrite, d.AdvanceKeeps n) :
    (d.writeData data).Gated := by
  have hsame : SameTask d (d.pushWord data) := d.sameTask_pushWord data
  have hpush : (d.pushWord data).Gated := by rwa [Gated, hsame.gate]
  simp only [writeData]
  split
  case isTrue hfull =>
    rw [offset_pushWord, size_pushWord] at hfull
    rw [writeBufferFull]
    refine gated_processBuffer hpush (hkeep.imp (fun hset ↦ ?_) fun hall hm huntil ↦ ?_)
    · show (d.pushWord data).gate.Settled
      rwa [hsame.gate]
    · have hcommand : d.command.isWriteMultiple = true := by
        rw [← command_congr d hsame.regs]
        exact hm
      have hcount : d.progress.sectorsUntilInt ≠ 1 := by
        rw [← hsame.progress]
        exact huntil
      show (d.pushWord data).AdvanceKeeps (d.pushWord data).progress.sectorsRemaining
      rw [hsame.advanceKeeps, hsame.progress]
      refine hall _ ?_
      rw [leftOfWrite, if_pos ⟨decide_eq_true hfull, hcommand, hcount⟩]
      exact rfl
  case isFalse => exact hpush

theorem gated_finishedCommand (h : d.Gated) (hkeep : d.gate.Settled ∨
    (d.command.accesses = true → d.AdvanceKeeps d.progress.sectorsRemaining) ∧
      (d.command = .diagnostic → d.finishesDiagnostic = true → d.dev = false)) :
      d.finishedCommand.Gated := by
  have hread (hcommand : d.command.accesses = true) : d.finishedRead.Gated :=
    gated_finishedRead h (hkeep.imp_right fun hall ↦ hall.1 hcommand)
  have hwrite (hcommand : d.command.accesses = true) : d.finishedWrite.Gated :=
    gated_finishedWrite h (hkeep.imp_right fun hall ↦ hall.1 hcommand)
  rw [finishedCommand]
  split
  case h_1 => exact gated_finishedIdentify h
  case h_2 => exact gated_setIrq (by rwa [Gated, gate_setGeometry]) true
  case h_3 hcommand =>
    split_ifs
    · exact hread (by rw [hcommand]; rfl)
    · exact hwrite (by rw [hcommand]; rfl)
  case h_8 hcommand => exact hwrite (by rw [hcommand]; rfl)
  case h_9 => exact gated_setIrq (by rwa [Gated, gate_putBytes]) true
  case h_10 hcommand =>
    have hstart : d.startDiagnostic.Gated :=
      gated_startDiagnostic h (hkeep.imp_right fun hall ↦ hall.2 hcommand)
    dsimp only
    split_ifs
    · exact hstart
    · exact gated_setIrq hstart true
  case h_11 => exact gated_finishedSetFeatures h
  case h_12 => exact gated_setIrq h true
  case h_13 => exact gated_setIrq h true
  case h_14 => exact h
  case h_4 hcommand => exact hread (by rw [hcommand]; rfl)
  case h_5 hcommand => exact hread (by rw [hcommand]; rfl)
  case h_6 hcommand => exact hread (by rw [hcommand]; rfl)
  case h_7 hcommand => exact hread (by rw [hcommand]; rfl)

/-! ## The events -/

theorem gated_commandR (h : d.Gated) (offset : ℕ) (data : BitVec 16)
    (hkeep : d.KeepsGate (.readCs0 offset)) : (d.commandR offset data).2.Gated := by
  rw [commandR]
  split_ifs with hrespond hdmack hbusy
  · exact h
  · exact h
  · rw [readRegister.eq_def]
    split
    case h_1 =>
      split
      case isTrue htake =>
        have hpio : d.takesPio = true := by simp [takesPio, htake, hdmack]
        exact gated_readData h data (hkeep.ofReadCs0 hpio)
      case isFalse => exact h
    case h_8 =>
      split
      · exact gated_setIrq h false
      · exact h
    all_goals exact h
  · exact h

omit [HardDisk M] in
theorem gated_writeDeviceHead (h : d.Gated) (data : Byte) : (d.writeDeviceHead data).Gated := by
  simp only [writeDeviceHead]
  split_ifs with hchanged
  · rw [Gated, gate_updateIrq]
    exact Gate.ok_updateIrq _
  · exact Gate.ok_moveDrive h (.inr (getLsbD_of_not_changed hchanged))

omit [HardDisk M] in
theorem gate_abortTransfer : d.abortTransfer.gate = d.gate := by
  simp only [abortTransfer, gate_abortCommand, gate_setDmarq, gate_setDrq, gate_stopBusy]

theorem gated_commandW (h : d.Gated) (offset : ℕ) (data : BitVec 16)
    (hkeep : d.KeepsGate (.writeCs0 offset data)) : (d.commandW offset data).Gated := by
  have hbegin : (d.beginWrite offset data).Gated := by
    rw [beginWrite]
    split_ifs
    · rwa [Gated, gate_abortTransfer]
    · exact h
  simp only [commandW]
  split_ifs with hbsy hdmack
  · exact hbegin
  · exact hbegin
  · rw [writeRegister.eq_def]
    split
    case h_1 =>
      split
      case isTrue htake =>
        have hsame : d.beginWrite 0 data = d := by simp [beginWrite, abortsTransfer]
        rw [hsame] at hbsy hdmack htake ⊢
        have hpio : d.takesPio = true := by simp [takesPio, htake, hbsy, hdmack]
        exact gated_writeData h data (hkeep.ofWriteCs0 hpio)
      case isFalse => exact hbegin
    case h_7 => exact gated_writeDeviceHead hbegin _
    case h_8 =>
      split_ifs
      · exact gated_startCommand hbegin _
      · exact hbegin
    case h_9 => exact hbegin
    all_goals rwa [Gated, gate_onRegs rfl rfl]

omit [HardDisk M] in
theorem gated_changeSrst (h : d.Gated) : d.changeSrst.Gated := by
  rw [changeSrst]
  split_ifs
  · exact h
  · have hgate : d.gate.Ok := h
    simp [Gated, hgate]
  · rwa [Gated, gate_softReset]
  · exact h

omit [HardDisk M] in
theorem gated_writeDeviceControl (h : d.Gated) (data : Byte) :
    (d.writeDeviceControl data).Gated := by
  simp only [writeDeviceControl]
  have hcontrol : (if (d.regs.deviceControl ^^^ data).getLsbD 1 then
      (d.onRegs fun r ↦ { r with deviceControl := data }).updateIrq
      else d.onRegs fun r ↦ { r with deviceControl := data }).Gated := by
    split_ifs with hchanged
    · rw [Gated, gate_updateIrq]
      exact Gate.ok_updateIrq _
    · have hnien : (d.onRegs fun r ↦ { r with deviceControl := data }).nIEN = d.nIEN :=
        getLsbD_of_not_changed hchanged
      rw [Gated, gate, hnien]
      exact h
  split_ifs at hcontrol ⊢
  all_goals first
    | exact gated_changeSrst hcontrol
    | exact hcontrol

omit [HardDisk M] in
theorem gated_controlW (h : d.Gated) (offset : ℕ) (data : BitVec 16) :
    (d.controlW offset data).Gated := by
  rw [controlW]
  split_ifs
  · exact h
  · exact gated_writeDeviceControl h _
  · exact h

theorem gated_busyTick (h : d.Gated) (hkeep : d.KeepsGate .busyTick) : d.busyTick.Gated := by
  rw [busyTick]
  split_ifs with hpending
  · have hbegin : ((d.setBsy false).setBusyTimer { d.busyTimer with pending := false }).Gated := by
      rwa [Gated, gate_setBusyTimer, gate_setBsy]
    rw [finishedBusy.eq_def]
    split
    case h_1 => exact hbegin
    case h_2 => rwa [Gated, gate_softReset, gate_onSetup]
    case h_3 hparam =>
      refine gated_startDiagnostic hbegin (hkeep.imp_right fun hall hfinish ↦ hall.2 ?_)
      simp only [signs, hpending, hparam, Bool.true_and]
      exact hfinish
    case h_4 hparam =>
      refine gated_finishedDiagnostic (by rwa [Gated, gate_setError])
        (hkeep.imp_right fun hall ↦ hall.2 ?_)
      simp only [signs, hpending, hparam, Bool.true_and]
    case h_5 hparam =>
      refine gated_finishedCommand hbegin (hkeep.imp_right fun hall ↦ ⟨fun haccess ↦ ?_,
        fun hdiag hfinish ↦ hall.2 ?_⟩)
      · have hleft : d.sectorsLeft .busyTick = some d.progress.sectorsRemaining :=
          if_pos ⟨hpending, hparam, haccess⟩
        exact hall.1 _ hleft
      · simp only [signs, hpending, hparam, Bool.true_and, Bool.and_eq_true, decide_eq_true_eq]
        exact ⟨hdiag, hfinish⟩
  · exact h

theorem gated_emptyTick (h : d.Gated) (hkeep : d.KeepsGate .emptyTick) : d.emptyTick.Gated := by
  rw [emptyTick]
  split_ifs with hempty
  · have hleft : d.sectorsLeft .emptyTick = d.leftOfFill := if_pos hempty
    rw [KeepsGate, hleft] at hkeep
    exact gated_fillBuffer (by rwa [Gated, gate_setBufferEmpty]) (hkeep.imp_right And.left)
  · exact h

omit [HardDisk M] in
theorem gated_interfacePostReset (h : d.Gated) : d.interfacePostReset.Gated := by
  have hcontrol (d' : Hdd M) :
      (d'.onRegs fun r ↦ { r with deviceControl := 0 }).gate = d'.gate.clearNIEN := by
    have hnien : (d'.onRegs fun r ↦ { r with deviceControl := 0 }).nIEN = (0#8).getLsbD 1 := rfl
    rw [gate, hnien]
    rfl
  have hirq : (d.gate.setIrq false).clearNIEN.Ok :=
    Gate.ok_clearNIEN (Gate.ok_setIrq h false) (Gate.irq_setIrq _ _)
  simp only [interfacePostReset]
  split_ifs
  · simp only [Gated, gate_softReset, gate_setDasp, gate_onSetup, hcontrol, gate_clearStatus,
      gate_setPdiag, gate_setIrq, gate_setDmarq]
    exact hirq
  · simp only [Gated, gate_startBusy, gate_onSetup, hcontrol, gate_clearStatus, gate_setPdiag,
      gate_setIrq, gate_setDmarq, gate_setDasp]
    exact hirq

theorem gated_reset (h : d.Gated) : d.reset.Gated := by
  have hdevice : d.deviceReset.Gated := by
    rw [deviceReset]
    split
    · exact h
    · dsimp only
      split_ifs
      · exact h
      · rwa [Gated, gate_onSetup, gate_onModes, gate_setGeometry]
      · rwa [Gated, gate_onSetup, gate_onModes]
  exact gated_interfacePostReset hdevice

/-- **A step keeps the output right, unless the drive rewrites its DRV bit under a set flag.** -/
theorem gated_step (h : d.Gated) (e : Event) (hkeep : d.KeepsGate e) : (d.step e).Gated := by
  cases e with
  | readDma =>
    rw [step, dmaR]
    split_ifs with hdma
    · exact gated_requestWord (gated_readData h _ (hkeep.ofReadDma hdma))
    · exact h
  | writeDma data =>
    rw [step, dmaW]
    split_ifs with hdma
    · exact gated_requestWord (gated_writeData h data (hkeep.ofWriteDma hdma))
    · exact h
  | dmackIn state =>
    rw [step, setDmackIn]
    split_ifs <;> exact h
  | readCs0 offset => exact gated_commandR h offset _ hkeep
  | writeCs0 offset data => exact gated_commandW h offset data hkeep
  | readCs1 offset =>
    rwa [step, controlR_snd]
  | writeCs1 offset data => exact gated_controlW h offset data
  | daspIn state => exact h
  | pdiagIn state =>
    rw [step, setPdiagIn]
    split_ifs with hwait
    · refine gated_finishedDiagnostic ?_ (hkeep.imp_right fun hall ↦ hall.2 ?_)
      · exact h
      · simpa [signs] using hwait
    · exact h
  | busyTick => exact gated_busyTick h hkeep
  | emptyTick => exact gated_emptyTick h hkeep
  | reset => exact gated_reset h

/-- **The interrupt output.** In every run of a drive from its start, the level last driven is the
interrupt flag gated by the selection and `nIEN`, as long as the drive rewrites its DRV bit by
itself only where that does not matter to the output. -/
theorem always_gated (csel : Bool) (image : Option M) (inquiryData : List Byte)
    (masterPassword userPassword : Option (List Byte)) (es : List Event) (hkeep :
    Run.Meets step KeepsGate (start csel image inquiryData masterPassword userPassword) es) :
    Run.Always step Gated (start csel image inquiryData masterPassword userPassword) es :=
  Run.always_of_meets (fun _ e h hG ↦ gated_step h e hG) (by cases csel <;> rfl) hkeep

end Parts

/-- `IDLE`, with its interrupt and the read of the status that ends it. -/
theorem always_gated_idle :
    Run.Always step Gated (start false (none : Option SdCard.MemoryDisk) [] none none)
      [.reset, .busyTick, .busyTick, .writeCs0 7 0xe3, .readCs0 7] :=
  always_gated _ _ _ _ _ _ (by decide)

/-- Drive 0, whose slave does not answer the diagnostic, executes `EXECUTE DEVICE DIAGNOSTIC` a
second time while drive 1 is selected. Its interrupt flag is set while it waits for the slave, and
its signature then selects it. -/
theorem not_gated_diagnostic :
    ¬ (run (start false (none : Option SdCard.MemoryDisk) [] none none)
      [.reset, .daspIn true, .busyTick, .busyTick, .busyTick, .writeCs0 7
      0x90, .busyTick, .busyTick,
        .readCs0 7, .writeCs0 6 0x10, .writeCs0 7 0x90, .busyTick, .busyTick]).Gated := by
  decide

end Hdd

end RoscoEmulator.Ata
