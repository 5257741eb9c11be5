import RoscoEmulator.Ata.BlockTransfer

/-!
# The interrupts of a transfer in blocks

A run of a transfer is any run without errors, without resets and without another command, in which
the host moves the data in the direction of the command; it may look at the registers, move the data
by words or by DMA, and acknowledge interrupts or not. A step asserts the interrupt when it would do
so in a drive whose last interrupt has been acknowledged, so that the errors of a step are compared
with and without it. -/

namespace RoscoEmulator.Ata

open List

open SdCard (HardDisk)

namespace Hdd

variable {M : Type}

/-! ## Every step of a transfer -/

/-- The interrupt line and the line to the host are set to anything. -/
def onIrq (d : Hdd M) (irq out : Bool) : Hdd M :=
  d.onLines fun l ↦ { l with irq := irq, irqOut := out }

variable (d : Hdd M) (irq out : Bool) (e : Event)

/-- `set_irq` changes these two lines only. -/
theorem exists_onIrq (state : Bool) : ∃ out, d.setIrq state = d.onIrq state out := by
  rw [setIrq, updateIrq]
  split_ifs with hchange
  · exact ⟨state, rfl⟩
  · exact ⟨false, rfl⟩
  · rw [not_not] at hchange
    subst hchange
    exact ⟨d.lines.irqOut, rfl⟩

theorem sectorsLeft_onIrq : (d.onIrq irq out).sectorsLeft e = d.sectorsLeft e := by
  cases e with
  | readCs0 offset => cases offset <;> rfl
  | writeCs0 offset data => cases offset <;> rfl
  | _ => rfl

theorem moves_onIrq : (d.onIrq irq out).moves e = d.moves e := by
  cases e with
  | readCs0 offset => cases offset <;> rfl
  | writeCs0 offset data => cases offset <;> rfl
  | _ => rfl

theorem undisturbed_onIrq (isRead : Bool) (d : Hdd M) (irq out : Bool) (e : Event) :
    (d.onIrq irq out).undisturbed isRead e = d.undisturbed isRead e := by
  cases e with
  | readCs0 offset => cases offset <;> rfl
  | writeCs0 offset data =>
    rw [undisturbed.eq_def, undisturbed.eq_def]
    rfl
  | writeCs1 offset data =>
    rw [undisturbed.eq_def, undisturbed.eq_def]
    rfl
  | _ => rfl

theorem aborts_onIrq : (d.onIrq irq out).aborts e = d.aborts e := by
  cases e <;> rfl

/-- A step that moves nothing accesses no sector. -/
theorem sectorsLeft_of_not_moves {d : Hdd M} {e : Event} (hmoves : d.moves e = false) :
    d.sectorsLeft e = none := by
  have hread {takes : Bool} (h : (takes && d.completes) = false) :
      (if takes then d.leftOfRead else none) = none := by
    split_ifs with htakes
    · rw [htakes, Bool.true_and] at h
      exact if_neg (by simp [h])
    · rfl
  have hwrite {takes : Bool} (h : (takes && d.completes) = false) :
      (if takes then d.leftOfWrite else none) = none := by
    split_ifs with htakes
    · rw [htakes, Bool.true_and] at h
      exact if_neg (by simp [h])
    · rfl
  cases e with
  | readDma => exact hread hmoves
  | writeDma data => exact hwrite hmoves
  | readCs0 offset =>
    cases offset with
    | zero => exact hread hmoves
    | succ => rfl
  | writeCs0 offset data =>
    cases offset with
    | zero => exact hwrite hmoves
    | succ => rfl
  | busyTick => exact if_neg fun h ↦ Bool.false_ne_true (hmoves.symm.trans h.1)
  | emptyTick => exact if_neg fun h ↦ Bool.false_ne_true (hmoves.symm.trans h)
  | _ => rfl

/-- The drive asks for no more data. -/
def withoutRequest (d : Hdd M) : Hdd M := ((d.setOffset 0).setDrq false).setDmarq false

section Errors

variable [HardDisk M] {d : Hdd M} {c : Command}

theorem fetchSector_fst_onLines (d : Hdd M) (f : Lines → Lines) :
    (d.onLines f).fetchSector.1 = d.fetchSector.1 := by
  have hcommand : (d.onLines f).command = d.command := rfl
  rw [fetchSector, fetchSector, hcommand]
  split_ifs
  · rfl
  · rw [readSector, readSector, onLines_image]
    cases d.image <;> rfl

theorem storeSector_fst_onLines (d : Hdd M) (f : Lines → Lines) :
    (d.onLines f).storeSector.1 = d.storeSector.1 := by
  have hcommand : (d.onLines f).command = d.command := rfl
  rw [storeSector, storeSector, hcommand]
  split_ifs
  · rfl
  · rw [writeSector, writeSector, onLines_image]
    cases d.image <;> rfl

omit [HardDisk M] in
theorem status_setIrq (d : Hdd M) (state : Bool) : (d.setIrq state).status = d.status :=
  (setIrq_frame d state).2.1

omit [HardDisk M] in
theorem status_signal (d : Hdd M) (last : Bool) : (d.signal last).status = d.status := by
  rw [signal]
  split
  · exact status_setIrq _ _
  · rfl

omit [HardDisk M] in
theorem status_passSector (d : Hdd M) : d.passSector.status = d.status := by
  rw [passSector]
  split_ifs <;> rfl

omit [HardDisk M] in
theorem status_countDown (d : Hdd M) : d.countDown.status = d.status := by
  rw [countDown]
  split_ifs <;> rfl

omit [HardDisk M] in
theorem countDown_onLines (d : Hdd M) (f : Lines → Lines) :
    (d.onLines f).countDown = d.countDown.onLines f := by
  rw [countDown, countDown, onLines_progress]
  split_ifs <;> rfl

omit [HardDisk M] in
theorem err_requestData (d : Hdd M) : d.requestData.status.err = d.status.err := by
  rw [requestData]
  split <;> rfl

theorem err_finishedRead (hcommand : d.command = .transfer c) :
    d.finishedRead.status.err = (d.status.err || !d.fetchSector.1) := by
  have hok : (d.setDasp false).fetchSector.1 = d.fetchSector.1 := fetchSector_fst_onLines d _
  have hfetch : SameTask (d.setDasp false) (d.setDasp false).fetchSector.2 := sameTask_fetchSector _
  rw [← hok, finishedRead, finishedReadWith]
  generalize (d.setDasp false).fetchSector = fetched at hfetch
  have hcommand' : fetched.2.command = .transfer c := by
    rw [command, hfetch.regs]
    exact hcommand
  have hstatus : fetched.2.status = d.status := hfetch.status
  cases fetched.1 with
  | true =>
    generalize hlast : decide (fetched.2.progress.sectorsRemaining = 1 ∧
      ¬ fetched.2.command.isMultiple) = last
    have hverify : (fetched.2.passSector.signal last).command.isVerify = false := by
      rw [command_advance, hcommand']
      rfl
    rw [if_pos rfl, if_neg (by rw [hverify]; exact Bool.false_ne_true), err_requestData,
      status_signal, status_passSector, hstatus, Bool.not_true, Bool.or_false]
  | false =>
    rw [if_neg Bool.false_ne_true, err_badSector, Bool.not_false, Bool.or_true]

theorem err_finishedWrite (d : Hdd M) :
    d.finishedWrite.status.err = (d.status.err || !d.storeSector.1) := by
  have hok : (d.setDasp false).storeSector.1 = d.storeSector.1 := storeSector_fst_onLines d _
  have hstore : SameTask (d.setDasp false) (d.setDasp false).storeSector.2 := sameTask_storeSector _
  rw [← hok, finishedWrite]
  generalize (d.setDasp false).storeSector = stored at hstore
  have hstatus : stored.2.status = d.status := hstore.status
  cases stored.1 with
  | true =>
    have hcount : ((stored.2.passSector.signal
        (decide (stored.2.progress.sectorsRemaining = 1))).countDown).status = d.status := by
      rw [status_countDown, status_signal, status_passSector, hstatus]
    rw [if_pos rfl, Bool.not_true, Bool.or_false, ← hcount]
    dsimp only
    split_ifs
    · exact err_requestData _
    · rfl
  | false =>
    rw [if_neg Bool.false_ne_true, err_badSector, Bool.not_false, Bool.or_true]

theorem writeBufferFull_of_multiple (hcommand : d.command = .transfer c) (hwrite : c.isRead = false)
    (hmultiple : c.isMultiple = true) : d.writeBufferFull =
      if d.progress.sectorsUntilInt ≠ 1 then (d.withoutRequest.setDasp true).finishedWrite
      else (d.withoutRequest.setDasp true).startBusy true .command := by
  have hcommand' : (((d.setOffset 0).setDrq false).setDmarq false).command = .transfer c := hcommand
  rw [writeBufferFull, processBuffer, hcommand']
  cases c <;> first | rfl | exact Bool.noConfusion hwrite | exact Bool.noConfusion hmultiple

theorem readBufferEmpty_eq (d : Hdd M) : d.readBufferEmpty = if d.ultraDmaMode.isSome
    then d.withoutRequest.setBufferEmpty true else d.withoutRequest.fillBuffer := rfl

/-- Whether the end of a buffer sets the error bit does not depend on the lines. -/
theorem err_fillBuffer_onLines (hcommand : d.command = .transfer c) (hread : c.isRead = true)
    (hmultiple : c.isMultiple = true) (f : Lines → Lines) :
    (d.onLines f).fillBuffer.status.err = d.fillBuffer.status.err := by
  have hlines : (d.onLines f).command = .transfer c := hcommand
  have hcount : d.countDown.command = .transfer c := d.command_countDown.trans hcommand
  have hcount' : (d.countDown.onLines f).command = .transfer c := hcount
  rw [fillBuffer_of_multiple hlines hread hmultiple,
    fillBuffer_of_multiple hcommand hread hmultiple, countDown_onLines, onLines_progress]
  split_ifs
  · rw [err_finishedRead hcount, err_finishedRead hcount', fetchSector_fst_onLines, onLines_status]
  · rfl

theorem err_readBufferEmpty_onLines (hcommand : d.command = .transfer c) (hread : c.isRead = true)
    (hmultiple : c.isMultiple = true) (f : Lines → Lines) :
    (d.onLines f).readBufferEmpty.status.err = d.readBufferEmpty.status.err := by
  have hcommand' : ((d.setOffset 0).setDrq false).command = .transfer c := hcommand
  have hultra : (d.onLines f).ultraDmaMode = d.ultraDmaMode := rfl
  rw [readBufferEmpty_eq, readBufferEmpty_eq, hultra]
  split_ifs
  · rfl
  · exact (err_fillBuffer_onLines hcommand' hread hmultiple fun l ↦
      { f l with dmarq := false }).trans
      (err_fillBuffer_onLines hcommand' hread hmultiple fun l ↦ { l with dmarq := false }).symm

theorem err_writeBufferFull_onLines (hcommand : d.command = .transfer c) (hwrite : c.isRead = false)
    (hmultiple : c.isMultiple = true) (f : Lines → Lines) :
    (d.onLines f).writeBufferFull.status.err = d.writeBufferFull.status.err := by
  have hlines : (d.onLines f).command = .transfer c := hcommand
  have hfinished (g : Lines → Lines) :
      (((d.setOffset 0).setDrq false).onLines g).finishedWrite.status.err =
      ((d.setOffset 0).setDrq false).finishedWrite.status.err := by
    rw [err_finishedWrite, err_finishedWrite, storeSector_fst_onLines, onLines_status]
  rw [writeBufferFull_of_multiple hlines hwrite hmultiple,
    writeBufferFull_of_multiple hcommand hwrite hmultiple, onLines_progress]
  split_ifs
  · exact (hfinished fun l ↦ { f l with dmarq := false, daspout := true }).trans
      (hfinished fun l ↦ { l with dmarq := false, daspout := true }).symm
  · rfl

omit [HardDisk M] in
theorem status_requestWord (d : Hdd M) : d.requestWord.status = d.status := by
  rw [requestWord]
  split_ifs <;> rfl

theorem readData_of_completes (hlast : d.completes = true) (data : BitVec 16) :
    (d.readData data).2 = ((d.logged (.bufferUsed d.buffer.offset.toNat d.width)).setOffset
      (d.buffer.offset + BitVec.ofNat 16 d.width)).readBufferEmpty := by
  exact if_pos (of_decide_eq_true hlast)

theorem writeData_of_completes (hlast : d.completes = true) (data : BitVec 16) :
    d.writeData data = (d.pushWord data).writeBufferFull := by
  refine if_pos ?_
  rw [offset_pushWord, size_pushWord]
  exact of_decide_eq_true hlast

omit [HardDisk M] in
theorem pushWord_onLines (d : Hdd M) (data : BitVec 16) (f : Lines → Lines) :
    (d.onLines f).pushWord data = (d.pushWord data).onLines f := by
  have hwidth : (d.onLines f).width = d.width := rfl
  simp only [pushWord, hwidth]
  split_ifs <;> rfl

theorem err_readData_onLines (hlast : d.completes = true) (hcommand : d.command = .transfer c)
    (hread : c.isRead = true) (hmultiple : c.isMultiple = true) (data : BitVec 16)
    (f : Lines → Lines) :
    ((d.onLines f).readData data).2.status.err = (d.readData data).2.status.err := by
  have hlast' : (d.onLines f).completes = true := hlast
  have hcommand' : ((d.logged (.bufferUsed d.buffer.offset.toNat d.width)).setOffset
      (d.buffer.offset + BitVec.ofNat 16 d.width)).command = .transfer c := hcommand
  rw [readData_of_completes hlast', readData_of_completes hlast]
  exact err_readBufferEmpty_onLines hcommand' hread hmultiple f

theorem err_writeData_onLines (hlast : d.completes = true) (hcommand : d.command = .transfer c)
    (hwrite : c.isRead = false) (hmultiple : c.isMultiple = true) (data : BitVec 16)
    (f : Lines → Lines) :
    ((d.onLines f).writeData data).status.err = (d.writeData data).status.err := by
  have hlast' : (d.onLines f).completes = true := hlast
  have hcommand' : (d.pushWord data).command = .transfer c :=
    (command_congr d (d.sameTask_pushWord data).regs).trans hcommand
  rw [writeData_of_completes hlast', writeData_of_completes hlast, pushWord_onLines]
  exact err_writeBufferFull_onLines hcommand' hwrite hmultiple f

theorem step_readDma (hdma : d.takesDma = true) :
    d.step .readDma = (d.readData 0xffff).2.requestWord := by
  rw [step, dmaR, if_pos hdma]

theorem step_writeDma (hdma : d.takesDma = true) (data : BitVec 16) :
    d.step (.writeDma data) = (d.writeData data).requestWord := by
  rw [step, dmaW, if_pos hdma]

theorem step_readCs0 (hpio : d.takesPio = true) : d.step (.readCs0 0) = (d.readData 0xffff).2 := by
  simp only [takesPio, Bool.and_eq_true, Bool.not_eq_true'] at hpio
  obtain ⟨⟨⟨hselected, hdmack⟩, hbsy⟩, hdrq⟩ := hpio
  simp [step, commandR, responds, readRegister, hselected, hdmack, hbsy, hdrq]

theorem step_writeCs0 (hpio : d.takesPio = true) (data : BitVec 16) :
    d.step (.writeCs0 0 data) = d.writeData data := by
  simp only [takesPio, Bool.and_eq_true, Bool.not_eq_true'] at hpio
  obtain ⟨⟨⟨hselected, hdmack⟩, hbsy⟩, hdrq⟩ := hpio
  simp [step, commandW, beginWrite, abortsTransfer, writeRegister, hselected, hdmack, hbsy, hdrq]

/-- The busy timer has expired. -/
def expired (d : Hdd M) : Hdd M :=
  (d.setBsy false).setBusyTimer { d.busyTimer with pending := false }

theorem step_busyTick (hpending : d.busyTimer.pending = true)
    (hparam : d.busyTimer.param = .command) : d.step .busyTick = d.expired.finishedCommand := by
  rw [step, busyTick, if_pos hpending, hparam]
  rfl

theorem step_emptyTick (hempty : d.bufferEmpty = true) :
    d.step .emptyTick = (d.setBufferEmpty false).fillBuffer := by
  rw [step, emptyTick, if_pos hempty]

theorem finishedCommand_of_transfer (hcommand : d.command = .transfer c) :
    d.finishedCommand = if c.isRead then d.finishedRead else d.finishedWrite := by
  rw [finishedCommand, hcommand]

/-- A step that moves a transfer on. -/
inductive Moves (c : Command) (d : Hdd M) : Event → Prop
  | readDma (hread : c.isRead = true) (hdma : d.takesDma = true) (hlast : d.completes = true) :
    Moves c d .readDma
  | writeDma (data : BitVec 16) (hwrite : c.isRead = false) (hdma : d.takesDma = true)
      (hlast : d.completes = true) : Moves c d (.writeDma data)
  | readPio (hread : c.isRead = true) (hpio : d.takesPio = true) (hlast : d.completes = true) :
      Moves c d (.readCs0 0)
  | writePio (data : BitVec 16) (hwrite : c.isRead = false) (hpio : d.takesPio = true)
      (hlast : d.completes = true) : Moves c d (.writeCs0 0 data)
  | busyTick (hpending : d.busyTimer.pending = true) : Moves c d .busyTick
  | emptyTick (hempty : d.bufferEmpty = true) : Moves c d .emptyTick

omit [HardDisk M] in
theorem Moves.of_moves {e : Event} (hmoves : d.moves e = true)
    (hundisturbed : d.undisturbed c.isRead e = true) : Moves c d e := by
  have hdirection {takes right : Bool} (hmoves : (takes && d.completes) = true)
      (h : (!takes || right) = true) : takes = true ∧ d.completes = true ∧ right = true := by
    obtain ⟨htakes, hlast⟩ := Bool.and_eq_true_iff.mp hmoves
    rw [htakes] at h
    exact ⟨htakes, hlast, h⟩
  cases e with
  | readDma =>
    obtain ⟨hdma, hlast, hread⟩ := hdirection hmoves hundisturbed
    exact .readDma hread hdma hlast
  | writeDma data =>
    obtain ⟨hdma, hlast, hwrite⟩ := hdirection hmoves hundisturbed
    exact .writeDma data (Bool.not_eq_true' _ ▸ hwrite) hdma hlast
  | readCs0 offset =>
    cases offset with
    | zero =>
      obtain ⟨hpio, hlast, hread⟩ :=
        hdirection (show (d.takesPio && d.completes) = true from hmoves) hundisturbed
      exact .readPio hread hpio hlast
    | succ => exact absurd hmoves Bool.false_ne_true
  | writeCs0 offset data =>
    cases offset with
    | zero =>
      obtain ⟨hpio, hlast, hwrite⟩ :=
        hdirection (show (d.takesPio && d.completes) = true from hmoves) hundisturbed
      exact .writePio data (Bool.not_eq_true' _ ▸ hwrite) hpio hlast
    | succ => exact absurd hmoves Bool.false_ne_true
  | busyTick => exact .busyTick hmoves
  | emptyTick => exact .emptyTick hmoves
  | _ => exact absurd hmoves Bool.false_ne_true

/-- Whether a step that moves a transfer on sets the error bit does not depend on the interrupt. -/
theorem err_step_onIrq {e : Event} (hmoves : Moves c d e)
    (hparam : d.busyTimer.pending = true → d.busyTimer.param = .command)
    (hread : d.bufferEmpty = true → c.isRead = true) (hcommand : d.command = .transfer c)
    (hmultiple : c.isMultiple = true) (irq out : Bool) :
    ((d.onIrq irq out).step e).status.err = (d.step e).status.err := by
  cases hmoves with
  | readDma hread hdma hlast =>
    have hdma' : (d.onIrq irq out).takesDma = true := hdma
    rw [step_readDma hdma, step_readDma hdma', status_requestWord, status_requestWord]
    exact err_readData_onLines hlast hcommand hread hmultiple _ _
  | writeDma data hwrite hdma hlast =>
    have hdma' : (d.onIrq irq out).takesDma = true := hdma
    rw [step_writeDma hdma, step_writeDma hdma', status_requestWord, status_requestWord]
    exact err_writeData_onLines hlast hcommand hwrite hmultiple _ _
  | readPio hread hpio hlast =>
    have hpio' : (d.onIrq irq out).takesPio = true := hpio
    rw [step_readCs0 hpio, step_readCs0 hpio']
    exact err_readData_onLines hlast hcommand hread hmultiple _ _
  | writePio data hwrite hpio hlast =>
    have hpio' : (d.onIrq irq out).takesPio = true := hpio
    rw [step_writeCs0 hpio, step_writeCs0 hpio']
    exact err_writeData_onLines hlast hcommand hwrite hmultiple _ _
  | busyTick hpending =>
    have hcommand' : d.expired.command = .transfer c := hcommand
    have hcommand'' : (d.onIrq irq out).expired.command = .transfer c := hcommand
    rw [step_busyTick hpending (hparam hpending),
      step_busyTick (d := d.onIrq irq out) hpending (hparam hpending),
      finishedCommand_of_transfer hcommand', finishedCommand_of_transfer hcommand'']
    split_ifs
    · rw [err_finishedRead hcommand', err_finishedRead hcommand'']
      exact congrArg (d.status.err || !·) (fetchSector_fst_onLines d.expired fun l ↦
        { l with irq := irq, irqOut := out })
    · rw [err_finishedWrite, err_finishedWrite]
      exact congrArg (d.status.err || !·) (storeSector_fst_onLines d.expired fun l ↦
        { l with irq := irq, irqOut := out })
  | emptyTick hempty =>
    have hcommand' : (d.setBufferEmpty false).command = .transfer c := hcommand
    rw [step_emptyTick hempty, step_emptyTick (d := d.onIrq irq out) hempty]
    exact err_fillBuffer_onLines hcommand' (hread hempty) hmultiple fun l ↦
      { l with irq := irq, irqOut := out }

end Errors

namespace Steps

variable {c : Command} {b n k : ℕ} {left : Option ℕ} {d d₀ d' d'' : Hdd M}

theorem of_irq (h : Steps c b n k left d d') (hirq : d₀.lines.irq = false → d.lines.irq = false) :
    Steps c b n k left d₀ d' := by
  rcases h with ⟨hleft, h, hkept⟩ | ⟨hk, hleft, h, hraised, hkept⟩
  · exact .stay hleft h (hkept ∘ hirq)
  · exact .access hk hleft h hraised fun hs ↦ hkept hs ∘ hirq

theorem requestWord (h : Steps c b n k left d d') : Steps c b n k left d d'.requestWord := by
  have hsame : SameTransfer d' d'.requestWord := sameTransfer_requestWord d'
  have hirq : d'.requestWord.lines.irq = d'.lines.irq := by
    rw [Hdd.requestWord]
    split_ifs <;> rfl
  rcases h with ⟨hleft, h, hkept⟩ | ⟨hk, hleft, h, hraised, hkept⟩
  · exact .stay hleft (h.of_same hsame) (hsame.irq ∘ hkept)
  · exact .access hk hleft (h.of_same hsame) (fun hs ↦ hirq.trans (hraised hs)) fun hs ↦
      hsame.irq ∘ hkept hs

end Steps

namespace Transferring

variable {c : Command} {b n k : ℕ} {d : Hdd M}

/-- A drive that asks for data moves those of a sector. -/
theorem data_of_drq (h : Transferring c b n k d) (hdrq : d.status.drq = true) :
    (if c.isRead then 0 < k else k < n) ∧ d.status.bsy = false ∧ d.busyTimer.pending = false ∧
      d.bufferEmpty = false ∧
      d.progress.sectorsRemaining = if c.isRead then n + 1 - k else n - k := by
  cases h.phase with
  | data hsector hbsy _ hpending hempty hleft => exact ⟨hsector, hbsy, hpending, hempty, hleft⟩
  | wait _ _ _ hno | emptied _ _ _ hno | done _ _ hno =>
    exact absurd (hno.symm.trans hdrq) Bool.false_ne_true

theorem wait_of_pending (h : Transferring c b n k d) (hpending : d.busyTimer.pending = true) :
    (c.isRead = true → k = 0) ∧ k < n ∧ d.status.bsy = true ∧ d.status.drq = false ∧
      d.busyTimer.param = .command ∧ d.bufferEmpty = false ∧
      d.progress.sectorsRemaining = n - k := by
  cases h.phase with
  | wait hfirst hmore hbsy hdrq _ hparam hempty hleft =>
    exact ⟨hfirst, hmore, hbsy, hdrq, hparam, hempty, hleft⟩
  | data _ _ _ hno | emptied _ _ _ _ hno | done _ _ _ hno =>
    exact absurd (hno.symm.trans hpending) Bool.false_ne_true

theorem emptied_of_bufferEmpty (h : Transferring c b n k d) (hempty : d.bufferEmpty = true) :
    c.isRead = true ∧ d.status.bsy = false ∧ d.status.drq = false ∧ d.busyTimer.pending = false ∧
      d.progress.sectorsRemaining = n + 1 - k := by
  cases h.phase with
  | emptied hread _ hbsy hdrq hpending _ hleft => exact ⟨hread, hbsy, hdrq, hpending, hleft⟩
  | wait _ _ _ _ _ _ hno | data _ _ _ _ hno | done _ _ _ _ hno =>
    exact absurd (hno.symm.trans hempty) Bool.false_ne_true

/-- A drive that is busy waits for its timer, and asks for nothing. -/
theorem idle (h : Transferring c b n k d) : (d.busyTimer.pending = false → d.status.bsy = false) ∧
    (d.status.bsy = true → d.status.drq = false) := by
  cases h.phase with
  | wait _ _ _ hdrq hpending =>
    exact ⟨fun hno ↦ absurd (hno.symm.trans hpending) Bool.false_ne_true, fun _ ↦ hdrq⟩
  | data _ hbsy | emptied _ _ hbsy | done _ hbsy =>
    exact ⟨fun _ ↦ hbsy, fun hno ↦ absurd (hbsy.symm.trans hno) Bool.false_ne_true⟩

end Transferring

section Step

variable [HardDisk M] {c : Command} {b n k : ℕ} {d : Hdd M} {e : Event} (hb : 0 < b)
    (hb' : b < 2 ^ 16)
include hb hb'

section

variable (h : Transferring c b n k d)
include h

theorem steps_readBufferEmpty (hread : c.isRead = true) (hmultiple : c.isMultiple = true)
    (hdrq : d.status.drq = true) (herr : d.readBufferEmpty.status.err = false) :
    Steps c b n k (if d.ultraDmaMode.isNone then d.leftOfFill else none) d d.readBufferEmpty := by
  obtain ⟨hsector, hbsy, hpending, hempty, hleft⟩ := h.data_of_drq hdrq
  rw [if_pos hread] at hsector hleft
  rw [readBufferEmpty_eq] at herr ⊢
  by_cases hultra : d.ultraDmaMode.isSome = true
  · have hsome : ¬ d.ultraDmaMode.isNone = true := by simpa [Option.isSome_iff_ne_none] using hultra
    rw [if_pos hultra, if_neg hsome]
    exact .stay rfl ⟨h.command, h.block,
      h.count, .emptied hread hsector hbsy rfl hpending rfl hleft, h.le⟩ id
  · have hnone : d.ultraDmaMode.isNone = true := by simpa using hultra
    rw [if_neg hultra] at herr ⊢
    rw [if_pos hnone]
    exact (steps_fillBuffer
      (d := d.withoutRequest) hb hb' hread hmultiple h.command h.block h.count h.le hleft hbsy
      rfl hpending hempty herr).of_irq id

theorem steps_readData (hread : c.isRead = true) (hmultiple : c.isMultiple = true)
    (hdrq : d.status.drq = true) (hlast : d.completes = true) {data : BitVec 16}
    (herr : (d.readData data).2.status.err = false) :
    Steps c b n k d.leftOfRead d (d.readData data).2 := by
  have hsame : SameTransfer d ((d.logged (.bufferUsed d.buffer.offset.toNat d.width)).setOffset
      (d.buffer.offset + BitVec.ofNat 16 d.width)) := .of_sameTask
      (((SameTask.refl d).logged _).onBuffer _)
  have hleft : d.leftOfRead = if d.ultraDmaMode.isNone then d.leftOfFill else none := by
    rw [leftOfRead]
    simp only [hlast, true_and]
  rw [readData_of_completes hlast] at herr ⊢
  rw [hleft]
  exact (steps_readBufferEmpty hb hb' (h.of_same hsame) hread hmultiple
    (hsame.drq.trans hdrq) herr).of_irq hsame.irq

theorem steps_writeData (hwrite : c.isRead = false)
    (hmultiple : c.isMultiple = true) (hdrq : d.status.drq = true)
    (hlast : d.completes = true) {data : BitVec 16} (herr : (d.writeData data).status.err = false) :
    Steps c b n k d.leftOfWrite d (d.writeData data) := by
  have hsame : SameTransfer d (d.pushWord data) := .of_sameTask (d.sameTask_pushWord data)
  have h' := h.of_same hsame
  obtain ⟨hsector, hbsy, hpending, hempty, hleft⟩ := h'.data_of_drq (hsame.drq.trans hdrq)
  rw [hwrite, if_neg Bool.false_ne_true] at hsector hleft
  have hwriteMultiple : d.command.isWriteMultiple = true := by
    rw [h.command, IdeCommand.isWriteMultiple, hwrite, hmultiple]
    rfl
  rw [writeData_of_completes hlast, writeBufferFull_of_multiple h'.command hwrite hmultiple,
    hsame.progress] at herr ⊢
  by_cases huntil : d.progress.sectorsUntilInt ≠ 1
  · have hsome : d.leftOfWrite = some (n - k) := by
      rw [leftOfWrite, if_pos ⟨hlast, hwriteMultiple, huntil⟩, ← hsame.progress, hleft]
    rw [if_pos huntil] at herr ⊢
    rw [hsome]
    exact (steps_finishedWrite
      (d := (d.pushWord data).withoutRequest.setDasp true) hb hb' hwrite hmultiple h'.command
      h'.block (h'.count hsector) hsector hleft hbsy rfl hpending hempty herr).of_irq hsame.irq
  · have hnone : d.leftOfWrite = none := if_neg fun hno ↦ huntil hno.2.2
    rw [if_neg huntil, hnone]
    refine .stay rfl ⟨h'.command, h'.block, h'.count, ?_, h.le⟩ hsame.irq
    exact .wait (fun hno ↦ absurd (hwrite.symm.trans hno) Bool.false_ne_true) hsector rfl rfl rfl
      rfl hempty hleft

theorem steps_busyTick (hmultiple : c.isMultiple = true) (hpending : d.busyTimer.pending = true)
    (herr : (d.step .busyTick).status.err = false) :
    Steps c b n k (d.sectorsLeft .busyTick) d (d.step .busyTick) := by
  obtain ⟨hfirst, hmore, hbsy, hdrq, hparam, hempty, hleft⟩ := h.wait_of_pending hpending
  have hcommand : d.expired.command = .transfer c := h.command
  have haccesses : d.command.accesses = true := by
    rw [h.command]
    rfl
  have hsome : d.sectorsLeft .busyTick = some d.progress.sectorsRemaining :=
    if_pos ⟨hpending, hparam, haccesses⟩
  rw [step_busyTick hpending hparam, finishedCommand_of_transfer hcommand] at herr ⊢
  rw [hsome, hleft]
  by_cases hread : c.isRead = true
  · rw [if_pos hread] at herr ⊢
    exact (steps_finishedRead (d := d.expired) hb hb' hread hmultiple hcommand h.block
      (h.count hmore) hmore hleft rfl
      rfl hempty herr).of_irq id
  · rw [if_neg hread] at herr ⊢
    exact (steps_finishedWrite (d := d.expired) hb hb' (eq_false_of_ne_true hread) hmultiple
      hcommand h.block (h.count hmore) hmore hleft rfl hdrq rfl hempty herr).of_irq id

theorem steps_emptyTick (hmultiple : c.isMultiple = true) (hempty : d.bufferEmpty = true)
    (herr : (d.step .emptyTick).status.err = false) :
    Steps c b n k (d.sectorsLeft .emptyTick) d (d.step .emptyTick) := by
  obtain ⟨hread, hbsy, hdrq, hpending, hleft⟩ := h.emptied_of_bufferEmpty hempty
  have hfill : d.sectorsLeft .emptyTick = d.leftOfFill := if_pos hempty
  rw [step_emptyTick hempty] at herr ⊢
  rw [hfill]
  exact (steps_fillBuffer (d := d.setBufferEmpty false) hb hb' hread hmultiple h.command h.block
    h.count h.le hleft hbsy hdrq hpending rfl herr).of_irq id

/-- **A step that moves a transfer on.** -/
theorem steps_of_moves (hmultiple : c.isMultiple = true) (hmoves : Moves c d e)
    (herr : (d.step e).status.err = false) : Steps c b n k (d.sectorsLeft e) d (d.step e) := by
  cases hmoves with
  | readDma hread hdma hlast =>
    have hleft : d.sectorsLeft .readDma = d.leftOfRead := if_pos hdma
    rw [step_readDma hdma] at herr ⊢
    rw [status_requestWord] at herr
    rw [hleft]
    exact (steps_readData hb hb' h hread hmultiple (drq_of_takesDma hdma) hlast herr).requestWord
  | writeDma data hwrite hdma hlast =>
    have hleft : d.sectorsLeft (.writeDma data) = d.leftOfWrite := if_pos hdma
    rw [step_writeDma hdma] at herr ⊢
    rw [status_requestWord] at herr
    rw [hleft]
    exact (steps_writeData hb hb' h hwrite hmultiple (drq_of_takesDma hdma) hlast herr).requestWord
  | readPio hread hpio hlast =>
    have hleft : d.sectorsLeft (.readCs0 0) = d.leftOfRead := if_pos hpio
    rw [step_readCs0 hpio] at herr ⊢
    rw [hleft]
    exact steps_readData hb hb' h hread hmultiple (drq_of_takesPio hpio) hlast herr
  | writePio data hwrite hpio hlast =>
    have hleft : d.sectorsLeft (.writeCs0 0 data) = d.leftOfWrite := if_pos hpio
    rw [step_writeCs0 hpio] at herr ⊢
    rw [hleft]
    exact steps_writeData hb hb' h hwrite hmultiple (drq_of_takesPio hpio) hlast herr
  | busyTick hpending => exact steps_busyTick hb hb' h hmultiple hpending herr
  | emptyTick hempty => exact steps_emptyTick hb hb' h hmultiple hempty herr

end

omit hb hb' in
theorem steps_of_not_moves (h : Transferring c b n k d) (hmoves : d.moves e = false)
    (hundisturbed : d.undisturbed c.isRead e = true) (habort : d.aborts e = false) :
    Steps c b n k (d.sectorsLeft e) d (d.step e) := by
  have hparam (hpending : d.busyTimer.pending = true) : d.busyTimer.param = .command :=
    (h.wait_of_pending hpending).2.2.2.2.1
  have hsame := sameTransfer_step hmoves hundisturbed hparam h.idle.1 habort
  exact .stay (sectorsLeft_of_not_moves hmoves) (h.of_same hsame) hsame.irq

end Step

/-! ## The interrupts of a run -/

section Interrupts

variable [HardDisk M] {c : Command} {b n k : ℕ} {d : Hdd M} {e : Event} {es : List Event}

/-- The event asserts the interrupt of a drive whose last one has been acknowledged. -/
def raises (d : Hdd M) (e : Event) : Bool := ((d.setIrq false).step e).lines.irq

/-- The sectors with whose access the interrupt is asserted, in a run of a transfer of `n`
sectors. -/
def raisedSectors (n : ℕ) : Hdd M → List Event → List ℕ
  | _, [] => []
  | d, e :: es =>
      (if d.raises e then [n + 1 - (d.sectorsLeft e).getD 0] else []) ++
        raisedSectors n (d.step e) es

/-- The events of a transfer that succeeds: they belong to it, and do not set the error bit. -/
def succeeds (c : Command) (d : Hdd M) (e : Event) : Prop :=
  d.undisturbed c.isRead e = true ∧ (d.step e).status.err = false

/-- **What a step of a transfer does to a drive with and without its last interrupt.** -/
theorem steps_step (hb : 0 < b) (hb' : b < 2 ^ 16)
    (h : Transferring c b n k d) (hmultiple : c.isMultiple = true)
    (hsucceeds : d.succeeds c e) : Steps c b n k (d.sectorsLeft e) d (d.step e) ∧
      Steps c b n k (d.sectorsLeft e) (d.setIrq false) ((d.setIrq false).step e) := by
  obtain ⟨hundisturbed, herr⟩ := hsucceeds
  obtain ⟨out, hout⟩ := d.exists_onIrq false
  have h' : Transferring c b n k (d.setIrq false) := h.of_same (.acknowledge d)
  rw [hout] at h' ⊢
  have hleft := d.sectorsLeft_onIrq false out e
  cases hmoves : d.moves e with
  | true =>
    have hmoved := Moves.of_moves hmoves hundisturbed
    have hmoved' : Moves c (d.onIrq false out) e := by
      refine .of_moves ?_ ?_
      · rw [moves_onIrq, hmoves]
      · rw [undisturbed_onIrq, hundisturbed]
    have herr' : ((d.onIrq false out).step e).status.err = false := by
      rw [err_step_onIrq hmoved (fun hp ↦ (h.wait_of_pending hp).2.2.2.2.1)
        (fun hempty ↦ (h.emptied_of_bufferEmpty hempty).1) h.command hmultiple, herr]
    have hsteps := steps_of_moves hb hb' h' hmultiple hmoved' herr'
    rw [hleft] at hsteps
    exact ⟨steps_of_moves hb hb' h hmultiple hmoved herr, hsteps⟩
  | false =>
    have habort := aborts_of_err hundisturbed h.idle.2 herr
    have hsteps : Steps c b n k ((d.onIrq false out).sectorsLeft e) (d.onIrq false out)
        ((d.onIrq false out).step e) := by
      refine steps_of_not_moves h' ?_ ?_ ?_
      · rw [moves_onIrq, hmoves]
      · rw [undisturbed_onIrq, hundisturbed]
      · rw [aborts_onIrq, habort]
    rw [hleft] at hsteps
    exact ⟨steps_of_not_moves h hmoves hundisturbed habort, hsteps⟩

/-- **The interrupts of a run**: those of the sectors that have been accessed. -/
theorem raisedSectors_run (hb : 0 < b) (hb' : b < 2 ^ 16) (hmultiple : c.isMultiple = true)
    (h : Transferring c b n k d) (hsucceeds : Run.Meets step (succeeds c) d es) :
    ∃ k', k ≤ k' ∧ Transferring c b n k' (d.run es) ∧
      d.raisedSectors n es = (range' (k + 1) (k' - k)).filter (SignalsAt c b n) := by
  induction es generalizing d k with
  | nil => exact ⟨k, Nat.le_refl k, h, by rw [Nat.sub_self]; rfl⟩
  | cons e es ih =>
    obtain ⟨hstep, hacknowledged⟩ := steps_step hb hb' h hmultiple hsucceeds.1
    have hirq : (d.setIrq false).lines.irq = false := irq_setIrq d false
    rcases hstep with ⟨hleft, hnext, -⟩ | ⟨hk, hleft, hnext, -, -⟩
    · rcases hacknowledged with ⟨-, -, hkept⟩ | ⟨-, hsome, -⟩
      · obtain ⟨k', hle, hlast, hraised⟩ := ih hnext hsucceeds.2
        have hquiet : d.raises e = false := hkept hirq
        refine ⟨k', hle, hlast, ?_⟩
        rw [raisedSectors, hquiet, if_neg Bool.false_ne_true, nil_append, hraised]
      · exact absurd (hleft.symm.trans hsome) (by simp)
    · rcases hacknowledged with ⟨hnone, -⟩ | ⟨-, -, -, hsignals, hkept⟩
      · exact absurd (hleft.symm.trans hnone) (by simp)
      · obtain ⟨k', hle, hlast, hraised⟩ := ih hnext hsucceeds.2
        have hsector : n + 1 - (d.sectorsLeft e).getD 0 = k + 1 := by
          rw [hleft, Option.getD_some]
          omega
        have hlength : k' - k = (k' - (k + 1)) + 1 := by omega
        refine ⟨k', by omega, hlast, ?_⟩
        rw [raisedSectors, hraised, hsector, hlength, range'_succ, filter_cons]
        by_cases hs : SignalsAt c b n (k + 1)
        · have hloud : d.raises e = true := hsignals hs
          rw [hloud, if_pos rfl, if_pos (decide_eq_true hs)]
          rfl
        · have hquiet : d.raises e = false := hkept hs hirq
          rw [hquiet, if_neg Bool.false_ne_true, if_neg (by simpa using hs)]
          rfl

omit [HardDisk M] in
/-- A transfer with no sectors left has accessed all of them. -/
theorem Transferring.eq_of_sectorsRemaining_eq_zero (h : Transferring c b n k d)
    (hzero : d.progress.sectorsRemaining = 0) : k = n := by
  have hle := h.le
  cases h.phase with
  | wait _ hmore _ _ _ _ _ hleft => omega
  | data hsector _ _ _ _ hleft =>
    split_ifs at hsector hleft <;> omega
  | emptied _ _ _ _ _ _ hleft => omega
  | done hlast => exact hlast

end Interrupts

/-! ## The start of a transfer -/

section Start

variable [HardDisk M] {c : Command} {b : ℕ} {d : Hdd M} {data : BitVec 16}

/-- The drive takes a command: none of its timers runs, and it is in no DMA cycle. -/
structure Idle (d : Hdd M) : Prop where
  takes : d.takesCommand = true
  bsy : d.status.bsy = false
  pending : d.busyTimer.pending = false
  bufferEmpty : d.bufferEmpty = false
  dmack : d.lines.dmack = false

/-- The sectors that a command asks for. -/
def requested (d : Hdd M) (data : BitVec 16) : ℕ :=
  (d.onRegs fun r ↦ { r with command := data.setWidth 8 }).sectorsRequested

/-- The drive executes a command that it finds. -/
def executes (d : Hdd M) (c : Command) : Prop :=
  (c.isLba48 = true → d.supportsLba48 = true) ∧
    (c.isRead = true →
    ¬ (d.security.masterPasswordEnable = true ∨ d.security.userPasswordEnable = true))

omit [HardDisk M] in
theorem isDma_of_isMultiple (hmultiple : c.isMultiple = true) : c.isDma = false := by
  cases c <;> first | rfl | exact Bool.noConfusion hmultiple

omit [HardDisk M] in
theorem processTransfer_of_multiple (hmultiple : c.isMultiple = true) : d.processTransfer c =
    if c.isRead then ((d.setRemaining d.sectorsRequested).setUntilInt 1).readFirstSector
    else ((d.setRemaining d.sectorsRequested).setUntilInt d.progress.blockCount).setDrq true := by
  rw [processTransfer, isDma_of_isMultiple hmultiple, hmultiple]
  rfl

omit [HardDisk M] in
theorem readFirstSector_of_open
    (h : ¬ (d.security.masterPasswordEnable = true ∨ d.security.userPasswordEnable = true)) :
    d.readFirstSector = (d.setDasp true).startBusy true .command := if_neg h

/-- The drive is about to process a command. -/
structure Prepared (c : Command) (b : ℕ) (d : Hdd M) : Prop where
  command : d.command = .transfer c
  block : d.progress.blockCount = BitVec.ofNat 16 b
  bsy : d.status.bsy = false
  drq : d.status.drq = false
  pending : d.busyTimer.pending = false
  bufferEmpty : d.bufferEmpty = false
  irq : d.lines.irq = false

omit [HardDisk M] in
theorem transferring_processTransfer (hb : 0 < b) (hmultiple : c.isMultiple = true)
    (h : Prepared c b d) (hopen : c.isRead = true →
    ¬ (d.security.masterPasswordEnable = true ∨ d.security.userPasswordEnable = true)) :
    Transferring c b d.sectorsRequested 0 (d.processTransfer c) ∧
      (d.processTransfer c).lines.irq = false := by
  have hn : 0 < d.sectorsRequested := Nat.pos_of_ne_zero d.taskFile.sectorsRequested_ne_zero
  have hcount := @countdown_start c b hb
  rw [processTransfer_of_multiple hmultiple]
  by_cases hread : c.isRead = true
  · have hfirst :=
      readFirstSector_of_open (d := (d.setRemaining d.sectorsRequested).setUntilInt 1) (hopen hread)
    rw [if_pos hread] at hcount ⊢
    rw [hfirst]
    refine ⟨⟨h.command, h.block, fun _ ↦ by rw [hcount]; rfl, ?_, Nat.zero_le _⟩, h.irq⟩
    exact .wait (fun _ ↦ rfl) hn rfl h.drq rfl rfl h.bufferEmpty rfl
  · rw [if_neg hread] at hcount ⊢
    refine ⟨⟨h.command, h.block, fun _ ↦ by rw [hcount]; exact h.block, ?_, Nat.zero_le _⟩, h.irq⟩
    refine .data ?_ h.bsy rfl h.pending h.bufferEmpty ?_
    · rw [if_neg hread]
      exact hn
    · rw [if_neg hread]
      rfl

omit [HardDisk M] in
theorem transferring_processCommand (hb : 0 < b) (hmultiple : c.isMultiple = true)
    (h : Prepared c b d) (hexecutes : d.executes c) :
    Transferring c b d.sectorsRequested 0 d.processCommand ∧
      d.processCommand.lines.irq = false := by
  obtain ⟨hlba, hopen⟩ := hexecutes
  have hknown : ¬ (d.command.isLba48 ∧ ¬ d.supportsLba48) := by
    rw [h.command]
    exact fun hno ↦ hno.2 (hlba hno.1)
  have hprepared : Prepared c b ((d.setUntilInt 0).setSize 512) :=
    ⟨h.command, h.block, h.bsy, h.drq, h.pending, h.bufferEmpty, h.irq⟩
  have hdispatch : d.processCommand = ((d.setUntilInt 0).setSize 512).processTransfer c := by
    rw [processCommand, if_neg hknown, dispatchCommand, hprepared.command]
  rw [hdispatch]
  exact transferring_processTransfer hb hmultiple hprepared hopen

omit [HardDisk M] in
/-- A drive that ends a command without an error has executed it. -/
theorem executes_of_err (hmultiple : c.isMultiple = true) (hcommand : d.command = .transfer c)
    (herr : d.processCommand.status.err = false) : d.executes c := by
  by_cases hknown : d.command.isLba48 ∧ ¬ d.supportsLba48
  · have hstatus : d.unknownCommand.status.err = true := by
      rw [unknownCommand, status_setIrq]
      rfl
    rw [processCommand, if_pos hknown, hstatus] at herr
    exact absurd herr.symm Bool.false_ne_true
  · refine ⟨fun hlba ↦ ?_, fun hread hlocked ↦ ?_⟩
    · by_contra hno
      refine hknown ⟨?_, hno⟩
      rw [hcommand]
      exact hlba
    · have hdispatch : d.processCommand = ((d.setUntilInt 0).setSize 512).processTransfer c := by
        have hcommand' : ((d.setUntilInt 0).setSize 512).command = .transfer c := hcommand
        rw [processCommand, if_neg hknown, dispatchCommand, hcommand']
      have hsecurity : (((((d.setUntilInt 0).setSize 512).setRemaining
          ((d.setUntilInt 0).setSize 512).sectorsRequested).setUntilInt
          1).readFirstSector).status.err = true := by
        have hlocked' : (((((d.setUntilInt 0).setSize 512).setRemaining
          ((d.setUntilInt 0).setSize 512).sectorsRequested).setUntilInt 1)).security =
          d.security := rfl
        rw [readFirstSector, hlocked', if_pos hlocked]
        rfl
      rw [hdispatch, processTransfer_of_multiple hmultiple, if_pos hread, hsecurity] at herr
      exact absurd herr.symm Bool.false_ne_true

/-- The registers and flags with which `process_command` begins. -/
def commanded (d : Hdd M) (byte : Byte) : Hdd M :=
  ((((((d.logged (.started byte)).onRegs fun r ↦ { r with command := byte }).setOffset 0).setErr
    false).setError 0).setIrq false).setDasp false

omit [HardDisk M] in
theorem startCommand_eq (d : Hdd M) (byte : Byte) :
    d.startCommand byte = (d.commanded byte).processCommand := rfl

omit [HardDisk M] in
theorem exists_commanded (d : Hdd M) (byte : Byte) : ∃ out, d.commanded byte =
    (((((d.logged (.started byte)).onRegs fun r ↦ { r with command := byte }).setOffset 0).setErr
    false).setError
      0).onLines fun l ↦ { l with irq := false, irqOut := out, daspout := false } := by
  obtain ⟨out, hout⟩ := exists_onIrq (((((d.logged (.started byte)).onRegs fun r ↦
    { r with command := byte }).setOffset 0).setErr false).setError 0) false
  exact ⟨out, congrArg (setDasp · false) hout⟩

omit [HardDisk M] in
theorem commanded_of_idle (hidle : d.Idle)
    (hcommand : IdeCommand.ofByte (data.setWidth 8) = .transfer c)
    (hblock : d.progress.blockCount = BitVec.ofNat 16 b) :
    Prepared c b ((d.beginWrite 7 data).commanded (data.setWidth 8)) ∧
      ((d.beginWrite 7 data).commanded (data.setWidth 8)).sectorsRequested = d.requested data ∧
        (((d.beginWrite 7 data).commanded (data.setWidth 8)).executes c ↔ d.executes c) := by
  obtain ⟨out, hout⟩ := exists_commanded (d.beginWrite 7 data) (data.setWidth 8)
  rw [hout, beginWrite]
  split_ifs with habort
  · exact ⟨⟨hcommand, hblock, rfl, rfl, rfl, hidle.bufferEmpty, rfl⟩, rfl, Iff.rfl⟩
  · have hdrq : d.status.drq = false := by
      rw [abortsTransfer] at habort
      simpa using habort
    exact ⟨⟨hcommand, hblock, hidle.bsy, hdrq, hidle.pending, hidle.bufferEmpty, rfl⟩, rfl, Iff.rfl⟩

theorem step_command (hidle : d.Idle) : d.step (.writeCs0 7 data) =
    ((d.beginWrite 7 data).commanded (data.setWidth 8)).processCommand := by
  have hbegin : (d.beginWrite 7 data).status.bsy = false ∧
      (d.beginWrite 7 data).lines.dmack = false ∧ (d.beginWrite 7 data).takesCommand = true := by
    rw [beginWrite]
    split_ifs
    · exact ⟨rfl, hidle.dmack, hidle.takes⟩
    · exact ⟨hidle.bsy, hidle.dmack, hidle.takes⟩
  obtain ⟨hbsy, hdmack, htakes⟩ := hbegin
  rw [← startCommand_eq, step, commandW, if_neg (by rw [hbsy]; exact Bool.false_ne_true),
    if_neg (by rw [hdmack]; exact Bool.false_ne_true)]
  exact if_pos htakes

theorem transferring_step (hb : 0 < b) (hidle : d.Idle) (hmultiple : c.isMultiple = true)
    (hcommand : IdeCommand.ofByte (data.setWidth 8) = .transfer c)
    (hblock : d.progress.blockCount = BitVec.ofNat 16 b) (hexecutes : d.executes c) :
    Transferring c b (d.requested data) 0 (d.step (.writeCs0 7 data)) ∧
      (d.step (.writeCs0 7 data)).lines.irq = false := by
  obtain ⟨hprepared, hrequested, hiff⟩ := commanded_of_idle hidle hcommand hblock
  rw [step_command hidle, ← hrequested]
  exact transferring_processCommand hb hmultiple hprepared (hiff.mpr hexecutes)

/-- **The start of a transfer in blocks**: nothing has been accessed, and no interrupt asserted. -/
theorem transferring_start (hb : 0 < b) (hidle : d.Idle) (hmultiple : c.isMultiple = true)
    (hcommand : IdeCommand.ofByte (data.setWidth 8) = .transfer c)
    (hblock : d.progress.blockCount = BitVec.ofNat 16 b)
    (herr : (d.step (.writeCs0 7 data)).status.err = false) :
    Transferring c b (d.requested data) 0 (d.step (.writeCs0 7 data)) ∧
      d.raises (.writeCs0 7 data) = false := by
  obtain ⟨hprepared, -, hiff⟩ := commanded_of_idle hidle hcommand hblock
  have hexecutes : d.executes c := by
    rw [step_command hidle] at herr
    exact hiff.mp (executes_of_err hmultiple hprepared.command herr)
  refine ⟨(transferring_step hb hidle hmultiple hcommand hblock hexecutes).1, ?_⟩
  obtain ⟨out, hout⟩ := d.exists_onIrq false
  have hidle' : (d.onIrq false out).Idle :=
    ⟨hidle.takes, hidle.bsy, hidle.pending, hidle.bufferEmpty, hidle.dmack⟩
  rw [raises, hout]
  exact (transferring_step hb hidle' hmultiple hcommand hblock hexecutes).2

end Start

/-! ## The number of interrupts -/

section Count

variable {b : ℕ}

theorem length_filter_singleton (p : ℕ → Bool) (k : ℕ) :
    ([k].filter p).length = if p k then 1 else 0 := by
  rw [filter_cons]
  split_ifs <;> rfl

theorem length_filter_dvd (b m : ℕ) :
    ((range' 1 m).filter fun k ↦ decide (b ∣ k)).length = m / b := by
  induction m with
  | zero => rw [Nat.zero_div]; rfl
  | succ m ih =>
    rw [range'_1_concat, filter_append, length_append, ih, length_filter_singleton, Nat.succ_div,
      Nat.add_comm 1 m]
    simp only [decide_eq_true_eq]

theorem length_filter_dvd_pred (hb : 0 < b) (m : ℕ) :
    ((range' 1 m).filter fun k ↦ decide (b ∣ k - 1)).length = (m + b - 1) / b := by
  induction m with
  | zero =>
    rw [Nat.zero_add, Nat.div_eq_of_lt (Nat.sub_lt hb Nat.one_pos)]
    rfl
  | succ m ih =>
    have hsucc : m + 1 + b - 1 = m + b - 1 + 1 := by omega
    have hblock : b ∣ m + b - 1 + 1 ↔ b ∣ 1 + m - 1 := by
      rw [Nat.sub_add_cancel (by omega), Nat.dvd_add_self_right, Nat.add_sub_cancel_left]
    rw [range'_1_concat, filter_append, length_append, ih, length_filter_singleton,
      hsucc, Nat.succ_div]
    simp only [decide_eq_true_eq, hblock]

theorem signalsAt_of_write {c : Command} {n k : ℕ} (hwrite : c.isRead = false) :
    SignalsAt c b n k ↔ b ∣ k ∨ k = n := by
  rw [SignalsAt, hwrite, if_neg Bool.false_ne_true]

theorem signalsAt_of_read {c : Command} {n k : ℕ} (hread : c.isRead = true) :
    SignalsAt c b n k ↔ b ∣ k - 1 := by
  rw [SignalsAt, if_pos hread]

/-- A transfer of `n` sectors has as many interrupts as blocks. -/
theorem length_filter_signalsAt (c : Command) (hb : 0 < b) (n : ℕ) :
    ((range' 1 n).filter (SignalsAt c b n)).length = (n + b - 1) / b := by
  cases hread : c.isRead with
  | true =>
    rw [← length_filter_dvd_pred hb]
    exact congrArg List.length
      (filter_congr fun k _ ↦ decide_eq_decide.mpr (signalsAt_of_read hread))
  | false =>
    cases n with
    | zero =>
      rw [Nat.zero_add, Nat.div_eq_of_lt (Nat.sub_lt hb Nat.one_pos)]
      rfl
    | succ m =>
      have hbefore : ∀ k ∈ range' 1 m, decide (SignalsAt c b (m + 1) k) = decide (b ∣ k) := by
        intro k hk
        have hlt : k ≠ m + 1 := by
          have hrange := List.mem_range'_1.mp hk
          omega
        exact decide_eq_decide.mpr ((signalsAt_of_write hread).trans (or_iff_left hlt))
      have hlast : SignalsAt c b (m + 1) (1 + m) :=
        (signalsAt_of_write hread).mpr (.inr (Nat.add_comm 1 m))
      have hsucc : m + 1 + b - 1 = m + b := by omega
      rw [range'_1_concat, filter_append, filter_congr hbefore, length_append,
        length_filter_dvd, length_filter_singleton, if_pos (decide_eq_true hlast), hsucc,
        Nat.add_div_right m hb]

end Count

/-- **The interrupts of a transfer in blocks.** A transfer of `n` sectors in blocks of `b` that
succeeds asserts the interrupt with the first sector of each block if it reads, and with the last
one of each block if it writes; in either case once for a block. -/
theorem raisedSectors_transfer [HardDisk M] {c : Command} {b : ℕ} {d : Hdd M} {data : BitVec 16}
    {es : List Event}
    (hb : 0 < b) (hb' : b ≤ 256) (hblock : d.progress.blockCount = BitVec.ofNat 16 b)
    (hcommand : IdeCommand.ofByte (data.setWidth 8) = .transfer c) (hmultiple : c.isMultiple = true)
    (hidle : d.Idle) (herr : (d.step (.writeCs0 7 data)).status.err = false)
    (hsucceeds : Run.Meets step (succeeds c) (d.step (.writeCs0 7 data)) es)
    (hdone : (d.run (.writeCs0 7 data :: es)).progress.sectorsRemaining = 0) :
    d.raisedSectors (d.requested data) (.writeCs0 7 data :: es) =
        (range' 1 (d.requested data)).filter (SignalsAt c b (d.requested data)) ∧
      (d.raisedSectors (d.requested data) (.writeCs0 7 data :: es)).length =
      (d.requested data + b - 1) / b := by
  obtain ⟨hstart, hquiet⟩ := transferring_start hb hidle hmultiple hcommand hblock herr
  obtain ⟨k, -, hlast, hraised⟩ := raisedSectors_run hb (by omega) hmultiple hstart hsucceeds
  have hall : k = d.requested data := hlast.eq_of_sectorsRemaining_eq_zero hdone
  have hlist : d.raisedSectors (d.requested data) (.writeCs0 7 data :: es) =
      (range' 1 (d.requested data)).filter (SignalsAt c b (d.requested data)) := by
    rw [raisedSectors, hquiet, if_neg Bool.false_ne_true, nil_append, hraised, hall,
      Nat.zero_add, Nat.sub_zero]
  rw [hlist]
  exact ⟨rfl, length_filter_signalsAt c hb _⟩

instance (c : Command) (d : Hdd M) [HardDisk M] (e : Event) : Decidable (d.succeeds c e) :=
  inferInstanceAs (Decidable (_ ∧ _))

/-- A drive of three sectors that has been asked for blocks of two sectors. -/
def blocksOfTwo : Hdd SdCard.MemoryDisk :=
  (start false (some ⟨⟨1, 1, 3, 512⟩, fun _ ↦ []⟩) [] none none).run
    [.reset, .busyTick, .busyTick, .writeCs0 2 2, .writeCs0 7 0xc6, .readCs0 7, .writeCs0 2
    3, .writeCs0 6 0xe0]

set_option maxRecDepth 100000 in
/-- `READ MULTIPLE` of the three sectors, by words. -/
theorem raisedSectors_blocksOfTwo : blocksOfTwo.raisedSectors 3
    (.writeCs0 7 0xc4 :: .busyTick :: replicate 768 (.readCs0 0)) = [1, 3] := by
  have hidle : blocksOfTwo.Idle :=
    ⟨by decide +kernel, by decide +kernel, by decide +kernel, by decide +kernel, by decide +kernel⟩
  have hrequested : blocksOfTwo.requested 0xc4 = 3 := by decide +kernel
  have hraised : blocksOfTwo.raisedSectors (blocksOfTwo.requested 0xc4)
      (.writeCs0 7 0xc4 :: .busyTick :: replicate 768 (.readCs0 0)) =
        (range' 1 (blocksOfTwo.requested 0xc4)).filter
          (SignalsAt .readMultiple 2 (blocksOfTwo.requested 0xc4)) :=
    (raisedSectors_transfer (by decide) (by decide) (by decide +kernel) rfl rfl hidle
      (by decide +kernel) (by decide +kernel) (by decide +kernel)).1
  rw [hrequested] at hraised
  exact hraised.trans (by decide)

end Hdd

end RoscoEmulator.Ata
