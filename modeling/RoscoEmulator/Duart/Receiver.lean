import RoscoEmulator.Duart.Device

/-!
# The receive FIFO and its status bits

The status register carries two bits about the receive FIFO: `RxRDY`, which should be set exactly
when the FIFO is not empty, and `FFULL`, set exactly when it holds at least three characters. The
count itself is a separate member. `RxStatus` is the relation between the three.

Two writes to the command register, and the reset of the device, break the relation: a receiver
reset empties the FIFO without clearing `FFULL`, and a receiver disable clears `RxRDY` without
emptying the FIFO. `RxGuard` says exactly when a step does so. The FIFO entries carry the error bits
that a read merges into the status register, so the argument also needs that no entry has a bit
there that would set another status bit: this is `RxFifo`, which every step keeps.
-/

namespace RoscoEmulator.Duart

open Device

/-- `RxRDY` and `FFULL` say what the FIFO holds. -/
structure RxStatus (c : Channel) : Prop where
  receiverReady : c.sr.getLsbD 0 = true ↔ 0 < c.rxFifoNum
  fifoFull : c.sr.getLsbD 1 = true ↔ rxFifoSize ≤ c.rxFifoNum

/-- The FIFO holds at most four entries, and the high byte of an entry has no status bits other than
those of a received character. -/
structure RxFifo (c : Channel) : Prop where
  num_le : c.rxFifoNum ≤ rxFifoSize + 1
  errors : ∀ i, ∀ k < 5, (c.rxFifo i).getLsbD (8 + k) = false

/-- The receiver's view of the channel is the same in two states. -/
structure RxSame (c c' : Channel) : Prop where
  ready : c'.sr.getLsbD 0 = c.sr.getLsbD 0
  full : c'.sr.getLsbD 1 = c.sr.getLsbD 1
  num : c'.rxFifoNum = c.rxFifoNum
  fifo : c'.rxFifo = c.rxFifo

namespace RxSame

variable {c c' c'' : Channel}

theorem rxStatus_iff (h : RxSame c c') : RxStatus c' ↔ RxStatus c := by
  constructor
  · rintro ⟨hr, hf⟩
    exact ⟨by rw [← h.ready, ← h.num]; exact hr, by rw [← h.full, ← h.num]; exact hf⟩
  · rintro ⟨hr, hf⟩
    exact ⟨by rw [h.ready, h.num]; exact hr, by rw [h.full, h.num]; exact hf⟩

theorem rxFifo (h : RxSame c c') (hc : RxFifo c) : RxFifo c' :=
  ⟨h.num ▸ hc.num_le, h.fifo ▸ hc.errors⟩

theorem trans (h : RxSame c c') (h' : RxSame c' c'') : RxSame c c'' :=
  ⟨h'.ready.trans h.ready, h'.full.trans h.full, h'.num.trans h.num, h'.fifo.trans h.fifo⟩

end RxSame

/-! ## Operations that leave the receiver alone -/

/-- The status bits other than those of the receiver. -/
theorem rxSame_maskTxReady (c : Channel) : RxSame c c.maskTxReady := by
  rw [Channel.maskTxReady]
  split_ifs
  · exact ⟨by simp [statusTransmitterReady], by simp [statusTransmitterReady], rfl, rfl⟩
  · exact ⟨rfl, rfl, rfl, rfl⟩

variable (data : BitVec 8) {ch : ChannelId} {c : Channel} (p : Port) {errors : BitVec 8}
    {ops : List Operation}

theorem RxSame.updateInterrupts {p : Port} (h : RxSame c p.chan) :
    RxSame c (updateInterrupts p).chan := h.trans (rxSame_maskTxReady p.chan)

theorem rxSame_traComplete : RxSame p.chan (traComplete p).chan := by
  simp only [traComplete]
  split_ifs <;> refine RxSame.updateInterrupts ?_ <;>
    simp only [Port.onChan_chan, Port.onSerial_chan]
  · exact ⟨by simp [statusTransmitterReady], by simp [statusTransmitterReady], rfl, rfl⟩
  · exact ⟨by simp [statusTransmitterEmpty], by simp [statusTransmitterEmpty], rfl, rfl⟩

theorem rxSame_traCallback : RxSame p.chan (traCallback p).chan := by
  have hready : (p.chan.sr ||| statusTransmitterReady).getLsbD 0 = p.chan.sr.getLsbD 0 := by
    simp [statusTransmitterReady]
  have hfull : (p.chan.sr ||| statusTransmitterReady).getLsbD 1 = p.chan.sr.getLsbD 1 := by
    simp [statusTransmitterReady]
  simp only [traCallback]
  split_ifs
  · exact RxSame.updateInterrupts ⟨hready, hfull, rfl, rfl⟩
  · exact ⟨rfl, rfl, rfl, rfl⟩
  · exact RxSame.updateInterrupts ⟨hready, hfull, rfl, rfl⟩
  · exact ⟨rfl, rfl, rfl, rfl⟩

theorem rxSame_writeTX : RxSame p.chan (writeTX data p).chan := by
  have hbits : RxSame p.chan { p.chan with
      sr := p.chan.sr &&& ~~~(statusTransmitterReady ||| statusTransmitterEmpty) } :=
    ⟨by simp [statusTransmitterReady, statusTransmitterEmpty],
      by simp [statusTransmitterReady, statusTransmitterEmpty], rfl, rfl⟩
  simp only [writeTX]
  split_ifs
  · exact ⟨rfl, rfl, rfl, rfl⟩
  · exact RxSame.updateInterrupts ⟨hbits.ready, hbits.full, rfl, rfl⟩
  · refine RxSame.updateInterrupts ?_
    exact ⟨hbits.ready, hbits.full, rfl, rfl⟩

theorem rxSame_writeCSR : RxSame p.chan (writeCSR data p).chan := by
  exact ⟨rfl, rfl, rfl, rfl⟩

theorem rxSame_writeMR : RxSame p.chan (writeMR data p).chan := by
  simp only [writeMR]
  split_ifs <;> exact RxSame.updateInterrupts ⟨rfl, rfl, rfl, rfl⟩

theorem rxSame_crTransmitter : RxSame p.chan (crTransmitter data p).chan := by
  simp only [crTransmitter]
  split_ifs <;>
    exact ⟨by simp [statusTransmitterReady, statusTransmitterEmpty],
      by simp [statusTransmitterReady, statusTransmitterEmpty], rfl, rfl⟩

/-! ## Pushing and popping -/

/-- Error bits that a received character can have. -/
def CharacterErrors (errors : BitVec 8) : Prop := ∀ k < 5, errors.getLsbD k = false

instance (errors : BitVec 8) : Decidable (CharacterErrors errors) :=
  inferInstanceAs (Decidable (∀ k < 5, _))

theorem getLsbD_entry_errors (errors : BitVec 8) (i : ℕ) :
    (errors ++ data : BitVec 16).getLsbD (8 + i) = errors.getLsbD i := by
  rw [BitVec.getLsbD_append, if_neg (by omega), Nat.add_sub_cancel_left]

theorem RxFifo.pushed (h : RxFifo c) {data : BitVec 8} (he : CharacterErrors errors) :
    RxFifo (c.pushed data errors) := by
  refine ⟨?_, fun i k hk ↦ ?_⟩
  · have hnum := h.num_le
    simp only [Channel.pushed]
    split_ifs <;> omega
  · simp only [Channel.pushed, Function.update_apply]
    split_ifs
    all_goals first
      | exact h.errors i k hk
      | exact (getLsbD_entry_errors data errors k).trans (he k hk)

theorem pushed_receiverReady {data : BitVec 8} (he : CharacterErrors errors) (c : Channel) :
    (c.pushed data errors).sr.getLsbD 0 =
      (c.sr.getLsbD 0 || decide ((c.pushed data errors).rxFifoNum = 1)) := by
  have he0 : errors.getLsbD 0 = false := he 0 (by decide)
  simp only [Channel.pushed]
  split_ifs <;> simp_all [rxFifoSize, statusReceiverReady, statusFifoFull, statusOverrunError,
    statusCharacterErrors, statusReceivedBreak, statusFramingError, statusParityError]

theorem pushed_fifoFull {data : BitVec 8} (he : CharacterErrors errors) (c : Channel) :
    (c.pushed data errors).sr.getLsbD 1 =
      (c.sr.getLsbD 1 || decide ((c.pushed data errors).rxFifoNum = rxFifoSize)) := by
  have he1 : errors.getLsbD 1 = false := he 1 (by decide)
  simp only [Channel.pushed]
  split_ifs <;> simp_all [rxFifoSize, statusReceiverReady, statusFifoFull, statusOverrunError,
    statusCharacterErrors, statusReceivedBreak, statusFramingError, statusParityError]

theorem pushed_rxFifoNum (errors : BitVec 8) (hfifo : RxFifo c) :
    (c.pushed data errors).rxFifoNum = min (c.rxFifoNum + 1) (rxFifoSize + 1) := by
  have hnum := hfifo.num_le
  simp only [Channel.pushed]
  split_ifs <;> omega

theorem RxStatus.pushed (h : RxStatus c) (hfifo : RxFifo c) {data : BitVec 8}
    (he : CharacterErrors errors) : RxStatus (c.pushed data errors) := by
  obtain ⟨hready, hfull⟩ := h
  have hnum := pushed_rxFifoNum data errors hfifo
  have hle := hfifo.num_le
  rw [rxFifoSize] at hfull hnum hle
  constructor
  · rw [pushed_receiverReady he, Bool.or_eq_true, hready, decide_eq_true_eq]
    omega
  · rw [pushed_fifoFull he, Bool.or_eq_true, hfull, decide_eq_true_eq, rxFifoSize]
    omega

theorem RxFifo.popped (h : RxFifo c) : RxFifo c.popped :=
  ⟨Nat.le_trans (Nat.sub_le _ _) h.num_le, h.errors⟩

theorem popped_receiverReady (hfifo : RxFifo c) :
    c.popped.sr.getLsbD 0 = (c.sr.getLsbD 0 && decide (c.rxFifoNum - 1 ≠ 0)) := by
  have hentry (i : ℕ) : (((c.rxFifo i) >>> 8).setWidth 8).getLsbD 0 = false := by
    simpa using hfifo.errors i 0 (by decide)
  simp only [Channel.popped]
  split_ifs <;> simp_all [rxFifoSize, statusReceiverReady, statusFifoFull,
    statusCharacterErrors, statusReceivedBreak, statusFramingError, statusParityError]

theorem popped_fifoFull (hfifo : RxFifo c) :
    c.popped.sr.getLsbD 1 = (c.sr.getLsbD 1 && decide (c.rxFifoNum - 1 ≠ rxFifoSize - 1)) := by
  have hentry (i : ℕ) : (((c.rxFifo i) >>> 8).setWidth 8).getLsbD 1 = false := by
    simpa using hfifo.errors i 1 (by decide)
  simp only [Channel.popped]
  split_ifs <;> simp_all [rxFifoSize, statusReceiverReady, statusFifoFull,
    statusCharacterErrors, statusReceivedBreak, statusFramingError, statusParityError]

theorem RxStatus.popped (h : RxStatus c) (hfifo : RxFifo c) : RxStatus c.popped := by
  obtain ⟨hready, hfull⟩ := h
  have hnum : c.popped.rxFifoNum = c.rxFifoNum - 1 := rfl
  have hle := hfifo.num_le
  rw [rxFifoSize] at hfull hle
  constructor
  · rw [popped_receiverReady hfifo, Bool.and_eq_true, hready, decide_eq_true_eq]
    omega
  · rw [popped_fifoFull hfifo, Bool.and_eq_true, hfull, decide_eq_true_eq, rxFifoSize]
    omega

/-! ## Serial activity and register accesses -/

/-- A property of the receiver's view of the channel that receiving and reading a character keep. -/
structure RxClosed (I : Channel → Prop) : Prop where
  same : ∀ {c c'}, I c → RxSame c c' → I c'
  pushed : ∀ {c data errors}, CharacterErrors errors → I c → I (c.pushed data errors)
  popped : ∀ {c}, I c → I c.popped

theorem rxClosed_rxFifo : RxClosed RxFifo where
  same hc h := h.rxFifo hc
  pushed he h := h.pushed he
  popped h := h.popped

theorem rxClosed_rxStatus : RxClosed fun c ↦ RxFifo c ∧ RxStatus c where
  same hc h := ⟨h.rxFifo hc.1, h.rxStatus_iff.mpr hc.2⟩
  pushed he h := ⟨h.1.pushed he, h.2.pushed h.1 he⟩
  popped h := ⟨h.1.popped, h.2.popped h.1⟩

namespace RxClosed

variable {I : Channel → Prop} (hI : RxClosed I)
include hI

variable {p : Port}

theorem rxFifoPush {data errors : BitVec 8} (he : CharacterErrors errors) (h : I p.chan) :
    I (rxFifoPush data errors p).chan :=
  hI.same (hI.pushed he h) (rxSame_maskTxReady _)

theorem rcvComplete (h : I p.chan) : I (rcvComplete p).chan := by
  have hserial : I (p.onSerial Serial.receiveRegisterExtract).chan := hI.same h ⟨rfl, rfl, rfl, rfl⟩
  simp only [Duart.rcvComplete]
  split_ifs
  all_goals first
    | exact hserial
    | exact hI.rxFifoPush (by decide) hserial

/-- The serial interface reaches the receiver only through `rcv_complete`. -/
theorem keeps : serialDevice.Keeps fun p ↦ I p.chan where
  update _ _ h := hI.same h ⟨rfl, rfl, rfl, rfl⟩
  traCallback p h := hI.same h (rxSame_traCallback p)
  traComplete p h := hI.same h (rxSame_traComplete p)
  rcvCallback _ h := hI.same h ⟨rfl, rfl, rfl, rfl⟩
  rcvComplete _ h := hI.rcvComplete h

theorem txClockW (state : Bool) (h : I p.chan) :
    I (serialDevice.txClockW state p).chan := hI.keeps.txClockW (d := p) h state

theorem rxClockW (state : Bool) (h : I p.chan) :
    I (serialDevice.rxClockW state p).chan := hI.keeps.rxClockW (d := p) h state

theorem readChanReg (reg : ℕ) (h : I p.chan) : I (readChanReg reg p).2.chan := by
  have hread : I (readRxFifo p).2.chan := by
    rw [readRxFifo]
    split_ifs
    · exact hI.same h (rxSame_maskTxReady _)
    · exact hI.same (hI.popped h) (rxSame_maskTxReady _)
  simp only [Duart.readChanReg]
  split
  · split_ifs
    · exact hI.same h ⟨rfl, rfl, rfl, rfl⟩
    · exact h
  · exact h
  · exact hread
  · exact h

end RxClosed

/-! ## Writes to the command register -/

/-- The command field of a byte written to `CR`. -/
def crMisc (data : BitVec 8) : ℕ := ((data >>> 4) &&& 7).toNat

/-- The write starts a break on a channel in local loopback, which receives it at once. -/
def StartsLoopbackBreak (data : BitVec 8) (c : Channel) : Prop :=
  crMisc data = 6 ∧ c.txBreak = false ∧ c.mode = modeLocalLoopback

theorem rxSame_crCommand {data : BitVec 8} (h2 : crMisc data ≠ 2)
    (h6 : ¬StartsLoopbackBreak data p.chan) : RxSame p.chan (crCommand data p).chan := by
  simp only [crCommand]
  split <;> rename_i hcmd
  · exact ⟨rfl, rfl, rfl, rfl⟩
  · exact absurd hcmd h2
  · exact ⟨by simp [statusTransmitterReady, statusTransmitterEmpty],
      by simp [statusTransmitterReady, statusTransmitterEmpty], rfl, rfl⟩
  · exact ⟨by simp [statusCharacterErrors, statusReceivedBreak, statusFramingError,
      statusParityError, statusOverrunError], by simp [statusCharacterErrors, statusReceivedBreak,
      statusFramingError, statusParityError, statusOverrunError], rfl, rfl⟩
  · exact ⟨rfl, rfl, rfl, rfl⟩
  · split_ifs with hbreak hloop
    · exact absurd ⟨hcmd, hbreak, hloop⟩ h6
    · exact ⟨rfl, rfl, rfl, rfl⟩
    · exact ⟨rfl, rfl, rfl, rfl⟩
  · split_ifs <;> exact ⟨rfl, rfl, rfl, rfl⟩
  · exact ⟨rfl, rfl, rfl, rfl⟩

theorem crCommand_startsLoopbackBreak {data : BitVec 8} {p : Port}
    (h : StartsLoopbackBreak data p.chan) :
    RxSame (p.chan.pushed 0 statusReceivedBreak) (crCommand data p).chan := by
  obtain ⟨h6, hbreak, hloop⟩ := h
  rw [crMisc] at h6
  simp only [crCommand, h6, hbreak, if_true]
  split_ifs with hmode
  · exact RxSame.updateInterrupts ⟨rfl, rfl, rfl, rfl⟩
  · exact absurd hloop hmode

/-- A receiver reset empties the FIFO and clears `RxRDY`, but leaves `FFULL`. -/
theorem crCommand_receiverReset {data : BitVec 8} (h : crMisc data = 2) :
    (crCommand data p).chan.sr.getLsbD 0 = false ∧
      (crCommand data p).chan.sr.getLsbD 1 = p.chan.sr.getLsbD 1 ∧
      (crCommand data p).chan.rxFifoNum = 0 ∧ (crCommand data p).chan.rxFifo = p.chan.rxFifo := by
  rw [crMisc] at h
  simp only [crCommand, h]
  exact ⟨by simp [statusReceiverReady], by simp [statusReceiverReady, statusCharacterErrors,
    statusReceivedBreak, statusFramingError, statusParityError, statusOverrunError], rfl, rfl⟩

theorem RxFifo.crCommand {data : BitVec 8} {p : Port} (h : RxFifo p.chan) :
    RxFifo (crCommand data p).chan := by
  by_cases h2 : crMisc data = 2
  · obtain ⟨-, -, hnum, hfifo⟩ := crCommand_receiverReset p h2
    exact ⟨by rw [hnum]; exact Nat.zero_le _, hfifo ▸ h.errors⟩
  · by_cases h6 : StartsLoopbackBreak data p.chan
    · exact (crCommand_startsLoopbackBreak h6).rxFifo (h.pushed (by decide))
    · exact (rxSame_crCommand p h2 h6).rxFifo h

theorem crReceiver_chan :
    (crReceiver data p).chan.sr.getLsbD 0 = (p.chan.sr.getLsbD 0 && !data.getLsbD 1) ∧
      (crReceiver data p).chan.sr.getLsbD 1 = p.chan.sr.getLsbD 1 ∧
      (crReceiver data p).chan.rxFifoNum = p.chan.rxFifoNum ∧
      (crReceiver data p).chan.rxFifo = p.chan.rxFifo := by
  simp only [crReceiver]
  split_ifs <;> simp_all [statusReceiverReady]

theorem rxSame_writeCR :
    RxSame (crReceiver data (crCommand data p)).chan (writeCR data p).chan := by
  have h := (rxSame_crTransmitter data (crReceiver data (crCommand data p))).updateInterrupts
  exact ⟨h.ready, h.full, h.num, h.fifo⟩

theorem RxFifo.writeCR {data : BitVec 8} {p : Port} (h : RxFifo p.chan) :
    RxFifo (writeCR data p).chan := by
  obtain ⟨-, -, hnum, hfifo⟩ := crReceiver_chan data (Duart.crCommand data p)
  have hcmd : RxFifo (Duart.crCommand data p).chan := h.crCommand
  exact (rxSame_writeCR data p).rxFifo ⟨hnum ▸ hcmd.num_le, hfifo ▸ hcmd.errors⟩

/-- When a write to `CR` keeps the status bits right: a receiver reset must find less than a full
FIFO, and a receiver disable an empty one. -/
def CrGuard (data : BitVec 8) (c : Channel) : Prop :=
  if crMisc data = 2 then c.rxFifoNum < rxFifoSize
  else data.getLsbD 1 = true → c.rxFifoNum = 0 ∧ ¬StartsLoopbackBreak data c

theorem rxStatus_writeCR_iff {data : BitVec 8} {p : Port} (hfifo : RxFifo p.chan)
    (hst : RxStatus p.chan) : RxStatus (writeCR data p).chan ↔ CrGuard data p.chan := by
  rw [(rxSame_writeCR data p).rxStatus_iff, CrGuard]
  obtain ⟨hready, hfull, hnum, -⟩ := crReceiver_chan data (crCommand data p)
  split_ifs with h2
  · obtain ⟨hready', hfull', hnum', -⟩ := crCommand_receiverReset p h2
    constructor
    · intro h
      have := h.fifoFull
      rw [hfull, hfull', hst.fifoFull, hnum, hnum', rxFifoSize] at this
      rw [rxFifoSize]
      omega
    · intro h
      refine ⟨?_, ?_⟩
      · rw [hready, hready', hnum, hnum']
        simp
      · rw [hfull, hfull', hst.fifoFull, hnum, hnum', rxFifoSize]
        rw [rxFifoSize] at h
        omega
  · -- the command half keeps the relation, so only the disable bit can break it
    have hcmd : RxStatus (crCommand data p).chan ∧
        ((crCommand data p).chan.rxFifoNum = 0 ↔
          p.chan.rxFifoNum = 0 ∧ ¬StartsLoopbackBreak data p.chan) := by
      by_cases h6 : StartsLoopbackBreak data p.chan
      · have hsame := crCommand_startsLoopbackBreak h6
        have hpush : RxStatus (p.chan.pushed 0 statusReceivedBreak) :=
          hst.pushed hfifo (by decide)
        have hpos := pushed_rxFifoNum 0 statusReceivedBreak hfifo
        refine ⟨hsame.rxStatus_iff.mpr hpush, iff_of_false ?_ fun h ↦ h.2 h6⟩
        rw [hsame.num]
        omega
      · have hsame := rxSame_crCommand p h2 h6
        exact ⟨hsame.rxStatus_iff.mpr hst, by rw [hsame.num]; exact ⟨fun h ↦ ⟨h, h6⟩, And.left⟩⟩
    rw [← hcmd.2]
    constructor
    · intro h hdis
      have := h.receiverReady
      rw [hready, hdis, hnum] at this
      simpa using this
    · intro h
      refine ⟨?_, by rw [hfull, hnum]; exact hcmd.1.fifoFull⟩
      rw [hready, hnum, Bool.and_eq_true, hcmd.1.receiverReady]
      cases hdis : data.getLsbD 1 with
      | false => simp
      | true => simp [h hdis]

/-! ## Calls into the channel -/

theorem RxClosed.apply {I : Channel → Prop} (hI : RxClosed I) {op : Operation}
    (hcr : ∀ data, op ≠ .write 2 data)
    (hreset : op ≠ .reset) {p : Port} (h : I p.chan) : I (op.apply p).chan := by
  cases op with
  | read reg => exact hI.readChanReg reg h
  | write reg data =>
    simp only [Operation.apply, writeChanReg]
    split
    · exact hI.same h (rxSame_writeMR data p)
    · exact hI.same h (rxSame_writeCSR data p)
    · exact absurd rfl (hcr data)
    · exact hI.same h (rxSame_writeTX data p)
    · exact h
  | baudUpdated => exact hI.same h (rxSame_writeCSR _ p)
  | updateInterrupts => exact hI.same h (rxSame_maskTxReady _)
  | rxW state => exact hI.same h ⟨rfl, rfl, rfl, rfl⟩
  | traClock => exact hI.keeps.traClock (d := p) h
  | rcvClock => exact hI.keeps.rcvClock (d := p) h
  | tx16xClockW state =>
    have hpre (n : BitVec 8) : RxSame p.chan { p.chan with txPrescaler := n } :=
      ⟨rfl, rfl, rfl, rfl⟩
    simp only [Operation.apply, tx16xClockW]
    split_ifs
    · exact hI.txClockW _ (hI.same h (hpre _))
    · exact hI.txClockW _ (hI.same h (hpre _))
    · exact hI.same h (hpre _)
    · exact h
  | rx16xClockW state =>
    have hpre (n : BitVec 8) : RxSame p.chan { p.chan with rxPrescaler := n } :=
      ⟨rfl, rfl, rfl, rfl⟩
    simp only [Operation.apply, rx16xClockW]
    split_ifs
    · exact hI.rxClockW _ (hI.same h (hpre _))
    · exact hI.rxClockW _ (hI.same h (hpre _))
    · exact hI.rxClockW _ (hI.same h (hpre _))
    · exact hI.same h (hpre _)
    · exact h
  | reset => exact absurd rfl hreset

/-- A write to `CR` that neither resets nor disables the receiver, nor starts a break. -/
theorem rxSame_writeCR_of_ne (h2 : crMisc data ≠ 2) (h6 : crMisc data ≠ 6)
    (h1 : data.getLsbD 1 = false) : RxSame p.chan (writeCR data p).chan := by
  have hcmd := rxSame_crCommand p h2 fun h ↦ h6 h.1
  obtain ⟨hready, hfull, hnum, hfifo⟩ := crReceiver_chan data (crCommand data p)
  rw [h1, Bool.not_false, Bool.and_true] at hready
  exact (hcmd.trans ⟨hready, hfull, hnum, hfifo⟩).trans (rxSame_writeCR data p)

theorem RxFifo.channelReset {p : Port} (h : RxFifo p.chan) : RxFifo (channelReset p).chan := by
  have h4 : RxFifo (Duart.writeCR 0x40 (Duart.writeCR 0x30 (Duart.writeCR 0x20
      (Duart.writeCR 0x10 p)))).chan := h.writeCR.writeCR.writeCR.writeCR
  exact ⟨h4.num_le, h4.errors⟩

theorem rxStatus_channelReset_iff {p : Port} (hfifo : RxFifo p.chan) (hst : RxStatus p.chan) :
    RxStatus (channelReset p).chan ↔ p.chan.rxFifoNum < rxFifoSize := by
  have h1 := rxSame_writeCR_of_ne 0x10 p (by decide) (by decide) (by decide)
  have h3 := rxSame_writeCR_of_ne 0x30 (writeCR 0x20 (writeCR 0x10 p)) (by decide)
    (by decide) (by decide)
  have h4 := rxSame_writeCR_of_ne 0x40 (writeCR 0x30 (writeCR 0x20 (writeCR 0x10 p)))
    (by decide) (by decide) (by decide)
  have hend : RxSame (writeCR 0x20 (writeCR 0x10 p)).chan (channelReset p).chan := by
    have h := h3.trans h4
    exact ⟨h.ready, h.full, h.num, h.fifo⟩
  rw [hend.rxStatus_iff, rxStatus_writeCR_iff (h1.rxFifo hfifo) (h1.rxStatus_iff.mpr hst), CrGuard,
    if_pos (by decide), h1.num]

theorem RxFifo.apply {op : Operation} {p : Port} (h : RxFifo p.chan) :
    RxFifo (op.apply p).chan := by
  by_cases hreset : op = .reset
  · subst hreset
    exact h.channelReset
  · by_cases hcr : ∃ data, op = .write 2 data
    · obtain ⟨data, rfl⟩ := hcr
      exact h.writeCR
    · exact rxClosed_rxFifo.apply (not_exists.mp hcr) hreset h

/-! ## Runs of the device -/

/-- When an event keeps the status bits of channel `ch` right. -/
def RxGuard (ch : ChannelId) (d : Device) : Device.Event → Prop
  | .write offset data => offset = commandOffset ch → CrGuard (baseCommand data) (d.chan ch)
  | .reset => (d.chan ch).rxFifoNum < rxFifoSize
  | _ => True

theorem RxFifo.acts {rates : Rates} {l l' : Line} (h : Acts rates ch l ops l')
    (hfifo : RxFifo l.chan) : RxFifo l'.chan := by
  induction h with
  | nil l => exact hfifo
  | cons hl _ _ ih =>
    subst hl
    exact ih hfifo.apply

/-- None of the operations can break the status bits. -/
def Harmless (ops : List Operation) : Prop :=
  ∀ op ∈ ops, (∀ data, op ≠ .write 2 data) ∧ op ≠ .reset

theorem RxStatus.acts {rates : Rates} {l l' : Line} (h : Acts rates ch l ops l')
    (hops : Harmless ops) (hfifo : RxFifo l.chan) (hst : RxStatus l.chan) : RxStatus l'.chan := by
  induction h with
  | nil l => exact hst
  | @cons l l' p op ops hl _ _ ih =>
    subst hl
    obtain ⟨hcr, hreset⟩ := hops op (.head _)
    have h := rxClosed_rxStatus.apply hcr hreset (p := p) ⟨hfifo, hst⟩
    exact ih (fun op' hop' ↦ hops op' (.tail _ hop')) h.1 h.2

theorem harmless_callOn {ch' : ChannelId} (h : Harmless ops) : Harmless (callOn ch' ch ops) := by
  rw [callOn]
  split_ifs
  · exact h
  · intro op hop
    cases hop

theorem harmless_readOperations (ch : ChannelId) (offset : BitVec 4) :
    Harmless (readOperations ch offset) := by
  unfold readOperations
  split
  all_goals first
    | exact harmless_callOn (by simp [Harmless])
    | simp [Harmless]

theorem harmless_writeOperations {offset : BitVec 4} (h : offset ≠ commandOffset ch)
    (data : BitVec 8) : Harmless (writeOperations ch offset data) := by
  obtain ⟨-, hops⟩ | ⟨-, hops⟩ | ⟨hoff, -⟩ | ⟨-, hops⟩ | ⟨-, hops⟩ | ⟨-, hops⟩ :=
    writeOperations_cases ch offset data
  case inr.inr.inl => exact absurd hoff h
  all_goals
    rw [hops]
    simp [Harmless]

theorem harmless_timerOperations (state : Bool) (csr : BitVec 8) :
    Harmless (timerOperations state csr) := by
  rw [timerOperations]
  split_ifs <;> simp [Harmless]

theorem writeOperations_commandOffset (ch : ChannelId) (data : BitVec 8) :
    writeOperations ch (commandOffset ch) data = [.write 2 (baseCommand data)] ∨
      writeOperations ch (commandOffset ch) data =
        [.baudUpdated, .write 2 (baseCommand data)] := by
  have hcmd : writeOperations ch (commandOffset ch) data = commandOperations data := by
    cases ch <;> rfl
  rw [hcmd, commandOperations]
  split_ifs
  · exact .inr rfl
  · exact .inl rfl

theorem crGuard_baudUpdated : CrGuard data (baudUpdated p).chan ↔ CrGuard data p.chan := by
  simp only [CrGuard, StartsLoopbackBreak, baudUpdated, writeCSR, Channel.mode, Port.onChan_chan,
    Port.onSerial_chan]

theorem rxStatus_step_iff {d : Device} (hw : d.Wired)
    (e : Device.Event) (hfifo : RxFifo (d.chan ch))
    (hst : RxStatus (d.chan ch)) : RxStatus ((d.step e).chan ch) ↔ RxGuard ch d e := by
  have hacts := step_line ch hw e
  have hsafe (h : Harmless (d.operations ch e)) : RxStatus ((d.step e).chan ch) :=
    .acts hacts h hfifo hst
  cases e with
  | read offset => exact iff_of_true (hsafe (harmless_readOperations ch offset)) trivial
  | write offset data =>
    rw [RxGuard]
    by_cases hoff : offset = commandOffset ch
    · subst hoff
      rw [imp_iff_right rfl]
      rw [operations] at hacts
      obtain h | h := writeOperations_commandOffset ch data <;> rw [h] at hacts
      · obtain ⟨p, hl, -, hl'⟩ := hacts.exists_one
        have hc : p.chan = d.chan ch := congrArg Line.chan hl
        rw [← hc] at hfifo hst ⊢
        rw [show (d.step _).chan ch = _ from congrArg Line.chan hl']
        exact rxStatus_writeCR_iff hfifo hst
      · obtain ⟨p, hl, -, htail⟩ := hacts.exists_cons
        obtain ⟨p', hl', -, hl''⟩ := htail.exists_one
        have hc : p.chan = d.chan ch := congrArg Line.chan hl
        have hc' : p'.chan = (baudUpdated p).chan := congrArg Line.chan hl'
        have hmid : RxSame p.chan p'.chan := hc' ▸ rxSame_writeCSR _ p
        rw [← hc] at hfifo hst ⊢
        rw [show (d.step _).chan ch =
          _ from congrArg Line.chan hl'', ← crGuard_baudUpdated _ p, ← hc']
        exact rxStatus_writeCR_iff (hmid.rxFifo hfifo) (hmid.rxStatus_iff.mpr hst)
    · exact iff_of_true (hsafe (harmless_writeOperations hoff data)) fun h ↦ absurd h hoff
  | irqVector => exact iff_of_true (hsafe (by simp [Harmless, operations])) trivial
  | rxLine ch' state =>
    exact iff_of_true (hsafe (harmless_callOn (by simp [Harmless]))) trivial
  | inputPort line state => exact iff_of_true (hsafe (by simp [Harmless, operations])) trivial
  | traClock ch' => exact iff_of_true (hsafe (harmless_callOn (by simp [Harmless]))) trivial
  | rcvClock ch' => exact iff_of_true (hsafe (harmless_callOn (by simp [Harmless]))) trivial
  | ctTimer =>
    refine iff_of_true (hsafe ?_) trivial
    rw [operations]
    split_ifs
    · exact harmless_timerOperations _ _
    · simp [Harmless]
    · simp [Harmless]
  | advance time => exact iff_of_true (hsafe (by simp [Harmless, operations])) trivial
  | reset =>
    obtain ⟨p, hl, -, hl'⟩ := hacts.exists_one
    have hc : p.chan = d.chan ch := congrArg Line.chan hl
    rw [RxGuard, ← hc, show (d.step _).chan ch = _ from congrArg Line.chan hl']
    rw [← hc] at hfifo hst
    exact rxStatus_channelReset_iff hfifo hst

theorem rxFifo_step {d : Device} (hw : d.Wired) (e : Device.Event) (h : RxFifo (d.chan ch)) :
    RxFifo ((d.step e).chan ch) := .acts (step_line ch hw e) h

theorem rx_construct (storage : Channel) (ch : ChannelId) :
    RxFifo (.construct storage ch) ∧ RxStatus (.construct storage ch) :=
  ⟨⟨Nat.zero_le _, fun _ _ _ ↦ by simp [Channel.construct]⟩,
    ⟨by simp [Channel.construct], by simp [Channel.construct, rxFifoSize]⟩⟩

theorem rx_powerOn (storage : Device) (ch : ChannelId) :
    RxFifo ((powerOn storage).chan ch) ∧ RxStatus ((powerOn storage).chan ch) := by
  let d : Device := ⟨storage.uart, .construct storage.chanA .a, .construct storage.chanB .b⟩
  have hw : d.Wired := fun ch ↦ by cases ch <;> rfl
  have hinit : RxFifo (d.chan ch) ∧ RxStatus (d.chan ch) := by
    cases ch
    · exact rx_construct storage.chanA .a
    · exact rx_construct storage.chanB .b
  have hempty : (d.chan ch).rxFifoNum = 0 := by
    cases ch <;> rfl
  exact ⟨rxFifo_step hw .reset hinit.1, (rxStatus_step_iff hw .reset hinit.1 hinit.2).mpr
    (by rw [RxGuard, hempty]; decide)⟩

/-- **The receiver's status bits.** From power-on, and over every run of the device, the status bits
of a channel are right in every state exactly if no step resets the receiver with a full FIFO or
disables it with a FIFO that is not empty. -/
theorem rxStatus_always_iff (storage : Device) (ch : ChannelId) (es : List Device.Event) :
    Run.Always Device.step (fun d ↦ RxStatus (d.chan ch)) (powerOn storage) es ↔
      Run.Meets Device.step (RxGuard ch) (powerOn storage) es := by
  obtain ⟨hfifo, hst⟩ := rx_powerOn storage ch
  exact Run.always_iff_meets (J := fun d : Device ↦ d.Wired ∧ RxFifo (d.chan ch))
    (fun _ e h ↦ ⟨wired_step h.1 e, rxFifo_step h.1 e h.2⟩)
    (fun _ e hJ hP ↦ rxStatus_step_iff hJ.1 e hJ.2 hP)
    ⟨wired_powerOn storage, hfifo⟩ hst es

/-- Two runs of channel A of a machine whose memory was zero, both in local loopback, where a start
break command is received at once. The first receives one break and disables the receiver; the
second receives three and resets it. -/
theorem rxStatus_broken :
    ¬Run.Always Device.step (fun d ↦ RxStatus (d.chan .a)) (powerOn default)
        [.write 0x0 0x13, .write 0x0 0x80, .write 0x2 0x60, .write 0x2 0x02] ∧
      ¬Run.Always Device.step (fun d ↦ RxStatus (d.chan .a)) (powerOn default)
        [.write 0x0 0x13, .write 0x0 0x80, .write 0x2 0x60, .write 0x2 0x70, .write 0x2 0x60,
          .write 0x2 0x70, .write 0x2 0x60, .write 0x2 0x20] := by
  constructor
  · intro h
    exact absurd h.last.receiverReady (by decide)
  · intro h
    exact absurd h.last.fifoFull (by decide)

end RoscoEmulator.Duart
