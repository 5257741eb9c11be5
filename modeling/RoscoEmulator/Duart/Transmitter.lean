import RoscoEmulator.Duart.Receiver
import RoscoEmulator.Emu.TransmitFrame

/-!
# The transmitter of a channel

The transmitter is a holding register and a shift register. A byte written to `THR` goes into the
shift register if that is empty, and else waits in the holding register until the last bit of the
frame before it has been sent. Its state is spread over the channel and the serial interface, and
`TxInvariant` is what every call into the channel keeps: the register has bits to send whenever it
is not marked empty, the channel and the interface agree on how many were sent, a register in use
has its clock running, and `TxRDY` is never set while the holding register is full.

Each operation is described by a small function of the channel, and a property of the transmitter
is carried through an operation by showing it of that function: this is what `TxClosed` is for.
-/

namespace RoscoEmulator.Duart

open Channel

/-- `TxRDY`. -/
def Channel.txReady (c : Channel) : Bool := c.sr.getLsbD 2

/-- What every call into a channel keeps of its transmitter. -/
structure TxInvariant (c : Channel) : Prop where
  frame : c.serial.DataFrame
  sent : c.serial.traEmpty = false → c.bitsTransmitted.toNat = c.serial.traBitCountTransmitted
  sent_lt : c.serial.traEmpty = false → c.serial.traBitCountTransmitted < c.serial.traBitCount
  count : c.serial.traEmpty = false → 7 ≤ c.serial.traBitCount ∧ c.serial.traBitCount ≤ 12
  clock : c.serial.traEmpty = false → c.serial.traRate.isNever = false →
    c.serial.traClock.running = true
  ready : c.txReady = true → c.txDataInBuffer = false

variable {p : Port} {c c' : Channel} (data : BitVec 8)

theorem TxInvariant.register (h : TxInvariant c) : c.serial.TransmitRegister :=
  ⟨h.sent_lt, fun hne ↦ Nat.le_trans (h.count hne).2 (by decide)⟩

/-- With an empty shift register, little of the invariant is left to show. -/
theorem TxInvariant.of_empty (hframe : c.serial.DataFrame) (hempty : c.serial.traEmpty = true)
    (hready : c.txReady = true → c.txDataInBuffer = false) : TxInvariant c := by
  have habs {P : Prop} (hf : c.serial.traEmpty = false) : P := by
    rw [hempty] at hf
    cases hf
  exact ⟨hframe, habs, habs, habs, habs, hready⟩

/-! ## Operations that leave the transmitter alone -/

/-- The transmitter's view of the channel is the same in two states. -/
structure TxSame (c c' : Channel) : Prop where
  serial : c'.serial.transmitHalf = c.serial.transmitHalf
  mode : c'.mode = c.mode
  cr : c'.cr = c.cr
  txData : c'.txData = c.txData
  txDataInBuffer : c'.txDataInBuffer = c.txDataInBuffer
  bitsTransmitted : c'.bitsTransmitted = c.bitsTransmitted
  txEnabled : c'.txEnabled = c.txEnabled
  txReady : c'.txReady = c.txReady

namespace TxSame

variable {c c' c'' : Channel}

theorem refl (c : Channel) : TxSame c c := ⟨rfl, rfl, rfl, rfl, rfl, rfl, rfl, rfl⟩

theorem trans (h : TxSame c c') (h' : TxSame c' c'') : TxSame c c'' :=
  ⟨h'.serial.trans h.serial, h'.mode.trans h.mode, h'.cr.trans h.cr, h'.txData.trans h.txData,
    h'.txDataInBuffer.trans h.txDataInBuffer, h'.bitsTransmitted.trans h.bitsTransmitted,
    h'.txEnabled.trans h.txEnabled, h'.txReady.trans h.txReady⟩

end TxSame

theorem txReady_pushed {data errors : BitVec 8} (he : CharacterErrors errors) (c : Channel) :
    (c.pushed data errors).txReady = c.txReady := by
  have he2 : errors.getLsbD 2 = false := he 2 (by decide)
  simp only [txReady, Channel.pushed]
  split_ifs <;> simp_all [rxFifoSize, statusReceiverReady, statusFifoFull, statusOverrunError,
    statusCharacterErrors, statusReceivedBreak, statusFramingError, statusParityError]

theorem txReady_popped (hfifo : RxFifo c) : c.popped.txReady = c.txReady := by
  have hentry (i : ℕ) : (((c.rxFifo i) >>> 8).setWidth 8).getLsbD 2 = false := by
    simpa using hfifo.errors i 2 (by decide)
  simp only [txReady, Channel.popped]
  split_ifs <;> simp_all [statusReceiverReady, statusFifoFull,
    statusCharacterErrors, statusReceivedBreak, statusFramingError, statusParityError]

theorem txSame_pushed {data errors : BitVec 8} (he : CharacterErrors errors) (c : Channel) :
    TxSame c (c.pushed data errors) :=
  ⟨rfl, rfl, rfl, rfl, rfl, rfl, rfl, txReady_pushed he c⟩

theorem txSame_popped (hfifo : RxFifo c) : TxSame c c.popped :=
  ⟨rfl, rfl, rfl, rfl, rfl, rfl, rfl, txReady_popped hfifo⟩

/-- A property of the transmitter's view that holding `TxRDY` low in the echoing modes keeps. -/
structure TxClosed (I : Channel → Prop) : Prop where
  same : ∀ {c c'}, I c → TxSame c c' → I c'
  mask : ∀ {c}, I c → I c.maskTxReady

theorem txSame_onSerial {f : Serial → Serial} (p : Port)
    (h : (f p.chan.serial).transmitHalf = p.chan.serial.transmitHalf) :
    TxSame p.chan (p.onSerial f).chan := by
  rw [Port.onSerial_chan]
  exact ⟨h, rfl, rfl, rfl, rfl, rfl, rfl, rfl⟩

namespace TxClosed

variable {I : Channel → Prop} (hI : TxClosed I) {p : Port} (h : I p.chan)
include hI h

theorem updateInterrupts : I (updateInterrupts p).chan := hI.mask h

theorem onSerial {f : Serial → Serial}
    (hf : (f p.chan.serial).transmitHalf = p.chan.serial.transmitHalf) : I (p.onSerial f).chan :=
  hI.same h (txSame_onSerial p hf)

theorem rxFifoPush {data errors : BitVec 8} (he : CharacterErrors errors) :
    I (rxFifoPush data errors p).chan := hI.mask (hI.same h (txSame_pushed he p.chan))

theorem rcvComplete : I (rcvComplete p).chan := by
  have hserial := hI.onSerial h (f := Serial.receiveRegisterExtract) (by simp)
  simp only [Duart.rcvComplete]
  split_ifs
  all_goals first
    | exact hserial
    | exact hI.rxFifoPush hserial (by decide)

theorem rcvEdge : I (serialDevice.rcvEdge p).chan := by
  have hbit := hI.onSerial h (f := fun s ↦ s.receiveRegisterUpdateBit s.rcvLine) (by simp)
  simp only [SerialDevice.rcvEdge]
  split_ifs
  · exact hI.rcvComplete (hI.onSerial hbit rfl)
  · exact hbit

theorem rxClockW (state : Bool) : I (serialDevice.rxClockW state p).chan := by
  have hstate := hI.onSerial h (f := fun s ↦ { s with rcvClockState := state }) rfl
  simp only [SerialDevice.rxClockW]
  split_ifs
  · exact hI.rcvEdge hstate
  · exact hstate
  · exact h

theorem rcvClock : I (serialDevice.rcvClock p).chan := by
  simp only [SerialDevice.rcvClock]
  split_ifs
  · exact hI.rxClockW h _
  · exact h

theorem rx16xClockW (state : Bool) : I (rx16xClockW state p).chan := by
  have hpre (n : BitVec 8) : I { p.chan with rxPrescaler := n } :=
    hI.same h ⟨rfl, rfl, rfl, rfl, rfl, rfl, rfl, rfl⟩
  simp only [Duart.rx16xClockW]
  split_ifs
  · refine hI.rxClockW ?_ _
    exact hpre _
  · refine hI.rxClockW ?_ _
    exact hpre _
  · refine hI.rxClockW ?_ _
    exact hpre _
  · exact hpre _
  · exact h

theorem readChanReg (hfifo : RxFifo p.chan) (reg : ℕ) : I (readChanReg reg p).2.chan := by
  have hread : I (readRxFifo p).2.chan := by
    rw [readRxFifo]
    split_ifs
    · exact hI.mask h
    · exact hI.mask (hI.same h (txSame_popped hfifo))
  simp only [Duart.readChanReg]
  split
  · split_ifs
    · exact hI.same h ⟨rfl, rfl, rfl, rfl, rfl, rfl, rfl, rfl⟩
    · exact h
  · exact h
  · exact hread
  · exact h

end TxClosed

/-! ## The invariant is a property of the transmitter -/

theorem TxSame.sameTransmitter (h : TxSame c c') : c.serial.SameTransmitter c'.serial :=
  Serial.sameTransmitter_of_transmitHalf h.serial

theorem txReady_maskTxReady (h : c.maskTxReady.txReady = true) : c.txReady = true := by
  rw [maskTxReady] at h
  split_ifs at h
  · simp [txReady, statusTransmitterReady] at h
  · exact h

theorem txClosed_txInvariant : TxClosed TxInvariant where
  same {c c'} h hs := by
    have hser := hs.sameTransmitter
    refine ⟨hser.dataFrame h.frame, ?_, ?_, ?_, ?_, ?_⟩
    · rw [hser.traEmpty, hser.traBitCountTransmitted, hs.bitsTransmitted]
      exact h.sent
    · rw [hser.traEmpty, hser.traBitCountTransmitted, hser.traBitCount]
      exact h.sent_lt
    · rw [hser.traEmpty, hser.traBitCount]
      exact h.count
    · rw [hser.traEmpty, hser.traRate, hser.traClock]
      exact h.clock
    · rw [hs.txReady, hs.txDataInBuffer]
      exact h.ready
  mask {c} h := by
    have hrest : c.maskTxReady = { c with sr := c.maskTxReady.sr } := by
      rw [maskTxReady]
      split_ifs <;> rfl
    have hready (hr : c.maskTxReady.txReady = true) : c.txDataInBuffer = false :=
      h.ready (txReady_maskTxReady hr)
    rw [hrest] at hready ⊢
    exact ⟨h.frame, h.sent, h.sent_lt, h.count, h.clock, hready⟩

theorem TxSame.symm (h : TxSame c c') : TxSame c' c :=
  ⟨h.serial.symm, h.mode.symm, h.cr.symm, h.txData.symm, h.txDataInBuffer.symm,
    h.bitsTransmitted.symm, h.txEnabled.symm, h.txReady.symm⟩

/-- The mask acts in the echoing modes only, and those are not the normal mode. -/
theorem maskTxReady_of_normal (h : c.mode = modeNormal) : c.maskTxReady = c := by
  rw [maskTxReady, h, if_neg (by decide)]

@[simp] theorem mode_maskTxReady (c : Channel) : c.maskTxReady.mode = c.mode := by
  rw [maskTxReady]
  split_ifs <;> rfl

/-! ## What the operations do to the transmitter

Each operation has the effect of a small function of the channel alone, up to the receiver and the
mask of `TxRDY` in the echoing modes. -/

namespace Channel

def setReady (c : Channel) : Channel := { c with sr := c.sr ||| statusTransmitterReady }

def clearReady (c : Channel) : Channel :=
  { c with sr := c.sr &&& ~~~(statusTransmitterReady ||| statusTransmitterEmpty) }

/-- One bit leaves the shift register. -/
def bitSent (c : Channel) : Channel :=
  { c with
    serial := c.serial.transmitRegisterGetDataBit.2
    bitsTransmitted := c.bitsTransmitted + 1 }

/-- A byte enters the shift register. -/
def loaded (data : BitVec 8) (c : Channel) : Channel :=
  { c with serial := c.serial.transmitRegisterSetup data, bitsTransmitted := 0 }

def transmitterReset (c : Channel) : Channel :=
  { c.clearReady with
    serial := c.serial.transmitRegisterReset
    bitsTransmitted := 255
    txDataInBuffer := false
    txEnabled := false }

def transmitterEnabled (c : Channel) : Channel :=
  { c with
    sr := c.sr ||| (statusTransmitterReady ||| statusTransmitterEmpty)
    txDataInBuffer := false
    txEnabled := true }

def transmitterDisabled (c : Channel) : Channel :=
  { c.clearReady with txDataInBuffer := false, txEnabled := false }

/-- The transmitter half of a write to `CR`, without the mask. -/
def commanded (data : BitVec 8) (c : Channel) : Channel :=
  let c := if crMisc data = 3 then c.transmitterReset else c
  let c := if c.cr.getLsbD 2 = false ∧ data.getLsbD 2 = true then c.transmitterEnabled else c
  if data.getLsbD 3 then c.transmitterDisabled else c

variable (c : Channel)

@[simp] theorem txReady_setReady : c.setReady.txReady = true := by
  simp [txReady, setReady, statusTransmitterReady]

@[simp] theorem txReady_clearReady : c.clearReady.txReady = false := by
  simp [txReady, clearReady, statusTransmitterReady, statusTransmitterEmpty]

@[simp] theorem txReady_transmitterEnabled : c.transmitterEnabled.txReady = true := by
  simp [txReady, transmitterEnabled, statusTransmitterReady, statusTransmitterEmpty]

end Channel

namespace TxSame

variable {c c' : Channel}

theorem setReady (h : TxSame c c') : TxSame c.setReady c'.setReady :=
  ⟨h.serial, h.mode, h.cr, h.txData, h.txDataInBuffer, h.bitsTransmitted, h.txEnabled, by simp⟩

theorem clearReady (h : TxSame c c') : TxSame c.clearReady c'.clearReady :=
  ⟨h.serial, h.mode, h.cr, h.txData, h.txDataInBuffer, h.bitsTransmitted, h.txEnabled, by simp⟩

end TxSame

namespace TxClosed

variable {I : Channel → Prop} (hI : TxClosed I) {p : Port}
include hI

theorem traCallback (hsent : ¬(1 < p.chan.bitsTransmitted + 1 ∧ p.chan.txDataInBuffer = false ∧
      p.chan.txEnabled = true) → I p.chan.bitSent)
    (hready : 1 < p.chan.bitsTransmitted + 1 → p.chan.txDataInBuffer = false →
      p.chan.txEnabled = true → I p.chan.bitSent.setReady) : I (traCallback p).chan := by
  have hloop : TxSame p.chan.bitSent
      { p.chan.bitSent with
        serial := p.chan.bitSent.serial.rxW p.chan.serial.transmitRegisterGetDataBit.1 } :=
    ⟨by simp, rfl, rfl, rfl, rfl, rfl, rfl, rfl⟩
  simp only [Duart.traCallback]
  split_ifs with hmode hfire hfire
  · exact hI.mask (hready hfire.1 hfire.2.1 hfire.2.2)
  · exact hsent hfire
  · exact hI.mask (hI.same (hready hfire.1 hfire.2.1 hfire.2.2) hloop.setReady)
  · exact hI.same (hsent hfire) hloop

theorem traComplete (hload : p.chan.txDataInBuffer = true →
      I { p.chan.loaded p.chan.txData with txDataInBuffer := false }.setReady)
    (hidle : p.chan.txDataInBuffer = false → I p.chan) : I (traComplete p).chan := by
  simp only [Duart.traComplete]
  split_ifs with hbuffer
  · exact hI.mask (hload hbuffer)
  · refine hI.mask (hI.same (hidle (by simpa using hbuffer)) ?_)
    exact ⟨rfl, rfl, rfl, rfl, rfl, rfl, rfl, by simp [txReady, statusTransmitterEmpty]⟩

theorem writeTX {data : BitVec 8} (hbusy : p.chan.txReady = false → I p.chan)
    (hhold : p.chan.txReady = true → p.chan.serial.traEmpty = false →
      I { p.chan.clearReady with txData := data, txDataInBuffer := true })
    (hload : p.chan.txReady = true → p.chan.serial.traEmpty = true →
    I (p.chan.clearReady.loaded data)) : I (writeTX data p).chan := by
  have hbit : p.chan.sr &&& statusTransmitterReady = 0 ↔ p.chan.txReady = false := by
    rw [show statusTransmitterReady = BitVec.twoPow 8 2 by decide, BitVec.and_twoPow,
      txReady]
    cases p.chan.sr.getLsbD 2 <;> decide
  simp only [Duart.writeTX]
  split_ifs with hready hempty
  · exact hbusy (hbit.mp hready)
  · exact hI.mask (hhold (by simpa using mt hbit.mpr hready) hempty)
  · exact hI.mask (hload (by simpa using mt hbit.mpr hready) (by simpa using hempty))

end TxClosed

theorem maskTxReady_of_loopback (h : c.mode = modeLocalLoopback) : c.maskTxReady = c := by
  rw [maskTxReady, h, if_neg (by decide)]

theorem txSame_crCommand (p : Port) : TxSame
    (if crMisc data = 3 then p.chan.transmitterReset else p.chan) (crCommand data p).chan := by
  have hstatus {sr : BitVec 8} (h : sr.getLsbD 2 = p.chan.sr.getLsbD 2) :
      TxSame p.chan { p.chan with sr := sr } := ⟨rfl, rfl, rfl, rfl, rfl, rfl, rfl, h⟩
  by_cases h3 : crMisc data = 3
  · rw [if_pos h3]
    rw [crMisc] at h3
    simp only [crCommand, h3]
    exact .refl _
  · rw [if_neg h3]
    simp only [crCommand]
    split <;> rename_i hcmd
    · exact ⟨rfl, rfl, rfl, rfl, rfl, rfl, rfl, rfl⟩
    · refine ⟨by simp, rfl, rfl, rfl, rfl, rfl, rfl, ?_⟩
      simp [txReady, statusReceiverReady, statusCharacterErrors, statusReceivedBreak,
        statusFramingError, statusParityError, statusOverrunError]
    · exact absurd hcmd h3
    · refine hstatus ?_
      simp [statusCharacterErrors, statusReceivedBreak, statusFramingError, statusParityError,
        statusOverrunError]
    · exact .refl p.chan
    · split_ifs with hbreak hloop
      · -- the break is received at once; the mask does not act in this mode
        have hpush : TxSame { p.chan with txBreak := true }
            (({ p.chan with txBreak := true } : Channel).pushed 0 statusReceivedBreak) :=
          txSame_pushed (by decide) _
        have hmask := maskTxReady_of_loopback (c := ({ p.chan with txBreak := true } :
          Channel).pushed 0 statusReceivedBreak) hloop
        rw [← hmask] at hpush
        have hset : TxSame p.chan { p.chan with txBreak := true } :=
          ⟨rfl, rfl, rfl, rfl, rfl, rfl, rfl, rfl⟩
        exact hset.trans hpush
      · exact ⟨rfl, rfl, rfl, rfl, rfl, rfl, rfl, rfl⟩
      · exact .refl p.chan
    · split_ifs
      · exact ⟨rfl, rfl, rfl, rfl, rfl, rfl, rfl, rfl⟩
      · exact ⟨rfl, rfl, rfl, rfl, rfl, rfl, rfl, rfl⟩
      · exact .refl p.chan
    · exact .refl p.chan

theorem txSame_crReceiver (p : Port) : TxSame p.chan (crReceiver data p).chan := by
  have hready : (p.chan.sr &&& ~~~statusReceiverReady).getLsbD 2 = p.chan.sr.getLsbD 2 := by
    simp [statusReceiverReady]
  simp only [crReceiver]
  split_ifs
  · exact ⟨rfl, rfl, rfl, rfl, rfl, rfl, rfl, hready⟩
  · exact ⟨rfl, rfl, rfl, rfl, rfl, rfl, rfl, hready⟩
  · exact ⟨rfl, rfl, rfl, rfl, rfl, rfl, rfl, rfl⟩
  · exact .refl p.chan

theorem crTransmitter_chan (p : Port) :
    (crTransmitter data p).chan =
      let c := if p.chan.cr.getLsbD 2 = false ∧ data.getLsbD 2 = true then
        p.chan.transmitterEnabled else p.chan
      if data.getLsbD 3 then c.transmitterDisabled else c := by
  simp only [crTransmitter]
  split_ifs <;> rfl

theorem TxSame.crTransmitter (h : TxSame c c') (data : BitVec 8) :
    TxSame
      (let c := if c.cr.getLsbD 2 = false ∧ data.getLsbD 2 = true then c.transmitterEnabled else c
      if data.getLsbD 3 then c.transmitterDisabled else c)
      (let c :=
        if c'.cr.getLsbD 2 = false ∧ data.getLsbD 2 = true then c'.transmitterEnabled else c'
      if data.getLsbD 3 then c.transmitterDisabled else c) := by
  rw [h.cr]
  dsimp only
  have he : TxSame c.transmitterEnabled c'.transmitterEnabled :=
    ⟨h.serial, h.mode, h.cr, h.txData, rfl, h.bitsTransmitted, rfl, by simp⟩
  have hd {c c' : Channel} (h : TxSame c c') :
      TxSame c.transmitterDisabled c'.transmitterDisabled :=
    ⟨h.serial, h.mode, h.cr, h.txData, rfl, h.bitsTransmitted, rfl, h.clearReady.txReady⟩
  split_ifs
  · exact hd he
  · exact hd h
  · exact he
  · exact h

theorem txSame_writeCR (p : Port) :
    ∃ c, TxSame (p.chan.commanded data) c ∧
      (writeCR data p).chan = { c.maskTxReady with cr := data } := by
  refine ⟨(crTransmitter data (crReceiver data (crCommand data p))).chan, ?_, rfl⟩
  rw [crTransmitter_chan]
  exact ((txSame_crCommand data p).trans (txSame_crReceiver data _)).crTransmitter data

/-! ## The invariant is kept -/

namespace TxInvariant

variable {c : Channel} (h : TxInvariant c)
include h

theorem setReady (hbuffer : c.txDataInBuffer = false) : TxInvariant c.setReady :=
  ⟨h.frame, h.sent, h.sent_lt, h.count, h.clock, fun _ ↦ hbuffer⟩

theorem loaded (data : BitVec 8) : TxInvariant (c.loaded data) := by
  have hlen := h.frame.length_frameBits data
  simp only [Channel.loaded, Serial.transmitRegisterSetup_eq]
  refine ⟨⟨h.frame.startBitCount, h.frame.wordLength, h.frame.stopBitCount⟩, fun _ ↦ rfl,
    fun _ ↦ ?_, fun _ ↦ hlen, fun _ hrate ↦ ?_, h.ready⟩
  · exact Nat.lt_of_lt_of_le (Nat.succ_pos 6) hlen.1
  · have hrate : c.serial.traRate.isNever = false := hrate
    simp [hrate, ClockTimer.adjust, ClockTimer.running]

theorem bitsTransmitted_succ (hne : c.serial.traEmpty = false) :
    (c.bitsTransmitted + 1).toNat = c.serial.traBitCountTransmitted + 1 := by
  have hsent := h.sent hne
  have hlt := h.sent_lt hne
  have hcount := h.count hne
  rw [BitVec.toNat_add, hsent]
  exact Nat.mod_eq_of_lt (by change _ + 1 < 256; omega)

theorem bitSent (hne : c.serial.traEmpty = false) : TxInvariant c.bitSent := by
  have hlt := h.sent_lt hne
  simp only [Channel.bitSent, Serial.transmitRegisterGetDataBit_snd]
  refine ⟨⟨h.frame.startBitCount, h.frame.wordLength, h.frame.stopBitCount⟩,
    fun _ ↦ h.bitsTransmitted_succ hne, fun he ↦ ?_, fun _ ↦ h.count hne, fun _ ↦
    h.clock hne, h.ready⟩
  simp only [Bool.or_eq_false_iff, decide_eq_false_iff_not] at he
  dsimp only
  omega

end TxInvariant

section

variable (h : TxInvariant p.chan)
include h

theorem txInvariant_traCallback (hne : p.chan.serial.traEmpty = false) :
    TxInvariant (traCallback p).chan :=
  txClosed_txInvariant.traCallback (fun _ ↦ h.bitSent hne)
    fun _ hbuffer _ ↦ (h.bitSent hne).setReady hbuffer

theorem txInvariant_traComplete : TxInvariant (traComplete p).chan := by
  refine txClosed_txInvariant.traComplete (fun _ ↦ ?_) fun _ ↦ h
  have hl := h.loaded p.chan.txData
  exact ⟨hl.frame, hl.sent, hl.sent_lt, hl.count, hl.clock, fun _ ↦ rfl⟩

theorem txInvariant_traEdge : TxInvariant (serialDevice.traEdge p).chan := by
  have hshift : TxInvariant (serialDevice.traShift p).chan := by
    simp only [SerialDevice.traShift]
    split_ifs with hne
    · exact txInvariant_traComplete (txInvariant_traCallback h hne)
    · exact txInvariant_traCallback h hne
    · exact h
  simp only [SerialDevice.traEdge]
  split_ifs with hstop
  · -- the clock is stopped only with nothing left to send
    have hempty : (serialDevice.traShift p).chan.serial.traEmpty = true := by
      rw [Bool.and_eq_true] at hstop
      exact hstop.1
    exact .of_empty ⟨hshift.frame.startBitCount, hshift.frame.wordLength,
      hshift.frame.stopBitCount⟩ hempty hshift.ready
  · exact hshift

theorem txInvariant_txClockW (state : Bool) : TxInvariant (serialDevice.txClockW state p).chan := by
  have hstate : TxInvariant
      (serialDevice.update (fun s ↦ { s with traClockState := state }) p).chan :=
    ⟨⟨h.frame.startBitCount, h.frame.wordLength, h.frame.stopBitCount⟩, h.sent, h.sent_lt, h.count,
      h.clock, h.ready⟩
  simp only [SerialDevice.txClockW]
  split_ifs
  · exact txInvariant_traEdge hstate
  · exact hstate
  · exact h

theorem txInvariant_traClock : TxInvariant (serialDevice.traClock p).chan := by
  simp only [SerialDevice.traClock]
  split_ifs
  · exact txInvariant_txClockW h _
  · exact h

theorem txInvariant_tx16xClockW (state : Bool) : TxInvariant (tx16xClockW state p).chan := by
  have hpre (n : BitVec 8) : TxInvariant { p.chan with txPrescaler := n } :=
    txClosed_txInvariant.same h ⟨rfl, rfl, rfl, rfl, rfl, rfl, rfl, rfl⟩
  simp only [tx16xClockW]
  split_ifs
  · refine txInvariant_txClockW ?_ _
    exact hpre _
  · refine txInvariant_txClockW ?_ _
    exact hpre _
  · exact hpre _
  · exact h

theorem txInvariant_writeTX (data : BitVec 8) : TxInvariant (writeTX data p).chan := by
  have hclear : TxInvariant p.chan.clearReady :=
    ⟨h.frame, h.sent, h.sent_lt, h.count, h.clock, fun hr ↦ absurd hr (by simp)⟩
  refine txClosed_txInvariant.writeTX (fun _ ↦ h) (fun _ _ ↦ ?_) fun _ _ ↦ hclear.loaded data
  refine ⟨h.frame, h.sent, h.sent_lt, h.count, h.clock, fun hr ↦ absurd hr ?_⟩
  exact (Bool.not_eq_true _).mpr (txReady_clearReady p.chan)

end

theorem txInvariant_commanded (h : TxInvariant c) (data : BitVec 8) :
    TxInvariant (c.commanded data) := by
  have hreset : TxInvariant c.transmitterReset :=
    .of_empty ⟨h.frame.startBitCount, h.frame.wordLength, h.frame.stopBitCount⟩ rfl fun _ ↦ rfl
  have henable {c : Channel} (h : TxInvariant c) : TxInvariant c.transmitterEnabled :=
    ⟨h.frame, h.sent, h.sent_lt, h.count, h.clock, fun _ ↦ rfl⟩
  have hdisable {c : Channel} (h : TxInvariant c) : TxInvariant c.transmitterDisabled :=
    ⟨h.frame, h.sent, h.sent_lt, h.count, h.clock, fun _ ↦ rfl⟩
  have hcommand : TxInvariant (if crMisc data = 3 then c.transmitterReset else c) := by
    split_ifs
    · exact hreset
    · exact h
  simp only [Channel.commanded]
  generalize (if crMisc data = 3 then c.transmitterReset else c) = c' at hcommand ⊢
  split_ifs
  · exact hdisable (henable hcommand)
  · exact hdisable hcommand
  · exact henable hcommand
  · exact hcommand

theorem txInvariant_writeCR (h : TxInvariant p.chan) (data : BitVec 8) :
    TxInvariant (writeCR data p).chan := by
  obtain ⟨c, hsame, hc⟩ := txSame_writeCR data p
  have hmask := txClosed_txInvariant.mask
    (txClosed_txInvariant.same (txInvariant_commanded h data) hsame)
  rw [hc]
  exact ⟨hmask.frame, hmask.sent, hmask.sent_lt, hmask.count, hmask.clock, hmask.ready⟩

theorem sameRegister_setDataFrame (start dataBits : ℕ) (parity : Parity) (stopBits : StopBits)
    (s : Serial) : (s.setDataFrame start dataBits parity stopBits).traEmpty = s.traEmpty ∧
      (s.setDataFrame start dataBits parity stopBits).traBitCountTransmitted =
        s.traBitCountTransmitted ∧
      (s.setDataFrame start dataBits parity stopBits).traBitCount = s.traBitCount ∧
      (s.setDataFrame start dataBits parity stopBits).traRate = s.traRate ∧
      (s.setDataFrame start dataBits parity stopBits).traClock = s.traClock := by
  simp only [Serial.setDataFrame]
  split_ifs <;> exact ⟨rfl, rfl, rfl, rfl, rfl⟩

theorem TxInvariant.setDataFrame (h : TxInvariant c) {dataBits : ℕ} {parity : Parity}
    {stopBits : StopBits} (hword : 5 ≤ dataBits ∧ dataBits ≤ 8) (hstop : stopBits ≠ .zero) :
    TxInvariant { c with serial := c.serial.setDataFrame 1 dataBits parity stopBits } := by
  obtain ⟨hempty, hsent, hcount, hrate, hclock⟩ :=
    sameRegister_setDataFrame 1 dataBits parity stopBits c.serial
  refine ⟨Serial.dataFrame_setDataFrame hword hstop, ?_, ?_, ?_, ?_, h.ready⟩
  · rw [hempty, hsent]
    exact h.sent
  · rw [hempty, hsent, hcount]
    exact h.sent_lt
  · rw [hempty, hcount]
    exact h.count
  · rw [hempty, hrate, hclock]
    exact h.clock

theorem txInvariant_recalcFraming (h : TxInvariant c) : TxInvariant (recalcFraming c) := by
  refine h.setDataFrame ?_ ?_
  · have hle : (c.mr1 &&& 3).toNat ≤ 3 := by
      rw [BitVec.toNat_and]
      exact Nat.and_le_right
    omega
  · split <;> simp

theorem txInvariant_writeMR (h : TxInvariant p.chan) (data : BitVec 8) :
    TxInvariant (writeMR data p).chan := by
  refine txClosed_txInvariant.mask (txInvariant_recalcFraming ?_)
  split_ifs
  · exact ⟨h.frame, h.sent, h.sent_lt, h.count, h.clock, h.ready⟩
  · exact ⟨h.frame, h.sent, h.sent_lt, h.count, h.clock, h.ready⟩

theorem txInvariant_writeCSR (h : TxInvariant p.chan) (data : BitVec 8) :
    TxInvariant (writeCSR data p).chan := by
  exact .of_empty ⟨h.frame.startBitCount, h.frame.wordLength, h.frame.stopBitCount⟩ rfl h.ready

/-- Nothing is going on in the transmitter. -/
structure TxIdle (c : Channel) : Prop where
  disabled : c.txEnabled = false
  empty : c.serial.traEmpty = true
  notReady : c.txReady = false

theorem txClosed_txIdle : TxClosed TxIdle where
  same h hs := ⟨hs.txEnabled ▸ h.disabled, hs.sameTransmitter.traEmpty ▸ h.empty,
    hs.txReady ▸ h.notReady⟩
  mask {c} h := by
    rw [maskTxReady]
    split_ifs
    · exact ⟨h.disabled, h.empty, by simp [txReady, statusTransmitterReady]⟩
    · exact h

theorem txIdle_writeCR {data : BitVec 8} (h : TxIdle (p.chan.commanded data)) :
    TxIdle (writeCR data p).chan := by
  obtain ⟨c, hsame, hc⟩ := txSame_writeCR data p
  have hmask := txClosed_txIdle.mask (txClosed_txIdle.same h hsame)
  rw [hc]
  exact ⟨hmask.disabled, hmask.empty, hmask.notReady⟩

/-- A reset leaves the transmitter idle, whatever it was before. -/
theorem txIdle_channelReset (p : Port) : TxIdle (channelReset p).chan := by
  have h3 : TxIdle (writeCR 0x30 (writeCR 0x20 (writeCR 0x10 p))).chan := by
    refine txIdle_writeCR ?_
    have hreset (c : Channel) : c.commanded 0x30 = c.transmitterReset := by
      simp [Channel.commanded, crMisc]
    rw [hreset]
    exact ⟨rfl, rfl, txReady_clearReady _⟩
  have h4 : TxIdle (writeCR 0x40 (writeCR 0x30 (writeCR 0x20 (writeCR 0x10 p)))).chan := by
    refine txIdle_writeCR ?_
    have hsame (c : Channel) : c.commanded 0x40 = c := by
      simp [Channel.commanded, crMisc]
    rw [hsame]
    exact h3
  rw [channelReset, Port.onChan_chan]
  exact ⟨h4.disabled, (sameRegister_setDataFrame 1 8 .none .one _).1.trans h4.empty, h4.notReady⟩

theorem txInvariant_channelReset (p : Port) : TxInvariant (channelReset p).chan := by
  have hidle := txIdle_channelReset p
  refine .of_empty ?_ hidle.empty fun hr ↦ ?_
  · rw [channelReset, Port.onChan_chan]
    exact Serial.dataFrame_setDataFrame_reset _
  · rw [hidle.notReady] at hr
    cases hr

/-- **The invariant of the transmitter**, kept by every call into the channel. -/
theorem TxInvariant.apply (h : TxInvariant p.chan) (hfifo : RxFifo p.chan) (op : Operation) :
    TxInvariant (op.apply p).chan := by
  have hI := txClosed_txInvariant
  cases op with
  | read reg => exact hI.readChanReg h hfifo reg
  | write reg data =>
    simp only [Operation.apply, writeChanReg]
    split
    · exact txInvariant_writeMR h data
    · exact txInvariant_writeCSR h data
    · exact txInvariant_writeCR h data
    · exact txInvariant_writeTX h data
    · exact h
  | baudUpdated => exact txInvariant_writeCSR h _
  | updateInterrupts => exact hI.updateInterrupts h
  | rxW state => exact hI.onSerial h (by simp)
  | traClock => exact txInvariant_traClock h
  | rcvClock => exact hI.rcvClock h
  | tx16xClockW state => exact txInvariant_tx16xClockW h state
  | rx16xClockW state => exact hI.rx16xClockW h state
  | reset => exact txInvariant_channelReset p

/-! ## Clock edges in normal mode -/

/-- A bit sent in normal mode goes to the transmit line, and `TxRDY` is set after the start bit
unless another byte waits. -/
theorem traCallback_of_normal (h : p.chan.mode = modeNormal) :
    (traCallback p).chan =
        (if 1 < p.chan.bitsTransmitted + 1 ∧ p.chan.txDataInBuffer = false ∧
          p.chan.txEnabled = true then p.chan.bitSent.setReady else p.chan.bitSent) ∧
      (traCallback p).uart.txLine p.chan.ch =
        p.uart.txLine p.chan.ch ++ [p.chan.serial.transmitRegisterGetDataBit.1] := by
  have hmode : p.chan.mode ≠ modeLocalLoopback := by
    rw [h]
    decide
  have hmask : p.chan.bitSent.setReady.maskTxReady = p.chan.bitSent.setReady :=
    maskTxReady_of_normal h
  have hline (u : Uart) (ch : ChannelId) (bit : Bool) :
      (u.writeTx ch bit).txLine ch = u.txLine ch ++ [bit] := by
    cases ch <;> rfl
  simp only [traCallback]
  split_ifs with hloop hfire hfire' hfire' <;> try exact absurd hmode hloop
  · exact ⟨hmask, ((same_updateInterrupts _).txLine _).trans (hline _ _ _)⟩
  · exact absurd hfire hfire'
  · exact absurd hfire' hfire
  · exact ⟨rfl, hline _ _ _⟩

/-- The register empties in normal mode: the byte that waits enters it. -/
theorem traComplete_of_normal (h : p.chan.mode = modeNormal) :
    (traComplete p).chan =
        (if p.chan.txDataInBuffer = true then
          { p.chan.loaded p.chan.txData with txDataInBuffer := false }.setReady
        else { p.chan with sr := p.chan.sr ||| statusTransmitterEmpty }) ∧
      (traComplete p).uart.txLine p.chan.ch = p.uart.txLine p.chan.ch := by
  simp only [traComplete]
  split_ifs
  · exact ⟨maskTxReady_of_normal h, (same_updateInterrupts _).txLine _⟩
  · exact ⟨maskTxReady_of_normal h, (same_updateInterrupts _).txLine _⟩

end RoscoEmulator.Duart
