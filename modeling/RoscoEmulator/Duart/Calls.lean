import RoscoEmulator.Duart.Channel

/-!
# What a channel asks of its owner

A channel reaches the registers of the DUART through few functions: it sets and clears its own
interrupt status bits, and drives its transmit line. `Uart.Calls` is the closure of these, and
`called_apply` says that a call into a channel does nothing else to its owner. A property of the
owner's registers that these functions keep is then kept by every call into a channel.
-/

namespace RoscoEmulator.Duart

/-! ## Operations -/

/-- A call into a channel. -/
inductive Operation
  | read (reg : ℕ)
  | write (reg : ℕ) (data : BitVec 8)
  | baudUpdated
  | updateInterrupts
  | rxW (state : Bool)
  | traClock
  | rcvClock
  | tx16xClockW (state : Bool)
  | rx16xClockW (state : Bool)
  | reset

def Operation.apply : Operation → Port → Port
  | .read reg, p => (readChanReg reg p).2
  | .write reg data, p => writeChanReg reg data p
  | .baudUpdated, p => Duart.baudUpdated p
  | .updateInterrupts, p => Duart.updateInterrupts p
  | .rxW state, p => p.onSerial (Serial.rxW state)
  | .traClock, p => serialDevice.traClock p
  | .rcvClock, p => serialDevice.rcvClock p
  | .tx16xClockW state, p => Duart.tx16xClockW state p
  | .rx16xClockW state, p => Duart.rx16xClockW state p
  | .reset, p => channelReset p

/-! ## The calls of a channel -/

/-- The interrupt status bits of a channel. -/
def channelInterrupts (ch : ChannelId) : List (BitVec 8) :=
  [intTxrdy ch, intRxrdyFfull ch, intDeltaBreak ch]

variable (data : BitVec 8) (ch : ChannelId) (p : Port)

theorem intTxrdy_mem : intTxrdy ch ∈ channelInterrupts ch := by
  simp [channelInterrupts]

theorem intRxrdyFfull_mem : intRxrdyFfull ch ∈ channelInterrupts ch := by
  simp [channelInterrupts]

theorem intDeltaBreak_mem : intDeltaBreak ch ∈ channelInterrupts ch := by
  simp [channelInterrupts]

/-- The second state of the owner comes from the first by calls of channel `ch`. -/
inductive Uart.Calls (ch : ChannelId) (u : Uart) : Uart → Prop
  | refl : Calls ch u u
  | setIsrBits {u' : Uart} {mask : BitVec 8} (h : Calls ch u u')
      (hmask : mask ∈ channelInterrupts ch) : Calls ch u (u'.setIsrBits mask)
  | clearIsrBits {u' : Uart} {mask : BitVec 8} (h : Calls ch u u')
      (hmask : mask ∈ channelInterrupts ch) : Calls ch u (u'.clearIsrBits mask)
  | writeTx {u' : Uart} (bit : Bool) (h : Calls ch u u') : Calls ch u (u'.writeTx ch bit)

namespace Uart.Calls

variable {ch : ChannelId} {u u' u'' : Uart}

theorem trans (h : Calls ch u u') (h' : Calls ch u' u'') : Calls ch u u'' := by
  induction h' with
  | refl => exact h
  | setIsrBits _ hmask ih => exact ih.setIsrBits hmask
  | clearIsrBits _ hmask ih => exact ih.clearIsrBits hmask
  | writeTx bit _ ih => exact ih.writeTx bit

theorem keep {I : Uart → Prop} (h : Calls ch u u')
    (hset : ∀ u mask, mask ∈ channelInterrupts ch → I u → I (u.setIsrBits mask))
    (hclear : ∀ u mask, mask ∈ channelInterrupts ch → I u → I (u.clearIsrBits mask))
    (htx : ∀ u bit, I u → I (u.writeTx ch bit)) (hI : I u) : I u' := by
  induction h with
  | refl => exact hI
  | setIsrBits _ hmask ih => exact hset _ _ hmask ih
  | clearIsrBits _ hmask ih => exact hclear _ _ hmask ih
  | writeTx bit _ ih => exact htx _ bit ih

end Uart.Calls

/-- The channel of the second port is that of the first after some calls on the owner, which also
give the transmitter a new rate, if it has one. -/
structure Called (p p' : Port) : Prop where
  ch : p'.chan.ch = p.chan.ch
  calls : Uart.Calls p.chan.ch p.uart p'.uart
  baud : p'.chan.txBaudRate = p.chan.txBaudRate ∨ ∃ u data, Uart.Calls p.chan.ch p.uart u ∧
    p'.chan.txBaudRate = u.calcBaud p.chan.ch false data

namespace Called

variable {p p' p'' : Port}

theorem refl (p : Port) : Called p p := ⟨rfl, .refl, .inl rfl⟩

theorem trans (h : Called p p') (h' : Called p' p'') : Called p p'' where
  ch := h'.ch.trans h.ch
  calls := h.calls.trans (h.ch ▸ h'.calls)
  baud := by
    rcases h'.baud with hsame | ⟨u, data, hcalls, hbaud⟩
    · rw [hsame]
      exact h.baud
    · rw [h.ch] at hcalls hbaud
      exact .inr ⟨u, data, h.calls.trans hcalls, hbaud⟩

theorem onChan {f : Channel → Channel} (h : Called p p') (hf : (f p'.chan).ch = p'.chan.ch)
    (hbaud : (f p'.chan).txBaudRate = p'.chan.txBaudRate) : Called p (p'.onChan f) :=
  h.trans ⟨hf, .refl, .inl hbaud⟩

theorem onSerial (h : Called p p') (f : Serial → Serial) : Called p (p'.onSerial f) :=
  h.onChan rfl rfl

theorem setIsrBits {mask : BitVec 8} (h : Called p p')
    (hmask : mask ∈ channelInterrupts p'.chan.ch) : Called p (p'.onUart (Uart.setIsrBits mask)) :=
  h.trans ⟨rfl, .setIsrBits .refl hmask, .inl rfl⟩

theorem clearIsrBits {mask : BitVec 8} (h : Called p p')
    (hmask : mask ∈ channelInterrupts p'.chan.ch) : Called p (p'.onUart (Uart.clearIsrBits mask)) :=
  h.trans ⟨rfl, .clearIsrBits .refl hmask, .inl rfl⟩

theorem writeTx (h : Called p p') (bit : Bool) :
    Called p (p'.onUart (Uart.writeTx p'.chan.ch bit)) :=
  h.trans ⟨rfl, .writeTx bit .refl, .inl rfl⟩

theorem updateInterrupts (h : Called p p') : Called p (updateInterrupts p') := by
  have hch : p'.chan.maskTxReady.ch = p'.chan.ch ∧
      p'.chan.maskTxReady.txBaudRate = p'.chan.txBaudRate := by
    rw [Channel.maskTxReady]
    split_ifs <;> exact ⟨rfl, rfl⟩
  have hreport {u : Uart} (hu : Uart.Calls p'.chan.ch p'.uart u) (b : Prop) [Decidable b]
      {mask : BitVec 8} (hmask : mask ∈ channelInterrupts p'.chan.ch) :
      Uart.Calls p'.chan.ch p'.uart (if b then u.setIsrBits mask else u.clearIsrBits mask) := by
    split_ifs
    · exact hu.setIsrBits hmask
    · exact hu.clearIsrBits hmask
  refine h.trans ⟨hch.1, ?_, .inl hch.2⟩
  rw [Duart.updateInterrupts]
  simp only [hch.1]
  exact hreport (hreport .refl _ (intTxrdy_mem _)) _ (intRxrdyFfull_mem _)

theorem rxFifoPush (h : Called p p') (data errors : BitVec 8) :
    Called p (rxFifoPush data errors p') := (h.onChan rfl rfl).updateInterrupts

end Called

theorem called_rcvComplete : Called p (rcvComplete p) := by
  simp only [rcvComplete]
  split_ifs
  all_goals first
    | exact ((Called.refl p).onSerial _).rxFifoPush _ _
    | exact (Called.refl p).onSerial _

theorem called_traComplete : Called p (traComplete p) := by
  simp only [traComplete]
  split_ifs
  · exact (((Called.refl p).onSerial _).onChan rfl rfl).updateInterrupts
  · exact ((Called.refl p).onChan rfl rfl).updateInterrupts

theorem called_traCallback : Called p (traCallback p) := by
  have hserial := (Called.refl p).onSerial fun _ ↦ p.chan.serial.transmitRegisterGetDataBit.2
  simp only [traCallback]
  split_ifs
  · exact (((hserial.writeTx _).onChan rfl rfl).onChan rfl rfl).updateInterrupts
  · exact (hserial.writeTx _).onChan rfl rfl
  · exact (((hserial.onSerial _).onChan rfl rfl).onChan rfl rfl).updateInterrupts
  · exact (hserial.onSerial _).onChan rfl rfl

theorem keeps_called : serialDevice.Keeps (Called p) where
  update f _ h := h.onSerial f
  traCallback p' h := h.trans (called_traCallback p')
  traComplete p' h := h.trans (called_traComplete p')
  rcvCallback _ h := h.onSerial _
  rcvComplete p' h := h.trans (called_rcvComplete p')

theorem called_writeTX : Called p (writeTX data p) := by
  simp only [writeTX]
  split_ifs
  · exact .refl p
  · exact (((Called.refl p).onChan rfl rfl).onChan rfl rfl).updateInterrupts
  · exact ((((Called.refl p).onChan rfl rfl).onSerial _).onChan rfl rfl).updateInterrupts

/-- The clock inputs have no rate where the timer drives them. -/
theorem calcBaud_timer (u : Uart) (ch : ChannelId) : u.calcBaud ch false 0xd = 0 := by
  delta Uart.calcBaud
  cases ch <;>
    · dsimp only
      split_ifs <;> first | rfl | contradiction

theorem called_writeCSR : Called p (writeCSR data p) :=
  ⟨rfl, .refl, .inr ⟨p.uart, data &&& 0xf, .refl, rfl⟩⟩

theorem called_writeMR : Called p (writeMR data p) := by
  simp only [writeMR]
  split_ifs <;> exact (((Called.refl p).onChan rfl rfl).onChan rfl rfl).updateInterrupts

theorem called_crCommand : Called p (crCommand data p) := by
  have hreset : Called p (p.onUart fun u ↦
      (u.writeTx p.chan.ch true).clearIsrBits (intTxrdy p.chan.ch)) :=
    ((Called.refl p).writeTx true).clearIsrBits (intTxrdy_mem _)
  simp only [crCommand]
  split
  · exact (Called.refl p).onChan rfl rfl
  · exact (Called.refl p).onChan rfl rfl
  · exact hreset.onChan rfl rfl
  · exact (Called.refl p).onChan rfl rfl
  · exact (Called.refl p).clearIsrBits (intDeltaBreak_mem _)
  · split_ifs
    · exact (((Called.refl p).onChan rfl rfl).setIsrBits (intDeltaBreak_mem _)).rxFifoPush _ _
    · exact (Called.refl p).onChan rfl rfl
    · exact .refl p
  · split_ifs
    · exact ((Called.refl p).onChan rfl rfl).setIsrBits (intDeltaBreak_mem _)
    · exact (Called.refl p).onChan rfl rfl
    · exact .refl p
  · exact .refl p

theorem called_crReceiver : Called p (crReceiver data p) := by
  simp only [crReceiver]
  split_ifs
  · exact ((Called.refl p).onChan rfl rfl).onChan rfl rfl
  · exact (Called.refl p).onChan rfl rfl
  · exact (Called.refl p).onChan rfl rfl
  · exact .refl p

theorem called_crTransmitter : Called p (crTransmitter data p) := by
  simp only [crTransmitter]
  split_ifs
  · exact ((((Called.refl p).onChan rfl rfl).setIsrBits (intTxrdy_mem _)).onChan rfl
      rfl).clearIsrBits (intTxrdy_mem _)
  · exact ((Called.refl p).onChan rfl rfl).clearIsrBits (intTxrdy_mem _)
  · exact ((Called.refl p).onChan rfl rfl).setIsrBits (intTxrdy_mem _)
  · exact .refl p

theorem called_writeCR : Called p (writeCR data p) :=
  (((called_crCommand data p).trans (called_crReceiver data _)).trans
    (called_crTransmitter data _)).updateInterrupts.onChan rfl rfl

theorem called_readChanReg (reg : ℕ) (p : Port) : Called p (readChanReg reg p).2 := by
  have hread : Called p (readRxFifo p).2 := by
    rw [readRxFifo]
    split_ifs
    · exact (Called.refl p).updateInterrupts
    · exact Called.updateInterrupts (.onChan (.refl p) rfl rfl)
  simp only [readChanReg]
  split
  · split_ifs
    · exact ⟨rfl, .refl, .inl rfl⟩
    · exact .refl p
  · exact .refl p
  · exact hread
  · exact .refl p

theorem called_tx16xClockW (state : Bool) (p : Port) : Called p (tx16xClockW state p) := by
  have hpre (n : BitVec 8) : Called p (p.onChan fun c ↦ { c with txPrescaler := n }) :=
    (Called.refl p).onChan rfl rfl
  simp only [tx16xClockW]
  split_ifs
  · exact (hpre _).trans ((keeps_called _).txClockW (.refl _) _)
  · exact (hpre _).trans ((keeps_called _).txClockW ((Called.refl _).onChan rfl rfl) _)
  · exact hpre _
  · exact .refl p

theorem called_rx16xClockW (state : Bool) (p : Port) : Called p (rx16xClockW state p) := by
  have hpre (n : BitVec 8) : Called p (p.onChan fun c ↦ { c with rxPrescaler := n }) :=
    (Called.refl p).onChan rfl rfl
  simp only [rx16xClockW]
  split_ifs
  · exact (hpre _).trans ((keeps_called _).rxClockW (.refl _) _)
  · exact (hpre _).trans ((keeps_called _).rxClockW (.refl _) _)
  · exact (hpre _).trans ((keeps_called _).rxClockW ((Called.refl _).onChan rfl rfl) _)
  · exact hpre _
  · exact .refl p

/-- **What a call into a channel does to its owner.** -/
theorem called_apply (op : Operation) (p : Port) : Called p (op.apply p) := by
  cases op with
  | read reg => exact called_readChanReg reg p
  | write reg data =>
    simp only [Operation.apply, writeChanReg]
    split
    · exact called_writeMR data p
    · exact called_writeCSR data p
    · exact called_writeCR data p
    · exact called_writeTX data p
    · exact .refl p
  | baudUpdated => exact called_writeCSR p.chan.csr p
  | updateInterrupts => exact (Called.refl p).updateInterrupts
  | rxW state => exact (Called.refl p).onSerial _
  | traClock => exact (keeps_called p).traClock (.refl p)
  | rcvClock => exact (keeps_called p).rcvClock (.refl p)
  | tx16xClockW state => exact called_tx16xClockW state p
  | rx16xClockW state => exact called_rx16xClockW state p
  | reset =>
    have hcommands := (((called_writeCR 0x10 p).trans (called_writeCR 0x20 _)).trans
      (called_writeCR 0x30 _)).trans (called_writeCR 0x40 _)
    exact ⟨hcommands.ch, hcommands.calls, .inr ⟨p.uart, 0xd, .refl, (calcBaud_timer _ _).symm⟩⟩

end RoscoEmulator.Duart
