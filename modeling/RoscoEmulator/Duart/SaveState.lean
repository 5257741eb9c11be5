import RoscoEmulator.Duart.Device
import RoscoEmulator.Emu.TransmitFrame

/-!
# Save states of a channel

A save state of a channel has the members that `device_start` and `interface_post_start` register.
The prescalers of the timer driven clocks are not among them, so that two states with the same save
state may count the pulses of the timer differently. `outputs_eq_of_sameRegistered` says that
nothing else is missing: as long as each pulse leaves the two clocks at the same level, all that can
be seen of the two channels is the same. -/

namespace RoscoEmulator

namespace Duart

open Channel

/-! ## The registered members -/

/-- The two states agree on every member that is saved: on all but the channel number, the
prescalers and `m_start_bit_hack_for_external_clocks`. The scheduler saves the clock timers. -/
def Channel.SameRegistered (c c' : Channel) : Prop :=
  c' = { c with
    ch := c'.ch
    rxPrescaler := c'.rxPrescaler
    txPrescaler := c'.txPrescaler
    serial := { c.serial with
      startBitHackForExternalClocks := c'.serial.startBitHackForExternalClocks } }

/-- A state of the channel that some run of the device reaches. -/
def Channel.Reachable (ch : ChannelId) (c : Channel) : Prop :=
  ∃ storage es, c = (Run.run Device.step (.powerOn storage) es).chan ch

/-! ## What can be seen of a channel -/

/-- What reaches a channel: a call, or a change of the owner's registers that it does not make
itself. -/
inductive Input
  | call (op : Operation)
  | owner (f : Uart → Uart)

def Input.apply : Input → Port → Port
  | .call op, p => op.apply p
  | .owner f, p => p.onUart f

/-- The byte that the host gets of a read. -/
def Input.value : Input → Port → Option (BitVec 8)
  | .call (.read reg), p => some (readChanReg reg p).1
  | _, _ => none

/-- What can be seen of a channel when an input has been handled: the byte read, the levels driven
on the transmit line so far, the interrupt status and the levels driven on the interrupt line so
far. -/
structure Output where
  value : Option (BitVec 8)
  txd : List Bool
  isr : BitVec 8
  irq : List Bool
deriving DecidableEq

/-- The outputs of a channel on a sequence of inputs. -/
def outputs (p : Port) : List Input → List Output
  | [] => []
  | i :: is =>
      let p' := i.apply p
      ⟨i.value p, p'.uart.txLine p'.chan.ch, p'.uart.isr, p'.uart.writeIrq⟩ :: outputs p' is

/-! ## Prescalers -/

/-- The level of the transmit clock after a pulse of the timer. -/
def Channel.txLevel (c : Channel) : Bool :=
  if c.txPrescaler - 1 = 8 then true else if c.txPrescaler - 1 = 0 then false
  else c.serial.traClockState

/-- The level of the receive clock after a pulse of the timer, in a character. -/
def Channel.rxLevel (c : Channel) : Bool :=
  if c.rxPrescaler - 1 = 8 then false else if c.rxPrescaler - 1 = 0 then true
  else c.serial.rcvClockState

/-- Two ports that go on together. -/
def stepBoth (s : Port × Port) (i : Input) : Port × Port := (i.apply s.1, i.apply s.2)

/-- A pulse of the timer leaves the clocks of the two channels at the same level. -/
def Paced (s : Port × Port) : Input → Prop
  | .call (.tx16xClockW true) => s.1.chan.txLevel = s.2.chan.txLevel
  | .call (.rx16xClockW true) =>
      s.1.chan.serial.rcvSynchronised → s.1.chan.rxLevel = s.2.chan.rxLevel
  | _ => True

instance decidablePaced (s : Port × Port) : DecidablePred (Paced s)
  | .call (.tx16xClockW true) => inferInstanceAs (Decidable (s.1.chan.txLevel = s.2.chan.txLevel))
  | .call (.rx16xClockW true) => inferInstanceAs (Decidable
      (s.1.chan.serial.rcvSynchronised → s.1.chan.rxLevel = s.2.chan.rxLevel))
  | .call (.tx16xClockW false) | .call (.rx16xClockW false) | .call (.read _) | .call (.write _ _)
  | .call .baudUpdated | .call .updateInterrupts | .call (.rxW _) | .call .traClock
  | .call .rcvClock | .call .reset | .owner _ => instDecidableTrue

/-- The channel with other prescalers. -/
@[simps] def Channel.withPrescalers (rx tx : BitVec 8) (c : Channel) : Channel :=
  { c with rxPrescaler := rx, txPrescaler := tx }

@[simp] theorem Channel.withPrescalers_mode (rx tx : BitVec 8) (c : Channel) :
    (c.withPrescalers rx tx).mode = c.mode := rfl

/-! ## Calls that do not read the prescalers -/

/-- The two ports differ only in the prescalers, which are `rx` and `tx` in the second. -/
structure Twin (rx tx : BitVec 8) (p p' : Port) : Prop where
  uart : p'.uart = p.uart
  chan : p'.chan = p.chan.withPrescalers rx tx

namespace Twin

variable {rx tx : BitVec 8} {p p' : Port} (h : Twin rx tx p p')
include h

theorem onUart (f : Uart → Uart) : Twin rx tx (p.onUart f) (p'.onUart f) :=
  ⟨congrArg f h.uart, h.chan⟩

theorem onChan {f : Channel → Channel}
    (hf : ∀ c, f (c.withPrescalers rx tx) = (f c).withPrescalers rx tx) :
    Twin rx tx (p.onChan f) (p'.onChan f) := by
  refine ⟨h.uart, ?_⟩
  rw [Port.onChan_chan, Port.onChan_chan, h.chan, hf]

theorem prescale {rx' tx' : BitVec 8} {f : Channel → Channel}
    (hf : ∀ c, f (c.withPrescalers rx tx) = (f c).withPrescalers rx' tx') :
    Twin rx' tx' (p.onChan f) (p'.onChan f) := by
  refine ⟨h.uart, ?_⟩
  rw [Port.onChan_chan, Port.onChan_chan, h.chan, hf]

theorem onOwner (f : ChannelId → Uart → Uart) :
    Twin rx tx (p.onUart (f p.chan.ch)) (p'.onUart (f p'.chan.ch)) := by
  rw [h.chan]
  exact h.onUart _

theorem onSerial (f : Serial → Serial) : Twin rx tx (p.onSerial f) (p'.onSerial f) :=
  h.onChan fun _ ↦ rfl

theorem updateInterrupts : Twin rx tx (updateInterrupts p) (updateInterrupts p') := by
  have hmask : p'.chan.maskTxReady = p.chan.maskTxReady.withPrescalers rx tx := by
    rw [h.chan, maskTxReady, maskTxReady, withPrescalers_mode]
    split_ifs <;> rfl
  refine ⟨?_, hmask⟩
  simp only [Duart.updateInterrupts, hmask, h.uart, withPrescalers_sr,
    withPrescalers_mr1, withPrescalers_ch]

variable (data : BitVec 8)

theorem rxFifoPush (errors : BitVec 8) :
    Twin rx tx (rxFifoPush data errors p) (rxFifoPush data errors p') :=
  updateInterrupts (h.onChan fun _ ↦ rfl)

theorem rcvComplete : Twin rx tx (rcvComplete p) (rcvComplete p') := by
  have hserial := h.onSerial Serial.receiveRegisterExtract
  simp only [Duart.rcvComplete, hserial.chan, Channel.withPrescalers_rxEnabled,
    withPrescalers_serial, withPrescalers_mode]
  split
  · exact hserial.rxFifoPush _ _
  · exact hserial

theorem traComplete : Twin rx tx (traComplete p) (traComplete p') := by
  simp only [Duart.traComplete, h.chan, withPrescalers_txDataInBuffer,
    withPrescalers_txData]
  split_ifs
  · exact updateInterrupts (onChan (h.onSerial _) fun _ ↦ rfl)
  · exact updateInterrupts (h.onChan fun _ ↦ rfl)

theorem sentBit :
    Twin rx tx
      (if 1 < p.chan.bitsTransmitted ∧ p.chan.txDataInBuffer = false ∧ p.chan.txEnabled then
        Duart.updateInterrupts (p.onChan fun c ↦ { c with sr := c.sr ||| statusTransmitterReady })
        else p)
      (if 1 < p'.chan.bitsTransmitted ∧ p'.chan.txDataInBuffer = false ∧ p'.chan.txEnabled then
        Duart.updateInterrupts (p'.onChan fun c ↦ { c with sr := c.sr ||| statusTransmitterReady })
        else p') := by
  simp only [h.chan, Channel.withPrescalers_bitsTransmitted, withPrescalers_txDataInBuffer,
    withPrescalers_txEnabled]
  split_ifs
  · exact updateInterrupts (h.onChan fun _ ↦ rfl)
  · exact h

theorem traCallback : Twin rx tx (traCallback p) (traCallback p') := by
  have hserial := h.onSerial fun _ ↦ p.chan.serial.transmitRegisterGetDataBit.2
  simp only [Duart.traCallback, h.chan, hserial.chan, withPrescalers_serial,
    withPrescalers_mode, withPrescalers_ch]
  refine sentBit (onChan ?_ fun _ ↦ rfl)
  split_ifs
  · exact hserial.onUart _
  · exact hserial.onSerial _

theorem writeTX : Twin rx tx (writeTX data p) (writeTX data p') := by
  have hready : Twin rx tx
      (p.onChan fun c ↦ { c with
      sr := c.sr &&& ~~~(statusTransmitterReady ||| statusTransmitterEmpty) }) (p'.onChan fun c ↦
        { c with sr := c.sr &&& ~~~(statusTransmitterReady ||| statusTransmitterEmpty) }) :=
    h.onChan fun _ ↦ rfl
  simp only [Duart.writeTX, h.chan, hready.chan, withPrescalers_sr,
    withPrescalers_serial]
  split_ifs
  · exact h
  · exact updateInterrupts (hready.onChan fun _ ↦ rfl)
  · exact updateInterrupts (onChan (hready.onSerial _) fun _ ↦ rfl)

theorem writeMR : Twin rx tx (writeMR data p) (writeMR data p') := by
  have hframe (c : Channel) : recalcFraming (c.withPrescalers rx tx) =
      (recalcFraming c).withPrescalers rx tx := rfl
  simp only [Duart.writeMR, h.chan, withPrescalers_mrPtr]
  split_ifs
  · have hmr : Twin rx tx (p.onChan fun c ↦ { c with mr1 := data, mrPtr := 1 })
        (p'.onChan fun c ↦ { c with mr1 := data, mrPtr := 1 }) := h.onChan fun _ ↦ rfl
    exact updateInterrupts (hmr.onChan hframe)
  · have hmr : Twin rx tx (p.onChan fun c ↦ { c with mr2 := data })
        (p'.onChan fun c ↦ { c with mr2 := data }) := h.onChan fun _ ↦ rfl
    exact updateInterrupts (hmr.onChan hframe)

theorem crCommand : Twin rx tx (crCommand data p) (crCommand data p') := by
  have hset : Twin rx tx (p.onChan fun c ↦ { c with txBreak := true })
    (p'.onChan fun c ↦ { c with txBreak := true }) := h.onChan fun _ ↦ rfl
  have hclear : Twin rx tx (p.onChan fun c ↦ { c with txBreak := false })
    (p'.onChan fun c ↦ { c with txBreak := false }) := h.onChan fun _ ↦ rfl
  simp only [Duart.crCommand, h.chan, hset.chan, hclear.chan, Channel.withPrescalers_txBreak,
    withPrescalers_mode, withPrescalers_ch]
  split
  · exact h.onChan fun _ ↦ rfl
  · exact h.onChan fun _ ↦ rfl
  · exact (h.onUart _).onChan fun _ ↦ rfl
  · exact h.onChan fun _ ↦ rfl
  · exact h.onUart _
  · split_ifs
    · exact (hset.onUart _).rxFifoPush _ _
    · exact hset
    · exact h
  · split_ifs
    · exact hclear.onUart _
    · exact hclear
    · exact h
  · exact h

theorem crReceiver : Twin rx tx (crReceiver data p) (crReceiver data p') := by
  simp only [Duart.crReceiver]
  split_ifs
  · refine onChan ?_ fun _ ↦ rfl
    exact h.onChan fun _ ↦ rfl
  · exact h.onChan fun _ ↦ rfl
  · exact h.onChan fun _ ↦ rfl
  · exact h

theorem crTransmitter : Twin rx tx (crTransmitter data p) (crTransmitter data p') := by
  have hdisable {q q' : Port} (hq : Twin rx tx q q') : Twin rx tx
      (if data.getLsbD 3 then
        let q := q.onChan fun c ↦
          { c with
            sr := c.sr &&& ~~~(statusTransmitterReady ||| statusTransmitterEmpty)
            txDataInBuffer := false
            txEnabled := false }
        q.onUart (Uart.clearIsrBits (intTxrdy q.chan.ch))
        else q)
      (if data.getLsbD 3 then
        let q := q'.onChan fun c ↦
          { c with
            sr := c.sr &&& ~~~(statusTransmitterReady ||| statusTransmitterEmpty)
            txDataInBuffer := false
            txEnabled := false }
        q.onUart (Uart.clearIsrBits (intTxrdy q.chan.ch))
        else q') := by
    split_ifs
    · refine onOwner ?_ fun ch ↦ Uart.clearIsrBits (intTxrdy ch)
      exact hq.onChan fun _ ↦ rfl
    · exact hq
  refine hdisable ?_
  rw [h.chan, Channel.withPrescalers_cr]
  split_ifs
  · refine onOwner ?_ fun ch ↦ Uart.setIsrBits (intTxrdy ch)
    exact h.onChan fun _ ↦ rfl
  · exact h

theorem writeCR : Twin rx tx (writeCR data p) (writeCR data p') :=
  ((((h.crCommand data).crReceiver data).crTransmitter data).updateInterrupts.onChan fun _ ↦ rfl)

theorem readRxFifo : (readRxFifo p').1 = (readRxFifo p).1 ∧
    Twin rx tx (readRxFifo p).2 (readRxFifo p').2 := by
  simp only [Duart.readRxFifo, h.chan, Channel.withPrescalers_rxFifoNum,
    Channel.withPrescalers_rxFifo, Channel.withPrescalers_rxFifoReadPtr]
  split_ifs
  · exact ⟨rfl, h.updateInterrupts⟩
  · exact ⟨rfl, updateInterrupts (h.onChan fun _ ↦ rfl)⟩

theorem readChanReg (reg : ℕ) : (readChanReg reg p').1 = (readChanReg reg p).1 ∧
    Twin rx tx (readChanReg reg p).2 (readChanReg reg p').2 := by
  have hmode : Twin rx tx (p.onChan fun c ↦ { c with mrPtr := 1 })
      (p'.onChan fun c ↦ { c with mrPtr := 1 }) := h.onChan fun _ ↦ rfl
  simp only [Duart.readChanReg, h.chan, withPrescalers_mrPtr, withPrescalers_mr1,
    Channel.withPrescalers_mr2, withPrescalers_sr]
  split
  · split_ifs
    · exact ⟨rfl, hmode⟩
    · exact ⟨rfl, h⟩
  · exact ⟨rfl, h⟩
  · exact h.readRxFifo
  · exact ⟨rfl, h⟩

theorem writeCSR : Twin rx tx (writeCSR data p) (writeCSR data p') := by
  have hrates : Twin rx tx
      (p.onChan fun c ↦
        { c with
          csr := data
          txBaudRate := p.uart.calcBaud c.ch false (data &&& 0xf)
          rxBaudRate := p.uart.calcBaud c.ch true ((data >>> 4) &&& 0xf) })
      (p'.onChan fun c ↦
        { c with
          csr := data
          txBaudRate := p.uart.calcBaud c.ch false (data &&& 0xf)
          rxBaudRate := p.uart.calcBaud c.ch true ((data >>> 4) &&& 0xf) }) :=
    h.onChan fun _ ↦ rfl
  simp only [Duart.writeCSR, h.uart, hrates.chan, Channel.withPrescalers_rxBaudRate,
    Channel.withPrescalers_txBaudRate]
  exact (hrates.onSerial _).onSerial _

theorem baudUpdated : Twin rx tx (baudUpdated p) (baudUpdated p') := by
  rw [Duart.baudUpdated, Duart.baudUpdated, h.chan, Channel.withPrescalers_csr]
  exact h.writeCSR _

theorem writeChanReg (reg : ℕ) (data : BitVec 8) :
    Twin rx tx (writeChanReg reg data p) (writeChanReg reg data p') := by
  simp only [Duart.writeChanReg]
  split
  · exact h.writeMR data
  · exact h.writeCSR data
  · exact h.writeCR data
  · exact h.writeTX data
  · exact h

theorem channelReset : Twin rx tx (channelReset p) (channelReset p') := by
  rw [Duart.channelReset, Duart.channelReset]
  exact onChan ((((h.writeCR 0x10).writeCR 0x20).writeCR 0x30).writeCR 0x40) fun _ ↦ rfl

theorem serial : p'.chan.serial = p.chan.serial := by
  rw [h.chan, withPrescalers_serial]

end Twin

/-- The clock edges do not read the prescalers. -/
theorem simulates_twin (rx tx : BitVec 8) : serialDevice.Simulates (Twin rx tx) where
  serial _ _ h := h.serial
  update f _ _ _ h := h.onSerial f
  traCallback _ _ h := h.traCallback
  traComplete _ _ h := h.traComplete
  rcvCallback _ _ h := h.onSerial fun s ↦ s.receiveRegisterUpdateBit s.rcvLine
  rcvComplete _ _ h := h.rcvComplete

/-! ## Pulses of the timer -/

/-- The prescaler after a pulse. -/
def nextPrescaler (n : BitVec 8) : BitVec 8 := if n - 1 = 0 then 16 else n - 1

theorem txClockW_self (p : Port) : serialDevice.txClockW p.chan.serial.traClockState p = p := by
  rw [SerialDevice.txClockW, if_neg]
  simp [serialDevice]

theorem rxClockW_self (p : Port) : serialDevice.rxClockW p.chan.serial.rcvClockState p = p := by
  rw [SerialDevice.rxClockW, if_neg]
  simp [serialDevice]

/-- A pulse drives a clock at two counts of its prescaler. To drive it always, with the level that
it has at the other counts, is the same. -/
theorem clockW_nextPrescaler (clockW : Bool → Port → Port) (put : BitVec 8 → Port) {n : BitVec 8}
    {kept : Bool} (hkept : clockW kept (put (n - 1)) = put (n - 1)) (level : Bool) :
    (if n - 1 = 8 then clockW level (put (n - 1))
      else if n - 1 = 0 then clockW (!level) (put 16) else put (n - 1)) =
    clockW (if n - 1 = 8 then level else if n - 1 = 0 then !level else kept)
      (put (nextPrescaler n)) := by
  by_cases h0 : n - 1 = 0
  · have h8 : n - 1 ≠ 8 := by
      rw [h0]
      decide
    rw [if_neg h8, if_neg h8, if_pos h0, if_pos h0, nextPrescaler, if_pos h0]
  · rw [nextPrescaler, if_neg h0, if_neg h0, if_neg h0]
    split_ifs
    · rfl
    · exact hkept.symm

theorem tx16xClockW_true (p : Port) :
    tx16xClockW true p = serialDevice.txClockW p.chan.txLevel
      (p.onChan fun c ↦ { c with txPrescaler := nextPrescaler c.txPrescaler }) := by
  rw [tx16xClockW, if_pos rfl, txLevel]
  exact clockW_nextPrescaler serialDevice.txClockW
    (fun n ↦ p.onChan fun c ↦ { c with txPrescaler := n }) (txClockW_self _) true

variable {rx : BitVec 8} {p : Port} {tx : BitVec 8} {p' : Port}

theorem rx16xClockW_false (hsync : p.chan.serial.rcvSynchronised = true) :
    rx16xClockW false p = p := by
  rw [rx16xClockW, if_neg (Bool.not_eq_false _ ▸ hsync), if_neg Bool.false_ne_true]

theorem rx16xClockW_true (hsync : p.chan.serial.rcvSynchronised = true) :
    rx16xClockW true p = serialDevice.rxClockW p.chan.rxLevel
      (p.onChan fun c ↦ { c with rxPrescaler := nextPrescaler c.rxPrescaler }) := by
  rw [rx16xClockW, if_neg (Bool.not_eq_false _ ▸ hsync), if_pos rfl, rxLevel]
  exact clockW_nextPrescaler serialDevice.rxClockW
    (fun n ↦ p.onChan fun c ↦ { c with rxPrescaler := n }) (rxClockW_self _) false

/-- **One call.** Two channels that differ in the prescalers only still do after a call, if it
leaves their clocks at the same level. -/
theorem Twin.apply (h : Twin rx tx p p') (op : Operation) (hpaced : Paced (p, p') (.call op)) :
    ∃ rx tx, Twin rx tx (op.apply p) (op.apply p') := by
  cases op with
  | read reg => exact ⟨rx, tx, (h.readChanReg reg).2⟩
  | write reg data => exact ⟨rx, tx, h.writeChanReg reg data⟩
  | baudUpdated => exact ⟨rx, tx, h.baudUpdated⟩
  | updateInterrupts => exact ⟨rx, tx, h.updateInterrupts⟩
  | rxW state => exact ⟨rx, tx, h.onSerial _⟩
  | traClock => exact ⟨rx, tx, (simulates_twin rx tx).traClock h⟩
  | rcvClock => exact ⟨rx, tx, (simulates_twin rx tx).rcvClock h⟩
  | tx16xClockW state =>
    cases state with
    | false => exact ⟨rx, tx, h⟩
    | true =>
      have hlevel : p'.chan.txLevel = p.chan.txLevel := hpaced.symm
      refine ⟨rx, nextPrescaler tx, ?_⟩
      rw [Operation.apply, Operation.apply, tx16xClockW_true, tx16xClockW_true, hlevel]
      exact (simulates_twin rx (nextPrescaler tx)).txClockW (h.prescale fun _ ↦ rfl) _
  | rx16xClockW state =>
    by_cases hsync : p.chan.serial.rcvSynchronised = true
    · have hsync' : p'.chan.serial.rcvSynchronised = true := h.serial ▸ hsync
      cases state with
      | false =>
        refine ⟨rx, tx, ?_⟩
        rw [Operation.apply, Operation.apply, rx16xClockW_false hsync, rx16xClockW_false hsync']
        exact h
      | true =>
        have hlevel : p'.chan.rxLevel = p.chan.rxLevel := (hpaced hsync).symm
        refine ⟨nextPrescaler rx, tx, ?_⟩
        rw [Operation.apply, Operation.apply, rx16xClockW_true hsync,
          rx16xClockW_true hsync', hlevel]
        exact (simulates_twin (nextPrescaler rx) tx).rxClockW (h.prescale fun _ ↦ rfl) _
    · -- the receiver looks for a start bit, and the prescaler is set
      have hsync' : ¬p'.chan.serial.rcvSynchronised = true := h.serial ▸ hsync
      rw [Bool.not_eq_true] at hsync hsync'
      refine ⟨32, tx, ?_⟩
      rw [Operation.apply, Operation.apply, rx16xClockW, rx16xClockW, if_pos hsync, if_pos hsync']
      exact (simulates_twin 32 tx).rxClockW (h.prescale fun _ ↦ rfl) _
  | reset => exact ⟨rx, tx, h.channelReset⟩

theorem Twin.input (h : Twin rx tx p p') (i : Input) (hpaced : Paced (p, p') i) :
    ∃ rx tx, Twin rx tx (i.apply p) (i.apply p') := by
  cases i with
  | call op => exact h.apply op hpaced
  | owner f => exact ⟨rx, tx, h.onUart f⟩

theorem Twin.value (h : Twin rx tx p p') (i : Input) : i.value p' = i.value p := by
  cases i with
  | owner f => rfl
  | call op =>
    cases op with
    | read reg => exact congrArg some (h.readChanReg reg).1
    | _ => rfl

theorem Twin.outputs (h : Twin rx tx p p') {is : List Input}
    (hpaced : Run.Meets stepBoth Paced (p, p') is) : outputs p' is = outputs p is := by
  induction is generalizing p p' rx tx with
  | nil => rfl
  | cons i is ih =>
    obtain ⟨hi, hrest⟩ := hpaced
    obtain ⟨rx', tx', hnext⟩ := h.input i hi
    have hch : (i.apply p').chan.ch = (i.apply p).chan.ch := by
      rw [hnext.chan, withPrescalers_ch]
    simp only [Duart.outputs, h.value i, hnext.uart, hch]
    rw [ih hnext hrest]

/-! ## The start bit hack

Only boards with an external clock set `m_start_bit_hack_for_external_clocks`, and the channel has
none of their own: it keeps the value of the constructor. -/

end Duart

namespace Serial

/-- The function leaves the flag alone. -/
def KeepsHack (f : Serial → Serial) : Prop :=
  ∀ s, (f s).startBitHackForExternalClocks = s.startBitHackForExternalClocks

theorem keepsHack_receiveRegisterUpdateBit (bit : Bool) :
    KeepsHack (receiveRegisterUpdateBit bit) := by
  intro s
  simp only [receiveRegisterUpdateBit]
  split_ifs <;> rfl

theorem keepsHack_receiveRegisterExtract : KeepsHack receiveRegisterExtract := by
  intro s
  simp only [receiveRegisterExtract]
  split <;> first | rfl | (split_ifs <;> rfl)

theorem keepsHack_rxW (state : Bool) : KeepsHack (rxW state) := by
  intro s
  have hbit := keepsHack_receiveRegisterUpdateBit state { s with rcvLine := state }
  simp only [rxW]
  split_ifs
  · rfl
  · exact hbit
  · exact hbit
  · exact hbit
  · exact hbit

theorem keepsHack_setDataFrame (startBitCount dataBitCount : ℕ) (parity : Parity)
    (stopBits : StopBits) :
    KeepsHack (setDataFrame startBitCount dataBitCount parity stopBits) := by
  intro s
  simp only [setDataFrame]
  split_ifs <;> rfl

theorem keepsHack_transmitRegisterSetup (dataByte : BitVec 8) :
    KeepsHack (transmitRegisterSetup dataByte) := by
  intro s
  rw [transmitRegisterSetup_eq]

end Serial

namespace Duart

open Channel

/-- The flag has the value of the constructor. -/
structure Port.Plain (p : Port) : Prop where
  hack : p.chan.serial.startBitHackForExternalClocks = false

namespace Port.Plain

variable {p : Port} (h : p.Plain)
include h

theorem onUart (f : Uart → Uart) : (p.onUart f).Plain := ⟨h.hack⟩

theorem onChan {f : Channel → Channel} (hf : ∀ c, (f c).serial.startBitHackForExternalClocks =
    c.serial.startBitHackForExternalClocks) : (p.onChan f).Plain :=
  ⟨(hf p.chan).trans h.hack⟩

theorem onSerial' {f : Serial → Serial} (hf : (f p.chan.serial).startBitHackForExternalClocks =
    p.chan.serial.startBitHackForExternalClocks) : (p.onSerial f).Plain :=
  ⟨hf.trans h.hack⟩

theorem onSerial {f : Serial → Serial} (hf : Serial.KeepsHack f) : (p.onSerial f).Plain :=
  h.onSerial' (hf p.chan.serial)

theorem updateInterrupts : (updateInterrupts p).Plain := by
  have hmask : p.chan.maskTxReady.serial = p.chan.serial := by
    rw [maskTxReady]
    split_ifs <;> rfl
  exact ⟨(congrArg Serial.startBitHackForExternalClocks hmask).trans h.hack⟩

theorem rxFifoPush (data errors : BitVec 8) : (rxFifoPush data errors p).Plain :=
  updateInterrupts (h.onChan fun _ ↦ rfl)

theorem rcvComplete : (rcvComplete p).Plain := by
  have hserial := h.onSerial Serial.keepsHack_receiveRegisterExtract
  simp only [Duart.rcvComplete]
  split
  · exact hserial.rxFifoPush _ _
  · exact hserial

theorem traComplete : (traComplete p).Plain := by
  have hserial := h.onSerial (Serial.keepsHack_transmitRegisterSetup p.chan.txData)
  simp only [Duart.traComplete]
  split_ifs
  · exact updateInterrupts (hserial.onChan fun _ ↦ rfl)
  · exact updateInterrupts (h.onChan fun _ ↦ rfl)

theorem traCallback : (traCallback p).Plain := by
  have hshift : (p.onSerial fun _ ↦ p.chan.serial.transmitRegisterGetDataBit.2).Plain := by
    refine h.onSerial' ?_
    rw [Serial.transmitRegisterGetDataBit]
    split_ifs <;> rfl
  have hline := hshift.onSerial (Serial.keepsHack_rxW p.chan.serial.transmitRegisterGetDataBit.1)
  simp only [Duart.traCallback]
  split_ifs
  · refine updateInterrupts (onChan ?_ fun _ ↦ rfl)
    exact onChan (hshift.onUart _) fun _ ↦ rfl
  · exact onChan (hshift.onUart _) fun _ ↦ rfl
  · refine updateInterrupts (onChan ?_ fun _ ↦ rfl)
    exact hline.onChan fun _ ↦ rfl
  · exact hline.onChan fun _ ↦ rfl

end Port.Plain

variable {ch : ChannelId} {p : Port}

theorem plain_update {f : Serial → Serial} (hf : SerialDevice.ClockChange f) (h : p.Plain) :
    (p.onSerial f).Plain := by
  cases hf <;> exact h.onSerial fun _ ↦ rfl

theorem plain_rcvCallback (h : p.Plain) : (serialDevice.rcvCallback p).Plain := by
  have hbit : Serial.KeepsHack fun s ↦ s.receiveRegisterUpdateBit s.rcvLine := by
    intro s
    rw [Serial.keepsHack_receiveRegisterUpdateBit]
  have hserial := h.onSerial hbit
  exact hserial

/-- The clock edges keep the flag. -/
theorem simulates_plain : serialDevice.Simulates fun p p' ↦ p' = p ∧ p.Plain where
  serial p p' h := by
    rw [h.1]
  update f hf p p' h := ⟨congrArg (serialDevice.update f) h.1, plain_update hf h.2⟩
  traCallback p p' h := ⟨congrArg serialDevice.traCallback h.1, h.2.traCallback⟩
  traComplete p p' h := ⟨congrArg serialDevice.traComplete h.1, h.2.traComplete⟩
  rcvCallback p p' h := ⟨congrArg serialDevice.rcvCallback h.1, plain_rcvCallback h.2⟩
  rcvComplete p p' h := ⟨congrArg serialDevice.rcvComplete h.1, h.2.rcvComplete⟩

namespace Port.Plain

variable {p : Port} (h : p.Plain)
include h

variable (data : BitVec 8)

theorem writeMR : (writeMR data p).Plain := by
  have hframe {q : Port} (hq : q.Plain) : (q.onChan recalcFraming).Plain :=
    ⟨(Serial.keepsHack_setDataFrame _ _ _ _ q.chan.serial).trans hq.hack⟩
  simp only [Duart.writeMR]
  split_ifs
  · refine updateInterrupts (hframe ?_)
    exact h.onChan fun _ ↦ rfl
  · refine updateInterrupts (hframe ?_)
    exact h.onChan fun _ ↦ rfl

theorem writeTX : (writeTX data p).Plain := by
  simp only [Duart.writeTX]
  split_ifs
  · exact h
  · refine updateInterrupts (onChan ?_ fun _ ↦ rfl)
    exact h.onChan fun _ ↦ rfl
  · have hserial := Serial.keepsHack_transmitRegisterSetup data
    refine updateInterrupts (onChan (onSerial ?_ hserial) fun _ ↦ rfl)
    exact h.onChan fun _ ↦ rfl

theorem crCommand : (crCommand data p).Plain := by
  simp only [Duart.crCommand]
  split
  · exact h.onChan fun _ ↦ rfl
  · exact h.onChan fun _ ↦ rfl
  · exact onChan (h.onUart _) fun _ ↦ rfl
  · exact h.onChan fun _ ↦ rfl
  · exact h.onUart _
  · split_ifs
    · refine rxFifoPush (onUart ?_ _) _ _
      exact h.onChan fun _ ↦ rfl
    · exact h.onChan fun _ ↦ rfl
    · exact h
  · split_ifs
    · refine onUart ?_ _
      exact h.onChan fun _ ↦ rfl
    · exact h.onChan fun _ ↦ rfl
    · exact h
  · exact h

theorem crReceiver : (crReceiver data p).Plain := by
  simp only [Duart.crReceiver]
  split_ifs
  · refine onChan ?_ fun _ ↦ rfl
    exact h.onChan fun _ ↦ rfl
  · exact h.onChan fun _ ↦ rfl
  · exact h.onChan fun _ ↦ rfl
  · exact h

theorem crTransmitter : (crTransmitter data p).Plain := by
  simp only [Duart.crTransmitter]
  split_ifs
  · refine onUart ?_ _
    refine onChan (onUart ?_ _) fun _ ↦ rfl
    exact h.onChan fun _ ↦ rfl
  · refine onUart ?_ _
    exact h.onChan fun _ ↦ rfl
  · refine onUart ?_ _
    exact h.onChan fun _ ↦ rfl
  · exact h

theorem writeCR : (writeCR data p).Plain :=
  onChan (((h.crCommand data).crReceiver data).crTransmitter data).updateInterrupts fun _ ↦ rfl

theorem writeCSR : (writeCSR data p).Plain := by
  have hrcv (baud : ℤ) : Serial.KeepsHack (Serial.setRcvRate baud) := fun _ ↦ rfl
  have htra (baud : ℤ) : Serial.KeepsHack (Serial.setTraRate baud) := fun _ ↦ rfl
  refine onSerial (onSerial ?_ (hrcv _)) (htra _)
  exact h.onChan fun _ ↦ rfl

theorem readChanReg (reg : ℕ) : (readChanReg reg p).2.Plain := by
  have hread : (readRxFifo p).2.Plain := by
    rw [readRxFifo]
    split_ifs
    · exact h.updateInterrupts
    · exact updateInterrupts (h.onChan fun _ ↦ rfl)
  have hmode : (p.onChan fun c ↦ { c with mrPtr := 1 }).Plain := h.onChan fun _ ↦ rfl
  simp only [Duart.readChanReg]
  split
  · split_ifs
    · exact hmode
    · exact h
  · exact h
  · exact hread
  · exact h

theorem apply (op : Operation) : (op.apply p).Plain := by
  cases op with
  | read reg => exact h.readChanReg reg
  | write reg data =>
    simp only [Operation.apply, writeChanReg]
    split
    · exact h.writeMR data
    · exact h.writeCSR data
    · exact h.writeCR data
    · exact h.writeTX data
    · exact h
  | baudUpdated => exact h.writeCSR _
  | updateInterrupts => exact h.updateInterrupts
  | rxW state => exact h.onSerial (Serial.keepsHack_rxW state)
  | traClock => exact (simulates_plain.traClock ⟨rfl, h⟩).2
  | rcvClock => exact (simulates_plain.rcvClock ⟨rfl, h⟩).2
  | tx16xClockW state =>
    cases state with
    | false => exact h
    | true =>
      rw [Operation.apply, tx16xClockW_true]
      refine (simulates_plain.txClockW ⟨rfl, ?_⟩ _).2
      exact h.onChan fun _ ↦ rfl
  | rx16xClockW state =>
    by_cases hsync : p.chan.serial.rcvSynchronised = true
    · cases state with
      | false =>
        rw [Operation.apply, rx16xClockW_false hsync]
        exact h
      | true =>
        rw [Operation.apply, rx16xClockW_true hsync]
        refine (simulates_plain.rxClockW ⟨rfl, ?_⟩ _).2
        exact h.onChan fun _ ↦ rfl
    · rw [Bool.not_eq_true] at hsync
      rw [Operation.apply, rx16xClockW, if_pos hsync]
      refine (simulates_plain.rxClockW ⟨rfl, ?_⟩ _).2
      exact h.onChan fun _ ↦ rfl
  | reset =>
    have hcr := (((h.writeCR 0x10).writeCR 0x20).writeCR 0x30).writeCR 0x40
    exact ⟨(Serial.keepsHack_setDataFrame 1 8 .none .one _).trans hcr.hack⟩

end Port.Plain

theorem plain_step {d : Device} (hw : d.Wired) (h : (d.port ch).Plain) (e : Device.Event) :
    ((d.step e).port ch).Plain := by
  have hacts {rates : Rates} {l l' : Line} {ops : List Operation} (hl : Acts rates ch l ops l')
      (h : l.chan.serial.startBitHackForExternalClocks = false) :
      l'.chan.serial.startBitHackForExternalClocks = false := by
    induction hl with
    | nil l => exact h
    | @cons l l' p op ops hline _ _ ih =>
      have hp : p.Plain := by
        subst hline
        exact ⟨h⟩
      exact ih (hp.apply op).hack
  exact ⟨hacts (Device.step_line ch hw e) h.hack⟩

theorem Channel.Reachable.plain {c : Channel} (h : c.Reachable ch) :
    c.ch = ch ∧ c.serial.startBitHackForExternalClocks = false := by
  obtain ⟨storage, es, rfl⟩ := h
  have hconstruct : Device.Wired ⟨storage.uart, .construct storage.chanA .a,
      .construct storage.chanB .b⟩ := by
    intro ch
    cases ch <;> rfl
  have hrun := Run.run_invariant (P := fun d : Device ↦ d.Wired ∧ (d.port ch).Plain)
    (fun d e h ↦ ⟨Device.wired_step h.1 e, plain_step h.1 h.2 e⟩)
    ⟨Device.wired_powerOn storage, plain_step hconstruct ⟨by cases ch <;> rfl⟩ .reset⟩ es
  exact ⟨hrun.1 ch, hrun.2.hack⟩

/-! ## Save states -/

/-- Two reachable states with the same save state differ in the prescalers only. -/
theorem Channel.SameRegistered.twin {c c' : Channel} (h : c.SameRegistered c') (hc : c.Reachable ch)
    (hc' : c'.Reachable ch) (u : Uart) : Twin c'.rxPrescaler c'.txPrescaler ⟨u, c⟩ ⟨u, c'⟩ := by
  refine ⟨rfl, ?_⟩
  have hch : c'.ch = c.ch := hc'.plain.1.trans hc.plain.1.symm
  have hhack : c'.serial.startBitHackForExternalClocks = c.serial.startBitHackForExternalClocks :=
    hc'.plain.2.trans hc.plain.2.symm
  rw [Channel.SameRegistered, hch, hhack] at h
  exact h

/-- **Save states are complete up to the prescalers.** Two reachable states of a channel with the
same save state go on to the same outputs, if each pulse of the timer leaves their clocks at the
same level. -/
theorem outputs_eq_of_sameRegistered {ch : ChannelId}
    {c c' : Channel} (hc : c.Reachable ch) (hc' : c'.Reachable ch) (h : c.SameRegistered c')
    (u : Uart) (is : List Input) (hpaced : Run.Meets stepBoth Paced (⟨u, c⟩, ⟨u, c'⟩) is) :
    outputs ⟨u, c'⟩ is = outputs ⟨u, c⟩ is := (h.twin hc hc' u).outputs hpaced

/-! ### Two states of one machine -/

/-- A pulse between characters does not get further than the prescalers. -/
theorem exists_pulse (state : Bool) (hsync : p.chan.serial.rcvSynchronised = false)
    (hrcv : p.chan.serial.rcvClockState = true)
    (htra : p.chan.txLevel = p.chan.serial.traClockState) :
    ∃ tx, ∀ u, (rx16xClockW state ⟨u, (tx16xClockW state p).chan⟩).chan =
      p.chan.withPrescalers 32 tx := by
  have htx : ∃ tx, tx16xClockW state p = p.onChan fun c ↦ { c with txPrescaler := tx } := by
    cases state with
    | false => exact ⟨p.chan.txPrescaler, rfl⟩
    | true =>
      refine ⟨nextPrescaler p.chan.txPrescaler, ?_⟩
      rw [tx16xClockW_true, htra]
      exact txClockW_self (p.onChan fun c ↦ { c with txPrescaler := nextPrescaler c.txPrescaler })
  obtain ⟨tx, htx⟩ := htx
  refine ⟨tx, fun u ↦ ?_⟩
  have hself := rxClockW_self ⟨u, p.chan.withPrescalers 32 tx⟩
  rw [withPrescalers_serial, hrcv] at hself
  rw [htx, rx16xClockW]
  exact congrArg Port.chan ((if_pos hsync).trans hself)

/-- The timer drives channel A, which is between characters, and no edge of its clocks is due. -/
def Device.Idle (d : Device) : Prop :=
  (d.uart.duartTimer.enabled && !d.uart.duartTimer.expire.isNever) = true ∧
    d.uart.acr &&& 0x40 ≠ 0 ∧ d.chanA.csr = 0xdd ∧ d.chanA.serial.rcvSynchronised = false ∧
      d.chanA.serial.rcvClockState = true ∧ d.chanA.txLevel = d.chanA.serial.traClockState

instance (d : Device) : Decidable d.Idle := inferInstanceAs (Decidable (_ ∧ _))

theorem Device.Idle.exists_withPrescalers {d : Device} (hw : d.Wired) (h : d.Idle) :
    ∃ tx, (d.step .ctTimer).chanA = d.chanA.withPrescalers 32 tx := by
  obtain ⟨hrun, hmode, hcsr, hsync, hrcv, htra⟩ := h
  have hops : d.operations .a .ctTimer =
      [.tx16xClockW (d.uart.halfPeriod ^^^ 1 != 0), .rx16xClockW
      (d.uart.halfPeriod ^^^ 1 != 0)] := by
    have hcsr' : (d.chan .a).csr = 0xdd := hcsr
    rw [Device.operations, if_pos hrun, if_pos hmode, hcsr']
    rfl
  have hacts := Device.step_line .a hw .ctTimer
  rw [hops] at hacts
  obtain ⟨p, hp, -, hrest⟩ := hacts.exists_cons
  obtain ⟨p', hp', -, hlast⟩ := hrest.exists_one
  have hchan : p.chan = d.chanA := congrArg Line.chan hp
  have hchan' : p'.chan = (tx16xClockW (d.uart.halfPeriod ^^^ 1 != 0) p).chan :=
    congrArg Line.chan hp'
  rw [← hchan] at hsync hrcv htra ⊢
  obtain ⟨tx, htx⟩ := exists_pulse (d.uart.halfPeriod ^^^ 1 != 0) hsync hrcv htra
  refine ⟨tx, ?_⟩
  rw [← htx p'.uart, ← hchan']
  exact congrArg Line.chan hlast

/-- The storage of a machine whose memory is zero but for one prescaler, with the DUART's
crystal. -/
def timedStorage : Device :=
  { uart := { (default : Uart) with clock := 3686400 }
    chanA := { (default : Channel) with txPrescaler := 20 }
    chanB := default }

/-- The device with channel A on the timer, after `n + 2` pulses. -/
def idling (n : ℕ) : Device :=
  Run.run Device.step (.powerOn timedStorage)
    ([.write 0x4 0x60, .write 0x1 0xdd] ++ List.replicate (n + 2) .ctTimer)

theorem reachable_idling (n : ℕ) : (idling n).chanA.Reachable .a := ⟨timedStorage, _, rfl⟩

theorem idling_succ (n : ℕ) : idling (n + 1) = (idling n).step .ctTimer := by
  rw [idling, idling, List.replicate_succ', ← List.append_assoc, Run.run_append]
  rfl

theorem sameRegistered_idling : (idling 0).chanA.SameRegistered (idling 2).chanA := by
  have hw (n : ℕ) : (idling n).Wired :=
    Run.run_invariant (P := Device.Wired) (fun _ e h ↦ Device.wired_step h e)
      (Device.wired_powerOn timedStorage) _
  obtain ⟨tx, htx⟩ := Device.Idle.exists_withPrescalers (hw 0) (by decide +kernel)
  obtain ⟨tx', htx'⟩ := Device.Idle.exists_withPrescalers (hw 1) (by decide +kernel)
  rw [← idling_succ] at htx htx'
  have hsame (c : Channel) (rx tx rx' tx' : BitVec 8) :
      c.SameRegistered ((c.withPrescalers rx tx).withPrescalers rx' tx') := rfl
  rw [htx', htx]
  exact hsame _ _ _ _ _

/-- Enable the transmitter, send a character, and give it pulses. -/
def sendOne (pulses : ℕ) : List Input :=
  [.call (.write 2 0x04), .call (.write 3 0x55)] ++
    List.replicate pulses (.call (.tx16xClockW true))

/-- Nine pulses do not tell the two states apart. -/
theorem outputs_idling : outputs ⟨default, (idling 2).chanA⟩ (sendOne 9) =
    outputs ⟨default, (idling 0).chanA⟩ (sendOne 9) :=
  outputs_eq_of_sameRegistered (reachable_idling 0)
    (reachable_idling 2) sameRegistered_idling default (sendOne 9) (by decide +kernel)

/-- The tenth sends the start bit from one of them only. -/
theorem not_outputs_eq_of_sameRegistered : ¬∀ (c c' : Channel) (u : Uart) (is : List Input),
    c.Reachable .a → c'.Reachable .a → c.SameRegistered c' →
      outputs ⟨u, c'⟩ is = outputs ⟨u, c⟩ is := by
  intro h
  have houtputs := h (idling 0).chanA (idling 2).chanA default (sendOne 10) (reachable_idling 0)
    (reachable_idling 2) sameRegistered_idling
  exact absurd houtputs (by decide +kernel)

end Duart

end RoscoEmulator
