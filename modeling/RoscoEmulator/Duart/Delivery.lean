import RoscoEmulator.Duart.Stall

/-!
# What the transmitter delivers

A session is a run in which the transmitter of a channel stays enabled in normal mode: the host
writes to `THR` when `TxRDY` is set, and to `CR` without resetting or disabling the transmitter; the
clock runs, and everything else may happen that does not concern the transmitter. What has to be
delivered is `Device.stream`, the levels already driven on the transmit line followed by the
contents of the two registers. A byte written to `THR` appends its frame to the stream and a clock
edge leaves the stream as it is, moving one bit from the registers to the line.

One step of a session breaks this. The enable bit of `CR` acts where the last value written to `CR`
did not have it, although the transmitter is enabled already, and it empties the holding register.
`HoldGuard` excludes exactly the steps that lose a byte in this way.
-/

namespace RoscoEmulator.Duart

open List Device

/-- A transmitter in normal use: the holding register is in use only behind the shift register. -/
structure Sending (c : Channel) : Prop where
  transmitter : TxInvariant c
  enabled : c.txEnabled = true
  normal : c.mode = modeNormal
  buffer : c.serial.traEmpty = true → c.txDataInBuffer = false

/-- The transmitter is still in use, with the same framing and rate. -/
structure Serves (c c' : Channel) : Prop where
  sending : Sending c'
  frameBits : c'.serial.frameBits = c.serial.frameBits
  traRate : c'.serial.traRate = c.serial.traRate

variable {c c' : Channel} {ch : ChannelId}

theorem Serves.trans {c'' : Channel} (h : Serves c c') (h' : Serves c' c'') : Serves c c'' :=
  ⟨h'.sending, h'.frameBits.trans h.frameBits, h'.traRate.trans h.traRate⟩

/-- From `c` to `c'`, the bits `sent` left the registers and `bits` entered them. -/
structure Carried (c : Channel) (sent bits : List Bool) (c' : Channel) : Prop
    extends Serves c c' where
  contents : c.contents ++ bits = sent ++ c'.contents

theorem TxSame.contents (h : TxSame c c') : c'.contents = c.contents := by
  have hpending : c'.serial.pendingBits = c.serial.pendingBits :=
    h.sameTransmitter.pendingBits
  have hframe : c'.serial.frameBits = c.serial.frameBits := h.sameTransmitter.frameBits
  rw [Channel.contents, Channel.contents, hpending, hframe, h.txDataInBuffer, h.txData]

theorem Sending.same (h : Sending c) (hs : TxSame c c') : Sending c' := by
  refine ⟨txClosed_txInvariant.same h.transmitter hs, hs.txEnabled.trans h.enabled,
    hs.mode.trans h.normal, ?_⟩
  rw [hs.sameTransmitter.traEmpty, hs.txDataInBuffer]
  exact h.buffer

theorem txClosed_carried (c : Channel) (sent bits : List Bool) :
    TxClosed (Carried c sent bits) where
  same h hs :=
    ⟨⟨h.sending.same hs, hs.sameTransmitter.frameBits.trans h.frameBits,
      hs.sameTransmitter.traRate.trans h.traRate⟩, by rw [hs.contents]; exact h.contents⟩
  mask {c'} h := by
    rwa [maskTxReady_of_normal h.sending.normal]

theorem Sending.carried (h : Sending c) : Carried c [] [] c :=
  ⟨⟨h, rfl, rfl⟩, append_nil _⟩

/-! ## What leaves the transmit lines alone -/

/-- The owner of `p'` is the owner of `p`, as far as baud rates and transmit lines go. -/
def Quiet (p p' : Port) : Prop := Uart.Same p.uart p'.uart

namespace Quiet

theorem refl (p : Port) : Quiet p p := Uart.Same.refl p.uart

variable {p p' : Port} (h : Quiet p p')
include h

theorem onChan (f : Channel → Channel) : Quiet p (p'.onChan f) := h

theorem onSerial (f : Serial → Serial) : Quiet p (p'.onSerial f) := h

theorem onUart {f : Uart → Uart} (hf : Uart.Same p'.uart (f p'.uart)) : Quiet p (p'.onUart f) :=
  Uart.Same.trans h hf

theorem updateInterrupts : Quiet p (updateInterrupts p') :=
  Uart.Same.trans h (same_updateInterrupts p')

theorem rxFifoPush (data errors : BitVec 8) : Quiet p (rxFifoPush data errors p') :=
  (h.onChan _).updateInterrupts

theorem rcvEdge : Quiet p (serialDevice.rcvEdge p') := by
  have hcomplete {p' : Port} (h : Quiet p p') : Quiet p (rcvComplete p') := by
    simp only [rcvComplete]
    split_ifs
    all_goals first
      | exact (h.onSerial _).rxFifoPush _ _
      | exact h.onSerial _
  have hbit : Quiet p (serialDevice.rcvCallback p') :=
    h.onSerial fun s ↦ s.receiveRegisterUpdateBit s.rcvLine
  simp only [SerialDevice.rcvEdge]
  split_ifs
  · refine hcomplete ?_
    exact hbit.onSerial fun s ↦ { s with rcvClock := .adjust .never }
  · exact hbit

theorem rxClockW (state : Bool) : Quiet p (serialDevice.rxClockW state p') := by
  have hstate := h.onSerial fun s ↦ { s with rcvClockState := state }
  simp only [SerialDevice.rxClockW]
  split_ifs
  · exact hstate.rcvEdge
  · exact hstate
  · exact h

theorem rcvClock : Quiet p (serialDevice.rcvClock p') := by
  simp only [SerialDevice.rcvClock]
  split_ifs
  · exact h.rxClockW _
  · exact h

theorem rx16xClockW (state : Bool) : Quiet p (rx16xClockW state p') := by
  simp only [Duart.rx16xClockW]
  split_ifs
  · exact (h.onChan _).rxClockW _
  · exact (h.onChan _).rxClockW _
  · exact ((h.onChan _).onChan _).rxClockW _
  · exact h.onChan _
  · exact h

theorem readChanReg (reg : ℕ) : Quiet p (readChanReg reg p').2 := by
  have hread : Quiet p (readRxFifo p').2 := by
    rw [readRxFifo]
    split_ifs
    · exact h.updateInterrupts
    · exact (h.onChan Channel.popped).updateInterrupts
  simp only [Duart.readChanReg]
  split
  · split_ifs
    · exact h.onChan _
    · exact h
  · exact h
  · exact hread
  · exact h

theorem writeTX (data : BitVec 8) : Quiet p (writeTX data p') := by
  simp only [Duart.writeTX]
  split_ifs
  · exact h
  · exact ((h.onChan _).onChan _).updateInterrupts
  · exact (((h.onChan _).onSerial _).onChan _).updateInterrupts

/-- Only a transmitter reset drives the line. -/
theorem writeCR {data : BitVec 8} (hmisc : crMisc data ≠ 3) : Quiet p (writeCR data p') := by
  have hcommand : Quiet p (crCommand data p') := by
    simp only [crCommand]
    split <;> rename_i hcmd
    · exact h.onChan _
    · exact h.onChan _
    · exact absurd hcmd hmisc
    · exact h.onChan _
    · exact h.onUart (.clearIsrBits (.refl _) _)
    · split_ifs
      · exact ((h.onChan _).onUart (.setIsrBits (.refl _) _)).rxFifoPush _ _
      · exact h.onChan _
      · exact h
    · split_ifs
      · exact (h.onChan _).onUart (.setIsrBits (.refl _) _)
      · exact h.onChan _
      · exact h
    · exact h
  have hreceiver {p' : Port} (h : Quiet p p') : Quiet p (crReceiver data p') := by
    simp only [crReceiver]
    split_ifs
    · exact (h.onChan _).onChan _
    · exact h.onChan _
    · exact h.onChan _
    · exact h
  have htransmitter {p' : Port} (h : Quiet p p') : Quiet p (crTransmitter data p') := by
    simp only [crTransmitter]
    split_ifs
    · exact (((h.onChan _).onUart (.setIsrBits (.refl _) _)).onChan _).onUart
        (.clearIsrBits (.refl _) _)
    · exact (h.onChan _).onUart (.clearIsrBits (.refl _) _)
    · exact (h.onChan _).onUart (.setIsrBits (.refl _) _)
    · exact h
  exact (htransmitter (hreceiver hcommand)).updateInterrupts.onChan _

end Quiet

/-! ## The line -/

/-- From `l` to `l'`, the bits `bits` entered the registers, and what left them was driven on the
line. -/
def Flows (l : Line) (bits : List Bool) (l' : Line) : Prop :=
  ∃ sent, l'.txd = l.txd ++ sent ∧ Carried l.chan sent bits l'.chan

namespace Flows

theorem refl {l : Line} (h : Sending l.chan) : Flows l [] l :=
  ⟨[], (append_nil _).symm, h.carried⟩

theorem trans {l l' l'' : Line} {bits bits' : List Bool} (h : Flows l bits l')
    (h' : Flows l' bits' l'') : Flows l (bits ++ bits') l'' := by
  obtain ⟨sent, hline, hc⟩ := h
  obtain ⟨sent', hline', hc'⟩ := h'
  refine ⟨sent ++ sent', by rw [hline', hline, append_assoc], hc.toServes.trans hc'.toServes, ?_⟩
  rw [← append_assoc, hc.contents, append_assoc, hc'.contents, append_assoc]

theorem of_same {p p' : Port} {ch : ChannelId} {bits : List Bool} (hu : Quiet p p')
    (hc : Carried p.chan [] bits p'.chan) : Flows (p.line ch) bits (p'.line ch) :=
  ⟨[], (Uart.Same.txLine hu ch).trans (append_nil _).symm, hc⟩

end Flows

/-! ## Operations of a session -/

/-- The operations that only the clocks, the line and reads of the host cause. -/
def Operation.Quiet : Operation → Prop
  | .write _ _ | .baudUpdated | .reset => False
  | _ => True

section Operations

variable {p : Port} (h : Sending p.chan)
include h

theorem flows_traEdge : Flows (p.line p.chan.ch) [] ((serialDevice.traEdge p).line p.chan.ch) := by
  cases hempty : p.chan.serial.traEmpty with
  | true =>
    have hshift : serialDevice.traShift p = p := by
      rw [SerialDevice.traShift, if_neg]
      exact (Bool.not_eq_false _).mpr hempty
    simp only [SerialDevice.traEdge, hshift]
    split_ifs
    · -- the clock is stopped
      refine .of_same (.refl _) ⟨⟨⟨?_, h.enabled, h.normal, h.buffer⟩, rfl, rfl⟩, append_nil _⟩
      have hframe := h.transmitter.frame
      exact .of_empty ⟨hframe.startBitCount, hframe.wordLength, hframe.stopBitCount⟩ hempty
        h.transmitter.ready
    · exact .refl h
  | false =>
    have hedge := edge_traEdge h.transmitter h.normal hempty
    have hset := hedge.settings
    obtain ⟨bit, hcontents, hline⟩ := hedge.line
    refine ⟨[bit], hline, ⟨⟨txInvariant_traEdge h.transmitter, hset.txEnabled.trans h.enabled,
      hset.mode.trans h.normal, hedge.buffer⟩, hset.frameBits, hset.traRate⟩, ?_⟩
    exact (append_nil _).trans hcontents

theorem flows_txClockW (state : Bool) :
    Flows (p.line p.chan.ch) [] ((serialDevice.txClockW state p).line p.chan.ch) := by
  have hstate :
      Sending (serialDevice.update (fun s ↦ { s with traClockState := state }) p).chan := by
    have htx := h.transmitter
    exact ⟨⟨⟨htx.frame.startBitCount, htx.frame.wordLength, htx.frame.stopBitCount⟩, htx.sent,
      htx.sent_lt, htx.count, htx.clock, htx.ready⟩, h.enabled, h.normal, h.buffer⟩
  have hflow : Flows (p.line p.chan.ch) []
      ((serialDevice.update (fun s ↦ { s with traClockState := state }) p).line p.chan.ch) :=
    .of_same (.refl _) ⟨⟨hstate, rfl, rfl⟩, append_nil _⟩
  simp only [SerialDevice.txClockW]
  split_ifs
  · exact hflow.trans (flows_traEdge hstate)
  · exact hflow
  · exact .refl h

theorem flows_apply (hfifo : RxFifo p.chan) {op : Operation} (hop : op.Quiet) :
    Flows (p.line p.chan.ch) [] ((op.apply p).line p.chan.ch) := by
  have hI := txClosed_carried p.chan [] []
  have hq := Quiet.refl p
  cases op with
  | read reg => exact .of_same (hq.readChanReg reg) (hI.readChanReg h.carried hfifo reg)
  | updateInterrupts => exact .of_same hq.updateInterrupts (hI.updateInterrupts h.carried)
  | rxW state => exact .of_same (hq.onSerial _) (hI.onSerial h.carried (by simp))
  | rcvClock => exact .of_same hq.rcvClock (hI.rcvClock h.carried)
  | rx16xClockW state => exact .of_same (hq.rx16xClockW state) (hI.rx16xClockW h.carried state)
  | traClock =>
    simp only [Operation.apply, SerialDevice.traClock]
    split_ifs
    · exact flows_txClockW h _
    · exact .refl h
  | tx16xClockW state =>
    have hpre (n : BitVec 8) : Sending { p.chan with txPrescaler := n } :=
      h.same ⟨rfl, rfl, rfl, rfl, rfl, rfl, rfl, rfl⟩
    have hflow (f : Channel → Channel) (hf : ∃ n, f p.chan = { p.chan with txPrescaler := n }) :
        Sending (p.onChan f).chan ∧ Flows (p.line p.chan.ch) [] ((p.onChan f).line p.chan.ch) := by
      obtain ⟨n, hn⟩ := hf
      have hchan : (p.onChan f).chan = { p.chan with txPrescaler := n } := hn
      refine ⟨hchan ▸ hpre n, .of_same (hq.onChan f) ?_⟩
      rw [hchan]
      exact ⟨⟨hpre n, rfl, rfl⟩, append_nil _⟩
    simp only [Operation.apply, tx16xClockW]
    split_ifs
    · have hp := hflow (fun c ↦ { c with txPrescaler := c.txPrescaler - 1 }) ⟨_, rfl⟩
      exact hp.2.trans (flows_txClockW hp.1 true)
    · have hp := hflow (fun c ↦ { c with txPrescaler := 16 }) ⟨_, rfl⟩
      exact hp.2.trans (flows_txClockW hp.1 false)
    · exact (hflow (fun c ↦ { c with txPrescaler := c.txPrescaler - 1 }) ⟨_, rfl⟩).2
    · exact .refl h
  | write _ _ => exact absurd hop id
  | baudUpdated => exact absurd hop id
  | reset => exact absurd hop id

/-- A byte written to `THR` while `TxRDY` is set enters the registers. -/
theorem flows_writeTX (hready : p.chan.txReady = true) (data : BitVec 8) :
    Flows (p.line p.chan.ch) (p.chan.serial.frameBits data) ((writeTX data p).line p.chan.ch) := by
  have hbuffer := h.transmitter.ready hready
  refine .of_same ((Quiet.refl p).writeTX data) ?_
  have hcontents : p.chan.contents = p.chan.serial.pendingBits := by
    rw [Channel.contents, hbuffer]
    exact append_nil _
  have hclear : TxInvariant p.chan.clearReady :=
    ⟨h.transmitter.frame, h.transmitter.sent, h.transmitter.sent_lt, h.transmitter.count,
      h.transmitter.clock, fun hr ↦ absurd hr (by simp)⟩
  refine (txClosed_carried p.chan [] _).writeTX (fun hbusy ↦ ?_)
    (fun _ hfull ↦ ?_) fun _ hempty ↦ ?_
  · rw [hready] at hbusy
    cases hbusy
  · refine ⟨⟨⟨?_, h.enabled, h.normal, fun hempty ↦ ?_⟩, rfl, rfl⟩, ?_⟩
    · exact ⟨hclear.frame, hclear.sent, hclear.sent_lt, hclear.count, hclear.clock,
        fun hr ↦ absurd hr ((Bool.not_eq_true _).mpr (Channel.txReady_clearReady p.chan))⟩
    · exact absurd hempty ((Bool.not_eq_true _).mpr hfull)
    · rw [hcontents]
      rfl
  · have hset := sameSettings_loaded data p.chan.clearReady
    refine ⟨⟨⟨hclear.loaded data, hset.txEnabled.trans h.enabled, hset.mode.trans h.normal, ?_⟩,
      hset.frameBits, hset.traRate⟩, ?_⟩
    · exact fun _ ↦ hbuffer
    · have hpending : p.chan.serial.pendingBits = [] := by
        rw [Serial.pendingBits, hempty]
        rfl
      have hlen := (h.transmitter.frame.length_frameBits data).2
      have hload : (p.chan.serial.transmitRegisterSetup data).pendingBits =
          p.chan.serial.frameBits data :=
        Serial.pendingBits_transmitRegisterSetup data (Nat.le_trans hlen (by decide))
      rw [hcontents, hpending, Channel.contents]
      simp [Channel.loaded, Channel.clearReady, hbuffer, hload]

/-- A write to `CR` that neither resets nor disables the transmitter loses the byte in the holding
register if it enables the transmitter once more, and nothing otherwise. -/
theorem serves_writeCR {data : BitVec 8} (hmisc : crMisc data ≠ 3)
    (hdisable : data.getLsbD 3 = false) : Serves p.chan (writeCR data p).chan ∧
      (writeCR data p).chan.contents =
        if p.chan.cr.getLsbD 2 = false ∧ data.getLsbD 2 = true then p.chan.serial.pendingBits
        else p.chan.contents := by
  obtain ⟨c, hsame, hc⟩ := txSame_writeCR data p
  have hcommanded : p.chan.commanded data =
      if p.chan.cr.getLsbD 2 = false ∧ data.getLsbD 2 = true then p.chan.transmitterEnabled
      else p.chan := by
    simp only [Channel.commanded, if_neg hmisc, hdisable, Bool.false_eq_true, if_false]
  have htx := txInvariant_commanded h.transmitter data
  have hserves : Serves p.chan (p.chan.commanded data) := by
    rw [hcommanded] at htx ⊢
    split_ifs at htx ⊢
    · exact ⟨⟨htx, rfl, h.normal, fun _ ↦ rfl⟩, rfl, rfl⟩
    · exact ⟨h, rfl, rfl⟩
  have hsending := hserves.sending.same hsame
  rw [hc, maskTxReady_of_normal hsending.normal]
  refine ⟨⟨⟨?_, hsending.enabled, hsending.normal, hsending.buffer⟩, ?_, ?_⟩, ?_⟩
  · have htx := hsending.transmitter
    exact ⟨htx.frame, htx.sent, htx.sent_lt, htx.count, htx.clock, htx.ready⟩
  · exact hsame.sameTransmitter.frameBits.trans hserves.frameBits
  · exact hsame.sameTransmitter.traRate.trans hserves.traRate
  · rw [show ({ c with cr := data } : Channel).contents = c.contents from rfl, hsame.contents,
      hcommanded]
    split_ifs
    · exact append_nil _
    · rfl

end Operations

theorem flows_acts {rates : Rates} {l l' : Line} {ops : List Operation} (h : Acts rates ch l ops l')
    (hops : ∀ op ∈ ops, op.Quiet) (hch : l.chan.ch = ch) (hfifo : RxFifo l.chan)
    (hs : Sending l.chan) : Flows l [] l' := by
  induction h with
  | nil l => exact .refl hs
  | @cons l l' p op ops hl _ _ ih =>
    subst hl
    have hflow := flows_apply hs hfifo (hops op (.head _))
    rw [show p.chan.ch = ch from hch] at hflow
    obtain ⟨sent, -, hc⟩ := id hflow
    exact hflow.trans (ih (fun op' hop' ↦ hops op' (.tail _ hop')) ((frame_apply op p).ch.trans hch)
      hfifo.apply hc.sending)

/-! ## Sessions -/

/-- What the registers and the line of a channel have taken up to be sent. -/
def Device.stream (d : Device) (ch : ChannelId) : List Bool :=
  d.uart.txLine ch ++ (d.chan ch).contents

/-- The byte that an event writes to `THR`. -/
def Device.Event.byte (ch : ChannelId) : Device.Event → List (BitVec 8)
  | .write offset data => if offset = transmitOffset ch then [data] else []
  | _ => []

/-- The bytes that a run writes to `THR`. -/
def written (ch : ChannelId) (es : List Device.Event) : List (BitVec 8) :=
  es.flatMap (Device.Event.byte ch)

/-- A step of a session: `THR` is written when `TxRDY` is set, `CR` without a transmitter reset, a
transmitter disable or a new baud rate, and the mode and rate registers not at all. -/
def Session (ch : ChannelId) (d : Device) : Device.Event → Prop
  | .write offset data =>
      offset ≠ modeOffset ch ∧ offset ≠ clockSelectOffset ch ∧ offset ≠ 0x4 ∧
        (offset = transmitOffset ch → (d.chan ch).txReady = true) ∧
        (offset = commandOffset ch → crMisc (baseCommand data) ≠ 3 ∧ data.getLsbD 3 = false ∧
          ¬(0x8 ≤ (data >>> 4).toNat ∧ (data >>> 4).toNat < 0xc))
  | .reset => False
  | _ => True

instance decidableSession (ch : ChannelId) (d : Device) : DecidablePred (Session ch d)
  | .write offset data => inferInstanceAs (Decidable (offset ≠ modeOffset ch ∧
      offset ≠ clockSelectOffset ch ∧ offset ≠ 0x4 ∧
        (offset = transmitOffset ch → (d.chan ch).txReady = true) ∧
        (offset = commandOffset ch → crMisc (baseCommand data) ≠ 3 ∧ data.getLsbD 3 = false ∧
          ¬(0x8 ≤ (data >>> 4).toNat ∧ (data >>> 4).toNat < 0xc))))
  | .reset => instDecidableFalse
  | .read _ | .irqVector | .rxLine _ _ | .inputPort _ _ | .traClock _ | .rcvClock _ | .ctTimer
  | .advance _ => instDecidableTrue

/-- The step does not enable the transmitter once more while a byte waits in the holding
register. -/
def HoldGuard (ch : ChannelId) (d : Device) : Device.Event → Prop
  | .write offset data =>
      offset = commandOffset ch →
        ¬((d.chan ch).cr.getLsbD 2 = false ∧ data.getLsbD 2 = true ∧
          (d.chan ch).txDataInBuffer = true)
  | _ => True

instance decidableHoldGuard (ch : ChannelId) (d : Device) : DecidablePred (HoldGuard ch d)
  | .write offset data => inferInstanceAs (Decidable (offset = commandOffset ch →
      ¬((d.chan ch).cr.getLsbD 2 = false ∧ data.getLsbD 2 = true ∧
        (d.chan ch).txDataInBuffer = true)))
  | .read _ | .irqVector | .rxLine _ _ | .inputPort _ _ | .traClock _ | .rcvClock _ | .ctTimer
  | .advance _ | .reset => instDecidableTrue

theorem Flows.stream {d d' : Device} {bits : List Bool} (h : Flows (d.line ch) bits (d'.line ch)) :
    d'.stream ch = d.stream ch ++ bits := by
  obtain ⟨sent, hline, hc⟩ := h
  have hline : d'.uart.txLine ch = d.uart.txLine ch ++ sent := hline
  have hcontents : (d.chan ch).contents ++ bits = sent ++ (d'.chan ch).contents := hc.contents
  rw [Device.stream, Device.stream, hline, append_assoc, append_assoc, hcontents]

/-- What one step of a session does. -/
structure Serving (ch : ChannelId) (d : Device) (e : Device.Event) (d' : Device) : Prop where
  serves : Serves (d.chan ch) (d'.chan ch)
  kept : HoldGuard ch d e →
    d'.stream ch = d.stream ch ++ (e.byte ch).flatMap (d.chan ch).serial.frameBits
  lost : ¬HoldGuard ch d e →
    (d'.stream ch).length <
      (d.stream ch ++ (e.byte ch).flatMap (d.chan ch).serial.frameBits).length

theorem Serving.of_flows {d d' : Device} {e : Device.Event} (hg : HoldGuard ch d e)
    (h : Flows (d.line ch) ((e.byte ch).flatMap (d.chan ch).serial.frameBits) (d'.line ch)) :
    Serving ch d e d' := by
  obtain ⟨sent, -, hc⟩ := id h
  exact ⟨hc.toServes, fun _ ↦ h.stream, fun hnot ↦ absurd hg hnot⟩

section Steps

variable {ch : ChannelId} {d : Device} (hinv : ChannelInvariant ch d) (hs : Sending (d.chan ch))
include hinv hs

theorem serving_of_quiet {e : Device.Event} (hops : ∀ op ∈ d.operations ch e, op.Quiet)
    (hg : HoldGuard ch d e) (hbyte : e.byte ch = []) : Serving ch d e (d.step e) := by
  refine .of_flows hg ?_
  rw [hbyte]
  exact flows_acts (step_line ch hinv.wired e) hops (hinv.wired ch) hinv.rxFifo hs

theorem serving_transmit {data : BitVec 8} (hready : (d.chan ch).txReady = true) :
    Serving ch d (.write (transmitOffset ch) data) (d.step (.write (transmitOffset ch) data)) := by
  have hacts := step_line ch hinv.wired (.write (transmitOffset ch) data)
  have hops : d.operations ch (.write (transmitOffset ch) data) = [.write 3 data] := by
    cases ch <;> rfl
  rw [hops] at hacts
  obtain ⟨p, hl, -, hl'⟩ := hacts.exists_one
  refine .of_flows ?_ ?_
  · cases ch <;> simp [HoldGuard, transmitOffset, commandOffset]
  · have hp : p.chan = d.chan ch := congrArg Line.chan hl
    have hch : p.chan.ch = ch := (congrArg Channel.ch hp).trans (hinv.wired ch)
    rw [← hp] at hs hready
    have hflow := flows_writeTX hs hready data
    rw [hch, hl, hp] at hflow
    rw [hl']
    simp only [Device.Event.byte, if_true, flatMap_cons, flatMap_nil, append_nil]
    exact hflow

theorem serving_command {data : BitVec 8}
    (hmisc : crMisc (baseCommand data) ≠ 3) (hdisable : data.getLsbD 3 = false)
    (hextend : ¬(0x8 ≤ (data >>> 4).toNat ∧ (data >>> 4).toNat < 0xc)) :
    Serving ch d (.write (commandOffset ch) data) (d.step (.write (commandOffset ch) data)) := by
  have hacts := step_line ch hinv.wired (.write (commandOffset ch) data)
  have hops : d.operations ch (.write (commandOffset ch) data) = [.write 2 (baseCommand data)] := by
    have hcmd : commandOperations data = [.write 2 (baseCommand data)] := if_neg hextend
    cases ch <;> exact hcmd
  rw [hops] at hacts
  obtain ⟨p, hl, -, hl'⟩ := hacts.exists_one
  have hp : p.chan = d.chan ch := congrArg Line.chan hl
  rw [← hp] at hs
  obtain ⟨hserves, hcontents⟩ :=
    serves_writeCR hs hmisc ((getLsbD_baseCommand data (by decide)).trans hdisable)
  have hline : (d.step (.write (commandOffset ch) data)).uart.txLine ch = d.uart.txLine ch :=
    (congrArg Line.txd hl').trans ((Uart.Same.txLine ((Quiet.refl p).writeCR hmisc) ch).trans
      (congrArg Line.txd hl))
  have hchan : (d.step (.write (commandOffset ch) data)).chan ch =
      (writeCR (baseCommand data) p).chan := congrArg Line.chan hl'
  have hbyte : (Device.Event.write (commandOffset ch) data).byte ch = [] := by
    cases ch <;> rfl
  rw [getLsbD_baseCommand data (by decide), ← hchan, hp] at hcontents
  refine ⟨?_, fun hg ↦ ?_, fun hg ↦ ?_⟩
  · rw [hchan, ← hp]
    exact hserves
  · have hg := hg rfl
    rw [hbyte, Device.stream, Device.stream, hline, hcontents]
    split_ifs with hedge
    · have hbuffer : (d.chan ch).txDataInBuffer = false :=
        (Bool.not_eq_true _).mp fun hb ↦ hg ⟨hedge.1, hedge.2, hb⟩
      simp [Channel.contents, hbuffer]
    · exact (append_nil _).symm
  · obtain ⟨-, hcr, hdata, hbuffer⟩ := Classical.not_imp.mp hg |>.imp_right not_not.mp
    rw [hp] at hs
    have hlen := (hs.transmitter.frame.length_frameBits (d.chan ch).txData).1
    rw [hbyte, Device.stream, Device.stream, hline, hcontents, if_pos ⟨hcr, hdata⟩]
    simp only [Channel.contents, hbuffer, if_true, flatMap_nil, append_nil,
      length_append]
    omega

/-- **One step of a session.** -/
theorem serving_step {e : Device.Event} (hsession : Session ch d e) :
    Serving ch d e (d.step e) := by
  have hcall {ch' : ChannelId} {op : Operation} (hop : op.Quiet) :
      ∀ op' ∈ callOn ch' ch [op], op'.Quiet := by
    intro op' hmem
    rw [callOn] at hmem
    split_ifs at hmem
    · rw [List.mem_singleton.mp hmem]
      exact hop
    · cases hmem
  have hnil {e : Device.Event} (he : d.operations ch e = []) :
      ∀ op ∈ d.operations ch e, op.Quiet := by
    rw [he]
    exact fun _ hmem ↦ absurd hmem not_mem_nil
  cases e with
  | write offset data =>
    obtain ⟨hmode, hclock, hacr, htransmit, hcommand⟩ := hsession
    obtain ⟨rfl, -⟩ | ⟨rfl, -⟩ | ⟨rfl, -⟩ | ⟨rfl, -⟩ | ⟨rfl, -⟩ | ⟨hoff, hops⟩ :=
      writeOperations_cases ch offset data
    · exact absurd rfl hmode
    · exact absurd rfl hclock
    · obtain ⟨hmisc, hdisable, hextend⟩ := hcommand rfl
      exact serving_command hinv hs hmisc hdisable hextend
    · exact serving_transmit hinv hs (htransmit rfl)
    · exact absurd rfl hacr
    · exact serving_of_quiet hinv hs (hnil hops) (fun h ↦ absurd h hoff.2.2.1)
        (if_neg hoff.2.2.2.1)
  | reset => exact absurd hsession id
  | read offset =>
    refine serving_of_quiet hinv hs ?_ trivial rfl
    simp only [operations, readOperations]
    split
    all_goals first
      | exact hcall trivial
      | exact fun _ hmem ↦ absurd hmem not_mem_nil
  | rxLine ch' state => exact serving_of_quiet hinv hs (hcall trivial) trivial rfl
  | traClock ch' => exact serving_of_quiet hinv hs (hcall trivial) trivial rfl
  | rcvClock ch' => exact serving_of_quiet hinv hs (hcall trivial) trivial rfl
  | ctTimer =>
    refine serving_of_quiet hinv hs ?_ trivial rfl
    simp only [operations, timerOperations]
    split_ifs <;> simp [Operation.Quiet]
  | irqVector => exact serving_of_quiet hinv hs (hnil rfl) trivial rfl
  | inputPort line state => exact serving_of_quiet hinv hs (hnil rfl) trivial rfl
  | advance time => exact serving_of_quiet hinv hs (hnil rfl) trivial rfl

/-- **A session.** The stream grows by the frames of the bytes written to `THR` if no step of the
session loses a byte, and by less if one does. -/
theorem serving_run {es : List Device.Event} (hsession : Run.Meets Device.step (Session ch) d es) :
    Serves (d.chan ch) ((Run.run Device.step d es).chan ch) ∧
      (Run.Meets Device.step (HoldGuard ch) d es →
        (Run.run Device.step d es).stream ch =
          d.stream ch ++ (written ch es).flatMap (d.chan ch).serial.frameBits) ∧
      (¬Run.Meets Device.step (HoldGuard ch) d es →
        ((Run.run Device.step d es).stream ch).length <
          (d.stream ch ++ (written ch es).flatMap (d.chan ch).serial.frameBits).length) := by
  induction es generalizing d with
  | nil => exact ⟨⟨hs, rfl, rfl⟩, fun _ ↦ (append_nil _).symm, fun h ↦ absurd trivial h⟩
  | cons e es ih =>
    have hstep := serving_step hinv hs hsession.1
    obtain ⟨hserves, hkept, hlost⟩ := ih (hinv.step e) hstep.serves.sending hsession.2
    have hwritten : (written ch (e :: es)).flatMap (d.chan ch).serial.frameBits =
        (e.byte ch).flatMap (d.chan ch).serial.frameBits ++
          (written ch es).flatMap (d.chan ch).serial.frameBits := by
      rw [written, flatMap_cons, flatMap_append]
      rfl
    rw [hstep.serves.frameBits] at hkept hlost
    rw [hwritten, Run.run_cons, ← append_assoc]
    refine ⟨hstep.serves.trans hserves, fun hg ↦ ?_, fun hg ↦ ?_⟩
    · rw [hkept hg.2, hstep.kept hg.1]
    · by_cases hhead : HoldGuard ch d e
      · have htail := hlost fun htail ↦ hg ⟨hhead, htail⟩
        rwa [hstep.kept hhead] at htail
      · -- what follows cannot make up for the lost byte
        have hlt := hstep.lost hhead
        have hle : ((Run.run Device.step (d.step e) es).stream ch).length ≤
            ((d.step e).stream ch ++
            (written ch es).flatMap (d.chan ch).serial.frameBits).length := by
          by_cases htail : Run.Meets Device.step (HoldGuard ch) (d.step e) es
          · exact Nat.le_of_eq (congrArg List.length (hkept htail))
          · exact Nat.le_of_lt (hlost htail)
        rw [length_append] at hle ⊢
        omega

end Steps

/-- The bytes written in the run have been driven on the line or are still in the registers, each
once and in order, behind what the shift register held at first; and clock edges alone send what is
left. -/
structure Delivered (ch : ChannelId) (d : Device) (es : List Device.Event) : Prop where
  stream : (Run.run Device.step d es).stream ch =
    d.stream ch ++ (written ch es).flatMap (d.chan ch).serial.frameBits
  drained : (d.chan ch).serial.traRate.isNever = false →
    ∃ n, ((Run.run Device.step d es).clocked ch n).uart.txLine ch =
      d.stream ch ++ (written ch es).flatMap (d.chan ch).serial.frameBits

/-- **Delivery.** In every session of a device, started with nothing in the holding register, the
characters sent are exactly the bytes written to `THR`, if and only if no write to `CR` enables the
transmitter once more while a byte waits. -/
theorem delivered_iff (storage : Device) (ch : ChannelId) (es₀ es : List Device.Event)
    (henabled : ((Run.run Device.step (powerOn storage) es₀).chan ch).txEnabled = true)
    (hnormal : ((Run.run Device.step (powerOn storage) es₀).chan ch).mode = modeNormal)
    (hbuffer : ((Run.run Device.step (powerOn storage) es₀).chan ch).txDataInBuffer = false)
    (hsession : Run.Meets Device.step (Session ch)
      (Run.run Device.step (powerOn storage) es₀) es) :
    Delivered ch (Run.run Device.step (powerOn storage) es₀) es ↔
      Run.Meets Device.step (HoldGuard ch) (Run.run Device.step (powerOn storage) es₀) es := by
  have hinv : ChannelInvariant ch (Run.run Device.step (powerOn storage) es₀) :=
    Run.run_invariant (fun _ e h ↦ h.step e) (channelInvariant_powerOn storage ch) es₀
  generalize Run.run Device.step (powerOn storage) es₀ = d at *
  have hsend : Sending (d.chan ch) := ⟨hinv.transmitter, henabled, hnormal, fun _ ↦ hbuffer⟩
  obtain ⟨hserves, hkept, hlost⟩ := serving_run hinv hsend hsession
  constructor
  · intro h
    by_contra hg
    exact absurd (congrArg List.length h.stream) (Nat.ne_of_lt (hlost hg))
  · intro hg
    refine ⟨hkept hg, fun hrate ↦ ?_⟩
    have hinv' : ChannelInvariant ch (Run.run Device.step d es) :=
      Run.run_invariant (fun _ e h ↦ h.step e) hinv es
    rw [← hserves.traRate] at hrate
    have hclocked : Clocked ((Run.run Device.step d es).port ch).chan :=
      ⟨hinv'.transmitter, hserves.sending.normal, hrate, hserves.sending.buffer⟩
    obtain ⟨n, -, -, -, hline⟩ := exists_drained hclocked
    rw [← port_clocked,
      show ((Run.run Device.step d es).port ch).chan.ch = ch from hinv'.wired ch] at hline
    exact ⟨n, hline.trans (hkept hg)⟩

/-- Two characters at 9600 baud, the second written while the first is on the line. -/
theorem delivered_two_characters :
    Delivered .a
      (Run.run Device.step (powerOn default)
        [.write 0x0 0x13, .write 0x0 0x07, .write 0x1 0xbb, .write 0x2 0x05])
      [.write 0x3 0x61, .traClock .a, .traClock .a, .traClock .a, .write 0x3 0x62] :=
  (delivered_iff default .a
    [.write 0x0 0x13, .write 0x0 0x07, .write 0x1 0xbb, .write 0x2 0x05]
    [.write 0x3 0x61, .traClock .a, .traClock .a, .traClock .a, .write 0x3 0x62]
    (by decide +kernel) (by decide +kernel) (by decide +kernel) (by decide +kernel)).mpr
    (by decide +kernel)

/-- The command register of channel A is `0x05`: transmitter and receiver are enabled. The host
sends two characters, resets the mode register pointer with `0x10` and enables both once more with
`0x05`, while the second character waits for the first. -/
theorem delivered_broken :
    let d := Run.run Device.step (powerOn default)
      [.write 0x0 0x13, .write 0x0 0x07, .write 0x1 0xbb, .write 0x2 0x05]
    let es : List Device.Event := [.write 0x3 0x61, .traClock .a, .traClock .a, .traClock .a,
      .write 0x3 0x62, .write 0x2 0x10, .write 0x2 0x05]
    (d.chan .a).txEnabled = true ∧ (d.chan .a).mode = modeNormal ∧
      (d.chan .a).txDataInBuffer = false ∧ Run.Meets Device.step (Session .a) d es ∧
      ¬Delivered .a d es := by
  intro d es
  refine ⟨by decide +kernel, by decide +kernel, by decide +kernel, by decide +kernel, fun h ↦ ?_⟩
  have hlen := congrArg List.length h.stream
  exact absurd hlen (by decide +kernel)

end RoscoEmulator.Duart
