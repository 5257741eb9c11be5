import RoscoEmulator.Duart.Transmitter

/-!
# The transmitter as a pipeline

`contents` is everything that the shift register and the holding register have still to send. In
normal mode a clock edge moves the first bit of the contents to the transmit line, whatever else it
does: the byte that waits in the holding register becomes a frame in the shift register when the
frame before it ends, and this changes nothing in the contents. A register in use has its clock
running, so clock edges alone drain the pipeline.
-/

namespace RoscoEmulator.Duart

/-- The bits that the two registers still have to send, in the order they will be sent. -/
def Channel.contents (c : Channel) : List Bool :=
  c.serial.pendingBits ++ if c.txDataInBuffer then c.serial.frameBits c.txData else []

/-- The settings of a transmitter, which clock edges do not change. -/
structure SameSettings (c c' : Channel) : Prop where
  ch : c'.ch = c.ch
  mode : c'.mode = c.mode
  cr : c'.cr = c.cr
  txEnabled : c'.txEnabled = c.txEnabled
  traRate : c'.serial.traRate = c.serial.traRate
  frameBits : c'.serial.frameBits = c.serial.frameBits

theorem SameSettings.refl (c : Channel) : SameSettings c c := ⟨rfl, rfl, rfl, rfl, rfl, rfl⟩

variable {p : Port} {c : Channel}

theorem SameSettings.trans {c' c'' : Channel} (h : SameSettings c c') (h' : SameSettings c' c'') :
    SameSettings c c'' :=
  ⟨h'.ch.trans h.ch, h'.mode.trans h.mode, h'.cr.trans h.cr, h'.txEnabled.trans h.txEnabled,
    h'.traRate.trans h.traRate, h'.frameBits.trans h.frameBits⟩

/-! ## One bit -/

theorem sameSettings_bitSent (c : Channel) : SameSettings c c.bitSent := by
  rw [Channel.bitSent, Serial.transmitRegisterGetDataBit_snd]
  exact ⟨rfl, rfl, rfl, rfl, rfl, rfl⟩

theorem sameSettings_loaded (data : BitVec 8) (c : Channel) : SameSettings c (c.loaded data) := by
  rw [Channel.loaded, Serial.transmitRegisterSetup_eq]
  exact ⟨rfl, rfl, rfl, rfl, rfl, rfl⟩

theorem SameSettings.setReady {c' : Channel} (h : SameSettings c c') : SameSettings c c'.setReady :=
  ⟨h.ch, h.mode, h.cr, h.txEnabled, h.traRate, h.frameBits⟩

@[simp] theorem contents_setReady (c : Channel) : c.setReady.contents = c.contents := rfl

theorem contents_eq_cons (h : TxInvariant c) (hne : c.serial.traEmpty = false) :
    c.contents = c.serial.transmitRegisterGetDataBit.1 :: c.bitSent.contents := by
  have hframe := (sameSettings_bitSent c).frameBits
  rw [Channel.contents, Channel.contents, hframe, Serial.pendingBits_eq_cons h.register hne]
  rfl

theorem contents_loaded (h : TxInvariant c) (hempty : c.serial.traEmpty = true)
    (hbuffer : c.txDataInBuffer = true) :
    ({ c.loaded c.txData with txDataInBuffer := false } : Channel).contents = c.contents := by
  have hlen := (h.frame.length_frameBits c.txData).2
  have hpending : c.serial.pendingBits = [] := by
    rw [Serial.pendingBits, hempty]
    rfl
  rw [Channel.contents, Channel.contents, hpending, hbuffer]
  simpa [Channel.loaded] using
    Serial.pendingBits_transmitRegisterSetup c.txData (Nat.le_trans hlen (by decide))

section Edge

variable {p : Port} (h : TxInvariant p.chan) (hmode : p.chan.mode = modeNormal)
include h hmode

/-- The end of a frame moves the byte that waits, and leaves the contents as they are. -/
theorem traComplete_pipeline (hempty : p.chan.serial.traEmpty = true) :
    SameSettings p.chan (traComplete p).chan ∧ (traComplete p).chan.contents = p.chan.contents ∧
      (traComplete p).uart.txLine p.chan.ch = p.uart.txLine p.chan.ch ∧
      ((traComplete p).chan.serial.traEmpty = true →
      (traComplete p).chan.txDataInBuffer = false) := by
  obtain ⟨hchan, hline⟩ := traComplete_of_normal hmode
  rw [hchan]
  split_ifs with hbuffer
  · have hset := sameSettings_loaded p.chan.txData p.chan
    refine ⟨.setReady ?_, ?_, hline, fun _ ↦ rfl⟩
    · exact ⟨hset.ch, hset.mode, hset.cr, hset.txEnabled, hset.traRate, hset.frameBits⟩
    · rw [contents_setReady]
      exact contents_loaded h hempty hbuffer
  · exact ⟨⟨rfl, rfl, rfl, rfl, rfl, rfl⟩, rfl, hline, fun _ ↦ (Bool.not_eq_true _).mp hbuffer⟩

theorem traCallback_pipeline (hne : p.chan.serial.traEmpty = false) :
    SameSettings p.chan (traCallback p).chan ∧
      ∃ bit, p.chan.contents = bit :: (traCallback p).chan.contents ∧
        (traCallback p).uart.txLine p.chan.ch = p.uart.txLine p.chan.ch ++ [bit] := by
  obtain ⟨hchan, hline⟩ := traCallback_of_normal hmode
  have hset := sameSettings_bitSent p.chan
  rw [hchan]
  refine ⟨?_, _, ?_, hline⟩
  · split_ifs
    · exact hset.setReady
    · exact hset
  · rw [contents_eq_cons h hne]
    split_ifs <;> rfl

end Edge

/-- What a clock edge does to a transmitter in use. -/
structure Edge (p q : Port) : Prop where
  settings : SameSettings p.chan q.chan
  line : ∃ bit, p.chan.contents = bit :: q.chan.contents ∧
    q.uart.txLine p.chan.ch = p.uart.txLine p.chan.ch ++ [bit]
  buffer : q.chan.serial.traEmpty = true → q.chan.txDataInBuffer = false

theorem edge_traEdge (h : TxInvariant p.chan) (hmode : p.chan.mode = modeNormal)
    (hne : p.chan.serial.traEmpty = false) : Edge p (serialDevice.traEdge p) := by
  have hshift : Edge p (serialDevice.traShift p) := by
    obtain ⟨hset, bit, hcontents, hline⟩ := traCallback_pipeline h hmode hne
    simp only [SerialDevice.traShift]
    rw [if_pos (show (serialDevice.serial p).traEmpty = false from hne)]
    split_ifs with hempty
    · obtain ⟨hset', hcontents', hline', hbuffer⟩ := traComplete_pipeline
        (txInvariant_traCallback h hne) (hset.mode.trans hmode) hempty
      rw [hset.ch] at hline'
      have hall : p.chan.contents = bit :: (traComplete (traCallback p)).chan.contents := by
        rw [hcontents, hcontents']
      exact ⟨hset.trans hset', ⟨bit, hall, hline'.trans hline⟩, hbuffer⟩
    · exact ⟨hset, ⟨bit, hcontents, hline⟩, fun he ↦ absurd he hempty⟩
  simp only [SerialDevice.traEdge]
  split_ifs
  · obtain ⟨bit, hcontents, hline⟩ := hshift.line
    have hset := hshift.settings
    exact ⟨⟨hset.ch, hset.mode, hset.cr, hset.txEnabled, hset.traRate, hset.frameBits⟩,
      ⟨bit, hcontents, hline⟩, hshift.buffer⟩
  · exact hshift

/-! ## Draining -/

/-- The state of a transmitter that its own clock drives: in normal mode, with a rate, and with
nothing in the holding register unless the shift register is in use. -/
structure Clocked (c : Channel) : Prop where
  invariant : TxInvariant c
  normal : c.mode = modeNormal
  rate : c.serial.traRate.isNever = false
  buffer : c.serial.traEmpty = true → c.txDataInBuffer = false

theorem Clocked.contents_of_empty (h : Clocked c) (hempty : c.serial.traEmpty = true) :
    c.contents = [] := by
  rw [Channel.contents, Serial.pendingBits, hempty, h.buffer hempty]
  rfl

/-- A clock timer that expires: the clock level changes, and a rising level is an edge. -/
theorem traClock_of_clocked (h : Clocked p.chan) (hne : p.chan.serial.traEmpty = false) :
    serialDevice.traClock p =
      if p.chan.serial.traClockState then
        p.onSerial fun s ↦ { s with traClockState := false }
      else serialDevice.traEdge (p.onSerial fun s ↦ { s with traClockState := true }) := by
  have hrun : (serialDevice.serial p).traClock.running = true := h.invariant.clock hne h.rate
  rw [SerialDevice.traClock, if_pos hrun, SerialDevice.txClockW]
  cases hstate : p.chan.serial.traClockState with
  | false => simp [show (serialDevice.serial p).traClockState = false from hstate]; rfl
  | true => simp [show (serialDevice.serial p).traClockState = true from hstate]; rfl

theorem Clocked.onClockState (h : Clocked p.chan) (state : Bool) :
    Clocked (p.onSerial fun s ↦ { s with traClockState := state }).chan := by
  obtain ⟨hinv, hnormal, hrate, hbuffer⟩ := h
  exact ⟨⟨⟨hinv.frame.startBitCount, hinv.frame.wordLength, hinv.frame.stopBitCount⟩, hinv.sent,
    hinv.sent_lt, hinv.count, hinv.clock, hinv.ready⟩, hnormal, hrate, hbuffer⟩

theorem Clocked.edge {q : Port} (h : Clocked p.chan) (he : Edge p q) (hq : TxInvariant q.chan) :
    Clocked q.chan :=
  ⟨hq, he.settings.mode.trans h.normal, by rw [he.settings.traRate]; exact h.rate, he.buffer⟩

/-- **The pipeline drains.** Clock edges alone send everything in the two registers. -/
theorem exists_drained (h : Clocked p.chan) :
    ∃ n, Clocked (serialDevice.traClock^[n] p).chan ∧
      (serialDevice.traClock^[n] p).chan.serial.traEmpty = true ∧
      SameSettings p.chan (serialDevice.traClock^[n] p).chan ∧
      (serialDevice.traClock^[n] p).uart.txLine p.chan.ch =
        p.uart.txLine p.chan.ch ++ p.chan.contents := by
  -- a clock period has two levels, and sends one bit
  induction hm : 2 * p.chan.contents.length + p.chan.serial.traClockState.toNat
    using Nat.strongRecOn generalizing p with
  | _ m ih =>
    cases hempty : p.chan.serial.traEmpty with
    | true =>
      refine ⟨0, h, hempty, .refl _, ?_⟩
      rw [h.contents_of_empty hempty, List.append_nil]
      rfl
    | false =>
      have htick := traClock_of_clocked h hempty
      cases hstate : p.chan.serial.traClockState with
      | true =>
        rw [hstate, if_pos rfl] at htick
        obtain ⟨n, hcl, hdone, hset, hline⟩ := ih
          (2 * p.chan.contents.length) (by rw [← hm, hstate]; simp) (h.onClockState false) rfl
        refine ⟨n + 1, ?_⟩
        rw [Function.iterate_succ_apply, htick]
        exact ⟨hcl, hdone, ⟨hset.ch, hset.mode, hset.cr, hset.txEnabled, hset.traRate,
          hset.frameBits⟩, hline⟩
      | false =>
        rw [hstate, if_neg Bool.false_ne_true] at htick
        have hup := h.onClockState true
        have hedge := edge_traEdge hup.invariant hup.normal hempty
        have hq := hup.edge hedge (txInvariant_traEdge hup.invariant)
        obtain ⟨bit, hcontents, hbit⟩ := hedge.line
        have hlen : p.chan.contents.length =
            (serialDevice.traEdge (p.onSerial fun s ↦
              { s with traClockState := true })).chan.contents.length + 1 :=
          congrArg List.length hcontents
        have hle : (serialDevice.traEdge (p.onSerial fun s ↦
            { s with traClockState := true })).chan.serial.traClockState.toNat ≤ 1 :=
              Bool.toNat_le _
        obtain ⟨n, hcl, hdone, hset, hline⟩ := ih _ (by rw [← hm]; omega) hq rfl
        refine ⟨n + 1, ?_⟩
        rw [Function.iterate_succ_apply, htick]
        have hch : (serialDevice.traEdge (p.onSerial fun s ↦
            { s with traClockState := true })).chan.ch = p.chan.ch := hedge.settings.ch
        refine ⟨hcl, hdone, .trans ?_ hset, ?_⟩
        · have hs := hedge.settings
          exact ⟨hs.ch, hs.mode, hs.cr, hs.txEnabled, hs.traRate, hs.frameBits⟩
        · rw [hch] at hline
          rw [hline, show p.chan.contents = _ from hcontents]
          have hbit' : (serialDevice.traEdge (p.onSerial fun s ↦
            { s with traClockState := true })).uart.txLine p.chan.ch =
              p.uart.txLine p.chan.ch ++ [bit] := hbit
          rw [hbit', List.append_assoc]
          rfl

end RoscoEmulator.Duart
