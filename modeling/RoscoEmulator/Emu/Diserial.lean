import RoscoEmulator.Emu.Attotime

/-!
# The serial device interface

`device_serial_interface` is the base class of every UART: a transmit shift register, a receive
shift register, and two clock timers that a device may use instead of external clocks. A derived
device supplies the virtual functions; `SerialDevice` is that interface, and the clock-edge
functions are written over it.

A clock timer is represented by the arguments of its last `adjust`: the interface never asks a
timer for its remaining time, so nothing here depends on the absolute time.
-/

namespace RoscoEmulator

/-- `parity_t`. -/
inductive Parity
  | none | odd | even | mark | space
deriving DecidableEq, Repr, Inhabited

/-- `stop_bits_t`. -/
inductive StopBits
  | zero | one | onePointFive | two
deriving DecidableEq, Repr

/-- A clock timer as it was last adjusted: a start delay and a period, or stopped. -/
structure ClockTimer where
  delay : Attotime := .never
  period : Attotime := .never
deriving DecidableEq, Repr, Inhabited

namespace ClockTimer

/-- `emu_timer::adjust`. -/
def adjust (delay : Attotime) (period : Attotime := .never) : ClockTimer := ⟨delay, period⟩

/-- The timer will expire. -/
def running (t : ClockTimer) : Bool := !t.delay.isNever

end ClockTimer

/-- The members of `device_serial_interface`, with the values its constructor gives them. The bits
of `m_rcv_flags` and `m_tra_flags` are separate fields. -/
structure Serial where
  startBitHackForExternalClocks : Bool := false
  dfStartBitCount : ℕ := 0
  dfWordLength : ℕ := 0
  dfParity : Parity := .none
  dfStopBitCount : ℕ := 0
  dfMinRxStopBitCount : ℕ := 0
  rcvRegisterData : BitVec 16 := 0x8000
  rcvWaitingForStartBit : Bool := false
  rcvSynchronised : Bool := false
  rcvFull : Bool := false
  rcvBitCountReceived : ℕ := 0
  rcvBitCount : ℕ := 0
  rcvByteReceived : BitVec 8 := 0
  rcvFramingError : Bool := false
  rcvParityError : Bool := false
  traRegisterData : BitVec 16 := 0
  traEmpty : Bool := true
  traBitCountTransmitted : ℕ := 0
  traBitCount : ℕ := 0
  rcvClock : ClockTimer := {}
  traClock : ClockTimer := {}
  rcvRate : Attotime := .never
  traRate : Attotime := .never
  rcvLine : Bool := false
  traClockState : Bool := false
  rcvClockState : Bool := false
deriving Inhabited

namespace Serial

/-! ## Receive register -/

/-- `receive_register_reset`. -/
def receiveRegisterReset (s : Serial) : Serial :=
  { s with
    rcvBitCountReceived := 0
    rcvFull := false
    rcvSynchronised := s.dfStartBitCount == 0
    rcvWaitingForStartBit := s.dfStartBitCount != 0 }

/-- `receive_register_update_bit`: shift one bit in, and look for a start bit or count data. -/
def receiveRegisterUpdateBit (bit : Bool) (s : Serial) : Serial :=
  let previousBit := s.rcvRegisterData.getLsbD 15
  let s := { s with
    rcvRegisterData :=
      (s.rcvRegisterData >>> 1) &&& 0x7fff ||| (BitVec.ofBool bit).setWidth 16 <<< 15 }
  if s.rcvWaitingForStartBit then
    if previousBit != bit then
      if bit = false then
        { s with
          rcvWaitingForStartBit := false
          rcvSynchronised := true
          rcvBitCountReceived := 0
          rcvFramingError := false
          rcvParityError := false }
      else s
    else s
  else if s.rcvSynchronised then
    let s := { s with rcvBitCountReceived := s.rcvBitCountReceived + 1 }
    let s := if !bit && decide ((s.rcvBitCount : ℤ) - s.dfMinRxStopBitCount < s.rcvBitCountReceived)
      then { s with rcvFramingError := true } else s
    if s.rcvBitCountReceived = s.rcvBitCount then
      { s with
        rcvBitCountReceived := 0
        rcvSynchronised := false
        rcvWaitingForStartBit := true
        rcvFull := true }
    else s
  else s

/-- The parity of the number of one bits: `BIT(std::popcount(data), 0)`. -/
def oddOnes (data : BitVec 8) : Bool :=
  (List.range 8).foldl (fun b i ↦ b ^^ data.getLsbD i) false

/-- `receive_register_extract`. -/
def receiveRegisterExtract (s : Serial) : Serial :=
  let s := s.receiveRegisterReset
  let data := (s.rcvRegisterData >>> (16 - s.rcvBitCount)).setWidth 8
  let data := data &&& ~~~(0xff#8 <<< s.dfWordLength)
  let s := { s with rcvByteReceived := data }
  let parityReceived := s.rcvRegisterData.getLsbD (16 - s.rcvBitCount + s.dfWordLength)
  match s.dfParity with
  | .none => s
  | .odd => if parityReceived = oddOnes data then { s with rcvParityError := true } else s
  | .even => if parityReceived ≠ oddOnes data then { s with rcvParityError := true } else s
  | .mark => if parityReceived = false then { s with rcvParityError := true } else s
  | .space => if parityReceived = true then { s with rcvParityError := true } else s

/-- `rx_w`: a level on the receive line. -/
def rxW (state : Bool) (s : Serial) : Serial :=
  let s := { s with rcvLine := state }
  if s.rcvSynchronised then s
  else
    let s := s.receiveRegisterUpdateBit state
    if s.rcvSynchronised then
      if !s.rcvRate.isNever then
        { s with rcvClock := .adjust (s.rcvRate.mul 2) s.rcvRate }
      else if s.startBitHackForExternalClocks then
        { s with rcvBitCountReceived := (s.rcvBitCountReceived + 255) % 256 }
      else s
    else s

/-! ## Framing and rates -/

/-- The number of stop bits sent, and the least number required on reception. -/
def stopBitCounts : StopBits → ℕ × ℕ
  | .zero => (0, 0)
  | .one => (1, 1)
  | .onePointFive => (2, 1)
  | .two => (2, 1)

/-- `set_data_frame`. -/
def setDataFrame (startBitCount dataBitCount : ℕ) (parity : Parity) (stopBits : StopBits)
    (s : Serial) : Serial :=
  let dfChanged := startBitCount != s.dfStartBitCount || dataBitCount != s.dfWordLength ||
    parity != s.dfParity
  let (stopBitCount, minRxStopBitCount) := stopBitCounts stopBits
  let dfChanged := dfChanged || stopBitCount != s.dfStopBitCount ||
    minRxStopBitCount != s.dfMinRxStopBitCount
  let s := { s with
    dfWordLength := dataBitCount
    dfStopBitCount := stopBitCount
    dfMinRxStopBitCount := minRxStopBitCount }
  if !dfChanged then s
  else
    let rcvBitCount := s.dfWordLength + s.dfMinRxStopBitCount
    receiveRegisterReset { s with
      dfParity := parity
      dfStartBitCount := startBitCount
      rcvBitCount := if parity != .none then rcvBitCount + 1 else rcvBitCount }

/-- `set_rcv_rate(const attotime &)`. -/
def setRcvRateTime (rate : Attotime) (s : Serial) : Serial :=
  { receiveRegisterReset { s with rcvRate := rate.div 2 } with rcvClock := .adjust .never }

/-- `transmit_register_reset`. -/
def transmitRegisterReset (s : Serial) : Serial := { s with traEmpty := true }

/-- `set_tra_rate(const attotime &)`. -/
def setTraRateTime (rate : Attotime) (s : Serial) : Serial :=
  { transmitRegisterReset { s with traRate := rate.div 2 } with traClock := .adjust .never }

/-- `set_rcv_rate(int baud)`. -/
def setRcvRate (baud : ℤ) (s : Serial) : Serial :=
  s.setRcvRateTime (if baud ≠ 0 then .fromHz baud else .never)

/-- `set_tra_rate(int baud)`. -/
def setTraRate (baud : ℤ) (s : Serial) : Serial :=
  s.setTraRateTime (if baud ≠ 0 then .fromHz baud else .never)

/-! ## Transmit register -/

/-- `transmit_register_add_bit`. -/
def transmitRegisterAddBit (bit : Bool) (s : Serial) : Serial :=
  { s with
    traRegisterData := (s.traRegisterData <<< 1) ||| (BitVec.ofBool bit).setWidth 16
    traBitCount := s.traBitCount + 1 }

/-- The parity bit of a data byte, for the parities that have one. -/
def parityBit (parity : Parity) (dataByte : BitVec 8) : Bool :=
  match parity with
  | .none => false
  | .odd => !oddOnes dataByte
  | .even => oddOnes dataByte
  | .mark => true
  | .space => false

/-- `transmit_register_setup`: build the frame of a byte and start the clock. -/
def transmitRegisterSetup (dataByte : BitVec 8) (s : Serial) : Serial :=
  let s := if !s.traRate.isNever then { s with traClock := .adjust s.traRate s.traRate } else s
  let s := { s with traBitCountTransmitted := 0, traBitCount := 0, traEmpty := false }
  -- start bits, then the data bits from the lowest
  let s : Serial :=
    (List.range s.dfStartBitCount).foldl (fun s _ ↦ s.transmitRegisterAddBit false) s
  let s : Serial := (List.range s.dfWordLength).foldl
    (fun s i ↦ s.transmitRegisterAddBit (dataByte.getLsbD i)) s
  let s :=
    if s.dfParity ≠ .none then s.transmitRegisterAddBit (parityBit s.dfParity dataByte) else s
  (List.range s.dfStopBitCount).foldl (fun s _ ↦ s.transmitRegisterAddBit true) s

/-- `transmit_register_get_data_bit`: the bit, and the register after it. -/
def transmitRegisterGetDataBit (s : Serial) : Bool × Serial :=
  let bit := s.traRegisterData.getLsbD (s.traBitCount - 1 - s.traBitCountTransmitted)
  let s := { s with traBitCountTransmitted := s.traBitCountTransmitted + 1 }
  (bit, if s.traBitCountTransmitted = s.traBitCount then { s with traEmpty := true } else s)

end Serial

/-! ## Clock edges -/

/-- What a device derived from the serial interface supplies: where its serial state is kept, and
the virtual functions. -/
structure SerialDevice (D : Type*) where
  serial : D → Serial
  update : (Serial → Serial) → D → D
  traCallback : D → D
  traComplete : D → D
  rcvCallback : D → D := fun d ↦ update (fun s ↦ s.receiveRegisterUpdateBit s.rcvLine) d
  rcvComplete : D → D

namespace SerialDevice

variable {D : Type*} (V : SerialDevice D)

/-- The shifting half of `tra_edge`. -/
def traShift (d : D) : D :=
  if (V.serial d).traEmpty = false then
    let d := V.traCallback d
    if (V.serial d).traEmpty then V.traComplete d else d
  else d

/-- `tra_edge`: shift a bit out, and stop the clock if there is nothing left to send. -/
def traEdge (d : D) : D :=
  let d := V.traShift d
  if (V.serial d).traEmpty && !(V.serial d).traRate.isNever then
    V.update (fun s ↦ { s with traClock := .adjust .never }) d
  else d

/-- `rcv_edge`. -/
def rcvEdge (d : D) : D :=
  let d := V.rcvCallback d
  if (V.serial d).rcvFull then
    V.rcvComplete (V.update (fun s ↦ { s with rcvClock := .adjust .never }) d)
  else d

/-- `tx_clock_w`. -/
def txClockW (state : Bool) (d : D) : D :=
  if state != (V.serial d).traClockState then
    let d := V.update (fun s ↦ { s with traClockState := state }) d
    if state then V.traEdge d else d
  else d

/-- `rx_clock_w`. -/
def rxClockW (state : Bool) (d : D) : D :=
  if state != (V.serial d).rcvClockState then
    let d := V.update (fun s ↦ { s with rcvClockState := state }) d
    if !state then V.rcvEdge d else d
  else d

/-- The `tra_clock` timer callback; a stopped timer does not expire. -/
def traClock (d : D) : D :=
  if (V.serial d).traClock.running then V.txClockW (!(V.serial d).traClockState) d else d

/-- The `rcv_clock` timer callback; a stopped timer does not expire. -/
def rcvClock (d : D) : D :=
  if (V.serial d).rcvClock.running then V.rxClockW (!(V.serial d).rcvClockState) d else d

/-! ## Properties that no serial activity changes

A property of a device that does not read the serial state, and that the virtual functions keep, is
kept by every clock edge. -/

/-- `I` is kept by every virtual function and by any change of the serial state. -/
structure Keeps (I : D → Prop) : Prop where
  update : ∀ f d, I d → I (V.update f d)
  traCallback : ∀ d, I d → I (V.traCallback d)
  traComplete : ∀ d, I d → I (V.traComplete d)
  rcvCallback : ∀ d, I d → I (V.rcvCallback d)
  rcvComplete : ∀ d, I d → I (V.rcvComplete d)

namespace Keeps

variable {V} {I : D → Prop} (h : V.Keeps I) {d : D} (hd : I d)
include h hd

theorem traShift : I (V.traShift d) := by
  simp only [SerialDevice.traShift]
  split_ifs
  · exact h.traComplete _ (h.traCallback d hd)
  · exact h.traCallback d hd
  · exact hd

theorem traEdge : I (V.traEdge d) := by
  simp only [SerialDevice.traEdge]
  split_ifs
  · exact h.update _ _ (h.traShift hd)
  · exact h.traShift hd

theorem rcvEdge : I (V.rcvEdge d) := by
  simp only [SerialDevice.rcvEdge]
  split_ifs
  · exact h.rcvComplete _ (h.update _ _ (h.rcvCallback d hd))
  · exact h.rcvCallback d hd

theorem txClockW (state : Bool) : I (V.txClockW state d) := by
  rw [SerialDevice.txClockW]
  split_ifs
  · exact h.traEdge (h.update _ d hd)
  · exact h.update _ d hd
  · exact hd

theorem rxClockW (state : Bool) : I (V.rxClockW state d) := by
  rw [SerialDevice.rxClockW]
  split_ifs
  · exact h.rcvEdge (h.update _ d hd)
  · exact h.update _ d hd
  · exact hd

theorem traClock : I (V.traClock d) := by
  rw [SerialDevice.traClock]
  split_ifs
  · exact h.txClockW hd _
  · exact hd

theorem rcvClock : I (V.rcvClock d) := by
  rw [SerialDevice.rcvClock]
  split_ifs
  · exact h.rxClockW hd _
  · exact hd

end Keeps

/-! ## Two devices that do the same

A relation of two devices with the same serial state, which the virtual functions keep, is kept by
every clock edge. -/

/-- The changes that the clock edges make to the serial state by themselves. -/
inductive ClockChange : (Serial → Serial) → Prop
  | traClockState (state : Bool) : ClockChange fun s ↦ { s with traClockState := state }
  | rcvClockState (state : Bool) : ClockChange fun s ↦ { s with rcvClockState := state }
  | traClockStop : ClockChange fun s ↦ { s with traClock := .adjust .never }
  | rcvClockStop : ClockChange fun s ↦ { s with rcvClock := .adjust .never }

/-- `R` relates devices with the same serial state, and is kept by the virtual functions. -/
structure Simulates (R : D → D → Prop) : Prop where
  serial : ∀ d d', R d d' → V.serial d' = V.serial d
  update : ∀ f, ClockChange f → ∀ d d', R d d' → R (V.update f d) (V.update f d')
  traCallback : ∀ d d', R d d' → R (V.traCallback d) (V.traCallback d')
  traComplete : ∀ d d', R d d' → R (V.traComplete d) (V.traComplete d')
  rcvCallback : ∀ d d', R d d' → R (V.rcvCallback d) (V.rcvCallback d')
  rcvComplete : ∀ d d', R d d' → R (V.rcvComplete d) (V.rcvComplete d')

namespace Simulates

variable {V} {R : D → D → Prop} (h : V.Simulates R) {d d' : D} (hd : R d d')
include h hd

theorem traShift : R (V.traShift d) (V.traShift d') := by
  have hcallback := h.traCallback d d' hd
  simp only [SerialDevice.traShift, h.serial d d' hd, h.serial _ _ hcallback]
  split_ifs
  · exact h.traComplete _ _ hcallback
  · exact hcallback
  · exact hd

theorem traEdge : R (V.traEdge d) (V.traEdge d') := by
  have hshift := h.traShift hd
  simp only [SerialDevice.traEdge, h.serial _ _ hshift]
  split_ifs
  · exact h.update _ .traClockStop _ _ hshift
  · exact hshift

theorem rcvEdge : R (V.rcvEdge d) (V.rcvEdge d') := by
  have hcallback := h.rcvCallback d d' hd
  simp only [SerialDevice.rcvEdge, h.serial _ _ hcallback]
  split_ifs
  · exact h.rcvComplete _ _ (h.update _ .rcvClockStop _ _ hcallback)
  · exact hcallback

theorem txClockW (state : Bool) : R (V.txClockW state d) (V.txClockW state d') := by
  rw [SerialDevice.txClockW, SerialDevice.txClockW, h.serial d d' hd]
  split_ifs
  · exact h.traEdge (h.update _ (.traClockState state) d d' hd)
  · exact h.update _ (.traClockState state) d d' hd
  · exact hd

theorem rxClockW (state : Bool) : R (V.rxClockW state d) (V.rxClockW state d') := by
  rw [SerialDevice.rxClockW, SerialDevice.rxClockW, h.serial d d' hd]
  split_ifs
  · exact h.rcvEdge (h.update _ (.rcvClockState state) d d' hd)
  · exact h.update _ (.rcvClockState state) d d' hd
  · exact hd

theorem traClock : R (V.traClock d) (V.traClock d') := by
  rw [SerialDevice.traClock, SerialDevice.traClock, h.serial d d' hd]
  split_ifs
  · exact h.txClockW hd _
  · exact hd

theorem rcvClock : R (V.rcvClock d) (V.rcvClock d') := by
  rw [SerialDevice.rcvClock, SerialDevice.rcvClock, h.serial d d' hd]
  split_ifs
  · exact h.rxClockW hd _
  · exact hd

end Simulates

end SerialDevice

end RoscoEmulator
