import RoscoEmulator.Emu.Diserial
import RoscoEmulator.Emu.Division
import RoscoEmulator.Lib.GuardedRun

/-!
# The phase of a receiver on its own clock

A receiver on its own timer takes a sample at every second expiry, where its clock goes low. `rx_w`
adjusts the timer at a start edge so that the first expiry comes one bit later and the others half a
bit after each other; the samples are then in the middle of the bits if the clock was low at the
edge.

A character that has been received leaves the clock low and the timer stopped. What gives a
character up leaves the clock as it is: `set_rcv_rate` stops the timer, and neither `set_data_frame`
nor `receive_register_reset` does. `always_inPhase_iff` says for which runs this does no harm. -/

namespace RoscoEmulator

open List

/-- What happens to a receiver on its own clock. A device that takes a character out of
`rcv_complete` does so by `extract`. -/
inductive ReceiverEvent
  /-- `rx_w`. -/
  | line (state : Bool)
  /-- The timer of the receive clock expires, if it runs. -/
  | tick
  /-- `set_rcv_rate`. -/
  | rate (rate : {t : Attotime // t.Normalised})
  /-- `set_data_frame`. -/
  | frame (startBitCount dataBitCount : ℕ) (parity : Parity) (stopBits : StopBits)
  /-- `receive_register_reset`. -/
  | reset
  /-- `receive_register_extract`. -/
  | extract

namespace ReceiverEvent

def isTick : ReceiverEvent → Bool
  | tick => true
  | _ => false

end ReceiverEvent

namespace Serial

/-- The interface without a derived device. -/
def bare : SerialDevice Serial where
  serial := id
  update f s := f s
  traCallback := id
  traComplete := id
  rcvComplete := id

/-- The receiver after an event. -/
def receive (s : Serial) : ReceiverEvent → Serial
  | .line state => s.rxW state
  | .tick => bare.rcvClock s
  | .rate rate => s.setRcvRateTime rate.1
  | .frame startBitCount dataBitCount parity stopBits =>
      s.setDataFrame startBitCount dataBitCount parity stopBits
  | .reset => s.receiveRegisterReset
  | .extract => s.receiveRegisterExtract

/-! ## Samples -/

/-- The event is an expiry of the timer. -/
def expires (s : Serial) (e : ReceiverEvent) : Bool := e.isTick && s.rcvClock.running

/-- The event has the receiver call `rcv_edge`. -/
def takesSample (s : Serial) (e : ReceiverEvent) : Bool := s.expires e && s.rcvClockState

/-- The attoseconds from the adjustment of a timer to an expiry, numbered from 0. -/
def expiry (t : ClockTimer) (j : ℕ) : ℤ := t.delay.toAttoseconds + j * t.period.toAttoseconds

/-- The times at which the samples of a character are taken, since its start edge, when the timer
has expired `j` times. -/
def samples (j : ℕ) : Serial → List ReceiverEvent → List ℤ
  | _, [] => []
  | s, e :: es =>
      if s.rcvSynchronised then
        (if s.takesSample e then [expiry s.rcvClock j] else []) ++
          samples (if s.expires e then j + 1 else j) (s.receive e) es
      else []

/-- A receiver on its own clock that waits for a start bit has its clock low. -/
def WaitsLow (s : Serial) : Prop :=
  s.rcvRate.isNever = false → s.rcvSynchronised = false → s.rcvClockState = false

instance (s : Serial) : Decidable s.WaitsLow := inferInstanceAs (Decidable (_ → _ → _))

/-- From a start edge on the samples are taken one and a half, two and a half and so on bits behind
it; `m_rcv_rate` is half a bit. -/
def SamplesMidBit (s : Serial) : Prop :=
  ∀ (state : Bool) (es : List ReceiverEvent), s.rcvRate.isNever = false →
    s.rcvSynchronised = false → (s.rxW state).rcvSynchronised = true →
      ∃ m, (s.rxW state).samples 0 es =
        (range m).map fun k : ℕ ↦ (2 * (k : ℤ) + 3) * s.rcvRate.toAttoseconds

/-- The clock of a receiver that waits is low, and its samples are taken in the middle of the
bits. -/
structure InPhase (s : Serial) : Prop where
  low : s.WaitsLow
  midBit : s.SamplesMidBit

/-- A timer that runs has a rate. -/
structure Timed (s : Serial) : Prop where
  rate : s.rcvRate.Normalised
  running : s.rcvClock.running = true → s.rcvRate.isNever = false

/-! ## What an event changes -/

section Frames

variable (s : Serial)

theorem updateBit_clock (bit : Bool) :
    (s.receiveRegisterUpdateBit bit).rcvClock = s.rcvClock ∧
      (s.receiveRegisterUpdateBit bit).rcvClockState = s.rcvClockState ∧
        (s.receiveRegisterUpdateBit bit).rcvRate = s.rcvRate := by
  simp only [receiveRegisterUpdateBit]
  split_ifs <;> exact ⟨rfl, rfl, rfl⟩

theorem extract_clock :
    s.receiveRegisterExtract.rcvClock = s.rcvClock ∧
      s.receiveRegisterExtract.rcvClockState = s.rcvClockState ∧
        s.receiveRegisterExtract.rcvRate = s.rcvRate ∧
          s.receiveRegisterExtract.rcvSynchronised = (s.dfStartBitCount == 0) := by
  simp only [receiveRegisterExtract]
  split
  · exact ⟨rfl, rfl, rfl, rfl⟩
  all_goals split_ifs <;> exact ⟨rfl, rfl, rfl, rfl⟩

/-- A frame is set that is not the one the receiver has. -/
def changesFrame (startBitCount dataBitCount : ℕ) (parity : Parity) (stopBits : StopBits) : Bool :=
  startBitCount != s.dfStartBitCount || dataBitCount != s.dfWordLength || parity != s.dfParity ||
    (stopBitCounts stopBits).1 != s.dfStopBitCount ||
    (stopBitCounts stopBits).2 != s.dfMinRxStopBitCount

theorem setDataFrame_clock (startBitCount dataBitCount : ℕ) (parity : Parity)
    (stopBits : StopBits) :
    (s.setDataFrame startBitCount dataBitCount parity stopBits).rcvClock = s.rcvClock ∧
      (s.setDataFrame startBitCount dataBitCount parity stopBits).rcvClockState = s.rcvClockState ∧
        (s.setDataFrame startBitCount dataBitCount parity stopBits).rcvRate = s.rcvRate ∧
          (s.setDataFrame startBitCount dataBitCount parity stopBits).rcvSynchronised =
            if s.changesFrame startBitCount dataBitCount parity stopBits then startBitCount == 0
            else s.rcvSynchronised := by
  simp only [setDataFrame]
  cases hchange : s.changesFrame startBitCount dataBitCount parity stopBits with
  | true =>
    rw [changesFrame] at hchange
    simp only [hchange]
    exact ⟨rfl, rfl, rfl, rfl⟩
  | false =>
    rw [changesFrame] at hchange
    simp only [hchange]
    exact ⟨rfl, rfl, rfl, rfl⟩

/-- A synchronised receiver only notes the level of its line. -/
theorem rxW_of_synchronised (hsync : s.rcvSynchronised = true) (state : Bool) :
    s.rxW state = { s with rcvLine := state } := by
  simp only [rxW, hsync, if_true]

/-- A receiver that waits for a start bit starts its clock when it gets one. -/
theorem rxW_of_waiting (hsync : s.rcvSynchronised = false) (state : Bool) :
    (s.rxW state).rcvClockState = s.rcvClockState ∧ (s.rxW state).rcvRate = s.rcvRate ∧
      (s.rxW state).rcvClock =
        if (s.rxW state).rcvSynchronised ∧ s.rcvRate.isNever = false then
          .adjust (s.rcvRate.mul 2) s.rcvRate
        else s.rcvClock := by
  obtain ⟨hclock, hstate, hrate⟩ := ({ s with rcvLine := state } : Serial).updateBit_clock state
  have hwaiting : s.rxW state =
      let s' := ({ s with rcvLine := state } : Serial).receiveRegisterUpdateBit state
      if s'.rcvSynchronised then
        if !s'.rcvRate.isNever then { s' with rcvClock := .adjust (s'.rcvRate.mul 2) s'.rcvRate }
        else if s'.startBitHackForExternalClocks then
          { s' with rcvBitCountReceived := (s'.rcvBitCountReceived + 255) % 256 }
        else s'
      else s' := by
    simp only [rxW, hsync, Bool.false_eq_true, if_false]
  rw [hwaiting]
  generalize ({ s with rcvLine := state } : Serial).receiveRegisterUpdateBit state =
    s' at hclock hstate hrate
  have hrate' : s.rcvRate = s'.rcvRate := hrate.symm
  rw [hrate']
  by_cases hsync' : s'.rcvSynchronised = true
  · by_cases hnever : s'.rcvRate.isNever = true
    · by_cases hhack : s'.startBitHackForExternalClocks = true
      · simp [hhack, hsync', hnever, hstate, hclock]
      · simp [hhack, hsync', hnever, hstate, hclock]
    · simp [hsync', hnever, hstate]
  · simp [hsync', hstate, hclock]

/-- A timer that has been stopped does not expire. -/
theorem receive_tick_of_stopped (hstopped : s.rcvClock.running = false) : s.receive .tick = s := by
  have hstopped' : (bare.serial s).rcvClock.running = false := hstopped
  have hreceive : s.receive .tick = bare.rcvClock s := rfl
  rw [hreceive, SerialDevice.rcvClock, hstopped', if_neg Bool.false_ne_true]

/-- The clock goes high, and nothing is sampled. -/
theorem receive_tick_of_low (hrunning : s.rcvClock.running = true)
    (hlow : s.rcvClockState = false) : s.receive .tick = { s with rcvClockState := true } := by
  have hrunning' : (bare.serial s).rcvClock.running = true := hrunning
  have hlow' : (bare.serial s).rcvClockState = false := hlow
  have hreceive : s.receive .tick = bare.rcvClock s := rfl
  rw [hreceive, SerialDevice.rcvClock, hrunning', if_pos rfl, SerialDevice.rxClockW, hlow']
  rfl

/-- The clock goes low, and a bit is taken in, with which the timer may stop. -/
theorem receive_tick_of_high
    (hrunning : s.rcvClock.running = true) (hhigh : s.rcvClockState = true) :
    (s.receive .tick).rcvClockState = false ∧ (s.receive .tick).rcvRate = s.rcvRate ∧
      ((s.receive .tick).rcvClock = s.rcvClock ∨ (s.receive .tick).rcvClock.running = false) := by
  have hrunning' : (bare.serial s).rcvClock.running = true := hrunning
  have hhigh' : (bare.serial s).rcvClockState = true := hhigh
  have hreceive : s.receive .tick = bare.rcvClock s := rfl
  obtain ⟨hclock, hstate, hrate⟩ :=
    ({ s with rcvClockState := false } : Serial).updateBit_clock s.rcvLine
  have hedge : s.receive .tick =
      let s' := ({ s with rcvClockState := false } : Serial).receiveRegisterUpdateBit s.rcvLine
      if s'.rcvFull then { s' with rcvClock := .adjust .never } else s' := by
    rw [hreceive, SerialDevice.rcvClock, hrunning', if_pos rfl, SerialDevice.rxClockW, hhigh']
    rfl
  rw [hedge]
  dsimp only
  split_ifs
  · exact ⟨hstate, hrate, .inr rfl⟩
  · exact ⟨hstate, hrate, .inl hclock⟩

end Frames

/-! ## The samples of a character -/

theorem toAttoseconds_mul_two {t : Attotime} (ht : t.Normalised)
    (hfin : (t.mul 2).isNever = false) : (t.mul 2).toAttoseconds = 2 * t.toAttoseconds := by
  have hmul : t.mul 2 = .saturate (t.toAttoseconds * (2 : ℕ)) :=
    Attotime.mul_eq_saturate ht (by decide) (.inr (by decide))
  have hlt : t.toAttoseconds * (2 : ℕ) < attotimeMaxSeconds * attosecondsPerSecond := by
    by_contra hlong
    rw [hmul, Attotime.saturate_eq_never (Int.not_lt.mp hlong)] at hfin
    exact absurd hfin.symm Bool.false_ne_true
  rw [hmul, Attotime.toAttoseconds_saturate hlt, Nat.cast_ofNat, mul_comm]

/-- The receiver has synchronised with the timer adjusted for half bits of `h` attoseconds, and the
timer has expired `j` times. -/
structure Sampling (h : ℤ) (j : ℕ) (s : Serial) : Prop where
  clock : s.rcvClock.running = true → ∀ i, expiry s.rcvClock i = (i + 2) * h
  state : s.rcvClock.running = true → s.rcvClockState = decide (j % 2 = 1)

variable {s : Serial}

theorem Sampling.receive {h : ℤ} {j : ℕ} (hs : s.Sampling h j) (hsync : s.rcvSynchronised = true)
    (e : ReceiverEvent) : (s.receive e).Sampling h (if s.expires e then j + 1 else j) := by
  have hsame {s' : Serial} (hclock : s'.rcvClock = s.rcvClock)
      (hstate : s'.rcvClockState = s.rcvClockState) :
      s'.Sampling h j := ⟨by rw [hclock]; exact hs.clock, by rw [hclock, hstate]; exact hs.state⟩
  have hstopped {s' : Serial} {i : ℕ} (hstop : s'.rcvClock.running = false) : s'.Sampling h i :=
    ⟨fun hno ↦ absurd (hstop.symm.trans hno) Bool.false_ne_true,
      fun hno ↦ absurd (hstop.symm.trans hno) Bool.false_ne_true⟩
  cases e with
  | line state =>
    have hline : s.receive (.line state) = { s with rcvLine := state } :=
      s.rxW_of_synchronised hsync state
    rw [hline]
    exact hsame rfl rfl
  | tick =>
    have hexpires : s.expires .tick = s.rcvClock.running := rfl
    rw [hexpires]
    by_cases hrunning : s.rcvClock.running = true
    · rw [if_pos hrunning]
      have hstate := hs.state hrunning
      by_cases hhigh : s.rcvClockState = true
      · obtain ⟨hlow, -, hclock | hstop⟩ := s.receive_tick_of_high hrunning hhigh
        · refine ⟨by rw [hclock]; exact hs.clock, fun _ ↦ ?_⟩
          have hodd : j % 2 = 1 := of_decide_eq_true (hstate.symm.trans hhigh)
          rw [hlow, decide_eq_false (by omega)]
        · exact hstopped hstop
      · have hlow : s.rcvClockState = false := eq_false_of_ne_true hhigh
        have heven : ¬ j % 2 = 1 := of_decide_eq_false (hstate.symm.trans hlow)
        rw [s.receive_tick_of_low hrunning hlow]
        refine ⟨hs.clock, fun _ ↦ ?_⟩
        rw [decide_eq_true (by omega)]
    · rw [if_neg hrunning, s.receive_tick_of_stopped (eq_false_of_ne_true hrunning)]
      exact hs
  | rate rate => exact hstopped rfl
  | frame startBitCount dataBitCount parity stopBits =>
    obtain ⟨hclock, hstate, -⟩ := s.setDataFrame_clock startBitCount dataBitCount parity stopBits
    exact hsame hclock hstate
  | reset => exact hsame rfl rfl
  | extract => exact hsame s.extract_clock.1 s.extract_clock.2.1

/-- **The samples of a character**, from an expiry of the timer on. -/
theorem Sampling.samples_eq {h : ℤ} {j : ℕ} (hs : s.Sampling h j) (es : List ReceiverEvent) :
    ∃ m, s.samples j es = (range m).map fun k : ℕ ↦ (2 * ((j / 2 + k : ℕ) : ℤ) + 3) * h := by
  induction es generalizing s j with
  | nil => exact ⟨0, rfl⟩
  | cons e es ih =>
    by_cases hsync : s.rcvSynchronised = true
    · obtain ⟨m, hm⟩ := ih (hs.receive hsync e)
      rw [samples, if_pos hsync, hm]
      by_cases hsample : s.takesSample e = true
      · obtain ⟨hexpires, hhigh⟩ := Bool.and_eq_true_iff.mp hsample
        have hrunning : s.rcvClock.running = true := (Bool.and_eq_true_iff.mp hexpires).2
        have hodd : j % 2 = 1 := of_decide_eq_true ((hs.state hrunning).symm.trans hhigh)
        refine ⟨m + 1, ?_⟩
        rw [if_pos hsample, if_pos hexpires, range_succ_eq_map, map_cons, map_map,
          hs.clock hrunning]
        have hhead : ((j : ℤ) + 2) * h = (2 * ((j / 2 + 0 : ℕ) : ℤ) + 3) * h := by
          have hj : (j : ℤ) = 2 * ((j / 2 + 0 : ℕ) : ℤ) + 1 := by omega
          rw [hj]
          ring
        have hnext : (j + 1) / 2 = j / 2 + 1 := by omega
        rw [hhead, hnext]
        refine congrArg _ (map_congr_left fun k _ ↦ ?_)
        simp only [Function.comp_apply]
        push_cast
        ring
      · refine ⟨m, ?_⟩
        rw [if_neg hsample, nil_append]
        by_cases hexpires : s.expires e = true
        · have hrunning : s.rcvClock.running = true := (Bool.and_eq_true_iff.mp hexpires).2
          have heven : j % 2 ≠ 1 := by
            intro hodd
            have hhigh : s.rcvClockState = true := (hs.state hrunning).trans (decide_eq_true hodd)
            exact hsample (Bool.and_eq_true_iff.mpr ⟨hexpires, hhigh⟩)
          have hnext : (j + 1) / 2 = j / 2 := by omega
          rw [if_pos hexpires, hnext]
        · rw [if_neg hexpires]
    · refine ⟨0, ?_⟩
      rw [samples, if_neg hsync]
      rfl

theorem sampling_start (ht : s.Timed) (hlow : s.rcvClockState = false)
    (hrate : s.rcvRate.isNever = false) (hsync : s.rcvSynchronised = false) {state : Bool}
    (hstart : (s.rxW state).rcvSynchronised = true) :
    (s.rxW state).Sampling s.rcvRate.toAttoseconds 0 := by
  obtain ⟨hstate, -, hclock⟩ := s.rxW_of_waiting hsync state
  rw [if_pos ⟨hstart, hrate⟩] at hclock
  refine ⟨fun hrunning i ↦ ?_, fun _ ↦ hstate.trans hlow⟩
  have hfin : (s.rcvRate.mul 2).isNever = false := by
    rw [hclock] at hrunning
    exact Bool.not_eq_true' _ ▸ hrunning
  have hdelay : expiry (s.rxW state).rcvClock i =
      (s.rcvRate.mul 2).toAttoseconds + i * s.rcvRate.toAttoseconds := by rw [hclock]; rfl
  rw [hdelay, toAttoseconds_mul_two ht.rate hfin]
  ring

theorem samplesMidBit_of_waitsLow (ht : s.Timed) (hlow : s.WaitsLow) : s.SamplesMidBit := by
  intro state es hrate hsync hstart
  obtain ⟨m, hm⟩ := (sampling_start ht (hlow hrate hsync) hrate hsync hstart).samples_eq es
  refine ⟨m, hm.trans (map_congr_left fun k _ ↦ ?_)⟩
  rw [Nat.zero_div, Nat.zero_add]

/-! ## Runs -/

/-- The receiver may be in phase behind the event: nothing gives up a character while the clock is
high, and the timer does not expire while the receiver waits. -/
def KeepsPhase (s : Serial) : ReceiverEvent → Prop
  | .line _ => True
  | .tick => s.rcvSynchronised = true ∨ s.rcvClock.running = false
  | .rate rate => (rate.1.div 2).isNever = true ∨ s.dfStartBitCount = 0 ∨ s.rcvClockState = false
  | .frame startBitCount dataBitCount parity stopBits =>
      s.changesFrame startBitCount dataBitCount parity stopBits = false ∨ s.rcvRate.isNever = true ∨
        startBitCount = 0 ∨ s.rcvClockState = false
  | .reset | .extract => s.rcvRate.isNever = true ∨ s.dfStartBitCount = 0 ∨ s.rcvClockState = false

theorem Timed.receive (h : s.Timed) (e : ReceiverEvent) : (s.receive e).Timed := by
  have hsame {s' : Serial} (hclock : s'.rcvClock = s.rcvClock ∨ s'.rcvClock.running = false)
      (hrate : s'.rcvRate = s.rcvRate) : s'.Timed := by
    refine ⟨hrate ▸ h.rate, fun hrunning ↦ ?_⟩
    rw [hrate]
    rcases hclock with hclock | hstop
    · exact h.running (hclock ▸ hrunning)
    · exact absurd (hstop.symm.trans hrunning) Bool.false_ne_true
  cases e with
  | line state =>
    cases hsync : s.rcvSynchronised with
    | true =>
      have hline : s.receive (.line state) = { s with rcvLine := state } :=
        s.rxW_of_synchronised hsync state
      rw [hline]
      exact hsame (.inl rfl) rfl
    | false =>
      obtain ⟨-, hrate, hclock⟩ := s.rxW_of_waiting hsync state
      by_cases hstart : (s.rxW state).rcvSynchronised ∧ s.rcvRate.isNever = false
      · refine ⟨hrate ▸ h.rate, fun _ ↦ ?_⟩
        exact hrate ▸ hstart.2
      · rw [if_neg hstart] at hclock
        exact hsame (.inl hclock) hrate
  | tick =>
    by_cases hrunning : s.rcvClock.running = true
    · by_cases hhigh : s.rcvClockState = true
      · obtain ⟨-, hrate, hclock⟩ := s.receive_tick_of_high hrunning hhigh
        exact hsame hclock hrate
      · rw [s.receive_tick_of_low hrunning (eq_false_of_ne_true hhigh)]
        exact hsame (.inl rfl) rfl
    · rw [s.receive_tick_of_stopped (eq_false_of_ne_true hrunning)]
      exact h
  | rate rate =>
    refine ⟨?_, fun hrunning ↦ absurd hrunning Bool.false_ne_true⟩
    obtain ⟨rate, hnormal⟩ := rate
    have hrate : (s.setRcvRateTime rate).rcvRate = rate.div 2 := rfl
    show (s.setRcvRateTime rate).rcvRate.Normalised
    rw [hrate]
    cases hnever : rate.isNever with
    | true =>
      have hdiv : rate.div 2 = .never := if_pos (of_decide_eq_true hnever)
      rw [hdiv]
      exact Attotime.normalised_never
    | false => exact Attotime.normalised_div (hnormal.elapsed hnever) (by decide) (by decide)
  | frame startBitCount dataBitCount parity stopBits =>
    obtain ⟨hclock, -, hrate, -⟩ := s.setDataFrame_clock startBitCount dataBitCount parity stopBits
    exact hsame (.inl hclock) hrate
  | reset => exact hsame (.inl rfl) rfl
  | extract => exact hsame (.inl s.extract_clock.1) s.extract_clock.2.2.1

theorem waitsLow_reset_iff {s' : Serial}
    {startBitCount : ℕ} (hsync : s'.rcvSynchronised = (startBitCount == 0))
    (hstate : s'.rcvClockState = s.rcvClockState) :
    s'.WaitsLow ↔ s'.rcvRate.isNever = true ∨ startBitCount = 0 ∨ s.rcvClockState = false := by
  rw [WaitsLow, hsync, hstate]
  cases s'.rcvRate.isNever <;> cases s.rcvClockState <;> simp

/-- **One step of a receiver in phase.** -/
theorem waitsLow_receive_iff (ht : s.Timed) (h : s.WaitsLow) (e : ReceiverEvent) :
    (s.receive e).WaitsLow ↔ s.KeepsPhase e := by
  cases e with
  | line state =>
    refine iff_of_true ?_ trivial
    cases hsync : s.rcvSynchronised with
    | true =>
      have hline : s.receive (.line state) = { s with rcvLine := state } :=
        s.rxW_of_synchronised hsync state
      rw [hline]
      exact h
    | false =>
      obtain ⟨hstate, hrate, -⟩ := s.rxW_of_waiting hsync state
      intro hnever _
      have hnever' : s.rcvRate.isNever = false := hrate ▸ hnever
      exact hstate.trans (h hnever' hsync)
  | tick =>
    by_cases hrunning : s.rcvClock.running = true
    · have hnever := ht.running hrunning
      by_cases hhigh : s.rcvClockState = true
      · obtain ⟨hlow, -, -⟩ := s.receive_tick_of_high hrunning hhigh
        refine iff_of_true (fun _ _ ↦ hlow) (.inl ?_)
        by_contra hsync
        exact Bool.false_ne_true ((h hnever (eq_false_of_ne_true hsync)).symm.trans hhigh)
      · rw [s.receive_tick_of_low hrunning (eq_false_of_ne_true hhigh)]
        constructor
        · intro hwaits
          refine .inl ?_
          by_contra hsync
          exact absurd (hwaits hnever (eq_false_of_ne_true hsync)).symm Bool.false_ne_true
        · rintro (hsync | hstop) _ hsync'
          · exact absurd (hsync'.symm.trans hsync) Bool.false_ne_true
          · exact absurd (hstop.symm.trans hrunning) Bool.false_ne_true
    · have hstop := eq_false_of_ne_true hrunning
      rw [s.receive_tick_of_stopped hstop]
      exact iff_of_true h (.inr hstop)
  | rate rate => exact waitsLow_reset_iff rfl rfl
  | frame startBitCount dataBitCount parity stopBits =>
    obtain ⟨-, hstate, hrate, hsync⟩ :=
      s.setDataFrame_clock startBitCount dataBitCount parity stopBits
    cases hchange : s.changesFrame startBitCount dataBitCount parity stopBits with
    | true =>
      rw [hchange, if_pos rfl] at hsync
      refine (waitsLow_reset_iff hsync hstate).trans ?_
      rw [hrate, KeepsPhase, hchange]
      simp
    | false =>
      rw [hchange, if_neg Bool.false_ne_true] at hsync
      refine iff_of_true (fun hnever hsync' ↦ hstate.trans (h (hrate ▸ hnever) (hsync ▸ hsync')))
        (.inl hchange)
  | reset => exact waitsLow_reset_iff rfl rfl
  | extract =>
    obtain ⟨-, hstate, hrate, hsync⟩ := s.extract_clock
    refine (waitsLow_reset_iff hsync hstate).trans ?_
    rw [hrate]
    exact Iff.rfl

theorem inPhase_iff (ht : s.Timed) : s.InPhase ↔ s.WaitsLow :=
  ⟨fun h ↦ h.low, fun h ↦ ⟨h, samplesMidBit_of_waitsLow ht h⟩⟩

theorem timed_default : Timed {} := ⟨Attotime.normalised_never, fun h ↦ absurd h (by decide)⟩

/-- **Which runs keep a receiver in phase**: those in which nothing gives up a character while the
clock is high, and in which the timer does not expire while the receiver waits. -/
theorem always_inPhase_iff (es : List ReceiverEvent) :
    Run.Always receive InPhase {} es ↔ Run.Meets receive KeepsPhase {} es := by
  refine Run.always_iff_meets (fun s e hs ↦ hs.receive e) (fun s e ht h ↦ ?_) timed_default ?_ es
  · rw [inPhase_iff (ht.receive e)]
    exact waitsLow_receive_iff ht h.low e
  · exact (inPhase_iff timed_default).mpr (by decide)

/-- A rate of 9600 baud. -/
def rate9600 : {t : Attotime // t.Normalised} := ⟨.fromHz 9600, by constructor <;> decide⟩

/-- The first two samples of a character. -/
example : (((((({} : Serial).receive (.frame 1 8 .none .one)).receive (.rate rate9600)).receive
    (.line true)).receive (.line false)).samples 0 [.tick, .tick, .tick, .tick]) =
      [3 * (rate9600.1.div 2).toAttoseconds, 5 * (rate9600.1.div 2).toAttoseconds] := by
  decide

/-- The rate is set again one bit behind a start edge. -/
theorem not_always_inPhase : ¬ ∀ es : List ReceiverEvent, Run.Always receive InPhase {} es := by
  intro h
  have hlast :=
    (h [.frame 1 8 .none .one, .rate rate9600, .line true, .line false, .tick, .rate rate9600]).last
  exact absurd hlast.low (by decide)

end Serial

end RoscoEmulator
