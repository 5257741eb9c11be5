import RoscoEmulator.Duart.OwnerFrame
import RoscoEmulator.Emu.Ticks

/-!
# The counter after the stop command

In counter mode the stop command disables the scheduler timer that the counter is made of, and the
count is read as the ticks of the time until that timer would expire, on the clock that the counter
has when it is read. The timer no longer calls back, but the time until its expiry goes on
shrinking: the count runs down to zero as if it had not been stopped. `holdsCount_iff` says exactly
which stopped counters hold their count whatever else the host does: those that have no tick left,
on any clock that the host can give them. -/

namespace RoscoEmulator.Duart

open BitVec Attotime

/-! ## Times of the machine -/

/-- The machine's time, the expiry of the counter/timer and the clock are values that they can
have. -/
structure Uart.Timed (u : Uart) : Prop where
  time : u.time.Elapsed
  expire : u.duartTimer.expire.Normalised
  clock : u.clock < 2 ^ 32

theorem Uart.Timed.of_own {u u' : Uart} (h : u.Timed) (hown : u'.own = u.own) : u'.Timed := by
  have htime : u'.time = u.time := congrArg (·.time) hown
  have htimer : u'.duartTimer = u.duartTimer := congrArg (·.duartTimer) hown
  have hclock : u'.clock = u.clock := congrArg (·.clock) hown
  refine ⟨?_, ?_, ?_⟩
  · rw [htime]
    exact h.time
  · rw [htimer]
    exact h.expire
  · rw [hclock]
    exact h.clock

theorem CtTimer.normalised_adjust {now delay : Attotime} (hnow : now.Normalised)
    (hdelay : delay.Normalised) : (adjust now delay).expire.Normalised := by
  have hpos : ¬ delay.seconds < 0 := Int.not_lt.mpr hdelay.seconds_nonneg
  rw [adjust, if_neg hpos]
  exact normalised_add hnow hdelay

namespace Device

variable {d : Device}

theorem getCtRate_lt (h : d.uart.clock < 2 ^ 32) : d.getCtRate < 2 ^ 32 := by
  have hrate (baud : ℤ) : (baud % 2 ^ 32).toNat < 2 ^ 32 := by omega
  have hdiv : d.uart.clock / 16 < 2 ^ 32 := (Nat.div_le_self _ _).trans_lt h
  simp only [getCtRate]
  split_ifs
  · split <;> assumption
  · split
    · exact h
    · exact hrate _
    · exact hrate _
    · exact hdiv

theorem ctPreset_lt (d : Device) : d.ctPreset < 2 ^ 16 := max_lt d.uart.ctr.isLt (by decide)

theorem normalised_start (h : d.uart.Timed) {now : Attotime} (hnow : now.Normalised) {count : ℕ}
    (hcount : count < 2 ^ 16) :
    (CtTimer.adjust now (.fromTicks count d.getCtRate)).expire.Normalised :=
  CtTimer.normalised_adjust hnow (normalised_fromTicks hcount (getCtRate_lt h.clock).le)

theorem timed_step (h : d.uart.Timed) (e : Event) (he : ∀ time, e = .advance time → time.Elapsed) :
    (d.step e).uart.Timed := by
  have hextend (ch : ChannelId) (command : ℕ) :
      ((d.uart.extendBit ch command).getD d.uart).Timed := by
    unfold Uart.extendBit
    split <;> exact ⟨h.time, h.expire, h.clock⟩
  have hport (line : Fin 7) (state : Bool) : (d.uart.inputPortW line state).Timed := by
    obtain ⟨ipcr, last, hown⟩ := Uart.exists_own_inputPortW line state d.uart
    have hset : Uart.Timed { d.uart with ipcr := ipcr, ipLastState := last } :=
      ⟨h.time, h.expire, h.clock⟩
    exact hset.of_own hown
  suffices howner : (d.ownerStep e).Timed from howner.of_own (own_step d e)
  cases e with
  | read offset =>
    rw [ownerStep, ownerRead]
    split
    · exact ⟨h.time, h.expire, h.clock⟩
    · exact ⟨h.time, normalised_start h h.time.normalised (ctPreset_lt d), h.clock⟩
    · split <;> exact ⟨h.time, h.expire, h.clock⟩
    · exact h
  | write offset data =>
    rw [ownerStep, ownerWrite]
    split
    case h_1 => exact hextend .a _
    case h_2 =>
      rw [changeMode]
      split_ifs
      · refine ⟨h.time, CtTimer.normalised_adjust h.time.normalised ?_, h.clock⟩
        refine normalised_fromTicks (ctPreset_lt d) (getCtRate_lt ?_).le
        exact h.clock
      · exact ⟨h.time, CtTimer.normalised_adjust h.time.normalised normalised_never, h.clock⟩
      · exact ⟨h.time, h.expire, h.clock⟩
    case h_6 => exact hextend .b _
    all_goals exact ⟨h.time, h.expire, h.clock⟩
  | ctTimer =>
    rw [ownerStep, ownerCtTimer]
    have hnow (hrun : (d.uart.duartTimer.enabled && !d.uart.duartTimer.expire.isNever) = true) :
        d.uart.duartTimer.expire.Elapsed := h.expire.elapsed (by simp_all)
    split_ifs with hrun
    · exact ⟨hnow hrun, normalised_start h h.expire (ctPreset_lt d), h.clock⟩
    · exact ⟨hnow hrun, normalised_start h h.expire (by decide), h.clock⟩
    · exact h
  | inputPort line state => exact hport line state
  | advance time => exact ⟨he time rfl, h.expire, h.clock⟩
  | reset => exact ⟨h.time, h.expire, h.clock⟩
  | irqVector | rxLine | traClock | rcvClock => exact h

/-! ## The clocks of the counter -/

end Device

/-- The clocks that are given to the device. -/
def Uart.clocks (u : Uart) : ℕ × ℤ × ℤ := (u.clock, u.ip3clk, u.ip5clk)

/-- The rates that the host can give to the transmitter of a channel. -/
def Uart.bauds (u : Uart) (ch : ChannelId) : Set ℤ :=
  {baud | ∃ (u' : Uart) (data : BitVec 8), u'.clocks = u.clocks ∧ baud = u'.calcBaud ch false data}

/-- The rates that the host can give to the counter in counter mode. -/
def Uart.ctRates (u : Uart) : Set ℕ :=
  {rate | rate = u.clock ∨ rate = u.clock / 16 ∨
    ∃ ch, ∃ baud ∈ u.bauds ch, rate = (baud % 2 ^ 32).toNat}

theorem Uart.bauds_congr {u u' : Uart} (h : u'.clocks = u.clocks) : u'.bauds = u.bauds := by
  funext ch
  rw [bauds, bauds, h]

theorem Uart.ctRates_congr {u u' : Uart} (h : u'.clocks = u.clocks) : u'.ctRates = u.ctRates := by
  have hclock : u'.clock = u.clock := congrArg Prod.fst h
  rw [ctRates, ctRates, bauds_congr h, hclock]

theorem Uart.lt_of_mem_ctRates {u : Uart} (hclock : u.clock < 2 ^ 32) {rate : ℕ}
    (h : rate ∈ u.ctRates) : rate < 2 ^ 32 := by
  obtain rfl | rfl | ⟨ch, baud, -, rfl⟩ := h
  · exact hclock
  · exact (Nat.div_le_self _ _).trans_lt hclock
  · omega

/-- The extend bit of a channel's transmitter. -/
def Uart.extended (u : Uart) : ChannelId → Bool
  | .a => u.xtxa
  | .b => u.xtxb

/-- The rate of a channel depends on the clocks, its extend bit and one bit of `ACR`. -/
theorem Uart.calcBaud_congr {u u' : Uart} {ch : ChannelId} (hclocks : u'.clocks = u.clocks)
    (hextended : u'.extended ch = u.extended ch) (hacr : u'.acr.getLsbD 7 = u.acr.getLsbD 7)
    (data : BitVec 8) : u'.calcBaud ch false data = u.calcBaud ch false data := by
  have h3 : u'.ip3clk = u.ip3clk := congrArg (·.2.1) hclocks
  have h5 : u'.ip5clk = u.ip5clk := congrArg (·.2.2) hclocks
  delta Uart.calcBaud
  cases ch with
  | a =>
    have hx : u'.xtxa = u.xtxa := hextended
    simp only [h3, hx, hacr]
  | b =>
    have hx : u'.xtxb = u.xtxb := hextended
    simp only [h5, hx, hacr]

/-- A channel has the rate that it had, or one of those that its owner selects. -/
theorem Acts.baud {rates : Rates} {ch : ChannelId} {l l' : Line} {ops : List Operation}
    (h : Acts rates ch l ops l') (hch : l.chan.ch = ch) :
    l'.chan.txBaudRate = l.chan.txBaudRate ∨ ∃ data, l'.chan.txBaudRate = rates ch false data := by
  induction h with
  | nil l => exact .inl rfl
  | @cons l l' p op ops hl hrates _ ih =>
    subst hl
    have hcalled := called_apply op p
    rcases ih (hcalled.ch.trans hch) with hsame | hnew
    · rcases hcalled.baud with hsame' | ⟨u, data, hcalls, hbaud⟩
      · exact .inl (hsame.trans hsame')
      · have hown := congrArg Uart.calcBaud hcalls.own
        have hu : u.calcBaud = p.uart.calcBaud := hown
        rw [hu, hrates] at hbaud
        exact .inr ⟨data, hsame.trans (hbaud.trans (congrArg (rates · false data) hch))⟩
    · exact .inr hnew

namespace Device

variable {d : Device}

/-- The rates of the channels are among those that the host can give them. -/
def Rated (d : Device) : Prop := ∀ ch, (d.chan ch).txBaudRate ∈ d.uart.bauds ch

theorem clocks_step (d : Device) (e : Event) : (d.step e).uart.clocks = d.uart.clocks := by
  have hstep := congrArg Uart.clocks (own_step d e)
  have hown : (d.step e).uart.clocks = (d.ownerStep e).clocks := hstep
  have hextend (ch : ChannelId) (command : ℕ) :
      ((d.uart.extendBit ch command).getD d.uart).clocks = d.uart.clocks := by
    unfold Uart.extendBit
    split <;> rfl
  rw [hown]
  cases e with
  | read offset =>
    rw [ownerStep, ownerRead]
    split
    case h_3 => split <;> rfl
    all_goals rfl
  | write offset data =>
    rw [ownerStep, ownerWrite]
    split
    case h_1 => exact hextend .a _
    case h_2 =>
      rw [changeMode]
      split_ifs <;> rfl
    case h_6 => exact hextend .b _
    all_goals rfl
  | ctTimer =>
    rw [ownerStep, ownerCtTimer]
    split_ifs <;> rfl
  | inputPort line state =>
    obtain ⟨_, _, hport⟩ := Uart.exists_own_inputPortW line state d.uart
    have hclocks := congrArg Uart.clocks hport
    exact hclocks
  | irqVector | rxLine | traClock | rcvClock | advance | reset => rfl

/-- The rates are selected with the clocks that the device has. -/
theorem exists_ratesAfter (d : Device) (e : Event) :
    ∃ u : Uart, u.clocks = d.uart.clocks ∧ d.ratesAfter e = u.calcBaud := by
  have hextend (ch : ChannelId) (command : ℕ) :
      ((d.uart.extendBit ch command).getD d.uart).clocks = d.uart.clocks := by
    unfold Uart.extendBit
    split <;> rfl
  cases e with
  | write offset data =>
    rw [ratesAfter]
    split
    · exact ⟨_, hextend .a _, rfl⟩
    · exact ⟨{ d.uart with acr := data }, rfl, rfl⟩
    · exact ⟨_, hextend .b _, rfl⟩
    · exact ⟨_, rfl, rfl⟩
  | reset => exact ⟨d.uart.deviceReset, rfl, rfl⟩
  | read | irqVector | rxLine | inputPort | traClock | rcvClock | ctTimer | advance =>
    exact ⟨d.uart, rfl, rfl⟩

theorem Rated.step (h : d.Rated) (hw : d.Wired) (e : Event) : (d.step e).Rated := by
  intro ch
  rw [Uart.bauds_congr (clocks_step d e)]
  obtain ⟨u, hclocks, hrates⟩ := exists_ratesAfter d e
  rcases (step_line ch hw e).baud (hw ch) with hsame | ⟨data, hbaud⟩
  · exact hsame ▸ h ch
  · exact ⟨u, data, hclocks, by rw [← hrates]; exact hbaud⟩

theorem rated_powerOn (storage : Device) : (powerOn storage).Rated := by
  have hzero : ∀ ch, ((powerOn storage).chan ch).txBaudRate = 0 := fun ch ↦ by cases ch <;> rfl
  intro ch
  exact ⟨_, 0xd, rfl, (hzero ch).trans (calcBaud_timer (powerOn storage).uart ch).symm⟩

theorem getCtRate_mem (h : d.Rated) (hmode : d.uart.acr &&& 0x40 = 0) :
    d.getCtRate ∈ d.uart.ctRates := by
  simp only [getCtRate, hmode, ne_eq, not_true_eq_false, if_false]
  split
  · exact .inl rfl
  · exact .inr (.inr ⟨.a, _, h .a, rfl⟩)
  · exact .inr (.inr ⟨.b, _, h .b, rfl⟩)
  · exact .inr (.inl rfl)

/-! ## The count -/

/-- What reads of `CUR` and of `CLR` return. -/
def reading (d : Device) : BitVec 8 × BitVec 8 := ((d.read 0x6).1, (d.read 0x7).1)

theorem reading_eq_iff {d' : Device} : d'.reading = d.reading ↔ d'.getCtCount = d.getCtCount := by
  have hjoin (count : BitVec 16) :
      ((count >>> 8).setWidth 8 ++ count.setWidth 8 : BitVec 16) = count := by
    refine eq_of_getLsbD_eq fun i hi ↦ ?_
    simp only [getLsbD_append, getLsbD_setWidth, getLsbD_ushiftRight]
    by_cases hlow : i < 8
    · simp [hlow]
    · have hhigh : i - 8 < 8 := by omega
      simp [hlow, hhigh, show 8 + (i - 8) = i by omega]
  constructor
  · intro h
    have hhigh : (d'.getCtCount >>> 8).setWidth 8 = (d.getCtCount >>> 8).setWidth 8 :=
      congrArg Prod.fst h
    have hlow : d'.getCtCount.setWidth 8 = d.getCtCount.setWidth 8 := congrArg Prod.snd h
    rw [← hjoin d'.getCtCount, hhigh, hlow, hjoin]
  · intro h
    have hreading (d : Device) :
        d.reading = ((d.getCtCount >>> 8).setWidth 8, d.getCtCount.setWidth 8) := rfl
    rw [hreading, hreading, h]

/-- The stop command. -/
def stopCounter (d : Device) : Device := (d.read 0xf).2

/-- The device is in a state that events can bring it to. -/
structure Possible (d : Device) : Prop where
  timed : d.uart.Timed
  wired : d.Wired
  rated : d.Rated

theorem Possible.step (h : d.Possible) (e : Event)
    (he : ∀ time, e = .advance time → time.Elapsed) : (d.step e).Possible :=
  ⟨timed_step h.timed e he, wired_step h.wired e, h.rated.step h.wired e⟩

/-- Any event between the stop command and the next start command, in counter mode. Time does not
run back. -/
structure Between (d : Device) (e : Event) : Prop where
  notStart : e ≠ .read 0xe
  mode : (d.step e).uart.acr &&& 0x40 = 0
  time : ∀ time, e = .advance time → d.uart.time ≤ time ∧ time.Elapsed

/-- The state of a counter that was stopped in `d`. -/
structure Stopped (d d' : Device) : Prop where
  possible : d'.Possible
  mode : d'.uart.acr &&& 0x40 = 0
  timer : d'.uart.duartTimer = { d.uart.duartTimer with enabled := false }
  clocks : d'.uart.clocks = d.uart.clocks
  time : d.uart.time ≤ d'.uart.time

section Stopped

variable {d d' : Device}

theorem own_stopCounter (hmode : d.uart.acr &&& 0x40 = 0) : d.stopCounter.uart.own =
    { d.uart.own with duartTimer := { d.uart.duartTimer with enabled := false } } := by
  refine (own_read d 0xf).trans ?_
  exact congrArg Uart.own (if_pos hmode)

theorem time_stopCounter (hmode : d.uart.acr &&& 0x40 = 0) :
    d.stopCounter.uart.time = d.uart.time := congrArg (·.time) (own_stopCounter hmode)

theorem stopped_stopCounter (h : d.Possible) (hmode : d.uart.acr &&& 0x40 = 0) :
    Stopped d d.stopCounter := by
  have hown := own_stopCounter hmode
  have hacr : d.stopCounter.uart.acr = d.uart.acr := congrArg (·.acr) hown
  exact
    { possible := h.step (.read 0xf) fun _ ↦ Event.noConfusion
      mode := by rw [hacr, hmode]
      timer := congrArg (·.duartTimer) hown
      clocks := clocks_step d (.read 0xf)
      time := (time_stopCounter hmode).ge }

/-- In counter mode a write to `ACR` that leaves the mode alone leaves the timer alone. -/
theorem changeMode_of_counter (hmode : d.uart.acr &&& 0x40 = 0) {data : BitVec 8}
    (hdata : data &&& 0x40 = 0) : d.changeMode data = d.onUart fun u ↦ { u with acr := data } := by
  have hbits : (d.uart.acr ^^^ data) &&& 0x40 = (d.uart.acr &&& 0x40) ^^^ (data &&& 0x40) := by
    ext i
    simp only [getElem_and, getElem_xor]
    rw [Bool.and_xor_distrib_right]
  rw [hmode, hdata] at hbits
  rw [changeMode, hbits]
  exact if_neg (not_not.mpr rfl)

theorem acr_step_write (d : Device) (data : BitVec 8) :
    (d.step (.write 0x4 data)).uart.acr = data := by
  have hown : (d.step (.write 0x4 data)).uart.acr = (d.changeMode data).uart.acr :=
    congrArg (·.acr) (own_step d (.write 0x4 data))
  rw [hown, changeMode]
  split_ifs <;> rfl

/-- Between the commands nothing touches the timer, and time does not run back. -/
theorem Stopped.step (h : Stopped d d') {e : Event} (he : Between d' e) :
    Stopped d (d'.step e) := by
  have hdisabled : d'.uart.duartTimer.enabled = false := by rw [h.timer]
  have hmode := h.mode
  have howner : (d'.ownerStep e).duartTimer = d'.uart.duartTimer ∧
      d'.uart.time ≤ (d'.ownerStep e).time := by
    have hextend (ch : ChannelId) (command : ℕ) :
        ((d'.uart.extendBit ch command).getD d'.uart).duartTimer = d'.uart.duartTimer ∧
          d'.uart.time ≤ ((d'.uart.extendBit ch command).getD d'.uart).time := by
      unfold Uart.extendBit
      split <;> exact ⟨rfl, le_refl _⟩
    cases e with
    | read offset =>
      rw [ownerStep, ownerRead]
      split
      case h_2 heq => exact absurd (congrArg Event.read (eq_of_toNat_eq heq)) he.notStart
      case h_3 =>
        rw [if_pos hmode]
        exact ⟨by rw [h.timer], le_refl _⟩
      all_goals exact ⟨rfl, le_refl _⟩
    | write offset data =>
      rw [ownerStep, ownerWrite]
      split
      case h_1 => exact hextend .a _
      case h_2 heq =>
        obtain rfl : offset = 0x4 := eq_of_toNat_eq heq
        have hdata := he.mode
        rw [acr_step_write] at hdata
        rw [changeMode_of_counter hmode hdata]
        exact ⟨rfl, le_refl _⟩
      case h_6 => exact hextend .b _
      all_goals exact ⟨rfl, le_refl _⟩
    | ctTimer =>
      rw [ownerStep, ownerCtTimer, hdisabled]
      exact ⟨rfl, le_refl _⟩
    | inputPort line state =>
      obtain ⟨_, _, hown⟩ := Uart.exists_own_inputPortW line state d'.uart
      have htime : (d'.uart.inputPortW line state).time = d'.uart.time := congrArg (·.time) hown
      exact ⟨congrArg (·.duartTimer) hown, htime.ge⟩
    | advance time => exact ⟨rfl, (he.time time rfl).1⟩
    | reset => exact ⟨rfl, le_refl _⟩
    | irqVector | rxLine | traClock | rcvClock => exact ⟨rfl, le_refl _⟩
  have hstep := own_step d' e
  have htimer : (d'.step e).uart.duartTimer = (d'.ownerStep e).duartTimer :=
    congrArg (·.duartTimer) hstep
  have htime : (d'.step e).uart.time = (d'.ownerStep e).time := congrArg (·.time) hstep
  refine ⟨h.possible.step e fun time ht ↦ (he.time time ht).2, he.mode, ?_,
    (clocks_step d' e).trans h.clocks, ?_⟩
  · rw [htimer, howner.1, h.timer]
  · rw [htime]
    exact h.time.trans howner.2

/-! ## When the count holds -/

theorem Stopped.getCtCount (h : Stopped d d') : d'.getCtCount =
    BitVec.ofNat 16 ((d.uart.duartTimer.remaining d'.uart.time).asTicks d'.getCtRate) := by
  rw [Device.getCtCount, h.timer]
  rfl

theorem Stopped.getCtRate_mem (h : Stopped d d') : d'.getCtRate ∈ d.uart.ctRates := by
  rw [← Uart.ctRates_congr h.clocks]
  exact Device.getCtRate_mem h.possible.rated h.mode

variable {t : CtTimer} {now : Attotime}

/-- The rest of the time until the expiry, as a number. -/
theorem toAttoseconds_remaining (hnow : now.Normalised) (hexpire : t.expire.Elapsed) :
    (t.remaining now).Normalised ∧
      (t.remaining now).toAttoseconds = max (t.expire.toAttoseconds - now.toAttoseconds) 0 := by
  have hlt := hexpire.toAttoseconds_lt
  have hnonneg := toAttoseconds_nonneg hnow
  rw [CtTimer.remaining]
  split_ifs with hpast
  · rw [le_iff_toAttoseconds hexpire.normalised hnow] at hpast
    refine ⟨⟨by decide, by decide, by decide, by decide⟩, ?_⟩
    rw [max_eq_right (by omega)]
    rfl
  · rw [le_iff_toAttoseconds hexpire.normalised hnow] at hpast
    rw [sub_eq_saturate hexpire.normalised hnow hexpire.finite]
    refine ⟨normalised_saturate (by omega), ?_⟩
    rw [toAttoseconds_saturate (by omega), max_eq_left (by omega)]

/-- A timer that never expires has the same time left at every time of the machine. -/
theorem remaining_of_isNever (h : t.expire.isNever = true) (hnow : now.Elapsed) :
    t.remaining now = .never := by
  have hsecs : attotimeMaxSeconds ≤ t.expire.seconds := of_decide_eq_true h
  have hlt := hnow.finite
  have hpast : ¬ t.expire ≤ now := by
    rw [le_iff]
    omega
  rw [CtTimer.remaining, if_neg hpast]
  exact if_pos hsecs

/-- A counter with no tick left has none later. -/
theorem ticks_remaining_eq_zero {now' : Attotime} (hnow : now.Elapsed) (hnow' : now'.Elapsed)
    (hle : now ≤ now') (hexpire : t.expire.Elapsed) {rate : ℕ} (hrate : rate < 2 ^ 32)
    (hzero : (t.remaining now).asTicks rate = 0) : (t.remaining now').asTicks rate = 0 := by
  obtain ⟨hnorm, hleft⟩ := toAttoseconds_remaining hnow.normalised hexpire
  obtain ⟨hnorm', hleft'⟩ := toAttoseconds_remaining hnow'.normalised hexpire
  rw [le_iff_toAttoseconds hnow.normalised hnow'.normalised] at hle
  rw [asTicks_eq_zero_iff hnorm hrate, hleft] at hzero
  rw [asTicks_eq_zero_iff hnorm' hrate, hleft']
  refine lt_of_le_of_lt (mul_le_mul_of_nonneg_right ?_ (Int.natCast_nonneg _)) hzero
  exact max_le_max_right 0 (by omega)

/-- A counter with ticks left has a later time at which it has just one. -/
theorem exists_ticks_remaining_eq_one (hnow : now.Elapsed) (hexpire : t.expire.Elapsed) {rate : ℕ}
    (hrate : rate < 2 ^ 32) (hticks : (t.remaining now).asTicks rate ≠ 0) :
    ∃ time : Attotime, time.Elapsed ∧ now ≤ time ∧ time ≤ t.expire ∧
      (t.remaining time).asTicks rate = 1 := by
  obtain ⟨hnorm, hleft⟩ := toAttoseconds_remaining hnow.normalised hexpire
  rw [ne_eq, asTicks_eq_zero_iff hnorm hrate, not_lt] at hticks
  obtain ⟨r, hpos, hle, hone⟩ := exists_one_tick hrate hticks
  have hnow0 := toAttoseconds_nonneg hnow.normalised
  have hlt := hexpire.toAttoseconds_lt
  have htime := @Attotime.elapsed_saturate (t.expire.toAttoseconds - r) (by omega) (by omega)
  have hattos := @Attotime.toAttoseconds_saturate (t.expire.toAttoseconds - r) (by omega)
  refine ⟨_, htime, ?_, ?_, ?_⟩
  · rw [le_iff_toAttoseconds hnow.normalised htime.normalised, hattos]
    omega
  · rw [le_iff_toAttoseconds htime.normalised hexpire.normalised, hattos]
    omega
  · obtain ⟨hnorm', hleft'⟩ := toAttoseconds_remaining (t := t) htime.normalised hexpire
    rw [hattos, sub_sub_cancel, max_eq_left hpos.le] at hleft'
    have hfew := asTicks_eq_ediv hnorm' hrate (by rw [hleft', hone]; decide)
    rw [hleft', hone] at hfew
    exact_mod_cast hfew

/-! ## Setting the clock -/

/-- `ACR` for a counter on the clock of a transmitter. -/
def selectACR (ch : ChannelId) (table : Bool) : BitVec 8 :=
  (match ch with
    | .a => 0x10
    | .b => 0x20) ||| if table then 0x80 else 0

theorem getCtRate_select {ch : ChannelId} {table : Bool} (h : d.uart.acr = selectACR ch table) :
    d.getCtRate = ((d.chan ch).txBaudRate % 2 ^ 32).toNat := by
  rw [getCtRate, h]
  cases ch <;> cases table <;> rfl

theorem time_step_write (d : Device) (offset : BitVec 4) (data : BitVec 8) :
    (d.step (.write offset data)).uart.time = d.uart.time := by
  have hextend (ch : ChannelId) (command : ℕ) :
      ((d.uart.extendBit ch command).getD d.uart).time = d.uart.time := by
    unfold Uart.extendBit
    split <;> rfl
  have hown : (d.step (.write offset data)).uart.time = (d.ownerWrite offset data).time :=
    congrArg (·.time) (own_step d (.write offset data))
  rw [hown, ownerWrite]
  split
  case h_1 => exact hextend .a _
  case h_2 =>
    rw [changeMode]
    split_ifs <;> rfl
  case h_6 => exact hextend .b _
  all_goals rfl

/-- A write is an event between the commands, unless it leaves counter mode. -/
theorem between_write {offset : BitVec 4} {data : BitVec 8}
    (hmode : (d.step (.write offset data)).uart.acr &&& 0x40 = 0) :
    Between d (.write offset data) :=
  ⟨Event.noConfusion, hmode, fun _ ↦ Event.noConfusion⟩

/-- The writes that select a rate of a channel, and the counter's clock from it. -/
def selectRate (ch : ChannelId) (extended table : Bool) (data : BitVec 8) : List Event :=
  [.write (commandOffset ch) (if extended then 0xa0 else 0xb0), .write 0x4 (selectACR ch table),
    .write (clockSelectOffset ch) data]

theorem run_selectRate (hw : d.Wired) (hmode : d.uart.acr &&& 0x40 = 0) (ch : ChannelId)
    (u : Uart) (data : BitVec 8) (hclocks : u.clocks = d.uart.clocks) :
    Run.Meets step Between d (selectRate ch (u.extended ch) (u.acr.getLsbD 7) data) ∧
      (Run.run step d (selectRate ch (u.extended ch) (u.acr.getLsbD 7) data)).uart.time =
        d.uart.time ∧
      (Run.run step d (selectRate ch (u.extended ch) (u.acr.getLsbD 7) data)).getCtRate =
        (u.calcBaud ch false data % 2 ^ 32).toNat := by
  let d₁ := d.step (.write (commandOffset ch) (if u.extended ch then 0xa0 else 0xb0))
  let d₂ := d₁.step (.write 0x4 (selectACR ch (u.acr.getLsbD 7)))
  let d₃ := d₂.step (.write (clockSelectOffset ch) data)
  have hcommand : d₁.uart.acr = d.uart.acr ∧ d₁.uart.extended ch = u.extended ch := by
    have hown := own_step d (.write (commandOffset ch) (if u.extended ch then 0xa0 else 0xb0))
    have hacr := congrArg (·.acr) hown
    have hextended := congrArg (fun v : Uart ↦ v.extended ch) hown
    constructor
    · refine hacr.trans ?_
      cases ch <;> cases u.extended _ <;> rfl
    · refine hextended.trans ?_
      cases ch <;> cases u.extended _ <;> rfl
  have hacr : d₂.uart.acr = selectACR ch (u.acr.getLsbD 7) := acr_step_write d₁ _
  have hacr' : d₃.uart.acr = selectACR ch (u.acr.getLsbD 7) := by
    have hown := congrArg (·.acr) (own_step d₂ (.write (clockSelectOffset ch) data))
    refine (hown.trans ?_).trans hacr
    cases ch <;> rfl
  have hcounter : selectACR ch (u.acr.getLsbD 7) &&& 0x40 = 0 := by
    cases ch <;> cases u.acr.getLsbD 7 <;> rfl
  have hextended : d₂.uart.extended ch = u.extended ch := by
    have hmode₁ : d₁.uart.acr &&& 0x40 = 0 := by rw [hcommand.1, hmode]
    have hown := own_step d₁ (.write 0x4 (selectACR ch (u.acr.getLsbD 7)))
    have hset := changeMode_of_counter hmode₁ hcounter
    have hchange := congrArg (fun v : Uart ↦ v.extended ch) hown
    refine (hchange.trans ?_).trans hcommand.2
    rw [ownerStep, ownerWrite]
    show (d₁.changeMode _).uart.extended ch = _
    rw [hset]
    cases ch <;> rfl
  have hbaud : (d₃.chan ch).txBaudRate = u.calcBaud ch false data := by
    have hchan : (d₂.chan ch).ch = ch := wired_step (wired_step hw _) _ ch
    have hwritten : (d₃.chan ch).txBaudRate =
        d₂.uart.calcBaud (d₂.chan ch).ch false (data &&& 0xf) := by
      cases ch <;> rfl
    have hclocks₂ : d₂.uart.clocks = u.clocks :=
      ((clocks_step d₁ _).trans (clocks_step d _)).trans hclocks.symm
    have htable : d₂.uart.acr.getLsbD 7 = u.acr.getLsbD 7 := by
      rw [hacr]
      cases ch <;> cases u.acr.getLsbD 7 <;> rfl
    have hmask : u.calcBaud ch false (data &&& 0xf) = u.calcBaud ch false data := by
      delta Uart.calcBaud
      simp only [BitVec.and_assoc, BitVec.and_self]
    rw [hwritten, hchan, Uart.calcBaud_congr hclocks₂ hextended htable, hmask]
  refine ⟨⟨between_write ?_, between_write ?_, between_write ?_, trivial⟩, ?_, ?_⟩
  · show d₁.uart.acr &&& 0x40 = 0
    rw [hcommand.1, hmode]
  · show d₂.uart.acr &&& 0x40 = 0
    rw [hacr, hcounter]
  · show d₃.uart.acr &&& 0x40 = 0
    rw [hacr', hcounter]
  · exact (time_step_write d₂ _ _).trans ((time_step_write d₁ _ _).trans (time_step_write d _ _))
  · show d₃.getCtRate = _
    rw [getCtRate_select hacr', hbaud]

/-- The host can give the counter each of its rates, in no time. -/
theorem exists_run_rate (h : Stopped d d') {rate : ℕ} (hrate : rate ∈ d.uart.ctRates) :
    ∃ es, Run.Meets step Between d' es ∧ (Run.run step d' es).uart.time = d'.uart.time ∧
      (Run.run step d' es).getCtRate = rate := by
  have hclock : (d'.step (.write 0x4 0x00)).uart.clock = d.uart.clock :=
    congrArg Prod.fst ((clocks_step d' _).trans h.clocks)
  have hclock' : (d'.step (.write 0x4 0x30)).uart.clock = d.uart.clock :=
    congrArg Prod.fst ((clocks_step d' _).trans h.clocks)
  obtain rfl | rfl | ⟨ch, baud, ⟨u, data, hu, rfl⟩, rfl⟩ := hrate
  · have hacr := acr_step_write d' 0x00
    refine ⟨[.write 0x4 0x00], ⟨between_write (by rw [hacr]; rfl), trivial⟩,
      time_step_write d' 0x4 0x00, ?_⟩
    show (d'.step (.write 0x4 0x00)).getCtRate = _
    rw [getCtRate, hacr, hclock]
    rfl
  · have hacr := acr_step_write d' 0x30
    refine ⟨[.write 0x4 0x30], ⟨between_write (by rw [hacr]; rfl), trivial⟩,
      time_step_write d' 0x4 0x30, ?_⟩
    show (d'.step (.write 0x4 0x30)).getCtRate = _
    rw [getCtRate, hacr, hclock']
    rfl
  · exact ⟨_, run_selectRate h.possible.wired h.mode ch u data (hu.trans h.clocks.symm)⟩

theorem between_advance (d : Device) {time : Attotime} (hle : d.uart.time ≤ time)
    (htime : time.Elapsed) (hmode : d.uart.acr &&& 0x40 = 0) : Between d (.advance time) where
  notStart := Event.noConfusion
  mode := hmode
  time := by
    rintro _ ⟨⟩
    exact ⟨hle, htime⟩

/-- In every state between the commands the counter is as the stop left it. -/
theorem always_stopped (h : d.Possible) (hmode : d.uart.acr &&& 0x40 = 0) {es : List Event}
    (hes : Run.Meets step Between d.stopCounter es) :
    Run.Always step (Stopped d) d.stopCounter es :=
  Run.always_of_meets (fun _ _ hd he ↦ hd.step he) (stopped_stopCounter h hmode) hes

/-- A count that holds is what it would be on every clock, at every later time. -/
theorem getCtCount_eq_of_holds (h : d.Possible) (hmode : d.uart.acr &&& 0x40 = 0)
    (hholds : ∀ es, Run.Meets step Between d.stopCounter es →
      Run.Always step (fun d' ↦ d'.reading = d.reading) d.stopCounter es)
    {rate : ℕ} (hrate : rate ∈ d.uart.ctRates) {time : Attotime} (hle : d.uart.time ≤ time)
    (htime : time.Elapsed) :
    d.getCtCount = BitVec.ofNat 16 ((d.uart.duartTimer.remaining time).asTicks rate) := by
  obtain ⟨es, hes, hsame, hesrate⟩ := exists_run_rate (stopped_stopCounter h hmode) hrate
  have hend : Stopped d (Run.run step d.stopCounter es) := (always_stopped h hmode hes).last
  have hpast : (Run.run step d.stopCounter es).uart.time ≤ time := by
    rw [hsame, time_stopCounter hmode]
    exact hle
  have hbetween := between_advance (Run.run step d.stopCounter es) hpast htime hend.mode
  have hlast := (hholds (es ++ [.advance time])
    ((Run.meets_append _ _ _).mpr ⟨hes, hbetween, trivial⟩)).last
  rw [Run.run_append] at hlast
  rw [← reading_eq_iff.mp hlast, ← hesrate]
  exact (hend.step hbetween).getCtCount

/-- The host can give the counter this clock whatever the crystal is. -/
theorem baud_mem_ctRates (u : Uart) : 110 ∈ u.ctRates := by
  refine .inr (.inr ⟨.a, 110, ⟨{ u with acr := 0, xtxa := false }, 1, rfl, ?_⟩, rfl⟩)
  delta Uart.calcBaud
  simp [Uart.baudRateAcr0]

theorem zero_mem_ctRates (u : Uart) : 0 ∈ u.ctRates :=
  .inr (.inr ⟨.a, 0, ⟨u, 0xd, rfl, (calcBaud_timer u .a).symm⟩, rfl⟩)

theorem asTicks_zero {rate : ℕ} (hrate : rate < 2 ^ 32) : Attotime.zero.asTicks rate = 0 := by
  rw [asTicks_eq_zero_iff ⟨by decide, by decide, by decide, by decide⟩ hrate]
  exact (zero_mul (rate : ℤ)).trans_lt (by decide)

/-- **Which stopped counters hold their count**, whatever the host does in counter mode: those that
have no tick left at the stop, on any clock that it can give them. -/
theorem holdsCount_iff (h : d.Possible) (hmode : d.uart.acr &&& 0x40 = 0) :
    (∀ es, Run.Meets step Between d.stopCounter es →
      Run.Always step (fun d' ↦ d'.reading = d.reading) d.stopCounter es) ↔
      ∀ rate ∈ d.uart.ctRates, (d.uart.duartTimer.remaining d.uart.time).asTicks rate = 0 := by
  have hlt {rate : ℕ} (hrate : rate ∈ d.uart.ctRates) : rate < 2 ^ 32 :=
    Uart.lt_of_mem_ctRates h.timed.clock hrate
  have h110 := baud_mem_ctRates d.uart
  constructor
  · intro hholds rate hrate
    have hread := @getCtCount_eq_of_holds d h hmode hholds
    by_contra hticks
    by_cases hnever : d.uart.duartTimer.expire.isNever = true
    · have hcount := (hread h110 (le_refl _) h.timed.time).symm.trans
        (hread (zero_mem_ctRates d.uart) (le_refl _) h.timed.time)
      rw [remaining_of_isNever hnever h.timed.time] at hcount
      exact absurd hcount (by decide)
    · -- the counter is read when one tick is left, and when its timer would have expired
      have hexpire := h.timed.expire.elapsed (Bool.eq_false_iff.mpr hnever)
      obtain ⟨time, htime, hle, hle', hone⟩ :=
        exists_ticks_remaining_eq_one h.timed.time hexpire (hlt hrate) hticks
      have hcount := (hread hrate hle htime).symm.trans (hread hrate (hle.trans hle') hexpire)
      rw [hone, CtTimer.remaining, if_pos (le_refl _), asTicks_zero (hlt hrate)] at hcount
      exact absurd hcount (by decide)
  · intro hzero es hes
    have hnever : d.uart.duartTimer.expire.isNever = false := by
      by_contra hnever
      have hticks := hzero 110 h110
      rw [remaining_of_isNever (Bool.not_eq_false _ ▸ hnever) h.timed.time] at hticks
      exact absurd hticks (by decide)
    have hexpire := h.timed.expire.elapsed hnever
    have hcount : d.getCtCount = BitVec.ofNat 16 0 := by
      rw [getCtCount, hzero _ (getCtRate_mem h.rated hmode)]
    refine (always_stopped h hmode hes).imp fun d' hd ↦ ?_
    rw [reading_eq_iff, hcount, hd.getCtCount]
    have hrate := hd.getCtRate_mem
    rw [ticks_remaining_eq_zero h.timed.time hd.possible.timed.time hd.time hexpire (hlt hrate)
      (hzero _ hrate)]

end Stopped

/-- A counter of 256 ticks of a sixteenth of 3.6864 MHz, started at power-on. -/
def started : Device :=
  Run.run step (powerOn ⟨{ (default : Uart) with clock := 3686400 }, default, default⟩)
    [.write 0x4 0x30, .write 0x6 0x01, .write 0x7 0x00, .read 0xe]

theorem possible_started : started.Possible := by
  have hruns : started.Wired ∧ started.Rated :=
    Run.run_invariant (P := fun d : Device ↦ d.Wired ∧ d.Rated)
      (fun d e h ↦ ⟨wired_step h.1 e, h.2.step h.1 e⟩) ⟨wired_powerOn _, rated_powerOn _⟩ _
  have htime : started.uart.time = .zero := by decide +kernel
  have hexpire : started.uart.duartTimer.expire = ⟨0, 1111111111110912⟩ := by decide +kernel
  have hclock : started.uart.clock = 3686400 := by decide +kernel
  refine ⟨⟨?_, ?_, ?_⟩, hruns.1, hruns.2⟩
  · rw [htime]
    exact ⟨⟨by decide, by decide, by decide, by decide⟩, by decide⟩
  · rw [hexpire]
    exact ⟨by decide, by decide, by decide, by decide⟩
  · rw [hclock]
    decide

/-- The same counter when it has run out. -/
def ranOut : Device := started.step (.advance ⟨0, 1111111111110912⟩)

/-- It holds its count, which is zero. -/
theorem holdsCount_ranOut : ranOut.reading = (0, 0) ∧
    ∀ es, Run.Meets step Between ranOut.stopCounter es →
      Run.Always step (fun d' ↦ d'.reading = ranOut.reading) ranOut.stopCounter es := by
  have hpossible : ranOut.Possible := by
    refine possible_started.step _ ?_
    rintro _ ⟨⟩
    exact ⟨⟨by decide, by decide, by decide, by decide⟩, by decide⟩
  have hzero : ranOut.uart.duartTimer.remaining ranOut.uart.time = .zero := by decide +kernel
  refine ⟨by decide +kernel, (holdsCount_iff hpossible (by decide +kernel)).mpr fun rate hrate ↦ ?_⟩
  rw [hzero, asTicks_zero (Uart.lt_of_mem_ctRates hpossible.timed.clock hrate)]

/-- A second after the stop the counter reads zero. -/
theorem not_holds_started : ¬ ∀ es, Run.Meets step Between started.stopCounter es →
    Run.Always step (fun d' ↦ d'.reading = started.reading) started.stopCounter es := by
  intro hholds
  have hmode : started.stopCounter.uart.acr &&& 0x40 = 0 := by decide +kernel
  have hle : started.stopCounter.uart.time ≤ ⟨1, 0⟩ := by decide +kernel
  have hbetween : Between started.stopCounter (.advance ⟨1, 0⟩) :=
    between_advance _ hle ⟨⟨by decide, by decide, by decide, by decide⟩, by decide⟩ hmode
  have hlast := (hholds [.advance ⟨1, 0⟩] ⟨hbetween, trivial⟩).last
  exact absurd hlast (by decide +kernel)

end Device

end RoscoEmulator.Duart
