import RoscoEmulator.Duart.OwnerFrame

/-!
# The input port change register

`IPCR` shows the levels of the four watched input lines in its low half, and which of them have
changed since it was last read in its high half. The device keeps the levels twice, in `IPCR` and in
`IP_last_state`: a line that changes writes both, and a reset clears `IPCR` alone.

`PortView` is what the register is for: the levels as the lines were last driven and the changes
since the last read or reset, computed from the events alone. The two agree in every run whose
resets find the four lines low, and in no other: after a reset with a line high, `IPCR` shows it low
until one of the lines changes.
-/

namespace RoscoEmulator.Duart

/-! ## What the register is for -/

/-- The levels of the four watched lines, and which of them have changed. -/
structure PortView where
  levels : BitVec 4
  changed : BitVec 4
deriving DecidableEq, Repr

namespace PortView

/-- All lines low and no change noted. -/
def initial : PortView := ⟨0, 0⟩

/-- A line is driven to a level. -/
def drive (line : Fin 4) (state : Bool) (v : PortView) : PortView :=
  let mask := 1#4 <<< line.val
  let levels := (v.levels &&& ~~~mask) ||| if state then mask else 0
  ⟨levels, v.changed ||| (v.levels ^^^ levels)⟩

/-- The changes are forgotten: `IPCR` is read, or the device is reset. -/
def acknowledge (v : PortView) : PortView := { v with changed := 0 }

/-- What an event of the device means to the input port. -/
def step (v : PortView) : Device.Event → PortView
  | .inputPort line state => if h : line.val < 4 then v.drive ⟨line, h⟩ state else v
  | .read offset => if offset = 0x4 then v.acknowledge else v
  | .reset => v.acknowledge
  | _ => v

/-- `IPCR` as it should read. -/
def ipcr (v : PortView) : BitVec 8 := v.changed ++ v.levels

theorem drive_changed (line : Fin 4) (state : Bool) (v : PortView) :
    (v.drive line state).changed =
      if (v.drive line state).levels = v.levels then v.changed
      else v.changed ||| 1#4 <<< line.val := by
  have hbits : ∀ (levels changed : BitVec 4) (line : Fin 4) (state : Bool),
      ((⟨levels, changed⟩ : PortView).drive line state).changed =
        if ((⟨levels, changed⟩ : PortView).drive line state).levels = levels then changed
        else changed ||| 1#4 <<< line.val := by
    decide +kernel
  exact hbits v.levels v.changed line state

end PortView

/-! ## The two copies of the levels -/

namespace Uart

/-- The low half of `IP_last_state`: the levels of the four watched lines. -/
def lastPins (u : Uart) : BitVec 4 := u.ipLastState.setWidth 4

/-- The registers that the view is about are the same. -/
structure SamePins (u u' : Uart) : Prop where
  ipcr : u'.ipcr = u.ipcr
  ipLastState : u'.ipLastState = u.ipLastState

theorem SamePins.of_own {u u' : Uart} (h : u'.own = u.own) : SamePins u u' := by
  have hipcr : u'.own.ipcr = u.own.ipcr := congrArg Uart.ipcr h
  have hlast : u'.own.ipLastState = u.own.ipLastState := congrArg Uart.ipLastState h
  exact ⟨hipcr, hlast⟩

theorem SamePins.trans {u u' u'' : Uart} (h : SamePins u u') (h' : SamePins u' u'') :
    SamePins u u'' := ⟨h'.ipcr.trans h.ipcr, h'.ipLastState.trans h.ipLastState⟩

variable (u : Uart)

theorem samePins_setIsrBits (mask : BitVec 8) : SamePins u (u.setIsrBits mask) :=
  .of_own (own_setIsrBits u mask)

theorem samePins_clearIsrBits (mask : BitVec 8) : SamePins u (u.clearIsrBits mask) :=
  .of_own (own_clearIsrBits u mask)

theorem ipcr_notePortChange (line : Fin 4) (newIP : BitVec 8) :
    (u.notePortChange line newIP).ipcr =
      if newIP = u.ipLastState then u.ipcr
      else (u.ipcr &&& 0xf0) ||| (newIP &&& 0x0f) ||| (0x10#8 <<< line.val) := by
  simp only [notePortChange]
  by_cases hsame : newIP = u.ipLastState
  · rw [if_neg (not_not.mpr hsame), if_pos hsame]
  · rw [if_pos hsame, if_neg hsame]
    split_ifs
    · exact (samePins_setIsrBits _ _).ipcr
    · rfl

/-- Only the low half of `IP_last_state` can differ when one of the four watched lines is driven. -/
theorem pins_drive (last : BitVec 8) (line : Fin 4) (state : Bool) :
    let newIP := (last &&& ~~~(1#8 <<< line.val)) ||| if state then 1#8 <<< line.val else 0
    newIP.setWidth 4 = (PortView.drive line state ⟨last.setWidth 4, 0⟩).levels ∧
      (newIP = last ↔ newIP.setWidth 4 = last.setWidth 4) ∧ newIP >>> 4 = last >>> 4 := by
  have hbits : ∀ (last : BitVec 8) (line : Fin 4) (state : Bool),
      ((last &&& ~~~(1#8 <<< line.val)) ||| if state then 1#8 <<< line.val else 0).setWidth 4 =
          (PortView.drive line state ⟨last.setWidth 4, 0⟩).levels ∧
        (((last &&& ~~~(1#8 <<< line.val)) ||| if state then 1#8 <<< line.val else 0) = last ↔
          ((last &&& ~~~(1#8 <<< line.val)) ||| if state then 1#8 <<< line.val else 0).setWidth 4 =
            last.setWidth 4) ∧
        ((last &&& ~~~(1#8 <<< line.val)) ||| if state then 1#8 <<< line.val else 0) >>> 4 =
          last >>> 4 := by
    decide +kernel
  exact hbits last line state

theorem ipcr_halves (changed levels : BitVec 4) (newIP : BitVec 8) (line : Fin 4) :
    ((changed ++ levels : BitVec 8) &&& 0xf0) ||| (newIP &&& 0x0f) ||| (0x10#8 <<< line.val) =
      (changed ||| 1#4 <<< line.val) ++ newIP.setWidth 4 := by
  have hhigh : ∀ (changed levels : BitVec 4) (line : Fin 4),
      ((changed ++ levels : BitVec 8) &&& 0xf0) ||| (0x10#8 <<< line.val) =
        (changed ||| 1#4 <<< line.val) ++ (0 : BitVec 4) := by
    decide +kernel
  have hlow : ∀ newIP : BitVec 8, newIP &&& 0x0f = (0 : BitVec 4) ++ newIP.setWidth 4 := by
    decide +kernel
  have hor : ∀ high low : BitVec 4,
      (high ++ (0 : BitVec 4) : BitVec 8) ||| ((0 : BitVec 4) ++ low) = high ++ low := by
    decide +kernel
  rw [BitVec.or_assoc, BitVec.or_comm (newIP &&& 0x0f), ← BitVec.or_assoc, hhigh, hlow, hor]

end Uart

/-! ## The view along a run -/

/-- `IP_last_state` keeps the levels of the view, whatever happens. -/
def Device.Pinned (d : Device) (v : PortView) : Prop := d.uart.lastPins = v.levels

/-- `IPCR` shows the levels and the changes, and a read of the input port the same levels. -/
structure Device.Shows (d : Device) (v : PortView) : Prop where
  levels : (d.read 0x4).1 &&& 0x0f = v.levels.setWidth 8
  sameLevels : (d.read 0x4).1 &&& 0x0f = (d.read 0xd).1 &&& 0x0f
  changed : ∀ i : Fin 4, (d.read 0x4).1.getLsbD (4 + i) = v.changed.getLsbD i

namespace Device

section Shows

variable {d : Device} {v : PortView}

/-- A read of the input port returns the levels that `IP_last_state` keeps. -/
theorem inport_levels (d : Device) : (d.read 0xd).1 &&& 0x0f = d.uart.lastPins.setWidth 8 := by
  have hbits : ∀ last : BitVec 8,
      ((last ||| 0x80) &&& ~~~0x40) &&& 0x0f = (last.setWidth 4).setWidth 8 ∧
        ((last ||| 0x80) ||| 0x40) &&& 0x0f = (last.setWidth 4).setWidth 8 := by
    decide +kernel
  have hread : (d.read 0xd).1 = if d.uart.readVector then (d.uart.ipLastState ||| 0x80) &&& ~~~0x40
      else (d.uart.ipLastState ||| 0x80) ||| 0x40 := rfl
  rw [hread, Uart.lastPins]
  split_ifs
  · exact (hbits _).1
  · exact (hbits _).2

/-- With the levels of the view in `IP_last_state`, the register shows the view exactly if it reads
as the view does. -/
theorem shows_iff (hpins : d.Pinned v) : d.Shows v ↔ d.uart.ipcr = v.ipcr := by
  have hread : (d.read 0x4).1 = d.uart.ipcr := rfl
  have hlow : ∀ changed levels : BitVec 4,
      (changed ++ levels : BitVec 8) &&& 0x0f = levels.setWidth 8 := by
    decide +kernel
  have hhigh : ∀ (changed levels : BitVec 4) (i : Fin 4),
      (changed ++ levels : BitVec 8).getLsbD (4 + i) = changed.getLsbD i := by
    decide +kernel
  have hboth : ∀ (ipcr : BitVec 8) (levels : BitVec 4), ipcr &&& 0x0f = levels.setWidth 8 →
      ipcr = ((ipcr >>> 4).setWidth 4) ++ levels := by
    decide +kernel
  have hbit : ∀ (ipcr : BitVec 8) (i : Fin 4),
      ((ipcr >>> 4).setWidth 4).getLsbD i = ipcr.getLsbD (4 + i) := by
    decide +kernel
  constructor
  · intro h
    have hchanged : (d.uart.ipcr >>> 4).setWidth 4 = v.changed := by
      refine BitVec.eq_of_getLsbD_eq fun i hi ↦ ?_
      exact (hbit d.uart.ipcr ⟨i, hi⟩).trans (h.changed ⟨i, hi⟩)
    rw [hboth d.uart.ipcr v.levels h.levels, hchanged]
    rfl
  · intro h
    have hlevels : (d.read 0x4).1 &&& 0x0f = v.levels.setWidth 8 := by
      rw [hread, h]
      exact hlow _ _
    refine ⟨hlevels, ?_, fun i ↦ ?_⟩
    · rw [hlevels, inport_levels, hpins]
    · rw [hread, h]
      exact hhigh _ _ i

end Shows

/-! ### Events that do not touch the input port -/

/-- The event is none of those that the view follows. -/
def LeavesPort : Event → Prop
  | .inputPort _ _ => False
  | .read offset => offset ≠ 0x4
  | .reset => False
  | _ => True

open Uart (SamePins)

/-- The other events leave both copies of the levels alone. -/
theorem samePins_step (d : Device) {e : Event} (he : LeavesPort e) :
    SamePins d.uart (d.step e).uart := by
  have hextend (ch : ChannelId) (command : ℕ) :
      SamePins d.uart ((d.uart.extendBit ch command).getD d.uart) := by
    unfold Uart.extendBit
    split <;> exact ⟨rfl, rfl⟩
  suffices h : SamePins d.uart (d.ownerStep e) from h.trans (.of_own (own_step d e))
  cases e with
  | read offset =>
    rw [ownerStep, ownerRead]
    split
    case h_1 heq => exact absurd (BitVec.eq_of_toNat_eq heq) he
    case h_3 => split <;> exact ⟨rfl, rfl⟩
    all_goals exact ⟨rfl, rfl⟩
  | write offset data =>
    rw [ownerStep, ownerWrite]
    split
    case h_1 => exact hextend .a _
    case h_2 =>
      rw [changeMode]
      split_ifs <;> exact ⟨rfl, rfl⟩
    case h_6 => exact hextend .b _
    all_goals exact ⟨rfl, rfl⟩
  | ctTimer =>
    rw [ownerStep, ownerCtTimer]
    split_ifs <;> exact ⟨rfl, rfl⟩
  | irqVector | rxLine | traClock | rcvClock | advance => exact ⟨rfl, rfl⟩
  | inputPort line state => exact he.elim
  | reset => exact he.elim

/-! ### Steps -/

/-- The two sides of a run: the device, and what its input port should show. -/
abbrev Watched : Type := Device × PortView

def watch (s : Watched) (e : Event) : Watched := (s.1.step e, s.2.step e)

theorem lastPins_ipChangeW (u : Uart) (line : Fin 4) (state : Bool) :
    (u.ipChangeW line state).lastPins = (PortView.drive line state ⟨u.lastPins, 0⟩).levels :=
  (Uart.pins_drive u.ipLastState line state).1

theorem lastPins_ipLevelW (u : Uart) (line : Fin 3) (state : Bool) :
    (u.ipLevelW line state).lastPins = u.lastPins := by
  have hbits : ∀ (last : BitVec 8) (line : Fin 3) (state : Bool),
      ((last &&& ~~~(0x10#8 <<< line.val)) |||
        if state then 0x10#8 <<< line.val else 0).setWidth 4 = last.setWidth 4 := by
    decide +kernel
  exact hbits u.ipLastState line state

theorem inputPortW_cases (line : Fin 7) (state : Bool) :
    (∃ i : Fin 4, (∀ u : Uart, u.inputPortW line state = u.ipChangeW i state) ∧
      ∀ v : PortView, v.step (.inputPort line state) = v.drive i state) ∨
    ∃ i : Fin 3, (∀ u : Uart, u.inputPortW line state = u.ipLevelW i state) ∧
      ∀ v : PortView, v.step (.inputPort line state) = v := by
  obtain ⟨line, hline⟩ := line
  interval_cases line
  · exact .inl ⟨0, fun _ ↦ rfl, fun _ ↦ rfl⟩
  · exact .inl ⟨1, fun _ ↦ rfl, fun _ ↦ rfl⟩
  · exact .inl ⟨2, fun _ ↦ rfl, fun _ ↦ rfl⟩
  · exact .inl ⟨3, fun _ ↦ rfl, fun _ ↦ rfl⟩
  · exact .inr ⟨0, fun _ ↦ rfl, fun _ ↦ rfl⟩
  · exact .inr ⟨1, fun _ ↦ rfl, fun _ ↦ rfl⟩
  · exact .inr ⟨2, fun _ ↦ rfl, fun _ ↦ rfl⟩

theorem view_step_of_leavesPort {e : Event} (he : LeavesPort e) (v : PortView) : v.step e = v := by
  cases e with
  | read offset => exact if_neg he
  | inputPort line state => exact he.elim
  | reset => exact he.elim
  | write | irqVector | rxLine | traClock | rcvClock | ctTimer | advance => rfl

theorem leavesPort_or (e : Event) : LeavesPort e ∨ (∃ line state, e = .inputPort line state) ∨
    e = .read 0x4 ∨ e = .reset := by
  cases e with
  | read offset =>
    by_cases h : offset = 0x4
    · exact .inr (.inr (.inl (by rw [h])))
    · exact .inl h
  | inputPort line state => exact .inr (.inl ⟨line, state, rfl⟩)
  | reset => exact .inr (.inr (.inr rfl))
  | write | irqVector | rxLine | traClock | rcvClock | ctTimer | advance => exact .inl trivial

section Steps

variable {d : Device} {v : PortView}

theorem samePins_reset (d : Device) : SamePins d.uart.deviceReset d.reset.uart :=
  .of_own (own_step d .reset)

/-- **`IP_last_state` always has the levels**, across resets too. -/
theorem pinned_step (h : d.Pinned v) (e : Event) : (d.step e).Pinned (v.step e) := by
  rcases leavesPort_or e with he | ⟨line, state, rfl⟩ | rfl | rfl
  · rw [view_step_of_leavesPort he, Pinned, Uart.lastPins, (samePins_step d he).ipLastState]
    exact h
  · rcases inputPortW_cases line state with ⟨i, hu, hv⟩ | ⟨i, hu, hv⟩
    · have hlevels : (v.drive i state).levels = (PortView.drive i state ⟨v.levels, 0⟩).levels := rfl
      rw [hv, Pinned, step, uart_onUart, hu, lastPins_ipChangeW, hlevels, ← h]
    · rw [hv, Pinned, step, uart_onUart, hu, lastPins_ipLevelW]
      exact h
  · have hclear := Uart.samePins_clearIsrBits { d.uart with ipcr := d.uart.ipcr &&& 0x0f }
      intInputPortChange
    have hlast : (d.step (.read 0x4)).uart.lastPins = d.uart.lastPins :=
      congrArg (·.setWidth 4) hclear.ipLastState
    exact hlast.trans h
  · have hlast : (d.step .reset).uart.lastPins = d.uart.lastPins :=
      congrArg (·.setWidth 4) (samePins_reset d).ipLastState
    exact hlast.trans h

/-- A line that is driven takes the register where it takes the view. -/
theorem ipcr_ipChangeW (hpins : d.Pinned v) (hipcr : d.uart.ipcr = v.ipcr) (line : Fin 4)
    (state : Bool) : (d.uart.ipChangeW line state).ipcr = (v.drive line state).ipcr := by
  obtain ⟨hlow, hsame, -⟩ := Uart.pins_drive d.uart.ipLastState line state
  have hnew := Uart.ipcr_notePortChange d.uart line
    ((d.uart.ipLastState &&& ~~~(1#8 <<< line.val)) ||| if state then 1#8 <<< line.val else 0)
  have hlevels : (PortView.drive line state ⟨d.uart.ipLastState.setWidth 4, 0⟩).levels =
      (v.drive line state).levels := by
    rw [Pinned, Uart.lastPins] at hpins
    rw [hpins]
    rfl
  rw [hlevels] at hlow
  have hpins' : d.uart.ipLastState.setWidth 4 = v.levels := hpins
  rw [hlow, hpins'] at hsame
  refine hnew.trans ?_
  rw [PortView.ipcr, PortView.drive_changed]
  by_cases hstay : (v.drive line state).levels = v.levels
  · rw [if_pos (hsame.mpr hstay), if_pos hstay, hstay]
    exact hipcr
  · rw [if_neg (mt hsame.mp hstay), if_neg hstay, hipcr, PortView.ipcr, Uart.ipcr_halves, hlow]

/-- The register follows the view on every event but a reset that finds a line high. -/
theorem ipcr_step (hpins : d.Pinned v) (hipcr : d.uart.ipcr = v.ipcr) (e : Event) :
    (d.step e).uart.ipcr = (v.step e).ipcr ↔ (e = .reset → v.levels = 0) := by
  have hzero : ∀ levels : BitVec 4, (0#8 = (0#4 ++ levels : BitVec 8)) ↔ levels = 0 := by
    decide
  have hread : ∀ changed levels : BitVec 4,
      (changed ++ levels : BitVec 8) &&& 0x0f = (0 : BitVec 4) ++ levels := by
    decide +kernel
  rcases leavesPort_or e with he | ⟨line, state, rfl⟩ | rfl | rfl
  · refine iff_of_true ?_ (fun hreset ↦ by rw [hreset] at he; exact he.elim)
    rw [view_step_of_leavesPort he, (samePins_step d he).ipcr, hipcr]
  · refine iff_of_true ?_ (fun hreset ↦ nomatch hreset)
    rcases inputPortW_cases line state with ⟨i, hu, hv⟩ | ⟨i, hu, hv⟩
    · rw [hv, step, uart_onUart, hu]
      exact ipcr_ipChangeW hpins hipcr i state
    · rw [hv, step, uart_onUart, hu]
      exact hipcr
  · refine iff_of_true ?_ (fun hreset ↦ nomatch hreset)
    have hclear := Uart.samePins_clearIsrBits { d.uart with ipcr := d.uart.ipcr &&& 0x0f }
      intInputPortChange
    refine hclear.ipcr.trans ?_
    rw [hipcr]
    exact hread _ _
  · have hreset : (d.step .reset).uart.ipcr = 0 := (samePins_reset d).ipcr
    rw [hreset]
    exact (hzero v.levels).trans ⟨fun h _ ↦ h, fun h ↦ h rfl⟩

end Steps

/-! ## Runs -/

/-- Storage as the constructor leaves it: no line of the input port is high. -/
def constructed (storage : Device) : Device := storage.onUart fun u ↦ { u with ipLastState := 0 }

/-- The device when the machine starts, beside a view of its input port. -/
def watchedPowerOn (storage : Device) : Watched := (powerOn (constructed storage), .initial)

theorem watched_powerOn (storage : Device) :
    (watchedPowerOn storage).1.Pinned (watchedPowerOn storage).2 ∧
      (watchedPowerOn storage).1.uart.ipcr = (watchedPowerOn storage).2.ipcr := by
  have hreset := samePins_reset ⟨(constructed storage).uart, .construct storage.chanA .a,
    .construct storage.chanB .b⟩
  have hpins : (powerOn (constructed storage)).uart.lastPins = 0 :=
    congrArg (fun last : BitVec 8 ↦ last.setWidth 4) hreset.ipLastState
  have hipcr : (powerOn (constructed storage)).uart.ipcr = 0 := hreset.ipcr
  have hinitial : PortView.initial.ipcr = 0 := by decide
  exact ⟨hpins, hipcr.trans hinitial.symm⟩

/-- `IP_last_state` has the levels in every state of every run. -/
theorem always_pinned (storage : Device) (es : List Event) :
    Run.Always watch (fun s : Watched ↦ s.1.Pinned s.2) (watchedPowerOn storage) es :=
  Run.always_of_step (fun _ e h ↦ pinned_step h e) (watched_powerOn storage).1 es

/-- **The input port change register shows the input port** in exactly the runs whose resets find
the four watched lines low. -/
theorem always_shows_iff (storage : Device) (es : List Event) :
    Run.Always watch (fun s : Watched ↦ s.1.Shows s.2) (watchedPowerOn storage) es ↔
      Run.Meets watch (fun s e ↦ e = .reset → s.2.levels = 0) (watchedPowerOn storage) es := by
  obtain ⟨hpins, hipcr⟩ := watched_powerOn storage
  refine Run.always_iff_meets (J := fun s : Watched ↦ s.1.Pinned s.2) (fun s e h ↦ pinned_step h e)
    (fun s e h hshows ↦ ?_) hpins ((shows_iff hpins).mpr hipcr) es
  rw [shows_iff h] at hshows
  exact (shows_iff (pinned_step h e)).trans (ipcr_step h hshows e)

/-- A reset while `IP0` is high: `IPCR` then shows it low. -/
theorem not_shows_after_reset : ¬ Run.Always watch (fun s : Watched ↦ s.1.Shows s.2)
    (watchedPowerOn default) [.inputPort 0 true, .reset] := by
  intro h
  have hpinned := (always_pinned default [.inputPort 0 true, .reset]).last
  have hipcr := (shows_iff hpinned).mp h.last
  -- the view has the line high, and the reset has cleared the register
  have hview : (Run.run watch (watchedPowerOn default) [.inputPort 0 true, .reset]).2 = ⟨1, 0⟩ := by
    decide
  rw [hview] at hipcr
  have hreset := (samePins_reset (watch (watchedPowerOn default) (.inputPort 0 true)).1).ipcr
  have hzero : (0 : BitVec 8) = (⟨1, 0⟩ : PortView).ipcr := hreset.symm.trans hipcr
  exact absurd hzero (by decide)

end Device

end RoscoEmulator.Duart
