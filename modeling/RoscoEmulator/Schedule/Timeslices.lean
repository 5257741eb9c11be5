import RoscoEmulator.Schedule.Resume

/-!
# Timeslices

A run of the machine is a sequence of timeslices. In each the devices run until the first timer is
due, and then the timers fire. How long a device runs, and what it does, is up to the state of the
devices; they see of the scheduler the base time, the expiry of the first timer and the fields of
the permanent timers. A run that goes on from a save state fires the timers that it would have fired
without the interruption. -/

namespace RoscoEmulator.Schedule

open LinkedList

/-- The devices of a machine, with a state that they share. -/
structure Devices (ω : Type*) where
  callbacks : Callbacks ω
  /-- A round of the loop of `timeslice` starts, from the base time and the expiry of the first
  timer. -/
  start : ω → Attotime → Attotime → ω
  /-- The next access to the scheduler in the round, if there is one: the local time, if a device is
  executing, and what follows from the view. -/
  access : ω → Option (Option Attotime × (View → ω × List Op))
  /-- The target when the round ends. -/
  target : ω → Attotime

variable {ω : Type*}

namespace Scheduler

/-- The devices run, for a round and at most `fuel` accesses. -/
def runDevices (d : Devices ω) : ℕ → ω → Scheduler → ω × Scheduler
  | 0, w, s => (w, { s with executing := none })
  | fuel + 1, w, s =>
      match d.access w with
      | none => (w, { s with executing := none })
      | some (executing, act) =>
          let s := { s with executing }
          let (w, ops) := act s.view
          runDevices d fuel w (ops.foldl apply s)

/-- The loop of `timeslice`, in at most `rounds` rounds. -/
def runUntilTimer (d : Devices ω) (fuel : ℕ) : ℕ → ω → Scheduler → ω × Scheduler
  | 0, w, s => (w, s)
  | rounds + 1, w, s =>
      match s.timerList with
      | none => (w, s)
      | some x =>
          if s.basetime < (s.timer x).expire then
            let (w, s) := s.runDevices d fuel (d.start w s.basetime (s.timer x).expire)
            runUntilTimer d fuel rounds w { s with basetime := d.target w }
          else (w, s)

def timeslice (d : Devices ω) (fuel : ℕ) (w : ω) (s : Scheduler) : ω × Scheduler × List Firing :=
  let (w, s) := s.runUntilTimer d fuel fuel w
  executeTimers d.callbacks fuel w s

/-- A run of `n` timeslices: the state of the devices and the timers that fired. -/
def run (d : Devices ω) (fuel : ℕ) : ℕ → ω → Scheduler → ω × List Fired
  | 0, w, _ => (w, [])
  | n + 1, w, s =>
      let (w, s, fs) := s.timeslice d fuel w
      let (w, fs') := run d fuel n w s
      (w, fired fs ++ fs')

end Scheduler

namespace Corresponds

variable {s s' : Scheduler}

section

variable (h : Corresponds none none s s')
include h

/-- Between two callbacks only the time changes. -/
theorem setTime (basetime : Attotime) (executing : Option Attotime) :
    Corresponds none none { s with basetime, executing } { s' with basetime, executing } := by
  have hwf_set : ∀ {s : Scheduler} {A I : List ℕ}, WellFormed none s A I →
      WellFormed none { s with basetime, executing } A I := fun hwf ↦
    hwf.congr rfl rfl rfl rfl (fun _ ↦ SameSchedule.of_eq rfl) rfl rfl rfl rfl rfl
  obtain ⟨A, A', I, I', hwf, hwf', halike⟩ := h
  refine ⟨A, A', I, I', hwf_set hwf, hwf_set hwf', ?_⟩
  exact ⟨halike.isPermanent, halike.timer,
    halike.active.imp fun _ _ hab ↦ ⟨hab.timer, hab.inserted, hab.permanent⟩, rfl, rfl,
    halike.insertions, halike.callbackTimer, halike.callbackTimer_isSome,
    halike.callbackTimerModified, halike.callbackTimerExpireTime, by simp⟩

theorem basetime : s'.basetime = s.basetime := by
  obtain ⟨A, A', I, I', -, -, halike⟩ := h
  exact halike.basetime

theorem head :
    ∃ x x', s.timerList = some x ∧ s'.timerList = some x' ∧
      (s'.timer x').expire = (s.timer x).expire := by
  obtain ⟨A, A', I, I', hwf, hwf', halike⟩ := h
  rcases halike.active with _ | ⟨hmatch, -⟩
  · exact ⟨0, 0, hwf.head_eq, hwf'.head_eq, hwf'.dummy_expire.trans hwf.dummy_expire.symm⟩
  · exact ⟨_, _, hwf.head_eq, hwf'.head_eq, hmatch.timer.expire⟩

theorem setExecuting (executing : Option Attotime) :
    Corresponds none none { s with executing } { s' with executing } := by
  have hset := h.setTime s.basetime executing
  nth_rewrite 2 [← h.basetime] at hset
  exact hset

theorem setBasetime (basetime : Attotime) :
    Corresponds none none { s with basetime } { s' with basetime } := by
  obtain ⟨A, A', I, I', -, -, halike⟩ := id h
  have hset := h.setTime basetime s.executing
  nth_rewrite 2 [← halike.executing] at hset
  exact hset

theorem runDevices (d : Devices ω) (fuel : ℕ) (w : ω) :
    (s'.runDevices d fuel w).1 = (s.runDevices d fuel w).1 ∧
      Corresponds none none (s.runDevices d fuel w).2 (s'.runDevices d fuel w).2 := by
  induction fuel generalizing w s s' with
  | zero => exact ⟨rfl, h.setExecuting none⟩
  | succ fuel ih =>
    rw [Scheduler.runDevices, Scheduler.runDevices]
    rcases d.access w with _ | ⟨executing, act⟩
    · exact ⟨rfl, h.setExecuting none⟩
    · have hset := h.setExecuting executing
      dsimp only
      rw [hset.view]
      exact ih (hset.foldl_apply _) _

theorem runUntilTimer (d : Devices ω) (fuel rounds : ℕ) (w : ω) :
    (s'.runUntilTimer d fuel rounds w).1 = (s.runUntilTimer d fuel rounds w).1 ∧
      Corresponds none none (s.runUntilTimer d fuel rounds w).2
        (s'.runUntilTimer d fuel rounds w).2 := by
  induction rounds generalizing w s s' with
  | zero => exact ⟨rfl, h⟩
  | succ rounds ih =>
    obtain ⟨x, x', hx, hx', hexpire⟩ := h.head
    obtain ⟨hw, hnext⟩ := h.runDevices d fuel (d.start w s.basetime (s.timer x).expire)
    rw [Scheduler.runUntilTimer, Scheduler.runUntilTimer, hx, hx']
    simp only [hexpire, h.basetime]
    split_ifs with hbefore
    · rw [hw]
      exact ih (hnext.setBasetime _) _
    · exact ⟨rfl, h⟩

theorem timeslice (d : Devices ω) (fuel : ℕ) (w : ω) :
    (s'.timeslice d fuel w).1 = (s.timeslice d fuel w).1 ∧
      fired (s'.timeslice d fuel w).2.2 = fired (s.timeslice d fuel w).2.2 ∧
      (((s.timeslice d fuel w).2.1.timerList = none ∧
      (s'.timeslice d fuel w).2.1.timerList = none) ∨
        Corresponds none none (s.timeslice d fuel w).2.1 (s'.timeslice d fuel w).2.1) := by
  obtain ⟨hw, hnext⟩ := h.runUntilTimer d fuel fuel w
  rw [Scheduler.timeslice, Scheduler.timeslice]
  dsimp only
  rw [hw]
  exact hnext.executeTimers d.callbacks fuel _

end

end Corresponds

/-- Nothing fires any more when the list is lost. -/
theorem run_of_none {s : Scheduler} (hs : s.timerList = none) (d : Devices ω) (fuel n : ℕ) (w : ω) :
    s.run d fuel n w = (w, []) := by
  have hslice : s.timeslice d fuel w = (w, s, []) := by
    have huntil : s.runUntilTimer d fuel fuel w = (w, s) := by
      rcases fuel with _ | fuel
      · rfl
      · rw [Scheduler.runUntilTimer, hs]
    rw [Scheduler.timeslice, huntil]
    exact Corresponds.executeTimers_of_none hs d.callbacks fuel w
  induction n with
  | zero => rfl
  | succ n ih =>
    rw [Scheduler.run, hslice]
    dsimp only
    rw [ih]
    rfl

/-- Schedulers that correspond fire the same timers in the same order. -/
theorem Corresponds.run {s s' : Scheduler} (h : Corresponds none none s s') (d : Devices ω)
    (fuel n : ℕ) (w : ω) : s'.run d fuel n w = s.run d fuel n w := by
  induction n generalizing w s s' with
  | zero => rfl
  | succ n ih =>
    obtain ⟨hw, hfired, hnext⟩ := h.timeslice d fuel w
    rw [Scheduler.run, Scheduler.run]
    dsimp only
    rw [hw, hfired]
    rcases hnext with ⟨hnone, hnone'⟩ | hnext
    · rw [run_of_none hnone, run_of_none hnone']
    · rw [ih hnext]

theorem WellFormed.corresponds_load {s saved : Scheduler} {A I A₀ I₀ : List ℕ}
    (h : WellFormed none s A I) (h₀ : WellFormed none saved A₀ I₀) (hcan : saved.canSave = true)
    (hpermanent : ∀ x, s.isPermanent x = saved.isPermanent x)
    (hcallback : ∀ x, saved.isPermanent x = true → (s.timer x).callback = (saved.timer x).callback)
    (hidle : s.callbackTimer = none) (hidle₀ : saved.callbackTimer = none)
    (hexecuting : s.executing = saved.executing) :
    Corresponds none none saved (s.loadItems saved.presave).postload := by
  obtain ⟨I', hwf, hpreserved⟩ := h.load h₀ hcan hpermanent
  obtain ⟨-, hstate, hfields, -⟩ := h₀.presave
  have hloaded : ∀ x, (s.loadItems saved.presave).isPermanent x = saved.isPermanent x := by
    intro x
    rw [Scheduler.isPermanent, loadItems_temporary, ← hpermanent]
    rfl
  have htimer : ∀ x, saved.isPermanent x = true →
      SameTimer (saved.timer x) ((s.loadItems saved.presave).postload.timer x) := by
    intro x hx
    have htemporary := (isPermanent_iff.mp ((hpermanent x).trans hx)).2
    rw [hpreserved.timer x ((loadItems_temporary s saved.presave x).trans htemporary),
      loadItems_timer s saved.presave ((hpermanent x).trans hx), hfields x]
    exact ⟨hcallback x hx, rfl, rfl, htemporary.trans (isPermanent_iff.mp hx).2.symm, rfl, rfl, rfl⟩
  have hpresave : saved.presave.basetime = saved.basetime ∧
      saved.presave.insertions = saved.insertions ∧ saved.presave.inserted = saved.inserted := by
    rw [hstate]
    exact ⟨rfl, rfl, rfl⟩
  have hnone : (s.loadItems saved.presave).postload.callbackTimer = none :=
    hpreserved.callbackTimer.trans hidle
  refine ⟨A₀, A₀, I₀, I', h₀, hwf, ?_, htimer, ?_, hpreserved.basetime.trans hpresave.1,
    hpreserved.executing.trans hexecuting, hpreserved.insertions.trans hpresave.2.1, ?_, ?_, ?_, ?_,
    by simp⟩
  · intro x
    rw [hpreserved.isPermanent, hloaded]
  · refine List.forall₂_same.mpr fun x hx ↦ ⟨htimer x (h₀.isPermanent_of_canSave hcan hx), ?_,
      fun _ ↦ rfl⟩
    rw [hpreserved.inserted]
    exact congrFun hpresave.2.2 x
  · simp [hnone, hidle₀]
  · simp [hnone, hidle₀]
  · simp [hidle₀]
  · simp [hidle₀]

/-- **Save and restore.** A state with no temporary timer pending is saved and loaded into a machine
whose timers are in any other arrangement. The active list has the same timers in the same order;
and, the timers having the same callbacks and no device executing, whatever the devices do the run
goes on as it would have done without the interruption. -/
theorem run_postload {s saved : Scheduler} (h : Reachable .idle s) (h₀ : Reachable .idle saved)
    (hcan : saved.canSave = true) (hpermanent : ∀ x, s.isPermanent x = saved.isPermanent x) :
    (∃ A, (Linked saved.next saved.prev (A ++ [0]) ∧ saved.timerList = (A ++ [0]).head?) ∧
      Linked (s.loadItems saved.presave).postload.next (s.loadItems saved.presave).postload.prev
          (A ++ [0]) ∧
        (s.loadItems saved.presave).postload.timerList = (A ++ [0]).head?) ∧
    ((∀ x, saved.isPermanent x = true → (s.timer x).callback = (saved.timer x).callback) →
      s.executing = none → saved.executing = none →
      ∀ (ω : Type) (d : Devices ω) (fuel n : ℕ) (w : ω),
        (s.loadItems saved.presave).postload.run d fuel n w = saved.run d fuel n w) := by
  obtain ⟨hidle, A, I, hwf⟩ := phaseInvariant_of_reachable h
  obtain ⟨hidle₀, A₀, I₀, hwf₀⟩ := phaseInvariant_of_reachable h₀
  obtain ⟨I', hload, -⟩ := hwf.load hwf₀ hcan hpermanent
  refine ⟨⟨A₀, ⟨hwf₀.lists.active, hwf₀.lists.timerList⟩, hload.lists.active,
    hload.lists.timerList⟩, ?_⟩
  intro hcallback hexecuting hexecuting₀ ω d fuel n w
  have hcorresponds := hwf.corresponds_load hwf₀ hcan hpermanent hcallback hidle hidle₀
    (hexecuting.trans hexecuting₀.symm)
  exact hcorresponds.run d fuel n w

/-- Two timers that expire after a second, started in the order of `first` and `second`. -/
def tied (first second : ℕ) : Scheduler :=
  (((Scheduler.create.timerAlloc (some 0)).timerAlloc (some 1)).apply
    (.adjust first ⟨1, 0⟩ 0 .never)).apply (.adjust second ⟨1, 0⟩ 0 .never)

/-- Devices that let the time pass. -/
def quiet : Devices Unit where
  callbacks _ _ _ _ := ((), [])
  start _ _ _ := ()
  access _ := none
  target _ := ⟨1, 0⟩

/-- A state saved with one order and loaded into a machine that has the other. -/
theorem run_postload_tied :
    ((tied 1 2).loadItems (tied 2 1).presave).postload.run quiet 4 1 () =
        (tied 2 1).run quiet 4 1 () ∧
      ((tied 2 1).run quiet 4 1 ()).2.map Fired.timer = [some 2, some 1] := by
  have hreachable : ∀ first second, Reachable .idle (tied first second) := fun first second ↦
    .apply _ rfl (.apply _ rfl (.alloc (some 1) rfl (.alloc (some 0) rfl .create)))
  have hallocated : (tied 1 2).allocated = 3 ∧ (tied 2 1).allocated = 3 := by decide +kernel
  have hpermanent : ∀ x, (tied 1 2).isPermanent x = (tied 2 1).isPermanent x := by
    intro x
    by_cases hx : x < 3
    · interval_cases x <;> decide +kernel
    · simp [Scheduler.isPermanent, hallocated, hx]
  refine ⟨(run_postload (hreachable 1 2) (hreachable 2 1) (by decide +kernel) hpermanent).2 ?_
    (by decide +kernel) (by decide +kernel) Unit quiet 4 1 (), by decide +kernel⟩
  intro x hx
  have hlt : x < 3 := hallocated.2 ▸ (WellFormed.isPermanent_iff.mp hx).1
  interval_cases x <;> decide +kernel

end RoscoEmulator.Schedule
