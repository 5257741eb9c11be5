import RoscoEmulator.Emu.Attotime
import RoscoEmulator.Lib.LinkedList

/-!
# The timers of the scheduler

The scheduler keeps its timers in two doubly linked lists. The active one holds the timers that will
expire, in the order of their expiry, and ends in a dummy timer that never does; the others are in
the inactive list. `execute_timers` fires the timers of the active list that are due, and a callback
may change any timer while it runs.

A timer is a number here, the order of its allocation; the dummy is timer `0`. The allocator of the
source recycles temporary timers that have fired, which nothing refers to any more, so a new number
for every allocation makes no difference. The fields of the timers are functions of the timer. The
last three of the scheduler's fields are not in the source: they number the insertions, so that one
can speak of the order in which timers were inserted, and nothing reads them.

What a callback does to the timers is a list of operations. It may depend on everything a device
sees: its own state, the time, and the timers it has a pointer to. -/

namespace RoscoEmulator.Schedule

open Function LinkedList

/-! ## State -/

/-- The fields of an `emu_timer`, its links apart. A null callback is `none`. -/
structure Timer where
  callback : Option ℕ
  param : ℤ
  enabled : Bool
  temporary : Bool
  period : Attotime
  start : Attotime
  expire : Attotime
  index : ℕ
deriving DecidableEq, Repr, Inhabited

/-- Disabled timers never expire. -/
def Timer.isActive (t : Timer) : Bool := !t.expire.isNever && t.enabled

structure Scheduler where
  timer : ℕ → Timer
  next : ℕ → Option ℕ
  prev : ℕ → Option ℕ
  /-- How many timers were allocated. -/
  allocated : ℕ
  basetime : Attotime
  /-- The local time of `m_executing_device`, if there is one. -/
  executing : Option Attotime
  timerList : Option ℕ
  inactiveTimers : Option ℕ
  callbackTimer : Option ℕ
  callbackTimerModified : Bool
  callbackTimerExpireTime : Attotime
  /-- How many insertions there were. -/
  insertions : ℕ
  /-- The number of the last insertion of a timer. -/
  inserted : ℕ → ℕ
  /-- Whether the timer had expired when it was inserted last. -/
  late : ℕ → Bool

namespace Scheduler

def time (s : Scheduler) : Attotime :=
  match s.callbackTimer with
  | some _ => s.callbackTimerExpireTime
  | none => s.executing.getD s.basetime

/-- A device has pointers to the permanent timers only. -/
def isPermanent (s : Scheduler) (x : ℕ) : Bool :=
  decide (x < s.allocated) && !(s.timer x).temporary

def setTimer (s : Scheduler) (x : ℕ) (t : Timer) : Scheduler :=
  { s with timer := update s.timer x t }

@[simp] theorem setTimer_self (s : Scheduler) (x : ℕ) (t : Timer) : (s.setTimer x t).timer x = t :=
  update_self (β := fun _ ↦ Timer) x t s.timer

theorem setTimer_of_ne (s : Scheduler) {x y : ℕ} (h : y ≠ x) (t : Timer) :
    (s.setTimer x t).timer y = s.timer y := update_of_ne (β := fun _ ↦ Timer) h t s.timer

/-! ## The lists -/

/-- Number an insertion. -/
def logInsertion (s : Scheduler) (x : ℕ) : Scheduler :=
  { s with
    insertions := s.insertions + 1
    inserted := update s.inserted x s.insertions
    late := update s.late x (decide ((s.timer x).expire < s.time)) }

/-- Whether `timer_list_insert` puts `x` before `curtimer`. -/
def here (checkIndex : Bool) (timer : ℕ → Timer) (x curtimer : ℕ) : Bool :=
  decide ((timer curtimer).expire > (timer x).expire) ||
    (checkIndex && !decide ((timer curtimer).expire < (timer x).expire) &&
      decide ((timer curtimer).index > (timer x).index))

/-- The loop of `timer_list_insert`: `prevtimer` and `curtimer` when it ends. -/
def findPosition (here : ℕ → Bool) (next : ℕ → Option ℕ) :
    ℕ → Option ℕ → Option ℕ → Option ℕ × Option ℕ
  | 0, prevtimer, curtimer => (prevtimer, curtimer)
  | _ + 1, prevtimer, none => (prevtimer, none)
  | fuel + 1, prevtimer, some curtimer =>
      if here curtimer then (prevtimer, some curtimer)
      else findPosition here next fuel (some curtimer) (next curtimer)

/-- Link `x` in at a position of the active list. -/
def linkActive (s : Scheduler) (x : ℕ) : Option ℕ × Option ℕ → Scheduler
  | (prevtimer, some curtimer) =>
      { s with
        prev := update (update s.prev x prevtimer) curtimer (some x)
        next := setAt (update s.next x (some curtimer)) prevtimer (some x)
        timerList := if prevtimer.isSome then s.timerList else some x }
  | (prevtimer, none) =>
      -- after the last one; the dummy timer is always last, so this does not happen
      { s with
        prev := update s.prev x prevtimer
        next := update (setAt s.next prevtimer (some x)) x none
        timerList := if prevtimer.isSome then s.timerList else some x }

/-- Link `x` in at the head of the inactive list. -/
def linkInactive (s : Scheduler) (x : ℕ) : Scheduler :=
  { s with
    prev := update (setAt s.prev s.inactiveTimers (some x)) x none
    next := update s.next x s.inactiveTimers
    inactiveTimers := some x }

def timerListInsert (s : Scheduler) (checkIndex : Bool) (x : ℕ) : Scheduler :=
  let s := if checkIndex then s else s.logInsertion x
  if (s.timer x).isActive then
    s.linkActive x (findPosition (here checkIndex s.timer x) s.next s.allocated none s.timerList)
  else s.linkInactive x

def timerListRemove (s : Scheduler) (x : ℕ) : Scheduler :=
  let s' :=
    match s.prev x with
    | some p => { s with next := update s.next p (s.next x) }
    | none =>
        if s.timerList = some x then { s with timerList := s.next x }
        else { s with inactiveTimers := s.next x }
  match s'.next x with
  | some n => { s' with prev := update s'.prev n (s'.prev x) }
  | none => s'

/-- Remove a timer and insert it back. -/
def reinsert (s : Scheduler) (x : ℕ) : Scheduler := (s.timerListRemove x).timerListInsert false x

/-- Take a temporary timer out and give it back to the allocator. -/
def reclaim (s : Scheduler) (x : ℕ) : Scheduler :=
  (s.setTimer x { s.timer x with callback := none }).timerListRemove x

/-! ## Operations on timers -/

/-- A new timer, with its state clean, as `emu_timer::init` leaves it before it is inserted. -/
def addTimer (s : Scheduler) (callback : Option ℕ) (startDelay : Attotime) (param : ℤ)
    (temporary : Bool) : Scheduler :=
  let x := s.allocated
  let expire := s.time + startDelay
  { s with
    allocated := s.allocated + 1
    next := update s.next x none
    prev := update s.prev x none
    timer := update s.timer x
      { callback, param, temporary, period := .never, start := s.time, expire,
        enabled := !expire.isNever, index := (s.timer x).index } }

/-- `emu_timer::init`, of a new timer. -/
def init (s : Scheduler) (callback : Option ℕ) (startDelay : Attotime) (param : ℤ)
    (temporary : Bool) : Scheduler :=
  (s.addTimer callback startDelay param temporary).timerListInsert false s.allocated

def timerAlloc (s : Scheduler) (callback : Option ℕ) : Scheduler := s.init callback .never 0 false

def timerSet (s : Scheduler) (duration : Attotime) (callback : Option ℕ) (param : ℤ) : Scheduler :=
  s.init callback duration param true

def synchronize (s : Scheduler) (callback : Option ℕ) (param : ℤ) : Scheduler :=
  s.init callback .zero param true

def enable (s : Scheduler) (x : ℕ) (enable : Bool) : Scheduler :=
  if (s.timer x).enabled ≠ enable then
    (s.setTimer x { s.timer x with enabled := enable }).reinsert x
  else s

def adjust (s : Scheduler) (x : ℕ) (startDelay : Attotime) (param : ℤ) (period : Attotime) :
    Scheduler :=
  let s := if s.callbackTimer = some x then { s with callbackTimerModified := true } else s
  let startDelay := if startDelay.seconds < 0 then Attotime.zero else startDelay
  (s.setTimer x { s.timer x with
    param, enabled := true, start := s.time, expire := s.time + startDelay, period }).reinsert x

def reset (s : Scheduler) (x : ℕ) (duration : Attotime) : Scheduler :=
  s.adjust x duration (s.timer x).param (s.timer x).period

def scheduleNextPeriod (s : Scheduler) (x : ℕ) : Scheduler :=
  (s.setTimer x { s.timer x with
    start := (s.timer x).expire, expire := (s.timer x).expire + (s.timer x).period }).reinsert x

/-- The constructor: the dummy timer is taken out of the inactive list and is the active list. -/
def create : Scheduler :=
  let empty : Scheduler :=
    { timer := fun _ ↦ default, next := fun _ ↦ none, prev := fun _ ↦ none, allocated := 0
      basetime := .zero, executing := none, timerList := none, inactiveTimers := none
      callbackTimer := none, callbackTimerModified := false, callbackTimerExpireTime := .zero
      insertions := 0, inserted := fun _ ↦ 0, late := fun _ ↦ false }
  { (empty.init none .never 0 true).timerListRemove 0 with timerList := some 0 }

end Scheduler

/-- What a device may do to the timers. -/
inductive Op
  | adjust (x : ℕ) (startDelay : Attotime) (param : ℤ) (period : Attotime)
  | enable (x : ℕ) (enable : Bool)
  | reset (x : ℕ) (duration : Attotime)
  | setParam (x : ℕ) (param : ℤ)
  | timerSet (duration : Attotime) (callback : Option ℕ) (param : ℤ)
  | synchronize (callback : Option ℕ) (param : ℤ)
deriving DecidableEq, Repr

/-- What a device sees of a timer. -/
structure TimerView where
  param : ℤ
  enabled : Bool
  period : Attotime
  start : Attotime
  expire : Attotime
deriving DecidableEq, Repr

/-- What a device sees of the scheduler. -/
structure View where
  time : Attotime
  timer : ℕ → Option TimerView

namespace Scheduler

def view (s : Scheduler) : View where
  time := s.time
  timer x :=
    if s.isPermanent x then
      some ⟨(s.timer x).param, (s.timer x).enabled, (s.timer x).period, (s.timer x).start,
        (s.timer x).expire⟩
    else none

/-- An operation. There is no pointer to a timer that is not permanent. -/
def apply (s : Scheduler) : Op → Scheduler
  | .adjust x startDelay param period =>
      if s.isPermanent x then s.adjust x startDelay param period else s
  | .enable x enable => if s.isPermanent x then s.enable x enable else s
  | .reset x duration => if s.isPermanent x then s.reset x duration else s
  | .setParam x param => if s.isPermanent x then s.setTimer x { s.timer x with param } else s
  | .timerSet duration callback param => s.timerSet duration callback param
  | .synchronize callback param => s.synchronize callback param

/-! ## Firing -/

/-- The first half of the loop of `execute_timers`: a one-shot timer is disabled, and the callback
is the current one. -/
def beginCallback (s : Scheduler) (x : ℕ) : Scheduler :=
  let t := s.timer x
  { s with
    timer := update s.timer x
      { t with enabled := if t.period.isZero || t.period.isNever then false else t.enabled }
    callbackTimerModified := false
    callbackTimer := some x
    callbackTimerExpireTime := t.expire }

/-- The second half: the timer is scheduled for its next period, or taken out if it is temporary. -/
def endCallback (s : Scheduler) (x : ℕ) : Scheduler :=
  if s.callbackTimerModified then s
  else if !(s.timer x).temporary then s.scheduleNextPeriod x
  else s.reclaim x

end Scheduler

/-- What the callbacks do, as a function of the state of the devices, of what they see of the
scheduler and of their parameter. -/
abbrev Callbacks (ω : Type*) := ω → View → ℕ → ℤ → ω × List Op

/-- A timer that was due. -/
structure Firing where
  timer : ℕ
  temporary : Bool
  /-- `was_enabled`: the callback was called. -/
  wasEnabled : Bool
  callback : Option ℕ
  param : ℤ
  expire : Attotime
  /-- The time as it was in the callback, at its start and after each operation. -/
  times : List Attotime
  /-- The insertions there had been. -/
  insertions : ℕ
  /-- The insertion that had put the timer in the list, and whether the timer had expired then. -/
  inserted : ℕ
  late : Bool
deriving DecidableEq, Repr

variable {ω : Type*}

namespace Scheduler

/-- The operations of the callback of `x`, called if the timer was enabled and has one. -/
def callbackOps (cb : Callbacks ω) (w : ω) (s : Scheduler) (x : ℕ) (wasEnabled : Bool) :
    ω × List Op :=
  match (s.timer x).callback with
  | some f => if wasEnabled then cb w s.view f (s.timer x).param else (w, [])
  | none => (w, [])

/-- The loop of `execute_timers`, for a timer that is due. -/
def fireTimer (cb : Callbacks ω) (w : ω) (s : Scheduler) (x : ℕ) : ω × Scheduler × Firing :=
  let t := s.timer x
  let s₁ := s.beginCallback x
  let (w, ops) := s₁.callbackOps cb w x t.enabled
  (w, (ops.foldl apply s₁).endCallback x,
    { timer := x, temporary := t.temporary, wasEnabled := t.enabled
      callback := t.callback, param := t.param, expire := t.expire
      times := (ops.scanl apply s₁).map time
      insertions := s.insertions, inserted := s.inserted x, late := s.late x })

/-- `execute_timers`, as far as it comes in `fuel` rounds of its loop. -/
def executeTimers (cb : Callbacks ω) : ℕ → ω → Scheduler → ω × Scheduler × List Firing
  | 0, w, s => (w, s, [])
  | fuel + 1, w, s =>
      match s.timerList with
      | none => (w, s, [])
      | some x =>
          if (s.timer x).expire ≤ s.basetime then
            let (w, s, f) := s.fireTimer cb w x
            let (w, s, fs) := executeTimers cb fuel w s
            (w, s, f :: fs)
          else (w, { s with callbackTimer := none }, [])

/-! ## Saving -/

/-- The loop of `can_save` from a timer on. -/
def canSaveFrom (s : Scheduler) : ℕ → Option ℕ → Bool
  | 0, _ => true
  | _ + 1, none => true
  | fuel + 1, some x =>
      if (s.timer x).temporary && !(s.timer x).expire.isNever then false
      else canSaveFrom s fuel (s.next x)

def canSave (s : Scheduler) : Bool := s.canSaveFrom s.allocated s.timerList

/-- The loop of `presave` from a timer on. -/
def presaveFrom : ℕ → ℕ → Option ℕ → Scheduler → Scheduler
  | 0, _, _, s => s
  | _ + 1, _, none, s => s
  | fuel + 1, index, some x, s =>
      presaveFrom fuel (index + 1) (s.next x) (s.setTimer x { s.timer x with index })

def presave (s : Scheduler) : Scheduler := presaveFrom s.allocated 0 s.timerList s

/-- Read the saved items: the fields that `register_save` names, of the permanent timers, and the
basetime. -/
def loadItems (s saved : Scheduler) : Scheduler :=
  { s with
    timer := fun x ↦
      if s.isPermanent x then
        { s.timer x with
          param := (saved.timer x).param
          enabled := (saved.timer x).enabled
          period := (saved.timer x).period
          start := (saved.timer x).start
          expire := (saved.timer x).expire
          index := (saved.timer x).index }
      else s.timer x
    basetime := saved.basetime
    insertions := saved.insertions
    inserted := saved.inserted
    late := saved.late }

/-- The first loop of `postload`: the inactive timers go to the private list. -/
def takeInactive : ℕ → Scheduler → Option ℕ → Scheduler × Option ℕ
  | 0, s, privateList => (s, privateList)
  | fuel + 1, s, privateList =>
      match s.inactiveTimers with
      | none => (s, privateList)
      | some x =>
          let s := s.timerListRemove x
          takeInactive fuel { s with next := update s.next x privateList } (some x)

/-- The second loop of `postload`: so do the permanent ones of the active list, up to the dummy. -/
def takeActive : ℕ → Scheduler → Option ℕ → Scheduler × Option ℕ
  | 0, s, privateList => (s, privateList)
  | fuel + 1, s, privateList =>
      match s.timerList with
      | none => (s, privateList)
      | some x =>
          match s.next x with
          | none => (s, privateList)
          | some _ =>
              if (s.timer x).temporary then
                takeActive fuel (s.reclaim x) privateList
              else
                let s := s.timerListRemove x
                takeActive fuel { s with next := update s.next x privateList } (some x)

/-- The third loop of `postload`. -/
def insertPrivate : ℕ → Scheduler → Option ℕ → Scheduler
  | 0, s, _ => s
  | _ + 1, s, none => s
  | fuel + 1, s, some x => insertPrivate fuel (s.timerListInsert true x) (s.next x)

def postload (s : Scheduler) : Scheduler :=
  let (s, privateList) := takeInactive s.allocated s none
  let (s, privateList) := takeActive s.allocated s privateList
  insertPrivate s.allocated s privateList

end Scheduler

/-! ## Reachable states -/

/-- Where the program is: outside of `execute_timers`, at the head of its loop, or between the two
halves of the loop for a timer, which was enabled or not. -/
inductive Phase
  | idle
  | loop
  | callback (x : ℕ) (wasEnabled : Bool)
deriving DecidableEq, Repr

/-- Whether devices run: the callback is called if the timer was enabled. -/
def Phase.runs : Phase → Bool
  | .idle => true
  | .loop => false
  | .callback _ wasEnabled => wasEnabled

/-- The states of the scheduler. Devices allocate and change timers from the callbacks and while
they run; they run outside of `execute_timers`, and a state is saved or loaded there. The load is of
a save of the same machine, which has the same permanent timers. The loop of `execute_timers` reads
the head of the active list, so that there is no way on from an empty one. -/
inductive Reachable : Phase → Scheduler → Prop
  | create : Reachable .idle .create
  | alloc {p s} (callback : Option ℕ) : p.runs = true → Reachable p s →
      Reachable p (s.timerAlloc callback)
  | apply {p s} (o : Op) : p.runs = true → Reachable p s → Reachable p (s.apply o)
  | timeslice {s} (basetime : Attotime) (executing : Option Attotime) : Reachable .idle s →
      Reachable .idle { s with basetime, executing }
  | enter {s} : Reachable .idle s → Reachable .loop s
  | fire {s x} : Reachable .loop s → s.timerList = some x → (s.timer x).expire ≤ s.basetime →
      Reachable (.callback x (s.timer x).enabled) (s.beginCallback x)
  | finish {s x b} : Reachable (.callback x b) s → Reachable .loop (s.endCallback x)
  | leave {s x} : Reachable .loop s → s.timerList = some x → ¬ (s.timer x).expire ≤ s.basetime →
      Reachable .idle { s with callbackTimer := none }
  | presave {s} : Reachable .idle s → Reachable .idle s.presave
  | load {s saved} : Reachable .idle s → Reachable .idle saved → saved.canSave = true →
      (∀ x, s.isPermanent x = saved.isPermanent x) →
      Reachable .idle (s.loadItems saved.presave).postload

end RoscoEmulator.Schedule
