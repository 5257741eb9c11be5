import Mathlib
import RoscoEmulator.Lib.GuardedRun

/-!
# The event queue of an input line

`set_state_synced` puts an event into a queue of 32 entries, and a timer lets `empty_event_queue`
deliver them. A full queue is emptied on the spot. The delivery of an event runs callbacks, and
these may come back with more events, so that calls of `empty_event_queue` can nest: a state has a
stack of them. Between two steps the control is outside of the two functions, in a callback of the
innermost call if there is one.

Every event is delivered once, in the order of the requests, as long as no callback finds the queue
full. The nested call would start with the first entry again; and what it leaves behind for the call
around it, which empties the queue when it ends, is lost. -/

namespace RoscoEmulator.DeviceInput

open Nat

/-- `line_state`. -/
inductive LineState | clear | assert | hold
deriving DecidableEq

def LineState.value : LineState → BitVec 32
  | .clear => 0
  | .assert => 1
  | .hold => 2

/-- `USE_STORED_VECTOR`. -/
def useStoredVector : BitVec 32 := 0xff000000#32

def suspendReasonHalt : BitVec 32 := 0x0001#32

def suspendReasonReset : BitVec 32 := 0x0002#32

/-- `INPUT_LINE_RESET`. -/
def inputLineReset : ℕ := 65

/-- `INPUT_LINE_HALT`. -/
def inputLineHalt : ℕ := 66

/-- The state and the vector of an event. -/
@[ext] structure Event where
  state : BitVec 8
  vector : BitVec 32
deriving DecidableEq

namespace Event

def new (state : LineState) (vector : BitVec 32) : Event := ⟨state.value.setWidth 8, vector⟩

/-- The entry in the queue. -/
def pack (state : LineState) (vector : BitVec 32) : BitVec 32 :=
  state.value &&& 0xff#32 ||| vector <<< 8

def unpack (entry : BitVec 32) : Event := ⟨(entry &&& 0xff#32).setWidth 8, entry.sshiftRight 8⟩

end Event

/-- What `empty_event_queue` does with the device. -/
inductive Call
  | suspend (reason : BitVec 32)
  | resume (reason : BitVec 32)
  | reset
  | setInput (state : LineState)
  | signalInterruptTrigger
deriving DecidableEq

/-- `device_input`. -/
structure Input where
  linenum : ℕ
  storedVector : BitVec 32
  curvector : BitVec 32
  curstate : BitVec 8
  queue : Fin 32 → BitVec 32
  qindex : ℕ

/-- A call of `empty_event_queue`, at its event `curevent`. -/
structure Frame where
  curevent : ℕ
  /-- The call of `set_state_synced` that waits for it; none if a timer has made the call. -/
  caller : Option (LineState × BitVec 32)
  /-- The callback is the reset of the device. -/
  resetting : Bool

/-- An input line, the suspend reasons of its device and the calls in progress, the innermost first.
The events are recorded as they are requested and delivered. -/
structure State where
  input : Input
  nextsuspend : BitVec 32
  stack : List Frame
  /-- The timers of `synchronize` that have not fired. -/
  timers : ℕ
  calls : List Call
  requested : List Event
  delivered : List Event

/-- What happens outside of the two functions. -/
inductive Step
  | setStateSynced (state : LineState) (vector : BitVec 32)
  /-- `set_vector`, or the reset of the line. -/
  | setVector (vector : BitVec 32)
  /-- The end of `default_irq_callback`, on a line that was held. -/
  | acknowledge
  /-- The suspend reasons change. -/
  | suspend (nextsuspend : BitVec 32)
  /-- The callback returns, in which the control is. -/
  | callbackReturns
  | timer

namespace Input

/-- The vector of a request. -/
def resolve (input : Input) (vector : BitVec 32) : BitVec 32 :=
  if vector = useStoredVector then input.storedVector else vector

/-- The event in an entry of the queue. -/
def entry (input : Input) (i : ℕ) : Event := .unpack (input.queue (Fin.ofNat 32 i))

/-- What the delivery of an event does before its callback: the suspend reasons, the calls, and
whether the callback is the reset of the device. -/
def effects (input : Input) (nextsuspend : BitVec 32) : BitVec 32 × List Call × Bool :=
  let curstate := input.curstate
  if input.linenum = inputLineReset then
    if curstate = 1 then (nextsuspend ||| suspendReasonReset, [.suspend suspendReasonReset], false)
    else if nextsuspend &&& suspendReasonReset ≠ 0 then (nextsuspend, [.reset], true)
    else (nextsuspend, [], false)
  else if input.linenum = inputLineHalt then
    if curstate = 1 then (nextsuspend ||| suspendReasonHalt, [.suspend suspendReasonHalt], false)
    else if curstate = 0
      then (nextsuspend &&& ~~~ suspendReasonHalt, [.resume suspendReasonHalt], false)
    else (nextsuspend, [], false)
  else if curstate = 2 ∨ curstate = 1 then (nextsuspend, [.setInput .assert], false)
  else if curstate = 0 then (nextsuspend, [.setInput .clear], false)
  else (nextsuspend, [], false)

/-- What it does after its callback. -/
def effectsAfter (input : Input) (resetting : Bool) (nextsuspend : BitVec 32) :
    BitVec 32 × List Call :=
  if input.linenum = inputLineReset then
    if resetting then (nextsuspend &&& ~~~ suspendReasonReset, [.resume suspendReasonReset])
    else (nextsuspend, [])
  else if input.linenum = inputLineHalt then (nextsuspend, [])
  else if input.curstate ≠ 0 then (nextsuspend, [.signalInterruptTrigger])
  else (nextsuspend, [])

end Input

namespace State

/-- The part of `set_state_synced` behind the flush. -/
def enqueue (state : LineState) (vector : BitVec 32) (s : State) : State :=
  let eventIndex := s.input.qindex
  let input := { s.input with qindex := eventIndex + 1 }
  if h : eventIndex < 32 then
    let queue :=
      Function.update input.queue ⟨eventIndex, h⟩ (Event.pack state (input.resolve vector))
    { s with
      input := { input with queue }
      timers := if eventIndex = 0 then s.timers + 1 else s.timers }
  else { s with input }

/-- The loop of `empty_event_queue` takes the next event, up to the callback. -/
def deliver (f : Frame) (s : State) : State :=
  let event := s.input.entry f.curevent
  let input := { s.input with curstate := event.state, curvector := event.vector }
  let (nextsuspend, calls, resetting) := input.effects s.nextsuspend
  { s with
    input
    nextsuspend
    stack := { f with resetting } :: s.stack
    calls := s.calls ++ calls
    delivered := s.delivered ++ [event] }

/-- The end of `empty_event_queue`. -/
def finish (f : Frame) (s : State) : State :=
  let s := { s with input := { s.input with qindex := 0 } }
  match f.caller with
  | none => s
  | some (state, vector) => s.enqueue state vector

/-- The head of the loop of `empty_event_queue`. -/
def loop (f : Frame) (s : State) : State :=
  if f.curevent < s.input.qindex then s.deliver f else s.finish f

def setStateSynced (state : LineState) (vector : BitVec 32) (s : State) : State :=
  let s := { s with requested := s.requested ++ [Event.new state (s.input.resolve vector)] }
  if 32 ≤ s.input.qindex then s.loop ⟨0, some (state, vector), false⟩ else s.enqueue state vector

def callbackReturns (s : State) : State :=
  match s.stack with
  | [] => s
  | f :: stack =>
      let (nextsuspend, calls) := s.input.effectsAfter f.resetting s.nextsuspend
      { s with nextsuspend, stack, calls := s.calls ++ calls }.loop { f with
        curevent := f.curevent + 1 }

/-- A timer fires, between two slices of the devices. -/
def timer (s : State) : State :=
  if s.stack = [] ∧ 0 < s.timers then { s with timers := s.timers - 1 }.loop ⟨0, none, false⟩ else s

def step (s : State) : Step → State
  | .setStateSynced state vector => s.setStateSynced state vector
  | .setVector vector => { s with input := { s.input with storedVector := vector } }
  | .acknowledge => { s with input := { s.input with curstate := 0 } }
  | .suspend nextsuspend => { s with nextsuspend }
  | .callbackReturns => s.callbackReturns
  | .timer => s.timer

/-- A line after `start`. -/
def start (linenum : ℕ) (defaultIrqVector : BitVec 32) : State where
  input := ⟨linenum, defaultIrqVector, defaultIrqVector, 0, fun _ ↦ 0, 0⟩
  nextsuspend := 0
  stack := []
  timers := 0
  calls := []
  requested := []
  delivered := []

/-- The callbacks in progress return, and the timers fire. -/
def pass (s : State) : State := if s.stack = [] then s.timer else s.callbackReturns

/-- The requests are delivered once and in their order: so far, and all of them once the callbacks
have returned and the timers have fired. -/
def InOrder (s : State) : Prop :=
  s.delivered <+: s.requested ∧
    ∃ n, (pass^[n] s).stack = [] ∧ (pass^[n] s).timers = 0 ∧ (pass^[n] s).delivered = s.requested

end State

/-- A vector fits into an entry of the queue. -/
def Fits (vector : BitVec 32) : Prop := -2 ^ 23 ≤ vector.toInt ∧ vector.toInt < 2 ^ 23

instance (vector : BitVec 32) : Decidable (Fits vector) := inferInstanceAs (Decidable (_ ∧ _))

/-- The steps that lose no event. A callback makes a request only if the queue has room, the vector
of a request fits into an entry, and the stored vector stays while a request waits that uses it. -/
def Allowed (s : State) : Step → Prop
  | .setStateSynced _ vector =>
      (s.stack ≠ [] → s.input.qindex < 32) ∧ Fits (s.input.resolve vector)
  | .setVector vector =>
      ∀ f ∈ s.stack, ∀ c ∈ f.caller, c.2 = useStoredVector → vector = s.input.storedVector
  | _ => True

instance (s : State) : DecidablePred (Allowed s)
  | .setStateSynced .. => inferInstanceAs (Decidable (_ ∧ _))
  | .setVector .. =>
    inferInstanceAs (Decidable (∀ f ∈ s.stack, ∀ c ∈ f.caller, c.2 = useStoredVector → _))
  | .acknowledge | .suspend .. | .callbackReturns | .timer => instDecidableTrue

/-! ## Entries -/

theorem Event.unpack_pack {state : LineState} {vector : BitVec 32} (h : Fits vector) :
    unpack (pack state vector) = new state vector := by
  have hvalue : state.value.toNat < 256 := by cases state <;> decide
  have hstate : (state.value &&& 0xff#32).toNat = state.value.toNat := by
    rw [BitVec.toNat_and, show (0xff#32).toNat = 2 ^ 8 - 1 from rfl, and_two_pow_sub_one_eq_mod]
    exact mod_eq_of_lt hvalue
  have hpack : (pack state vector).toNat = 2 ^ 8 * (vector.toNat % 2 ^ 24) + state.value.toNat := by
    have hshift : (vector <<< 8).toNat = 2 ^ 8 * (vector.toNat % 2 ^ 24) := by
      rw [BitVec.toNat_shiftLeft, shiftLeft_eq]
      omega
    rw [pack, BitVec.toNat_or, hstate, hshift, Nat.or_comm, ← two_pow_add_eq_or_of_lt hvalue]
  obtain ⟨hlow, hhigh⟩ := h
  ext1
  · refine BitVec.eq_of_toNat_eq ?_
    rw [unpack, new, BitVec.toNat_setWidth, BitVec.toNat_setWidth, BitVec.toNat_and, hpack,
      show (0xff#32).toNat = 2 ^ 8 - 1 from rfl, and_two_pow_sub_one_eq_mod]
    omega
  · refine BitVec.eq_of_toInt_eq ?_
    rw [unpack, BitVec.toInt_sshiftRight, Int.shiftRight_eq_div_pow, new,
      BitVec.toInt_eq_toNat_cond, hpack]
    rw [BitVec.toInt_eq_toNat_cond] at hlow hhigh ⊢
    dsimp only
    split_ifs at hlow hhigh ⊢ <;> omega

namespace Input

variable {input input' : Input}

/-- The events in the entries from `i` on, up to `j`. -/
def entries (input : Input) (i j : ℕ) : List Event := (List.range' i (j - i)).map input.entry

theorem entries_self (i : ℕ) : input.entries i i = [] := by rw [entries, Nat.sub_self]; rfl

variable {i j : ℕ}

theorem entries_eq_cons (h : i < j) :
    input.entries i j = input.entry i :: input.entries (i + 1) j := by
  rw [entries, entries, show j - i = j - (i + 1) + 1 by omega, List.range'_succ, List.map_cons]

theorem entries_succ (h : i ≤ j) :
    input.entries i (j + 1) = input.entries i j ++ [input.entry j] := by
  rw [entries, entries,
    show j + 1 - i = j - i + 1 by omega, List.range'_concat, List.map_append, Nat.one_mul,
    show i + (j - i) = j by omega]
  rfl

theorem entries_congr (h : ∀ n < j, input.entry n = input'.entry n) :
    input.entries i j = input'.entries i j := by
  refine List.map_congr_left fun n hn ↦ h n ?_
  obtain ⟨hle, hlt⟩ := List.mem_range'_1.mp hn
  omega

end Input

namespace State

variable {s : State} {f : Frame} {state : LineState} {vector : BitVec 32}

/-! ## What each function does -/

variable (state vector) in
theorem entry_enqueue_of_lt {i : ℕ} (hroom : s.input.qindex < 32) (hi : i < s.input.qindex) :
    (s.enqueue state vector).input.entry i = s.input.entry i := by
  have hne : Fin.ofNat 32 i ≠ ⟨s.input.qindex, hroom⟩ := by
    intro heq
    have hval := congrArg Fin.val heq
    rw [Fin.val_ofNat] at hval
    dsimp only at hval
    omega
  rw [enqueue, dif_pos hroom]
  exact congrArg Event.unpack (Function.update_of_ne hne _ _)

variable (state) in
theorem entry_enqueue_self (hroom : s.input.qindex < 32) (hfits : Fits (s.input.resolve vector)) :
    (s.enqueue state vector).input.entry s.input.qindex = .new state (s.input.resolve vector) := by
  have heq : Fin.ofNat 32 s.input.qindex = ⟨s.input.qindex, hroom⟩ :=
    Fin.ext (mod_eq_of_lt hroom)
  rw [enqueue, dif_pos hroom, Input.entry, heq]
  dsimp only
  rw [Function.update_self]
  exact Event.unpack_pack hfits

variable (state) in
/-- An event is enqueued behind the others. -/
theorem entries_enqueue (hroom : s.input.qindex < 32)
    (hfits : Fits (s.input.resolve vector)) {i : ℕ} (hi : i ≤ s.input.qindex) :
    (s.enqueue state vector).input.entries i (s.input.qindex + 1) =
      s.input.entries i s.input.qindex ++ [.new state (s.input.resolve vector)] := by
  rw [Input.entries_succ hi, entry_enqueue_self state hroom hfits,
    Input.entries_congr fun n hn ↦ entry_enqueue_of_lt state vector hroom hn]

variable (state vector) in
theorem enqueue_eq (hroom : s.input.qindex < 32) : ∃ queue,
    s.enqueue state vector = { s with
      input := { s.input with queue, qindex := s.input.qindex + 1 }
      timers := if s.input.qindex = 0 then s.timers + 1 else s.timers } := by
  rw [enqueue, dif_pos hroom]
  exact ⟨_, rfl⟩

theorem enqueue_setRequested (requested : List Event) :
    { s with requested }.enqueue state vector = { s.enqueue state vector with requested } := by
  rw [enqueue, enqueue]
  by_cases hroom : s.input.qindex < 32
  · rw [dif_pos hroom, dif_pos hroom]
  · rw [dif_neg hroom, dif_neg hroom]

/-- The next event is delivered, and nothing else becomes of the queue. -/
theorem deliver_eq (f : Frame) (s : State) : ∃ curstate curvector nextsuspend calls resetting,
    s.deliver f = { s with
      input := { s.input with curstate, curvector }
      nextsuspend
      stack := { f with resetting } :: s.stack
      calls
      delivered := s.delivered ++ [s.input.entry f.curevent] } :=
  ⟨_, _, _, _, _, rfl⟩

/-! ## The invariant -/

/-- The event of a request that waits for `empty_event_queue`. -/
def waiting (s : State) (f : Frame) : List Event :=
  f.caller.toList.map fun c ↦ .new c.1 (s.input.resolve c.2)

/-- The events that are still to be delivered. -/
def pending (s : State) : List Event :=
  match s.stack with
  | [] => s.input.entries 0 s.input.qindex
  | f :: _ => s.input.entries (f.curevent + 1) s.input.qindex ++ s.waiting f

/-- A call of `empty_event_queue` in progress. -/
structure InProgress (s : State) (f : Frame) : Prop where
  curevent_lt : f.curevent < s.input.qindex
  /-- A request waits only if the queue is full. -/
  full : ∀ c ∈ f.caller, s.input.qindex = 32
  fits : ∀ c ∈ f.caller, Fits (s.input.resolve c.2)

structure Invariant (s : State) : Prop where
  qindex_le : s.input.qindex ≤ 32
  /-- Calls do not nest. -/
  stack : s.stack = [] ∨ ∃ f, s.stack = [f] ∧ InProgress s f
  requested : s.requested = s.delivered ++ s.pending
  /-- A timer will fire if the queue is not empty. -/
  scheduled : s.stack = [] → 0 < s.input.qindex → 0 < s.timers

theorem invariant_start (linenum : ℕ) (defaultIrqVector : BitVec 32) :
    Invariant (start linenum defaultIrqVector) where
  qindex_le := Nat.zero_le _
  stack := .inl rfl
  requested := rfl
  scheduled _ h := absurd h (Nat.lt_irrefl 0)

/-- The loop goes on at an event of the queue, or the call ends. -/
theorem Invariant.loop (hqindex : s.input.qindex ≤ 32) (hstack : s.stack = [])
    (hcurevent : f.curevent ≤ s.input.qindex) (hfull : ∀ c ∈ f.caller, s.input.qindex = 32)
    (hfits : ∀ c ∈ f.caller, Fits (s.input.resolve c.2)) (hrequested : s.requested =
      s.delivered ++ (s.input.entries f.curevent s.input.qindex ++ s.waiting f)) : Invariant
      (s.loop f) := by
  rw [State.loop]
  by_cases hlt : f.curevent < s.input.qindex
  · rw [if_pos hlt]
    obtain ⟨curstate, curvector, nextsuspend, calls, resetting, heq⟩ := deliver_eq f s
    rw [Input.entries_eq_cons hlt] at hrequested
    rw [heq, hstack]
    refine ⟨hqindex, .inr ⟨_, rfl, hlt, hfull, hfits⟩, ?_, fun h ↦ (by cases h)⟩
    rw [hrequested, List.cons_append, ← List.singleton_append, ← List.append_assoc]
    rfl
  rw [if_neg hlt, finish]
  have heq : f.curevent = s.input.qindex := by omega
  rw [heq, Input.entries_self, List.nil_append] at hrequested
  cases hcaller : f.caller with
  | none =>
    rw [waiting, hcaller] at hrequested
    exact ⟨Nat.zero_le _, .inl hstack, by rw [pending, hstack]; exact hrequested,
      fun _ h ↦ absurd h (Nat.lt_irrefl 0)⟩
  | some c =>
    obtain ⟨state, vector⟩ := c
    rw [waiting, hcaller] at hrequested
    have hfits' := hfits (state, vector) (hcaller ▸ rfl)
    dsimp only
    have hentries := entries_enqueue (s := { s with input := { s.input with qindex := 0 } }) state
      (show 0 < 32 by omega) hfits' (Nat.le_refl 0)
    obtain ⟨queue, henqueue⟩ := enqueue_eq (s := { s with input := { s.input with qindex := 0 } })
      state vector (show 0 < 32 by omega)
    rw [henqueue] at hentries ⊢
    refine ⟨show 1 ≤ 32 by omega, .inl hstack, ?_, fun _ _ ↦ succ_pos _⟩
    rw [pending, hstack]
    exact hrequested.trans (congrArg _ hentries.symm)

variable (state) in
theorem Invariant.enqueue (h : Invariant s) (hroom : s.input.qindex < 32)
    (hfits : Fits (s.input.resolve vector)) :
    Invariant { s.enqueue state vector with
      requested := s.requested ++ [.new state (s.input.resolve vector)] } := by
  have hentries : ∀ {i}, i ≤ s.input.qindex → _ := fun hi ↦ entries_enqueue state hroom hfits hi
  obtain ⟨queue, henqueue⟩ := enqueue_eq state vector hroom
  rw [henqueue] at hentries ⊢
  have hpending : State.pending { s with
        input := { s.input with queue, qindex := s.input.qindex + 1 }
        timers := if s.input.qindex = 0 then s.timers + 1 else s.timers
        requested := s.requested ++ [.new state (s.input.resolve vector)] } =
      s.pending ++ [.new state (s.input.resolve vector)] := by
    rcases h.stack with hstack | ⟨f, hstack, hf⟩
    · rw [pending, pending, hstack]
      exact hentries (Nat.zero_le _)
    · have hcaller : f.caller = none := by
        cases hcaller : f.caller with
        | none => rfl
        | some c =>
          have hfull := hf.full c hcaller
          omega
      rw [pending, pending, hstack]
      dsimp only [waiting]
      rw [hcaller, hentries hf.curevent_lt]
      simp
  refine ⟨hroom, ?_, ?_, fun hstack _ ↦ ?_⟩
  · rcases h.stack with hstack | ⟨f, hstack, hf⟩
    · exact .inl hstack
    · refine .inr ⟨f, hstack, lt_succ_of_lt hf.curevent_lt, fun c hc ↦ ?_, hf.fits⟩
      have hfull := hf.full c hc
      omega
  · rw [hpending, ← List.append_assoc, ← h.requested]
  · by_cases hempty : s.input.qindex = 0
    · rw [if_pos hempty]
      exact succ_pos _
    · rw [if_neg hempty]
      exact h.scheduled hstack (Nat.pos_of_ne_zero hempty)

theorem Invariant.setStateSynced (h : Invariant s) (hroom : s.stack ≠ [] → s.input.qindex < 32)
    (hfits : Fits (s.input.resolve vector)) : Invariant (s.setStateSynced state vector) := by
  rw [State.setStateSynced]
  by_cases hfull : 32 ≤ s.input.qindex
  · have hstack : s.stack = [] := by
      by_contra hne
      have hlt := hroom hne
      omega
    have heq : s.input.qindex = 32 := Nat.le_antisymm h.qindex_le hfull
    rw [if_pos hfull]
    refine .loop h.qindex_le hstack (Nat.zero_le _) (fun _ _ ↦ heq) (fun c hc ↦ ?_) ?_
    · rw [← Option.some.inj hc]
      exact hfits
    · have hrequested := h.requested
      rw [pending, hstack] at hrequested
      rw [hrequested, List.append_assoc]
      rfl
  · rw [if_neg hfull]
    have henqueue := h.enqueue state (by omega) hfits
    rw [← enqueue_setRequested] at henqueue
    exact henqueue

theorem Invariant.callbackReturns (h : Invariant s) : Invariant s.callbackReturns := by
  rw [State.callbackReturns]
  rcases h.stack with hstack | ⟨f, hstack, hf⟩
  · rw [hstack]
    exact h
  have hrequested := h.requested
  rw [pending, hstack] at hrequested
  rw [hstack]
  exact .loop h.qindex_le rfl hf.curevent_lt hf.full hf.fits hrequested

theorem Invariant.timer (h : Invariant s) : Invariant s.timer := by
  rw [State.timer]
  by_cases hfires : s.stack = [] ∧ 0 < s.timers
  · rw [if_pos hfires]
    have hrequested := h.requested
    rw [pending, hfires.1] at hrequested
    refine .loop h.qindex_le hfires.1 (Nat.zero_le _) (fun _ hc ↦ (by cases hc))
      (fun _ hc ↦ (by cases hc)) ?_
    exact hrequested.trans (congrArg _ (List.append_nil _).symm)
  · rw [if_neg hfires]
    exact h

theorem Invariant.setVector (h : Invariant s) (hstored : ∀ f ∈ s.stack,
    ∀ c ∈ f.caller, c.2 = useStoredVector → vector = s.input.storedVector) :
    Invariant { s with input := { s.input with storedVector := vector } } := by
  have hresolve : ∀ f ∈ s.stack, ∀ c ∈ f.caller,
      Input.resolve { s.input with storedVector := vector } c.2 = s.input.resolve c.2 := by
    intro f hf c hc
    rw [Input.resolve, Input.resolve]
    by_cases huse : c.2 = useStoredVector
    · rw [if_pos huse, if_pos huse, ← hstored f hf c hc huse]
    · rw [if_neg huse, if_neg huse]
  refine ⟨h.qindex_le, ?_, ?_, h.scheduled⟩
  · rcases h.stack with hstack | ⟨f, hstack, hf⟩
    · exact .inl hstack
    · refine .inr ⟨f, hstack, hf.curevent_lt, hf.full, fun c hc ↦ ?_⟩
      rw [hresolve f (hstack ▸ List.mem_singleton_self f) c hc]
      exact hf.fits c hc
  · refine h.requested.trans (congrArg _ ?_)
    rcases h.stack with hstack | ⟨f, hstack, -⟩
    · rw [pending, pending, hstack]
      rfl
    · rw [pending, pending, hstack]
      refine congrArg _ (List.map_congr_left fun c hc ↦ congrArg (Event.new c.1) ?_)
      exact (hresolve f (hstack ▸ List.mem_singleton_self f) c (Option.mem_toList.mp hc)).symm

/-- The invariant says nothing about the current state of the line and the suspend reasons. -/
theorem Invariant.other (h : Invariant s) (curstate : BitVec 8) (nextsuspend : BitVec 32) :
    Invariant { s with input := { s.input with curstate }, nextsuspend } := by
  refine ⟨h.qindex_le, ?_, h.requested, h.scheduled⟩
  rcases h.stack with hstack | ⟨f, hstack, hf⟩
  · exact .inl hstack
  · exact .inr ⟨f, hstack, hf.curevent_lt, hf.full, hf.fits⟩

theorem Invariant.step (h : Invariant s) (e : Step) (hallowed : Allowed s e) :
    Invariant (s.step e) := by
  cases e with
  | setStateSynced state vector => exact h.setStateSynced hallowed.1 hallowed.2
  | setVector vector => exact h.setVector hallowed
  | acknowledge => exact h.other 0 s.nextsuspend
  | suspend nextsuspend => exact h.other s.input.curstate nextsuspend
  | callbackReturns => exact h.callbackReturns
  | timer => exact h.timer

/-! ## Delivery -/

theorem requested_enqueue : (s.enqueue state vector).requested = s.requested := by
  rw [enqueue]
  by_cases hroom : s.input.qindex < 32
  · rw [dif_pos hroom]
  · rw [dif_neg hroom]

theorem requested_loop : (s.loop f).requested = s.requested := by
  rw [loop]
  by_cases hlt : f.curevent < s.input.qindex
  · rw [if_pos hlt]
    rfl
  · rw [if_neg hlt, finish]
    cases f.caller with
    | none => rfl
    | some c => exact requested_enqueue

theorem requested_pass (s : State) : s.pass.requested = s.requested := by
  rw [pass]
  by_cases hstack : s.stack = []
  · rw [if_pos hstack, timer]
    by_cases hfires : s.stack = [] ∧ 0 < s.timers
    · rw [if_pos hfires]
      exact requested_loop
    · rw [if_neg hfires]
  · rw [if_neg hstack, callbackReturns]
    cases h : s.stack with
    | nil => exact absurd h hstack
    | cons f stack => exact requested_loop

theorem Invariant.pass (h : Invariant s) : Invariant s.pass := by
  rw [State.pass]
  by_cases hstack : s.stack = []
  · rw [if_pos hstack]
    exact h.timer
  · rw [if_neg hstack]
    exact h.callbackReturns

/-- What is left to do: a timer stands for a call of `empty_event_queue`, with up to 32 events. -/
def work (s : State) : ℕ :=
  match s.stack with
  | [] => 34 * s.timers
  | f :: _ => 34 * (s.timers + f.caller.toList.length) + (s.input.qindex - f.curevent) + 1

/-- The loop leaves less to do than there was at its event. -/
theorem work_loop (hstack : s.stack = []) : (s.loop f).work ≤
    34 * (s.timers + f.caller.toList.length) + (s.input.qindex - f.curevent) + 1 := by
  rw [loop]
  by_cases hlt : f.curevent < s.input.qindex
  · rw [if_pos hlt]
    obtain ⟨curstate, curvector, nextsuspend, calls, resetting, heq⟩ := deliver_eq f s
    refine Nat.le_of_eq ?_
    rw [heq, work]
  rw [if_neg hlt, finish]
  cases hcaller : f.caller with
  | none =>
    have hwork : State.work { s with input := { s.input with qindex := 0 } } = 34 * s.timers := by
      rw [work, hstack]
    refine Nat.le_trans (Nat.le_of_eq hwork) ?_
    omega
  | some c =>
    obtain ⟨queue, henqueue⟩ := enqueue_eq (s := { s with input := { s.input with qindex := 0 } })
      c.1 c.2 (show 0 < 32 by omega)
    have hwork : (State.enqueue c.1 c.2 { s with input := { s.input with qindex := 0 } }).work =
        34 * (s.timers + 1) := by
      rw [henqueue, work, hstack]
      rfl
    rw [hwork]
    dsimp only [Option.toList, List.length]
    omega

theorem work_pass (h : Invariant s) (hbusy : s.stack ≠ [] ∨ 0 < s.timers) :
    s.pass.work < s.work := by
  rw [State.pass]
  rcases h.stack with hstack | ⟨f, hstack, hf⟩
  · have hfires : s.stack = [] ∧ 0 < s.timers := ⟨hstack, hbusy.resolve_left fun hne ↦ hne hstack⟩
    rw [if_pos hstack, State.timer, if_pos hfires]
    have hloop := work_loop (s := { s with timers := s.timers - 1 }) (f := ⟨0, none, false⟩) hstack
    have hwork : s.work = 34 * s.timers := by rw [work, hstack]
    have hqindex := h.qindex_le
    dsimp only [Option.toList, List.length] at hloop
    omega
  · rw [if_neg (by rw [hstack]; exact List.cons_ne_nil f []), State.callbackReturns]
    have hwork : s.work =
        34 * (s.timers + f.caller.toList.length) + (s.input.qindex - f.curevent) + 1 := by
      rw [work, hstack]
    have hlt := hf.curevent_lt
    rw [hwork, hstack]
    refine Nat.lt_of_le_of_lt (work_loop rfl) ?_
    dsimp only
    omega

/-- When the callbacks have returned and the timers have fired, the requests are delivered. The
induction is on what is left to do. -/
theorem Invariant.settles (h : Invariant s) :
    ∃ n, (State.pass^[n] s).stack = [] ∧ (State.pass^[n] s).timers = 0 ∧
      (State.pass^[n] s).delivered = s.requested := by
  induction hwork : s.work using Nat.strongRecOn generalizing s with | ind work ih => ?_
  by_cases hbusy : s.stack ≠ [] ∨ 0 < s.timers
  · obtain ⟨n, hstack, htimers, hdelivered⟩ := ih _ (hwork ▸ work_pass h hbusy) h.pass rfl
    exact ⟨n + 1, hstack, htimers, hdelivered.trans (requested_pass s)⟩
  · have hidle : s.stack = [] ∧ s.timers = 0 := by
      rw [not_or, not_not] at hbusy
      exact ⟨hbusy.1, Nat.eq_zero_of_not_pos hbusy.2⟩
    have hempty : s.input.qindex = 0 := by
      by_contra hne
      have hpos := h.scheduled hidle.1 (Nat.pos_of_ne_zero hne)
      omega
    have hrequested := h.requested
    rw [pending, hidle.1] at hrequested
    rw [hempty, Input.entries_self, List.append_nil] at hrequested
    exact ⟨0, hidle.1, hidle.2, hrequested.symm⟩

theorem Invariant.inOrder (h : Invariant s) : InOrder s :=
  ⟨h.requested ▸ List.prefix_append _ _, h.settles⟩

end State

open State

/-- **Input-line events.** In a run whose steps are all allowed, every request is delivered once and
in order: the delivered events are always the first of the requested ones, and when the callbacks
have returned and the timers have fired, they are all of them. -/
theorem always_inOrder (linenum : ℕ) (defaultIrqVector : BitVec 32) (es : List Step)
    (h : Run.Meets State.step Allowed (start linenum defaultIrqVector) es) :
    Run.Always State.step InOrder (start linenum defaultIrqVector) es :=
  (Run.always_of_meets (fun _ e hinv hallowed ↦ hinv.step e hallowed)
    (invariant_start linenum defaultIrqVector) h).imp fun _ hinv ↦ hinv.inOrder

/-- The thirty-third request flushes the full queue, and a callback makes another request. -/
theorem always_inOrder_nested :
    Run.Always State.step InOrder (start 1 0)
      (List.replicate 33 (.setStateSynced .clear useStoredVector) ++
      List.replicate 32 .callbackReturns ++
        [.timer, .setStateSynced .assert 7, .callbackReturns, .callbackReturns]) :=
  always_inOrder 1 0 _ (by decide +kernel)

/-- The queue is full when the timer fires, and the first callback makes a request. -/
def overflow : List Step :=
  .setStateSynced .assert useStoredVector ::
    (List.replicate 31 (.setStateSynced .clear useStoredVector) ++
      [.timer, .setStateSynced .hold useStoredVector])

/-- The first event is delivered twice; and when all callbacks have returned and the timers have
fired, the last one has not been delivered. -/
theorem not_inOrder_overflow :
    (Run.run State.step (start 1 0) overflow).delivered = [.new .assert 0, .new .assert 0] ∧
      (Run.run State.step (start 1 0)
      (overflow ++ List.replicate 33 .callbackReturns ++ [.timer])).stack = [] ∧ Event.new .hold 0 ∉
        (Run.run State.step (start 1 0)
        (overflow ++ List.replicate 33 .callbackReturns ++ [.timer])).delivered ∧
      ¬ InOrder (Run.run State.step (start 1 0) overflow) := by
  refine ⟨by decide +kernel, by decide +kernel, by decide +kernel, fun h ↦ ?_⟩
  exact absurd h.1 (by decide +kernel)

end RoscoEmulator.DeviceInput
