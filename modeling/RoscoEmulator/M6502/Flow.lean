import RoscoEmulator.M6502.Interrupts
import RoscoEmulator.M6502.PlainRam

/-!
# The flow of a program

A run of the W65C02S from a reset, in any time slices and with any changes of IRQ and NMI between
its cycles, as the list of the instructions that it executes. `Flows` is what BRK, interrupts and
RTI owe to the program. `flows_iff` says that they pay it if and only if no BRK pushes its status
while an NMI waits. -/

namespace RoscoEmulator.M6502

open List

variable {B : Type*} [Bus B]

/-! ## Runs -/

/-- An instruction that has been executed. -/
structure Step where
  /-- `m_inst_state` -/
  state : InstState
  before : Regs
  events : List Event
  after : Regs

/-- The registers and lines behind `device_reset`. -/
def Regs.deviceReset (r : Regs) : Regs :=
  { r with nmiPending := false, irqTaken := false, sync := false, inhibitInterrupts := false }

namespace Running

/-- `device_reset`. -/
def deviceReset (r : Running InstState (Machine B)) : Running InstState (Machine B) :=
  { r with instState := .reset, instSubstate := 0, core := r.core.onRegs Regs.deviceReset }

/-- What `execute_run` does in front of `do_exec_full`. -/
def next (r : Running InstState (Machine B)) : Running InstState (Machine B) :=
  if r.instState = .reset then r
  else { r with
    instState := .opcode r.core.regs.ir
    core := r.core.onRegs fun regs ↦ { regs with ppc := regs.npc } }

end Running

/-- An iteration of the loop in `execute_run`, which `do_exec_partial` may bring to its end in later
time slices. -/
def Dispatch.Iterates (d : Dispatch) (r : Running InstState (Machine B)) (s : Step)
    (r' : Running InstState (Machine B)) : Prop :=
  0 < r.icount ∧ ∃ (h : Handler) (fuel : ℕ) (slice : ℕ → Prop) (as : List Changes),
    d.handler r.next.instState = some h ∧ r.icount ≤ fuel ∧
      h.toOpcode.Executes Machine.pins (requests B) fuel slice r.next as r' ∧
      s.state = r.next.instState ∧ s.before = r.next.core.regs ∧
      r'.core.log = r.core.log ++ s.events ∧ s.after = r'.core.regs

/-- Instructions one after the other. -/
inductive Dispatch.Runs (d : Dispatch) :
    Running InstState (Machine B) → List Step → Running InstState (Machine B) → Prop
  | nil (r : Running InstState (Machine B)) : Runs d r [] r
  | cons {r r' r'' : Running InstState (Machine B)} {s : Step} {ss : List Step} :
      d.Iterates r s r' → Runs d r' ss r'' → Runs d r (s :: ss) r''

/-! ## What is owed to the program -/

namespace Event

def written : Event → Option (Word × Byte)
  | write addr v => some (addr, v)
  | _ => none

/-- A read that is neither of an opcode nor of what follows one. -/
def loaded : Event → Option (Word × Byte)
  | read .read addr v => some (addr, v)
  | _ => none

end Event

namespace Step

/-- BRK has been fetched, and no interrupt has been taken in its place. -/
def IsBrk (s : Step) : Prop := s.state = .opcode 0x00 ∧ s.before.irqTaken = false

def IsInterrupt (s : Step) : Prop := s.before.irqTaken = true

def IsRti (s : Step) : Prop := s.state = .opcode 0x40

/-- An entry into a handler: the address and the status are pushed, and it goes on at what is in the
vector. -/
def Enters (s : Step) (address : Word) (status : Byte) (vector : Word) : Prop :=
  ∃ d lo hi op : Byte, accesses s.events =
    [.read .readArg s.before.pc d, .write s.before.sp (highByte address),
      .write s.before.decSp.sp (lowByte address), .write s.before.decSp.decSp.sp status,
      .read .readArg vector lo, .read .readArg (vector + 1) hi, .read .readSync (hi ++ lo) op] ∧
    s.after.npc = hi ++ lo

/-- The address that an entry is to push. -/
def address (s : Step) : Word := if s.before.irqTaken then s.before.npc else s.before.npc + 2

/-- The bytes that are pushed, with their addresses. -/
def pushed (s : Step) : List (Word × Byte) := s.events.filterMap Event.written

/-- The bytes that are pulled, with their addresses. -/
def pulled (s : Step) : List (Word × Byte) := s.events.filterMap Event.loaded

/-- An NMI waits in front of an access of the instruction. -/
def NmiWaitsAt (s : Step) (k : ℕ) : Prop := nmiPendingAt k s.before s.events = true

instance (s : Step) (k : ℕ) : Decidable (s.NmiWaitsAt k) := inferInstanceAs (Decidable (_ = true))

theorem decide_nmiWaitsAt (s : Step) (k : ℕ) :
    decide (s.NmiWaitsAt k) = nmiPendingAt k s.before s.events :=
  Bool.decide_eq_true

end Step

/-- The flow of a program is not corrupted by its interrupts. -/
structure Flows (ss : List Step) : Prop where
  /-- BRK pushes its address plus 2 and the status with B, and goes on at the vector of IRQ. -/
  brk :
    ∀ s ∈ ss, s.IsBrk → s.before.has flagB = true ∧ s.Enters (s.before.npc + 2) s.before.p 0xfffe
  /-- An interrupt pushes the address of the instruction that has not been executed and the status
  without B, and goes on at the vector of NMI if an NMI waits when the vector is chosen. -/
  interrupt : ∀ s ∈ ss, s.IsInterrupt →
    s.Enters s.before.npc (s.before.p &&& ~~~flagB) (if s.NmiWaitsAt 4 then 0xfffa else 0xfffe)
  /-- RTI pulls what has been pushed and goes on there, with the status of before. -/
  rti : ∀ s ∈ ss, ∀ s' ∈ ss, s.IsBrk ∨ s.IsInterrupt → s'.IsRti → s'.pulled = s.pushed.reverse →
    s'.after.npc = s.address ∧ s'.after.p = s.before.p

/-! ## Single instructions -/

theorem tagged_ne_clear : ∀ v : Byte, Tagged v → v ≠ v &&& ~~~flagB := by
  decide

/-- The status that is pushed, with B or without, is the one that is pulled. -/
theorem tagged_or_tags : ∀ v : Byte, Tagged v →
    v ||| (flagB ||| flagE) = v ∧ (v &&& ~~~flagB) ||| (flagB ||| flagE) = v := by
  decide

theorem has_of_tagged {s : Alu} (h : Tagged s.p) : s.has flagB = true := by
  have hbit : ∀ v : Byte, Tagged v → (v &&& flagB != 0) = true := by decide
  exact hbit s.p h

section Events

variable (as : Changes) (es : List Event)

theorem filterMap_changes
    {f : Event → Option (Word × Byte)} (hf : ∀ line state, f (.input line state) = none) :
    (as.events ++ es).filterMap f = es.filterMap f := by
  induction as with
  | nil => rfl
  | cons a as ih => exact (filterMap_cons_none (hf _ _)).trans ih

@[simp] theorem written_changes :
    (as.events ++ es).filterMap Event.written = es.filterMap Event.written :=
  filterMap_changes as es fun _ _ ↦ rfl

@[simp] theorem loaded_changes :
    (as.events ++ es).filterMap Event.loaded = es.filterMap Event.loaded :=
  filterMap_changes as es fun _ _ ↦ rfl

theorem accesses_events : accesses as.events = [] := by
  have h := accesses_changes [] as
  rwa [append_nil] at h

theorem written_events : as.events.filterMap Event.written = [] := by
  have h := written_changes as []
  rwa [append_nil] at h

theorem loaded_events : as.events.filterMap Event.loaded = [] := by
  have h := loaded_changes as []
  rwa [append_nil] at h

end Events

section Entry

variable (r : Regs) (address : Word) (status : Byte) (vector : Word) (d lo hi op : Byte)
    (a : Fin 7 → Changes)

theorem accesses_entryEvents : accesses (entryEvents r address status vector d lo hi op a) =
    [.read .readArg r.pc d, .write r.sp (highByte address), .write r.decSp.sp (lowByte address),
      .write r.decSp.decSp.sp status, .read .readArg vector lo, .read .readArg (vector + 1) hi,
      .read .readSync (hi ++ lo) op] := by
  have hread : ∀ kind addr v es,
      accesses (.read kind addr v :: es) = .read kind addr v :: accesses es :=
    fun _ _ _ _ ↦ rfl
  have hwrite : ∀ addr v es, accesses (.write addr v :: es) = .write addr v :: accesses es :=
    fun _ _ _ ↦ rfl
  simp only [entryEvents, hread, hwrite, accesses_changes, accesses_events]

theorem written_entryEvents :
    (entryEvents r address status vector d lo hi op a).filterMap Event.written =
      [(r.sp, highByte address), (r.decSp.sp, lowByte address), (r.decSp.decSp.sp, status)] := by
  have hread : ∀ kind addr v es,
      (Event.read kind addr v :: es).filterMap Event.written = es.filterMap Event.written :=
    fun _ _ _ _ ↦ rfl
  have hwrite : ∀ addr v es, (Event.write addr v :: es).filterMap Event.written =
      (addr, v) :: es.filterMap Event.written := fun _ _ _ ↦ rfl
  simp only [entryEvents, hread, hwrite, written_changes, written_events]

theorem loaded_returnEvents (pc : Word) (d' : Byte) (a : Fin 6 → Changes) :
    (returnEvents r d status lo hi pc d' op a).filterMap Event.loaded =
      [(r.incSp.sp, status), (r.incSp.incSp.sp, lo), (r.incSp.incSp.incSp.sp, hi)] := by
  have harg : ∀ addr v es,
      (Event.read .readArg addr v :: es).filterMap Event.loaded = es.filterMap Event.loaded :=
    fun _ _ _ ↦ rfl
  have hsync : ∀ addr v es,
      (Event.read .readSync addr v :: es).filterMap Event.loaded = es.filterMap Event.loaded :=
    fun _ _ _ ↦ rfl
  have hread : ∀ addr v es, (Event.read .read addr v :: es).filterMap Event.loaded =
      (addr, v) :: es.filterMap Event.loaded := fun _ _ _ ↦ rfl
  simp only [returnEvents, harg, hsync, hread, loaded_changes, loaded_events]

end Entry

namespace Step

/-- What is known of every instruction of a run. -/
structure Facts (s : Step) : Prop where
  state : s.state = .reset ∨ s.state = .opcode s.before.ir
  tagged : Tagged s.before.p
  reset : s.state = .reset → s.before.irqTaken = false
  settled : s.state ≠ .reset → s.before.Settled
  brk : s.state = .opcode 0x00 → ∃ (address : Word) (status : Byte) (vector : Word)
      (d lo hi op : Byte) (a : Fin 7 → Changes),
      s.events = entryEvents s.before address status vector d lo hi op a ∧
      s.after.npc = hi ++ lo ∧ address =
        (if s.before.irqTaken || s.before.nmiPending then s.before.pc else s.before.pc + 1) ∧
      status =
        (if s.before.irqTaken || s.NmiWaitsAt 3 then s.before.p &&& ~~~flagB else s.before.p) ∧
      vector = (if s.before.irqTaken && s.NmiWaitsAt 4 then 0xfffa else 0xfffe)
  rti : s.state = .opcode 0x40 → ∃ (d status lo hi : Byte) (pc : Word) (d' op : Byte) (a : Fin 6 →
    Changes), s.events = returnEvents s.before d status lo hi pc d' op a ∧ s.after.npc = hi ++ lo ∧
      s.after.p = status ||| (flagB ||| flagE)

namespace Facts

variable {s s' : Step}

theorem state_of_interrupt (h : s.Facts) (hs : s.IsInterrupt) : s.state = .opcode 0x00 := by
  rcases h.state with hreset | hir
  · exact absurd ((h.reset hreset).symm.trans hs) Bool.false_ne_true
  · have hsettled := h.settled (by rw [hir]; exact InstState.noConfusion)
    rw [hir, (hsettled.taken hs).1]

/-- What `brk` makes of a state between two instructions. -/
theorem enters (h : s.Facts) (hs : s.state = .opcode 0x00) :
    ∃ (d lo hi op : Byte) (a : Fin 7 → Changes), s.events = entryEvents s.before s.address
      (if s.before.irqTaken || s.NmiWaitsAt 3 then s.before.p &&& ~~~flagB else s.before.p)
      (if s.before.irqTaken && s.NmiWaitsAt 4 then 0xfffa else 0xfffe) d lo hi op a ∧
      s.after.npc = hi ++ lo := by
  obtain ⟨address, status, vector, d, lo, hi, op, a, hevents, hnpc, haddress, rfl, rfl⟩ := h.brk hs
  have hsettled := h.settled (by rw [hs]; exact InstState.noConfusion)
  have h' : address = s.address := by
    rw [haddress, Step.address]
    cases htaken : s.before.irqTaken with
    | true => exact (hsettled.taken htaken).2
    | false =>
      obtain ⟨hpending, hpc⟩ := hsettled.fetched htaken
      rw [hpending, hpc]
      exact BitVec.add_assoc _ 1 1
  exact ⟨d, lo, hi, op, a, h' ▸ hevents, hnpc⟩

theorem enters_address (h : s.Facts) (hs : s.state = .opcode 0x00) : s.Enters s.address
    (if s.before.irqTaken || s.NmiWaitsAt 3 then s.before.p &&& ~~~flagB else s.before.p)
    (if s.before.irqTaken && s.NmiWaitsAt 4 then 0xfffa else 0xfffe) := by
  obtain ⟨d, lo, hi, op, a, hevents, hnpc⟩ := h.enters hs
  refine ⟨d, lo, hi, op, ?_, hnpc⟩
  rw [hevents, accesses_entryEvents]

theorem interrupt (h : s.Facts) (hs : s.IsInterrupt) : s.Enters s.before.npc
    (s.before.p &&& ~~~flagB) (if s.NmiWaitsAt 4 then 0xfffa else 0xfffe) := by
  have henters := h.enters_address (h.state_of_interrupt hs)
  have htaken : s.before.irqTaken = true := hs
  simpa only [Step.address, htaken, Bool.true_or, Bool.true_and, if_true,
    decide_eq_true_eq] using henters

theorem brk_iff (h : s.Facts) (hs : s.IsBrk) :
    s.Enters (s.before.npc + 2) s.before.p 0xfffe ↔ ¬ s.NmiWaitsAt 3 := by
  have henters := h.enters_address hs.1
  simp only [Step.address, hs.2, Bool.false_or, Bool.false_and, Bool.false_eq_true, if_false,
    decide_eq_true_eq] at henters
  constructor
  · rintro ⟨d, lo, hi, op, haccesses, -⟩ hwaits
    obtain ⟨d', lo', hi', op', haccesses', -⟩ := henters
    rw [if_pos hwaits, haccesses] at haccesses'
    -- the status that has been pushed is the one with B
    have hp : s.before.p = s.before.p &&& ~~~flagB := by
      simp only [List.cons.injEq, Event.write.injEq, true_and] at haccesses'
      exact haccesses'.2.1
    exact tagged_ne_clear _ h.tagged hp
  · intro hwaits
    rwa [if_neg hwaits] at henters

/-- The frame of an entry brings RTI back. -/
theorem rti_of_frame (h : s.Facts) (h' : s'.Facts) (hs : s.state = .opcode 0x00) (hs' : s'.IsRti)
    (hframe : s'.pulled = s.pushed.reverse) :
    s'.after.npc = s.address ∧ s'.after.p = s.before.p := by
  obtain ⟨d, lo, hi, op, a, hevents, -⟩ := h.enters hs
  obtain ⟨d', status, lo', hi', pc, d'', op', a', hevents', hnpc, hp⟩ := h'.rti hs'
  rw [Step.pulled, Step.pushed, hevents, hevents', written_entryEvents,
    loaded_returnEvents] at hframe
  simp only [reverse_cons, reverse_nil, nil_append, cons_append, List.cons.injEq, Prod.mk.injEq,
    and_true] at hframe
  obtain ⟨⟨-, rfl⟩, ⟨-, rfl⟩, -, rfl⟩ := hframe
  refine ⟨hnpc.trans (append_highByte_lowByte _), hp.trans ?_⟩
  split
  · exact (tagged_or_tags _ h.tagged).2
  · exact (tagged_or_tags _ h.tagged).1

end Facts

end Step

/-! ## Runs are made of such instructions -/

/-- Between two instructions. -/
structure Running.Ready (r : Running InstState (Machine B)) : Prop where
  instSubstate : r.instSubstate = 0
  prompt : r.core.Prompt
  tagged : Tagged r.core.regs.p
  inhibited : r.core.regs.inhibitInterrupts = false
  reset : r.instState = .reset → r.core.regs.irqTaken = false
  settled : r.instState ≠ .reset → r.core.regs.Settled

omit [Bus B] in
theorem Running.Ready.deviceReset {r : Running InstState (Machine B)} (hprompt : r.core.Prompt)
    (htagged : Tagged r.core.regs.p) : r.deviceReset.Ready :=
  ⟨rfl, ⟨hprompt.toBeRedone, hprompt.deferrals⟩, htagged, rfl, fun _ ↦ rfl, fun h ↦ absurd rfl h⟩

namespace Running

variable {r : Running InstState (Machine B)}

omit [Bus B]

theorem next_of_reset (h : r.instState = .reset) : r.next = r := if_pos h

theorem next_of_not_reset (h : r.instState ≠ .reset) : r.next =
    { r with
      instState := .opcode r.core.regs.ir
      core := r.core.onRegs fun regs ↦ { regs with ppc := regs.npc } } := if_neg h

theorem next_icount : r.next.icount = r.icount := by
  unfold next
  split <;> rfl

theorem next_log : r.next.core.log = r.core.log := by
  unfold next
  split <;> rfl

theorem next_state :
    r.next.instState = .reset ∨ r.next.instState = .opcode r.next.core.regs.ir := by
  unfold next
  split
  · next h => exact .inl h
  · exact .inr rfl

/-- Where an instruction begins. -/
theorem Ready.next (hr : r.Ready) : r.next.Ready := by
  by_cases h : r.instState = .reset
  · rwa [next_of_reset h]
  · rw [next_of_not_reset h]
    have hs := hr.settled h
    exact ⟨hr.instSubstate, ⟨hr.prompt.toBeRedone, hr.prompt.deferrals⟩, hr.tagged, hr.inhibited,
      fun h ↦ InstState.noConfusion h, fun _ ↦ ⟨hs.taken, hs.fetched⟩⟩

/-- The phase that an instruction begins in, and the one that its handler ends in. -/
theorem Ready.exists_check (hr : r.Ready)
    (hstate : r.instState = .reset ∨ r.instState = .opcode r.core.regs.ir)
    {h : Handler} (hh : w65c02s.handler r.instState = some h) :
    ∃ t t' : Stage, h.code.check t = some t' ∧ t'.phase = .settled ∧ t.Holds r.core.regs := by
  rcases hstate with hreset | hir
  · rw [hreset] at hh
    obtain rfl := Option.some.inj hh
    obtain ⟨t', ht', hphase⟩ := Option.map_eq_some_iff.mp check_reset
    exact ⟨_, t', ht', hphase, hr.tagged, hr.inhibited, fun hs ↦ absurd hs Bool.false_ne_true,
      hr.reset hreset⟩
  · rw [hir] at hh
    obtain rfl := Option.some.inj hh
    obtain ⟨t', ht', hphase⟩ := Option.map_eq_some_iff.mp (check_w65c02s r.core.regs.ir)
    refine ⟨_, t', ht', hphase, hr.tagged, hr.inhibited, fun hs ↦ absurd hs Bool.false_ne_true, ?_⟩
    have hsettled := hr.settled (by rw [hir]; exact InstState.noConfusion)
    rw [firstStage]
    split
    · trivial
    · next hne => exact Bool.eq_false_iff.mpr fun ht ↦ hne (hsettled.taken ht).1

end Running

theorem handler_brk : w65c02s.handler (.opcode 0x00) = some Ow65c02s.brkSImp := rfl

theorem handler_rti : w65c02s.handler (.opcode 0x40) = some Ow65c02s.rtiSImp := rfl

variable {r : Running InstState (Machine B)} {q : InstState} {m : Machine B}

/-- No instruction ends in the state of a reset. -/
theorem next_ne_reset {h : Handler} (hh : w65c02s.handler q = some h) :
    (h.toOpcode (B := B)).next.getD q ≠ .reset := by
  intro hreset
  cases hends : h.ends with
  | true => simp [Handler.toOpcode, hends] at hreset
  | false =>
    obtain rfl : q = .reset := by simpa [Handler.toOpcode, hends] using hreset
    obtain rfl := Option.some.inj hh
    exact absurd hends Bool.noConfusion

/-- An iteration keeps what is known between two instructions. -/
theorem Dispatch.Iterates.facts {r' : Running InstState (Machine B)} {s : Step} (hr : r.Ready)
    (h : w65c02s.Iterates r s r') : s.Facts ∧ r'.Ready := by
  obtain ⟨hpos, h, fuel, slice, as, hh, hfuel, hexecutes, hstate, hbefore, hlog, hafter⟩ := h
  have hnext := hr.next
  obtain ⟨t, t', hcheck, hphase, hholds⟩ := hnext.exists_check Running.next_state hh
  -- the instruction as a run of its lines
  obtain ⟨i, hi⟩ : ∃ i : ℕ, r.icount = i := ⟨r.icount.toNat, (Int.toNat_of_nonneg hpos.le).symm⟩
  have hstart : r.next = ⟨r.next.instState, r.next.core, (i : ℤ), 0⟩ := by
    rw [← hi, ← Running.next_icount, ← hnext.instSubstate]
  rw [hstart] at hexecutes
  obtain ⟨m', j, -, rfl, bs, -, hevals⟩ := Opcode.evals_of_executes (by omega) (by omega) hexecutes
  obtain ⟨hprompt', hholds'⟩ := Code.check_sound hcheck hnext.prompt hholds hevals
  have hsettled' : m'.regs.Settled := by
    have h := hholds'.phase
    rwa [hphase] at h
  have events_eq : ∀ {es : List Event}, m'.log = r.next.core.log ++ es → s.events = es := by
    intro es hes
    rw [Running.next_log] at hes
    exact append_cancel_left (hlog.symm.trans hes)
  refine ⟨⟨?_, ?_, ?_, ?_, ?_, ?_⟩, rfl, hprompt', hholds'.tagged, hholds'.inhibited, ?_,
    fun _ ↦ hsettled'⟩
  · rw [hstate, hbefore]
    exact Running.next_state
  · rw [hbefore]
    exact hnext.tagged
  · rw [hstate, hbefore]
    exact hnext.reset
  · rw [hstate, hbefore]
    exact hnext.settled
  · intro hs
    rw [← hstate, hs] at hh
    obtain rfl := Option.some.inj (hh.symm.trans handler_brk)
    obtain ⟨address, status, vector, d, lo, hi, op, a, es, -, rfl, hprogress, hnpc, haddress,
        hstatus, hvector⟩ :=
      of_evals_brk hnext.prompt hevals
    have hevents := events_eq hprogress.log
    refine ⟨address, status, vector, d, lo, hi, op, a, ?_, hafter ▸ hnpc, ?_, ?_, ?_⟩
    · rw [hevents, hbefore]
    · rw [haddress, hbefore]
    · rw [hstatus, Step.decide_nmiWaitsAt, hevents, hbefore]
    · rw [hvector, Step.decide_nmiWaitsAt, hevents, hbefore]
  · intro hs
    rw [← hstate, hs] at hh
    obtain rfl := Option.some.inj (hh.symm.trans handler_rti)
    obtain ⟨d, status, lo, hi, pc, d', op, a, hprogress, hnpc, hp⟩ :=
      of_evals_rti hnext.prompt hevals
    refine ⟨d, status, lo, hi, pc, d', op, a, ?_, hafter ▸ hnpc, hafter ▸ hp⟩
    rw [events_eq hprogress.log, hbefore]
  · intro hreset
    exact absurd hreset (next_ne_reset hh)

theorem Dispatch.Runs.facts {r' : Running InstState (Machine B)} {ss : List Step} (hr : r.Ready)
    (h : w65c02s.Runs r ss r') : ∀ s ∈ ss, s.Facts := by
  induction h with
  | nil r => exact fun s hs ↦ absurd hs not_mem_nil
  | cons hstep _ ih =>
    obtain ⟨hfacts, hr'⟩ := hstep.facts hr
    intro s hs
    rcases List.mem_cons.mp hs with rfl | hs
    · exact hfacts
    · exact ih hr' s hs

/-! ## Every timing -/

omit [Bus B] in
theorem evals_access {type : LineType} {target : Target}
    {make : Machine B → Machine B} (hm : m.Prompt) (hmake : (make m).Prompt) (a : Changes) :
    Accesses Machine.pins (requests B) false q type (fun _ ↦ Machine.deferrable target make) m [a]
      ((requests B).change a (make m)) := by
  have hready : ¬ Block.Waits Machine.pins false type m := fun h ↦ Bool.false_ne_true h.1
  have hline : m.deferrable target make = make m := hm.deferrable target make
  have hdone : (m.deferrable target make).toBeRedone = false := hline ▸ hmake.toBeRedone
  have h : Accesses Machine.pins (requests B) false q type (fun _ ↦ Machine.deferrable target make)
      m [a] ((requests B).change a (m.deferrable target make)) := .done a hready hdone
  rwa [hline] at h

/-- Lines without loops come to their end under every timing of the requests. -/
theorem exists_evals_supply {c : Code} (hc : c.loopFree = true) (hm : m.Prompt)
    (supply : ℕ → Changes) : ∃ (n : ℕ) (m' : Machine B),
      c.toBlock.Evals Machine.pins (requests B) false q m ((range n).map supply) m' ∧
      m'.Prompt := by
  induction c generalizing m supply with
  | nop => exact ⟨0, m, ⟨rfl, rfl⟩, hm⟩
  | line l => exact ⟨0, _, ⟨rfl, rfl⟩, hm.toBeRedone, hm.deferrals⟩
  | read kind addr target =>
    have hmade : (m.makeRead kind addr target).Prompt := ⟨hm.toBeRedone, hm.deferrals⟩
    exact ⟨1, _, evals_access hm hmade (supply 0), hmade.change (supply 0)⟩
  | write addr data =>
    have hmade : (m.makeWrite addr data).Prompt := ⟨hm.toBeRedone, hm.deferrals⟩
    exact ⟨1, _, evals_access hm hmade (supply 0), hmade.change (supply 0)⟩
  | seq a b iha ihb =>
    obtain ⟨ha, hb⟩ := Bool.and_eq_true_iff.mp hc
    obtain ⟨n₁, m₁, h₁, hm₁⟩ := iha ha hm supply
    obtain ⟨n₂, m₂, h₂, hm₂⟩ := ihb hb hm₁ fun k ↦ supply (n₁ + k)
    refine ⟨n₁ + n₂, m₂, ⟨_, _, m₁, ?_, h₁, h₂⟩, hm₂⟩
    rw [range_add, map_append, map_map]
    rfl
  | ite k a b iha ihb =>
    obtain ⟨ha, hb⟩ := Bool.and_eq_true_iff.mp hc
    by_cases hk : k.eval q m.regs = true
    · obtain ⟨n, m', h, hm'⟩ := iha ha hm supply
      exact ⟨n, m', by rwa [Code.toBlock, Block.Evals, if_pos hk], hm'⟩
    · obtain ⟨n, m', h, hm'⟩ := ihb hb hm supply
      exact ⟨n, m', by rwa [Code.toBlock, Block.Evals, if_neg hk], hm'⟩
  | eatWhile k => cases hc
  | eatForever => cases hc

/-- In time slices of one cycle an instruction is an iteration. -/
theorem iterates_of_evals {m' : Machine B} {h : Handler} {as : List Changes} {es : List Event}
    (hnext : r.next = ⟨q, m, (1 : ℕ), 0⟩) (hh : w65c02s.handler q = some h)
    (hevals : h.code.toBlock.Evals Machine.pins (requests B) h.device.rdyGated q m as m')
    (hlog : m'.log = m.log ++ es) : w65c02s.Iterates r ⟨q, m.regs, es, m'.regs⟩
    ⟨(h.toOpcode (B := B)).next.getD q, m', (1 : ℕ), 0⟩ := by
  have hicount : r.icount = (1 : ℕ) :=
    Running.next_icount.symm.trans (congrArg Running.icount hnext)
  have hm : m.log = r.core.log := (congrArg (fun r ↦ r.core.log) hnext).symm.trans Running.next_log
  rw [hm] at hlog
  refine ⟨hicount ▸ Int.one_pos, h, 1, (· = 1), as, ?_, hicount.le, ?_, ?_, ?_, hlog, rfl⟩
  · rwa [hnext]
  · rw [hnext]
    exact Opcode.executes_of_evals one_pos hevals
  · rw [hnext]
  · rw [hnext]

/-- In front of a run through RAM that is full of BRK. -/
def fullOfBrk : Running InstState (Machine Ram) where
  instState := .reset
  core := ⟨Regs.init, ⟨fun _ ↦ 0x00, []⟩, [], false, []⟩
  icount := (1 : ℕ)
  instSubstate := 0

theorem fullOfBrk_prompt : fullOfBrk.core.Prompt := ⟨rfl, rfl⟩

theorem fullOfBrk_tagged : Tagged fullOfBrk.core.regs.p := by
  decide

/-- The NMI line is set behind the first cycle of an instruction. -/
def nmiBehindFirst (nmi : Bool) : ℕ → Changes
  | 0 => [(.nmi, nmi)]
  | _ => []

/-- A BRK behind whose first cycle the NMI line is asserted pushes its status while the NMI
waits. -/
theorem exists_iterates_brk (nmi : Bool) (hnext : r.next = ⟨.opcode 0x00, m, (1 : ℕ), 0⟩)
    (hm : m.Prompt) (htaken : m.regs.irqTaken = false) (hnmi : m.regs.nmiState = false)
    (hpending : m.regs.nmiPending = false) : ∃ (s : Step) (r' : Running InstState (Machine B)),
      w65c02s.Iterates r s r' ∧ s.IsBrk ∧ (s.NmiWaitsAt 3 ↔ nmi = true) := by
  obtain ⟨n, m', hevals, -⟩ := exists_evals_supply (q := .opcode 0x00) (m := m)
    (c := Ow65c02s.brkSImp.code) rfl hm (nmiBehindFirst nmi)
  obtain ⟨address, status, vector, d, lo, hi, op, a, es, has, hes, hprogress, -⟩ :=
    of_evals_brk hm hevals
  refine ⟨_, _, iterates_of_evals hnext handler_brk hevals hprogress.log, ⟨rfl, htaken⟩, ?_⟩
  -- the changes are those of the supply
  have hn : n = 7 := by simpa using congrArg List.length has
  subst hn
  have hsupply : ((range 7).map (nmiBehindFirst nmi) : List Changes) =
      [[(.nmi, nmi)], [], [], [], [], [], []] := rfl
  simp only [hsupply, List.cons.injEq] at has
  obtain ⟨h₀, h₁, h₂, -⟩ := has
  show nmiPendingAt 3 m.regs es = true ↔ nmi = true
  rw [hes, nmiPendingAt, entryEvents, ← h₀, ← h₁, ← h₂]
  simp [Changes.events, Request.event, Request.line, beforeAccess, hearNmi, Regs.nmi,
    hnmi, hpending]

/-- The reset, and a BRK. -/
theorem exists_runs_fullOfBrk (nmi : Bool) :
    ∃ (ss : List Step) (r' : Running InstState (Machine Ram)),
      w65c02s.Runs fullOfBrk.deviceReset ss r' ∧ (∃ s ∈ ss, s.IsBrk) ∧
      ∀ s ∈ ss, s.IsBrk → (s.NmiWaitsAt 3 ↔ nmi = true) := by
  obtain ⟨m₁, es, hexec, hlog, hprompt, hir, htaken, hnmi, hpending⟩ : ∃ m₁ es,
      Ow65c02s.resetS.exec .reset fullOfBrk.deviceReset.core = some m₁ ∧
        m₁.log = fullOfBrk.deviceReset.core.log ++ es ∧ m₁.Prompt ∧ m₁.regs.ir = 0x00 ∧
        m₁.regs.irqTaken = false ∧ m₁.regs.nmiState = false ∧ m₁.regs.nmiPending = false :=
    ⟨_, _, rfl, rfl, ⟨rfl, rfl⟩, rfl, rfl, rfl, rfl⟩
  obtain ⟨as, hevals⟩ := exists_evals (requests Ram) rfl hexec
  have hreset := iterates_of_evals (r := fullOfBrk.deviceReset) rfl rfl hevals hlog
  -- the opcode that the reset has fetched is executed next
  obtain ⟨s, r', hiterates, hbrk, hwaits⟩ := exists_iterates_brk nmi
    (r := ⟨.none, m₁, (1 : ℕ), 0⟩) (m := m₁.onRegs fun regs ↦ { regs with ppc := regs.npc })
    (by rw [Running.next_of_not_reset InstState.noConfusion]; exact hir ▸ rfl) ⟨hprompt.toBeRedone,
    hprompt.deferrals⟩ htaken hnmi hpending
  refine ⟨_, r', .cons hreset (.cons hiterates (.nil r')), ⟨s, by simp, hbrk⟩, ?_⟩
  intro s' hs' hbrk'
  rcases List.mem_cons.mp hs' with rfl | hs'
  · exact InstState.noConfusion hbrk'.1
  · rwa [List.mem_singleton.mp hs']

/-! ## The flow -/

/-- **The flow of a program is not corrupted** in a run in which no BRK pushes its status while an
NMI waits, and it is in every other. -/
theorem flows_iff {r r' : Running InstState (Machine B)} {ss : List Step} (hprompt : r.core.Prompt)
    (htagged : Tagged r.core.regs.p) (hrun : w65c02s.Runs r.deviceReset ss r') :
    Flows ss ↔ ∀ s ∈ ss, s.IsBrk → ¬ s.NmiWaitsAt 3 := by
  have hfacts := hrun.facts (Running.Ready.deviceReset hprompt htagged)
  constructor
  · intro hflows s hs hbrk
    exact ((hfacts s hs).brk_iff hbrk).mp (hflows.brk s hs hbrk).2
  · intro hwaits
    refine ⟨fun s hs hbrk ↦ ⟨has_of_tagged (hfacts s hs).tagged, ?_⟩,
      fun s hs hint ↦ (hfacts s hs).interrupt hint, ?_⟩
    · exact ((hfacts s hs).brk_iff hbrk).mpr (hwaits s hs hbrk)
    · intro s hs s' hs' hentry hrti hframe
      have hstate : s.state = .opcode 0x00 := hentry.elim And.left (hfacts s hs).state_of_interrupt
      exact (hfacts s hs).rti_of_frame (hfacts s' hs') hstate hrti hframe

/-- Without an NMI. -/
theorem flows_iff_fullOfBrk : ∃ (ss : List Step) (r' : Running InstState (Machine Ram)),
    w65c02s.Runs fullOfBrk.deviceReset ss r' ∧ (∃ s ∈ ss, s.IsBrk) ∧ Flows ss := by
  obtain ⟨ss, r', hrun, hsome, hwaits⟩ := exists_runs_fullOfBrk false
  refine ⟨ss, r', hrun, hsome,
    (flows_iff fullOfBrk_prompt fullOfBrk_tagged hrun).mpr fun s hs hbrk hnmi ↦ ?_⟩
  exact absurd ((hwaits s hs hbrk).mp hnmi) Bool.false_ne_true

/-- An NMI that comes upon a BRK takes B from the status that BRK pushes. -/
theorem not_flows_fullOfBrk : ¬ ∀ (r r' : Running InstState (Machine Ram)) (ss : List Step),
    r.core.Prompt → Tagged r.core.regs.p → w65c02s.Runs r.deviceReset ss r' → Flows ss := by
  intro h
  obtain ⟨ss, r', hrun, ⟨s, hs, hbrk⟩, hwaits⟩ := exists_runs_fullOfBrk true
  have hflows := h fullOfBrk r' ss fullOfBrk_prompt fullOfBrk_tagged hrun
  have hfacts := hrun.facts (Running.Ready.deviceReset fullOfBrk_prompt fullOfBrk_tagged) s hs
  exact (hfacts.brk_iff hbrk).mp (hflows.brk s hs hbrk).2 ((hwaits s hs hbrk).mpr rfl)

end RoscoEmulator.M6502
