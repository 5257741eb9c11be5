import RoscoEmulator.M6502.Flow

/-!
# Time slices

`execute_run` brings the instruction to its end that the last time slice has left in the middle, and
goes on with whole instructions until the cycles are used up. `executeRun_add` says that the cycles
may come in two parts as long as no access is deferred, and `slices_eq_executeRun` that they may be
cut in any way. -/

namespace RoscoEmulator.M6502

variable {B : Type*} [Bus B]

namespace Dispatch

section

variable (d : Dispatch) (fuel : ℕ)

/-- `do_exec_full`. -/
def doExecFull (r : Running InstState (Machine B)) : Option (Running InstState (Machine B)) :=
  match d.handler r.instState with
  | some h => h.toOpcode.full Machine.pins fuel r
  | none => some r

/-- `do_exec_partial`. -/
def doExecPartial (r : Running InstState (Machine B)) : Option (Running InstState (Machine B)) :=
  match d.handler r.instState with
  | some h => h.toOpcode.part Machine.pins fuel r
  | none => some r

/-- The loop of `execute_run`. -/
def executeLoop : ℕ → Running InstState (Machine B) → Option (Running InstState (Machine B))
  | 0, _ => none
  | rounds + 1, r =>
    if 0 < r.icount then (d.doExecFull fuel r.next).bind (executeLoop rounds) else some r

/-- `execute_run`. -/
def executeRun (r : Running InstState (Machine B)) : Option (Running InstState (Machine B)) :=
  (if r.instSubstate = 0 then some r else d.doExecPartial fuel r).bind (d.executeLoop fuel fuel)

/-- Time slices one after the other. -/
def slices : List ℕ → Running InstState (Machine B) → Option (Running InstState (Machine B))
  | [], r => some r
  | n :: ns, r => (d.executeRun fuel { r with icount := n }).bind (slices ns)

end

end Dispatch

/-! ## Lines -/

omit [Bus B] in
theorem Machine.Prompt.toBeRedone_eq (m : Machine B) (hm : m.Prompt) :
    Machine.pins.accessToBeRedone m = false :=
  hm.toBeRedone

namespace Code

/-- The lines leave nothing deferred. -/
theorem keeps_prompt (q : InstState) (c : Code) : (c.toBlock (B := B)).Keeps q Machine.Prompt := by
  induction c with
  | nop | eatWhile _ | eatForever => trivial
  | line l => exact fun m hm ↦ ⟨hm.toBeRedone, hm.deferrals⟩
  | read kind addr target =>
    intro m hm
    show (m.deferrable target (Machine.makeRead kind addr target)).Prompt
    rw [hm.deferrable]
    exact ⟨hm.toBeRedone, hm.deferrals⟩
  | write addr data =>
    intro m hm
    show (m.deferrable .none (Machine.makeWrite addr data)).Prompt
    rw [hm.deferrable]
    exact ⟨hm.toBeRedone, hm.deferrals⟩
  | seq a b iha ihb | ite _ a b iha ihb => exact ⟨iha, ihb⟩

/-- Every way through the lines takes a cycle. -/
def ticks : Code → Bool
  | nop | line _ | eatWhile _ => false
  | read _ _ _ | write _ _ | eatForever => true
  | seq a b => a.ticks || b.ticks
  | ite _ a b => a.ticks && b.ticks

theorem ticks_toBlock (c : Code) : (c.toBlock (B := B)).ticks = c.ticks := by
  induction c with
  | nop | line _ | read _ _ _ | write _ _ | eatWhile _ | eatForever => rfl
  | seq a b iha ihb => exact congrArg₂ _ iha ihb
  | ite _ a b iha ihb => exact congrArg₂ _ iha ihb

end Code

theorem ticks_opcode : ∀ ir : Byte, (w65c02s.opcode ir).code.ticks = true :=
  w65c02s.of_opcodes w65c02s (fun _ h _ ↦ h.code.ticks = true) (by decide +kernel)

theorem ticks_w65c02s {q : InstState} {h : Handler} (hh : w65c02s.handler q = some h) :
    h.code.ticks = true := by
  cases q with
  | reset =>
    obtain rfl := Option.some.inj hh
    rfl
  | opcode ir =>
    obtain rfl := Option.some.inj hh
    exact ticks_opcode ir
  | none => cases hh

/-! ## Instructions with their cycles -/

namespace Handler

/-- The instructions of an opcode from their start. -/
def run (h : Handler) (q : InstState) (m : Machine B) (i : ℕ) : Outcome (Machine B) :=
  h.toOpcode.instructions.run Machine.pins h.device.rdyGated q 1 m i

/-- The instructions from a substate. -/
def resume (h : Handler) (q : InstState) (p : ℕ) (m : Machine B) (i : ℕ) : Outcome (Machine B) :=
  h.toOpcode.instructions.resume Machine.pins h.device.rdyGated q p 1 m i

/-- A substate of the opcode. -/
def IsSubstate (B : Type*) [Bus B] (h : Handler) (p : ℕ) : Prop :=
  1 ≤ p ∧ p < 1 + (h.toOpcode (B := B)).instructions.substates

/-- What the instructions leave: nothing is deferred, some cycles are left or a substate has been
reached. -/
structure Leaves (h : Handler) (i : ℕ) (o : Outcome (Machine B)) : Prop where
  all : o.All Machine.Prompt
  within : o.Within 1 (h.toOpcode (B := B)).instructions.substates i

variable {h : Handler} {q : InstState} {p i n : ℕ} {m : Machine B}

theorem leaves_run (hm : m.Prompt) (hi : 0 < i) : h.Leaves i (h.run q m i) :=
  ⟨Block.all_run Machine.Prompt.toBeRedone_eq hm (h.code.keeps_prompt q) i, Block.within_run _ m hi⟩

theorem leaves_resume (hm : m.Prompt) (hi : 0 < i) : h.Leaves i (h.resume q p m i) :=
  ⟨Block.all_resume Machine.Prompt.toBeRedone_eq hm (h.code.keeps_prompt q) i,
    Block.within_resume _ m hi⟩

theorem shorter_run (hticks : h.code.ticks = true) (hi : 0 < i) : (h.run q m i).Shorter i :=
  Block.shorter_run ((Code.ticks_toBlock h.code).trans hticks) m hi

theorem run_add (hm : m.Prompt) (hi : 0 < i) (hn : 0 < n) :
    h.run q m (i + n) = (h.run q m i).more n fun p m j ↦ h.resume q p m j :=
  Block.run_add Machine.Prompt.toBeRedone_eq hm (h.code.keeps_prompt q) hi hn

theorem resume_add (hm : m.Prompt) (hi : 0 < i) (hn : 0 < n) :
    h.resume q p m (i + n) = (h.resume q p m i).more n fun p m j ↦ h.resume q p m j :=
  Block.resume_add Machine.Prompt.toBeRedone_eq hm (h.code.keeps_prompt q) hi hn

end Handler

/-! ## The loop -/

namespace Dispatch

/-- In front of an instruction, or at a substate of one, and nothing is deferred. -/
structure Rests (d : Dispatch) (r : Running InstState (Machine B)) : Prop where
  prompt : r.core.Prompt
  substate :
    r.instSubstate ≠ 0 → ∃ h, d.handler r.instState = some h ∧ h.IsSubstate B r.instSubstate

variable {d : Dispatch} {fuel : ℕ} {q : InstState} {h : Handler} {m : Machine B} {i n p : ℕ}

theorem doExecFull_eq (hh : d.handler q = some h) (hi : 0 < i) (hfuel : i ≤ fuel) :
    d.doExecFull fuel ⟨q, m, i, 0⟩ = some (h.toOpcode.leave q (h.run q m i)) := by
  rw [doExecFull, hh]
  exact Opcode.full_eq hi hfuel

theorem doExecPartial_eq (hh : d.handler q = some h) (hp : h.IsSubstate B p) (hi : 0 < i)
    (hfuel : i ≤ fuel) :
    d.doExecPartial fuel ⟨q, m, i, p⟩ = some (h.toOpcode.leave q (h.resume q p m i)) := by
  rw [doExecPartial, hh]
  exact Opcode.part_eq hp hi hfuel

omit [Bus B] in
theorem exists_next (d : Dispatch) (q : InstState) (hm : m.Prompt) : ∃ q' m' h, m'.Prompt ∧
    d.handler q' = some h ∧ ∀ i : ℤ, (Running.mk q m i 0).next = ⟨q', m', i, 0⟩ := by
  by_cases hq : q = .reset
  · exact ⟨q, m, d.reset, hm, hq ▸ rfl, fun i ↦ Running.next_of_reset hq⟩
  · exact ⟨.opcode m.regs.ir, m.onRegs fun regs ↦ { regs with ppc := regs.npc }, d.opcode m.regs.ir,
      ⟨hm.toBeRedone, hm.deferrals⟩, rfl, fun i ↦ Running.next_of_not_reset hq⟩

/-- Nothing is left to do. -/
theorem executeLoop_of_icount (hn : 0 < n) {r : Running InstState (Machine B)} (hr : r.icount = 0) :
    d.executeLoop fuel n r = some r := by
  obtain ⟨n, rfl⟩ := Nat.exists_eq_succ_of_ne_zero (Nat.pos_iff_ne_zero.mp hn)
  exact if_neg (by rw [hr]; decide)

theorem executeLoop_succ {q' : InstState} {m' : Machine B}
    (hnext : (Running.mk q m (i : ℤ) 0).next = ⟨q', m', i, 0⟩) (hh : d.handler q' = some h)
    (hi : 0 < i) (hfuel : i ≤ fuel) (rounds : ℕ) : d.executeLoop fuel (rounds + 1) ⟨q, m, i, 0⟩ =
      d.executeLoop fuel rounds (h.toOpcode.leave q' (h.run q' m' i)) := by
  rw [executeLoop, if_pos (Int.natCast_pos.mpr hi), hnext, doExecFull_eq hh hi hfuel]
  rfl

section

variable (hticks : ∀ {q : InstState} {h : Handler}, d.handler q = some h → h.code.ticks = true)
include hticks

/-- The loop comes to its end, after at most as many rounds as there are cycles. -/
theorem exists_executeLoop (hm : m.Prompt) (q : InstState) (hfuel : i ≤ fuel) :
    ∃ r, d.Rests r ∧ ∀ rounds, i < rounds → d.executeLoop fuel rounds ⟨q, m, i, 0⟩ = some r := by
  induction i using Nat.strong_induction_on generalizing q m with
  | _ i ih =>
    rcases Nat.eq_zero_or_pos i with rfl | hi
    · exact ⟨_, ⟨hm, fun h ↦ absurd rfl h⟩, fun rounds hlt ↦ executeLoop_of_icount hlt rfl⟩
    · obtain ⟨q', m', h, hm', hh, hnext⟩ := exists_next d q hm
      have hleaves : h.Leaves i (h.run q' m' i) := Handler.leaves_run hm' hi
      have hshorter : (h.run q' m' i).Shorter i := Handler.shorter_run (hticks hh) hi
      have hround := executeLoop_succ (hnext i) hh hi hfuel
      cases ho : h.run q' m' i with
      | ended m'' j =>
        rw [ho] at hleaves hshorter hround
        have hj : j < i := hshorter
        obtain ⟨r, hr, hloop⟩ :=
          ih j hj hleaves.all ((h.toOpcode (B := B)).next.getD q') ((Nat.le_of_lt hj).trans hfuel)
        refine ⟨r, hr, fun rounds hlt ↦ ?_⟩
        obtain ⟨rounds, rfl⟩ := Nat.exists_eq_succ_of_ne_zero (Nat.ne_zero_of_lt hlt)
        rw [hround]
        exact hloop rounds (by omega)
      | paused m'' p =>
        rw [ho] at hleaves hround
        refine ⟨⟨q', m'', 0, p⟩, ⟨hleaves.all, fun _ ↦ ⟨h, hh, hleaves.within⟩⟩,
          fun rounds hlt ↦ ?_⟩
        obtain ⟨rounds, rfl⟩ := Nat.exists_eq_succ_of_ne_zero (Nat.ne_zero_of_lt hlt)
        rw [hround]
        exact executeLoop_of_icount (by omega) rfl

/-- The same behind an instruction. -/
theorem exists_executeLoop_leave (hh : d.handler q = some h) {o : Outcome (Machine B)}
    (ho : h.Leaves i o) (hfuel : i ≤ fuel) : ∃ r, d.Rests r ∧ ∀ rounds, i < rounds →
    d.executeLoop fuel rounds (h.toOpcode.leave q o) = some r := by
  cases o with
  | ended m j =>
    obtain ⟨r, hr, hloop⟩ := exists_executeLoop hticks ho.all ((h.toOpcode (B := B)).next.getD q)
      (ho.within.2.trans hfuel)
    exact ⟨r, hr, fun rounds hlt ↦ hloop rounds (lt_of_le_of_lt ho.within.2 hlt)⟩
  | paused m p =>
    exact ⟨⟨q, m, 0, p⟩, ⟨ho.all, fun _ ↦ ⟨h, hh, ho.within⟩⟩, fun rounds hlt ↦
      executeLoop_of_icount (Nat.zero_lt_of_lt hlt) rfl⟩

theorem exists_executeRun {r : Running InstState (Machine B)} (hr : d.Rests r) (hn : 0 < n)
    (hfuel : n < fuel) : ∃ r', d.Rests r' ∧ d.executeRun fuel { r with icount := n } = some r' := by
  obtain ⟨q, m, i, p⟩ := r
  rw [executeRun]
  by_cases hp : p = 0
  · obtain ⟨r', hr', hloop⟩ := exists_executeLoop hticks hr.prompt q (Nat.le_of_lt hfuel)
    rw [if_pos hp]
    exact ⟨r', hr', hp ▸ hloop fuel hfuel⟩
  · obtain ⟨h, hh, hsub⟩ := hr.substate hp
    obtain ⟨r', hr', hloop⟩ := exists_executeLoop_leave hticks hh
      (Handler.leaves_resume (q := q) (p := p) hr.prompt hn) (Nat.le_of_lt hfuel)
    rw [if_neg hp, doExecPartial_eq hh hsub hn (Nat.le_of_lt hfuel)]
    exact ⟨r', hr', hloop fuel hfuel⟩

/-- An instruction with more cycles, if the loop behind it may have them in two parts. -/
theorem executeLoop_leave_more (hh : d.handler q = some h) {o : Outcome (Machine B)}
    (ho : h.Leaves i o) (hn : 0 < n) {rounds : ℕ} (hrounds : n < rounds) (hfuel : n < fuel)
    (hended : ∀ (m : Machine B) j, o = .ended m j →
      d.executeLoop fuel rounds ⟨(h.toOpcode (B := B)).next.getD q, m, (j + n : ℕ), 0⟩ =
        (d.executeLoop fuel rounds ⟨(h.toOpcode (B := B)).next.getD q, m, j, 0⟩).bind fun r ↦
          d.executeRun fuel { r with icount := n }) :
    d.executeLoop fuel rounds (h.toOpcode.leave q (o.more n fun p m j ↦ h.resume q p m j)) =
      (d.executeLoop fuel rounds (h.toOpcode.leave q o)).bind fun r ↦
      d.executeRun fuel { r with icount := n } := by
  cases o with
  | ended m j => exact hended m j rfl
  | paused m p =>
    obtain ⟨r, -, hloop⟩ := exists_executeLoop_leave hticks hh
      (Handler.leaves_resume (q := q) (p := p) ho.all hn) (Nat.le_of_lt hfuel)
    have hleave :
        d.executeLoop fuel rounds (h.toOpcode.leave q (.paused m p)) = some ⟨q, m, 0, p⟩ :=
      executeLoop_of_icount (Nat.zero_lt_of_lt hrounds) rfl
    rw [hleave, Option.bind_some, executeRun, if_neg (Nat.pos_iff_ne_zero.mp ho.within.1),
      doExecPartial_eq hh ho.within hn (Nat.le_of_lt hfuel), Option.bind_some, hloop fuel hfuel]
    exact hloop rounds hrounds

/-- The cycles of the loop may come in two parts. -/
theorem executeLoop_add (hm : m.Prompt) (q : InstState) (hn : 0 < n) (hfuel : i + n < fuel)
    {rounds : ℕ} (hrounds : i + n < rounds) : d.executeLoop fuel rounds ⟨q, m, (i + n : ℕ), 0⟩ =
      (d.executeLoop fuel rounds ⟨q, m, i, 0⟩).bind fun r ↦
      d.executeRun fuel { r with icount := n } := by
  induction i using Nat.strong_induction_on generalizing q m rounds with
  | _ i ih =>
    obtain ⟨rounds, rfl⟩ := Nat.exists_eq_succ_of_ne_zero (Nat.ne_zero_of_lt hrounds)
    rcases Nat.eq_zero_or_pos i with rfl | hi
    · obtain ⟨r, -, hloop⟩ := exists_executeLoop hticks hm q (show n ≤ fuel by omega)
      have hzero : d.executeLoop fuel (rounds + 1) ⟨q, m, (0 : ℕ), 0⟩ = some ⟨q, m, (0 : ℕ), 0⟩ :=
        executeLoop_of_icount (Nat.succ_pos rounds) rfl
      rw [hzero, Option.bind_some, executeRun, if_pos rfl, Option.bind_some,
        hloop fuel (by omega), Nat.zero_add]
      exact hloop _ (by omega)
    · obtain ⟨q', m', h, hm', hh, hnext⟩ := exists_next d q hm
      rw [executeLoop_succ (hnext _) hh (Nat.add_pos_left hi n) (Nat.le_of_lt hfuel),
        executeLoop_succ (hnext _) hh hi (by omega), Handler.run_add hm' hi hn]
      have hleaves : h.Leaves i (h.run q' m' i) := Handler.leaves_run hm' hi
      refine executeLoop_leave_more hticks hh hleaves hn (by omega) (by omega) fun m'' j ho ↦ ?_
      have hshorter : (h.run q' m' i).Shorter i := Handler.shorter_run (hticks hh) hi
      rw [ho] at hleaves hshorter
      have hlt : j < i := hshorter
      exact ih j hlt hleaves.all _ (by omega) (by omega)

/-- **The cycles may come in two parts.** -/
theorem executeRun_add {r : Running InstState (Machine B)} (hr : d.Rests r) (hi : 0 < i)
    (hn : 0 < n) (hfuel : i + n < fuel) : d.executeRun fuel { r with icount := (i + n : ℕ) } =
      (d.executeRun fuel { r with icount := i }).bind fun r ↦
      d.executeRun fuel { r with icount := n } := by
  obtain ⟨q, m, _, p⟩ := r
  by_cases hp : p = 0
  · subst hp
    exact executeLoop_add hticks hr.prompt q hn hfuel hfuel
  · obtain ⟨h, hh, hsub⟩ := hr.substate hp
    have hrun : ∀ j : ℕ, 0 < j → j ≤ fuel → d.executeRun fuel ⟨q, m, j, p⟩ =
        d.executeLoop fuel fuel (h.toOpcode.leave q (h.resume q p m j)) := by
      intro j hj hle
      rw [executeRun, if_neg hp, doExecPartial_eq hh hsub hj hle]
      rfl
    have hleaves : h.Leaves i (h.resume q p m i) := Handler.leaves_resume hr.prompt hi
    rw [hrun _ (Nat.add_pos_left hi n) (Nat.le_of_lt hfuel), hrun i hi (by omega),
      Handler.resume_add hr.prompt hi hn]
    refine executeLoop_leave_more hticks hh hleaves hn (by omega) (by omega) fun m' j ho ↦ ?_
    rw [ho] at hleaves
    have hle : j ≤ i := hleaves.within.2
    exact executeLoop_add hticks hleaves.all _ hn (by omega) (by omega)

end

/-- **Execution does not depend on the slices.** As long as no access is deferred and the lines stay
as they are, the accesses, the registers and the substate are those of one slice. -/
theorem slices_eq_executeRun {r : Running InstState (Machine B)} (hr : w65c02s.Rests r)
    {ns : List ℕ} (hne : ns ≠ []) (hpos : ∀ n ∈ ns, 0 < n) (hfuel : ns.sum < fuel) :
    ∃ r', w65c02s.slices fuel ns r = some r' ∧
      w65c02s.executeRun fuel { r with icount := ns.sum } = some r' := by
  induction ns generalizing r with
  | nil => exact absurd rfl hne
  | cons n ns ih =>
    have hn : 0 < n := hpos n List.mem_cons_self
    rw [List.sum_cons] at hfuel
    obtain ⟨r₁, hr₁, hrun⟩ := exists_executeRun ticks_w65c02s hr hn (show n < fuel by omega)
    rw [slices, hrun, Option.bind_some, List.sum_cons]
    rcases ns with _ | ⟨n', ns⟩
    · exact ⟨r₁, rfl, hrun⟩
    · have hpos' : ∀ n ∈ n' :: ns, 0 < n := fun n hmem ↦ hpos n (List.mem_cons_of_mem _ hmem)
      have hsum : 0 < (n' :: ns).sum := Nat.add_pos_left (hpos' n' List.mem_cons_self) _
      rw [executeRun_add ticks_w65c02s hr hn hsum hfuel, hrun]
      exact ih hr₁ (List.cons_ne_nil _ _) hpos' (by omega)

theorem slices_eq_executeRun_fullOfBrk : ∃ r', w65c02s.slices 8 [2, 1, 4] fullOfBrk = some r' ∧
    w65c02s.executeRun 8 { fullOfBrk with icount := ([2, 1, 4] : List ℕ).sum } = some r' :=
  slices_eq_executeRun ⟨fullOfBrk_prompt, fun h ↦ absurd rfl h⟩ (by decide) (by decide) (by decide)

end Dispatch

end RoscoEmulator.M6502
