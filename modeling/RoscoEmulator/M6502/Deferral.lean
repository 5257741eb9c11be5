import RoscoEmulator.M6502.Execution

/-!
# Deferred accesses

An access that is deferred has executed its whole line, so that the line is executed once more with
the value that was thrown away in place. `Code.safe` says that no line of an opcode overwrites what
its own address is made of. The opcodes of the W65C02S are safe but for `cmp_s_zpx`, which reads its
operand into `m_TMP` from an address in `m_TMP`. -/

namespace RoscoEmulator.M6502

open List

/-! ## Lines that may be executed again -/

/-- The text of an opcode whose accesses may all be deferred. -/
def Code.safe : Code → Bool
  | read _ addr target => addr.survives target
  | seq a b | ite _ a b => a.safe && b.safe
  | _ => true

theorem setH_setH (w : Word) (v v' : Byte) : setH (setH w v') v = setH w v := by
  rw [setH_eq, setH_eq w v', setH_eq w v, lowByte_append]

/-- The value that is stored last counts. -/
theorem Target.store_store (target : Target) (v v' : Byte) (r : Regs) :
    target.store v (target.store v' r) = target.store v r := by
  cases target with
  | none | tmp | tmp2 | pc | ir | p | tmpStatus => rfl
  | reg i => cases i <;> rfl
  | tmpHigh => simp only [store, setH_setH]
  | pcHigh => simp only [store, setH_setH]

namespace Machine

variable {B : Type*}

/-- The same machine with a memory system that defers nothing. -/
def undeferred (m : Machine B) : Machine B := { m with deferrals := [] }

variable [Bus B] {kind : ReadKind} {addr : Addr} {target : Target}

theorem addr_eval_foldl (h : addr.survives target = true) (vs : List Byte) (r : Regs) :
    addr.eval (vs.foldl (fun r v ↦ target.store v r) r) = addr.eval r := by
  induction vs generalizing r with
  | nil => rfl
  | cons v vs ih => exact (ih _).trans (Addr.eval_store h v r)

theorem store_foldl (vs : List Byte) (v : Byte) (r : Regs) :
    target.store v (vs.foldl (fun r v ↦ target.store v r) r) = target.store v r := by
  induction vs generalizing r with
  | nil => rfl
  | cons v' vs ih => exact (ih _).trans (Target.store_store target v v' r)

/-- A read whose address is the same behind the attempts that are deferred. -/
theorem makeRead_undeferred
    {m : Machine B} (h : addr.eval (m.afterDeferrals target).regs = addr.eval m.regs) :
    (m.undeferred.afterDeferrals target).makeRead kind addr target =
      ((m.afterDeferrals target).makeRead kind addr target).undeferred := by
  unfold afterDeferrals at h
  simp only [makeRead, afterDeferrals, undeferred, h, store_foldl, headD_nil, foldl_nil, tail_nil]

theorem makeWrite_undeferred {data : Data} (m : Machine B) :
    (m.undeferred.afterDeferrals .none).makeWrite addr data =
      ((m.afterDeferrals .none).makeWrite addr data).undeferred := by
  have hnone : ∀ (vs : List Byte) (r : Regs), vs.foldl (fun r v ↦ Target.none.store v r) r = r := by
    intro vs r
    induction vs with
    | nil => rfl
    | cons v vs ih => exact ih
  simp only [makeWrite, afterDeferrals, undeferred, hnone, tail_nil]

end Machine

variable {B : Type*} [Bus B] {g : Bool} {q : InstState} {m : Machine B}

/-- **Safe code does the same** whatever is deferred. -/
theorem Code.exec_undeferred {c : Code} (hc : c.safe = true) (m : Machine B) :
    c.exec g q m.undeferred = (c.exec g q m).map Machine.undeferred := by
  induction c generalizing m with
  | nop | line => rfl
  | read kind addr target =>
    by_cases hready : g = true ∧ m.regs.rdyState = false
    · have h : (Code.read kind addr target).exec g q m = none := if_pos hready
      rw [h]
      exact if_pos hready
    · have h : (Code.read kind addr target).exec g q m =
          some ((m.afterDeferrals target).makeRead kind addr target) :=
        if_neg hready
      rw [h, Option.map_some, ← Machine.makeRead_undeferred (Machine.addr_eval_foldl hc _ _)]
      exact if_neg hready
  | write addr data => exact congrArg some (Machine.makeWrite_undeferred m)
  | seq a b iha ihb =>
    obtain ⟨ha, hb⟩ := Bool.and_eq_true_iff.mp hc
    rw [exec, exec, iha ha, Option.bind_map, Option.map_bind]
    exact congrArg _ (funext fun m₁ ↦ ihb hb m₁)
  | ite c a b iha ihb =>
    obtain ⟨ha, hb⟩ := Bool.and_eq_true_iff.mp hc
    rw [exec, exec]
    by_cases h : c.eval q m.regs = true
    · rw [if_pos h, ← iha ha]
      exact if_pos h
    · rw [if_neg h, ← ihb hb]
      exact if_neg h
  | eatWhile c =>
    rw [exec, exec]
    by_cases h : c.eval .none m.regs = true
    · rw [if_pos h]
      exact if_pos h
    · rw [if_neg h]
      exact if_neg h
  | eatForever => rfl

/-- The results of an opcode do not depend on what is deferred. -/
def Handler.Transparent (h : Handler) (q : InstState) (m : Machine B) : Prop :=
  h.results q m = h.results q m.undeferred

theorem Handler.transparent_of_exec {h : Handler} (hm : m.toBeRedone = false)
    (hexec : h.exec q m.undeferred = (h.exec q m).map Machine.undeferred) : h.Transparent q m := by
  ext p
  rw [mem_results_iff hm, mem_results_iff (m := m.undeferred) hm, hexec]
  constructor
  · rintro ⟨m', hm', rfl⟩
    exact ⟨m'.undeferred, by rw [hm']; rfl, rfl⟩
  · rintro ⟨m', hm', rfl⟩
    obtain ⟨m₁, h₁, rfl⟩ := Option.map_eq_some_iff.mp hm'
    exact ⟨m₁, h₁, rfl⟩

theorem Handler.transparent_of_safe {h : Handler} (hc : h.code.safe = true)
    (hm : m.toBeRedone = false) : h.Transparent q m :=
  transparent_of_exec hm (Code.exec_undeferred hc m)

/-! ## `cmp_s_zpx` -/

section CmpSZpx

open Ow65c02s

/-- The operand of an opcode. -/
def Machine.operand (m : Machine B) : Byte := (Bus.read .readArg m.regs.pc m.bus).1

/-- The lines in front of the third access. -/
def cmpSZpxFetch : Code := .block [readPc .tmp, readPc .none, incPc]

/-- The lines behind it. -/
def cmpSZpxRest : Code := .block ((operateImm (.cmp .a)).lines ++ prefetch)

theorem cmpSZpx_exec (m : Machine B) : cmpSZpx.exec q m = (cmpSZpxFetch.exec false q m).bind fun m ↦
    ((read (.indexedZp .x) .tmp).exec false q m).bind fun m ↦
      cmpSZpxRest.exec false q m := rfl

/-- The last value that is thrown away counts. -/
theorem foldl_store (target : Target) (vs : List Byte) (r : Regs) :
    vs.foldl (fun r v ↦ target.store v r) r = vs.getLast?.elim r fun v ↦ target.store v r := by
  rcases eq_nil_or_concat vs with rfl | ⟨vs, v, rfl⟩
  · rfl
  · rw [concat_eq_append, foldl_append, List.getLast?_append]
    exact Machine.store_foldl vs v r

theorem cmpSZpxFetch_exec (m : Machine B) : ∃ m₁, cmpSZpxFetch.exec false q m = some m₁ ∧
    m₁.regs.tmp = m.operand.setWidth 16 ∧ m₁.deferrals = m.deferrals.tail.tail := by
  refine ⟨_, rfl, ?_, rfl⟩
  simp only [Machine.onRegs, Machine.makeRead, Machine.afterDeferrals, foldl_store]
  cases (m.deferrals.headD []).getLast? <;> cases (m.deferrals.tail.headD []).getLast? <;> rfl

theorem cmpSZpxRest_exec (m : Machine B) :
    ∃ m₁ e, cmpSZpxRest.exec false q m = some m₁ ∧ m₁.log = m.log ++ [e] :=
  ⟨_, _, rfl, rfl⟩

/-- The third access. -/
def cmpSZpxRead (m : Machine B) : Machine B :=
  (m.afterDeferrals .tmp).makeRead .read (.indexedZp .x) .tmp

omit [Bus B] in
theorem eval_indexedZp_iff {v : Byte} (htmp : m.regs.tmp = v.setWidth 16) :
    Addr.eval (m.afterDeferrals .tmp).regs (.indexedZp .x) = Addr.eval m.regs (.indexedZp .x) ↔
      ∀ v', (m.deferrals.headD []).getLast? = some v' → v' = v := by
  rw [Machine.afterDeferrals, foldl_store]
  cases (m.deferrals.headD []).getLast? with
  | none => exact iff_of_true rfl fun v' h ↦ by cases h
  | some w =>
    simp only [Option.elim_some, Addr.eval, Target.store, htmp, lowByte_setWidth,
      Option.some.injEq, forall_eq']
    constructor
    · intro h
      have hbyte : w + m.regs.x = v + m.regs.x := by simpa using congrArg lowByte h
      exact add_right_cancel hbyte
    · rintro rfl
      rfl

theorem cmpSZpx_transparent_iff (hm : m.toBeRedone = false) :
    cmpSZpx.Transparent q m ↔ ∀ v, (m.deferrals.getD 2 []).getLast? = some v → v = m.operand := by
  obtain ⟨m₁, hfetch, htmp, hdef⟩ := @cmpSZpxFetch_exec _ _ q m
  have hthird : m.deferrals.getD 2 [] = m₁.deferrals.headD [] := by
    rw [hdef]
    rcases m.deferrals with - | ⟨-, - | ⟨-, - | -⟩⟩ <;> rfl
  have hexec : cmpSZpx.exec q m = cmpSZpxRest.exec false q (cmpSZpxRead m₁) := by
    rw [cmpSZpx_exec, hfetch]
    rfl
  have hundeferred :
      cmpSZpx.exec q m.undeferred = cmpSZpxRest.exec false q (cmpSZpxRead m₁.undeferred) := by
    rw [cmpSZpx_exec, Code.exec_undeferred rfl, hfetch]
    rfl
  rw [hthird, ← eval_indexedZp_iff htmp, Handler.Transparent]
  constructor
  · intro h
    obtain ⟨m₂, e, hrest, hlog⟩ := @cmpSZpxRest_exec _ _ q (cmpSZpxRead m₁)
    obtain ⟨m₂', e', hrest', hlog'⟩ := @cmpSZpxRest_exec _ _ q (cmpSZpxRead m₁.undeferred)
    have hmem : m₂.performed ∈ cmpSZpx.results q m :=
      (mem_results_iff hm).mpr ⟨m₂, hexec.trans hrest, rfl⟩
    rw [h] at hmem
    obtain ⟨m₃, h₃, hperformed⟩ := (mem_results_iff (m := m.undeferred) hm).mp hmem
    obtain rfl : m₂' = m₃ := Option.some.inj ((hundeferred.trans hrest').symm.trans h₃)
    -- the addresses of the third access are in the logs
    have hlogs : m₂'.log = m₂.log := congrArg Performed.log hperformed
    rw [hlog, hlog'] at hlogs
    have hevents := (append_inj' hlogs rfl).1
    have hevent := (append_cancel_left hevents : [Event.read _ _ _] = [Event.read _ _ _])
    injection hevent with hevent
    injection hevent with _ haddr
    exact haddr.symm
  · intro haddr
    have hread : cmpSZpxRead m₁.undeferred = (cmpSZpxRead m₁).undeferred :=
      Machine.makeRead_undeferred haddr
    refine Handler.transparent_of_exec hm ?_
    rw [hundeferred, hexec, hread]
    exact Code.exec_undeferred rfl _

end CmpSZpx

/-! ## The W65C02S -/

theorem safe_w65c02s : ∀ ir : Byte, ir ≠ 0xd5 → (w65c02s.opcode ir).code.safe = true :=
  w65c02s.of_opcodes w65c02s (fun ir h _ ↦ ir ≠ 0xd5 → h.code.safe = true) (by decide +kernel)

/-- **Deferred accesses are transparent** to the opcodes of the W65C02S, but for the opcode D5 if
the last value that its third access throws away is not its operand. -/
theorem w65c02s_transparent_iff (ir : Byte) (m : Machine B) (hm : m.toBeRedone = false) :
    (w65c02s.opcode ir).Transparent (.opcode ir) m ↔
      (ir = 0xd5 → ∀ v, (m.deferrals.getD 2 []).getLast? = some v → v = m.operand) := by
  by_cases hir : ir = 0xd5
  · subst hir
    exact (cmpSZpx_transparent_iff hm).trans ⟨fun h _ ↦ h, fun h ↦ h rfl⟩
  · exact iff_of_true (Handler.transparent_of_safe (safe_w65c02s ir hir) hm) fun h ↦ absurd h hir

/-- In front of `CMP $00,X`, whose third access is deferred once and returns 01 then. -/
def thrownAway : Machine Ram where
  regs := Regs.init
  bus := ⟨fun _ ↦ 0x00, []⟩
  log := []
  toBeRedone := false
  deferrals := [[], [], [0x01]]

/-- Deferred once more, it returns its operand. -/
theorem w65c02s_transparent_iff_thrownAway : (w65c02s.opcode 0xd5).Transparent (.opcode 0xd5)
    { thrownAway with deferrals := [[], [], [0x01, 0x00]] } := by
  refine (w65c02s_transparent_iff 0xd5 _ rfl).mpr fun _ v hv ↦ ?_
  cases hv
  rfl

theorem not_transparent_thrownAway :
    ¬ (w65c02s.opcode 0xd5).Transparent (.opcode 0xd5) thrownAway := by
  intro h
  have hlast : (0x01 : Byte) = thrownAway.operand := (cmpSZpx_transparent_iff rfl).mp h 0x01 rfl
  exact absurd hlast (by decide)

end RoscoEmulator.M6502
