import RoscoEmulator.M6502.Slicing

/-!
# Setting the program counter

`set_state_int` of `M6502_PC` prefetches the instruction at the new address wherever the processor
has been suspended. What is left of the old instruction is in `m_TMP` and `m_TMP2`. `Code.learn`
follows what is known of them through the lines of an opcode: no opcode of the W65C02S reads one
before it has written it. -/

namespace RoscoEmulator.M6502

variable {B : Type*}

/-! ## The import -/

/-- `prefetch()`. -/
def Machine.prefetch [Bus B] (m : Machine B) : Machine B :=
  ((m.onRegs Regs.prefetchStart).readLine .readSync .pc .ir).onRegs Regs.prefetchEnd

namespace Running

variable [Bus B]

/-- `state_import` of `M6502_PC`. -/
def stateImportPc (r : Running InstState (Machine B)) : Running InstState (Machine B) :=
  let m := (r.core.onRegs fun regs ↦ { regs with pc := regs.npc, irqTaken := false }).prefetch
  { r with
    instState := .opcode m.regs.ir
    core := m.onRegs fun regs ↦ { regs with ppc := regs.npc }
    instSubstate := 0 }

/-- `set_state_int` of `M6502_PC`, which is registered for `m_NPC`. -/
def setStatePc (a : Word) (r : Running InstState (Machine B)) : Running InstState (Machine B) :=
  stateImportPc { r with core := r.core.onRegs fun regs ↦ { regs with npc := a } }

end Running

/-- The same A, X, Y, SP and P, and the same lines. -/
structure Regs.SameState (r r' : Regs) : Prop where
  toAlu : r.toAlu = r'.toAlu
  sp : r.sp = r'.sp
  nmiState : r.nmiState = r'.nmiState
  irqState : r.irqState = r'.irqState
  apuIrqState : r.apuIrqState = r'.apuIrqState
  vState : r.vState = r'.vState
  rdyState : r.rdyState = r'.rdyState
  nmiPending : r.nmiPending = r'.nmiPending
  inhibitInterrupts : r.inhibitInterrupts = r'.inhibitInterrupts

/-- An enabled interrupt is pending. -/
def Regs.requested (r : Regs) : Bool :=
  (r.nmiPending || ((r.irqState || r.apuIrqState) && !r.toAlu.has flagI)) && !r.inhibitInterrupts

/-! ## The temporaries -/

/-- Other values of `m_TMP` and `m_TMP2`. -/
def Regs.temporaries (tmp : Word) (tmp2 : Byte) (r : Regs) : Regs :=
  { r with tmp := tmp, tmp2 := tmp2 }

/-- What is known of `m_TMP` and `m_TMP2`. -/
structure Known where
  tmp : Bool
  tmp2 : Bool
deriving DecidableEq

/-- Nothing is known. -/
def Known.nothing : Known := ⟨false, false⟩

/-- What is known has these values. -/
structure Known.Fits (k : Known) (tmp : Word) (tmp2 : Byte) (r : Regs) : Prop where
  tmp : k.tmp = true → tmp = r.tmp
  tmp2 : k.tmp2 = true → tmp2 = r.tmp2

def Addr.known (k : Known) (addr : Addr) : Bool :=
  (k.tmp || !addr.usesTmp) && (k.tmp2 || !addr.usesTmp2)

def Data.known (k : Known) : Data → Bool
  | tmp2 => k.tmp2
  | _ => true

def Operand.known (k : Known) : Operand → Bool
  | tmp => k.tmp
  | tmp2 => k.tmp2

def Cond.known (k : Known) : Cond → Bool
  | pageChanging _ | branchPageChanging => k.tmp
  | bitSet | bitClear => k.tmp2
  | _ => true

/-- What is known behind a read. -/
def Target.learn (k : Known) : Target → Known
  | tmp | tmpStatus => { k with tmp := true }
  | tmp2 => { k with tmp2 := true }
  | _ => k

/-- What is known behind a line, if the line reads nothing else. -/
def Line.learn (k : Known) : Line → Option Known
  | jump | jumpNext | takeBranch | pullStatus => if k.tmp then some k else none
  | operate _ operand | testBits operand => if operand.known k then some k else none
  | modify _ => if k.tmp2 then some k else none
  | _ => some k

/-- What is known behind the lines of an opcode. -/
def Code.learn : Code → Known → Option Known
  | nop, k | eatForever, k => some k
  | line l, k => l.learn k
  | read _ addr target, k => if addr.known k then some (target.learn k) else none
  | write addr data, k => if addr.known k && data.known k then some k else none
  | seq a b, k => (a.learn k).bind b.learn
  | ite c a b, k =>
      if c.known k then
        (a.learn k).bind fun k₁ ↦ (b.learn k).map fun k₂ ↦ ⟨k₁.tmp && k₂.tmp, k₁.tmp2 && k₂.tmp2⟩
      else none
  | eatWhile c, k => if c.known k then some k else none

theorem learns_opcode : ∀ ir : Byte, ((w65c02s.opcode ir).code.learn .nothing).isSome = true :=
  w65c02s.of_opcodes w65c02s (fun _ h _ ↦ (h.code.learn .nothing).isSome = true) (by decide +kernel)

section

variable {k k' : Known} {tmp : Word} {tmp2 : Byte} {r : Regs}

theorem Addr.eval_temporaries {addr : Addr} (h : addr.known k = true) (hk : k.Fits tmp tmp2 r) :
    addr.eval (r.temporaries tmp tmp2) = addr.eval r := by
  have htmp : addr.usesTmp = true → tmp = r.tmp := fun huses ↦ hk.tmp (by simp_all [known])
  have htmp2 : addr.usesTmp2 = true → tmp2 = r.tmp2 := fun huses ↦ hk.tmp2 (by simp_all [known])
  cases addr with
  | const | pc | sp => rfl
  | tmp2 | tmp2Next => simp only [eval, Regs.temporaries, htmp2 rfl]
  | _ => simp only [eval, Regs.temporaries, Regs.offset, htmp rfl]

theorem Data.eval_temporaries {data : Data} (h : data.known k = true) (hk : k.Fits tmp tmp2 r) :
    data.eval (r.temporaries tmp tmp2) = data.eval r := by
  cases data with
  | tmp2 => exact hk.tmp2 h
  | _ => rfl

theorem Operand.eval_temporaries {operand : Operand} (h : operand.known k = true)
    (hk : k.Fits tmp tmp2 r) : operand.eval (r.temporaries tmp tmp2) = operand.eval r := by
  cases operand with
  | tmp => exact congrArg lowByte (hk.tmp h)
  | tmp2 => exact hk.tmp2 h

theorem Cond.eval_temporaries {c : Cond} (h : c.known k = true) (hk : k.Fits tmp tmp2 r)
    (q : InstState) : c.eval q (r.temporaries tmp tmp2) = c.eval q r := by
  cases c with
  | pageChanging | branchPageChanging => simp only [eval, Regs.temporaries, Regs.offset, hk.tmp h]
  | bitSet | bitClear => simp only [eval, Regs.temporaries, hk.tmp2 h]
  | _ => rfl

theorem Target.store_temporaries (target : Target) (v : Byte) (hk : k.Fits tmp tmp2 r) :
    ∃ tmp' tmp2',
      target.store v (r.temporaries tmp tmp2) = (target.store v r).temporaries tmp' tmp2' ∧
      (target.learn k).Fits tmp' tmp2' (target.store v r) := by
  cases target with
  | tmp | tmpStatus => exact ⟨_, tmp2, rfl, fun _ ↦ rfl, hk.tmp2⟩
  | tmpHigh => exact ⟨_, tmp2, rfl, fun h ↦ congrArg (setH · v) (hk.tmp h), hk.tmp2⟩
  | tmp2 => exact ⟨tmp, _, rfl, hk.tmp, fun _ ↦ rfl⟩
  | _ => exact ⟨tmp, tmp2, rfl, hk.tmp, hk.tmp2⟩

theorem Regs.prefetchEnd_temporaries (tmp : Word) (tmp2 : Byte) (r : Regs) :
    (r.temporaries tmp tmp2).prefetchEnd = r.prefetchEnd.temporaries tmp tmp2 := by
  unfold prefetchEnd
  dsimp only [temporaries]
  split <;> rfl

theorem Regs.prefetchEnd_tmp (r : Regs) :
    r.prefetchEnd.tmp = r.tmp ∧ r.prefetchEnd.tmp2 = r.tmp2 := by
  unfold prefetchEnd
  dsimp only
  split <;> exact ⟨rfl, rfl⟩

theorem Line.run_temporaries {l : Line} (h : l.learn k = some k') (hk : k.Fits tmp tmp2 r)
    (q : InstState) :
    ∃ tmp' tmp2', l.run q (r.temporaries tmp tmp2) = (l.run q r).temporaries tmp' tmp2' ∧
      k'.Fits tmp' tmp2' (l.run q r) := by
  cases l with
  | jump | jumpNext | takeBranch | pullStatus =>
    obtain ⟨hknown, rfl⟩ := Option.ite_some_none_eq_some.mp h
    obtain rfl := hk.tmp hknown
    exact ⟨_, tmp2, rfl, hk.tmp, hk.tmp2⟩
  | operate op operand | testBits operand =>
    obtain ⟨hknown, rfl⟩ := Option.ite_some_none_eq_some.mp h
    refine ⟨tmp, tmp2, ?_, hk.tmp, hk.tmp2⟩
    simp only [run, operand.eval_temporaries hknown hk]
    rfl
  | modify =>
    obtain ⟨hknown, rfl⟩ := Option.ite_some_none_eq_some.mp h
    obtain rfl := hk.tmp2 hknown
    exact ⟨tmp, _, rfl, hk.tmp, fun _ ↦ rfl⟩
  | addIndex i =>
    obtain rfl := Option.some.inj h
    exact ⟨_, tmp2, rfl, fun h ↦ congrArg (· + (i.get r.toAlu).setWidth 16) (hk.tmp h), hk.tmp2⟩
  | addIndexZp i =>
    obtain rfl := Option.some.inj h
    exact ⟨_, tmp2, rfl,
      fun h ↦ congrArg (fun w ↦ (lowByte w + i.get r.toAlu).setWidth 16) (hk.tmp h), hk.tmp2⟩
  | addIndexTmp2 i =>
    obtain rfl := Option.some.inj h
    exact ⟨tmp, _, rfl, hk.tmp, fun h ↦ congrArg (· + i.get r.toAlu) (hk.tmp2 h)⟩
  | resetBits =>
    obtain rfl := Option.some.inj h
    exact ⟨tmp, _, rfl, hk.tmp, fun h ↦ congrArg (· &&& ~~~r.a) (hk.tmp2 h)⟩
  | setBits =>
    obtain rfl := Option.some.inj h
    exact ⟨tmp, _, rfl, hk.tmp, fun h ↦ congrArg (· ||| r.a) (hk.tmp2 h)⟩
  | resetBit =>
    obtain rfl := Option.some.inj h
    exact ⟨tmp, _, rfl, hk.tmp, fun h ↦ congrArg (· &&& ~~~q.bit) (hk.tmp2 h)⟩
  | setBit =>
    obtain rfl := Option.some.inj h
    exact ⟨tmp, _, rfl, hk.tmp, fun h ↦ congrArg (· ||| q.bit) (hk.tmp2 h)⟩
  | prefetchEnd =>
    obtain rfl := Option.some.inj h
    obtain ⟨htmp, htmp2⟩ := r.prefetchEnd_tmp
    exact ⟨tmp, tmp2, r.prefetchEnd_temporaries tmp tmp2,
      fun h ↦ (hk.tmp h).trans htmp.symm, fun h ↦
      (hk.tmp2 h).trans htmp2.symm⟩
  | _ =>
    obtain rfl := Option.some.inj h
    exact ⟨tmp, tmp2, rfl, hk.tmp, hk.tmp2⟩

end

variable [Bus B]

/-! ## Instructions -/

/-- Machines that are the same but for what is not known. -/
structure Known.Same (k : Known) (m m' : Machine B) : Prop where
  prompt : m.Prompt
  temporaries : ∃ tmp tmp2, m' = m.onRegs (Regs.temporaries tmp tmp2) ∧ k.Fits tmp tmp2 m.regs

/-- The same number of cycles is left, or the same substate has been reached. -/
inductive Outcome.Same (k : Known) : Outcome (Machine B) → Outcome (Machine B) → Prop
  | ended {m m' : Machine B} {i : ℕ} (h : k.Same m m') : Same k (.ended m i) (.ended m' i)
  | paused {m m' : Machine B} {p : ℕ} (h : Known.nothing.Same m m') :
    Same k (.paused m p) (.paused m' p)

section

variable {k k' : Known} {m m' : Machine B} {q : InstState} {n i : ℕ} {g : Bool}

omit [Bus B] in
theorem Known.Same.forget (h : k.Same m m') : Known.nothing.Same m m' := by
  obtain ⟨hm, tmp, tmp2, rfl, -⟩ := h
  exact ⟨hm, tmp, tmp2, rfl, fun h ↦ absurd h Bool.false_ne_true,
    fun h ↦ absurd h Bool.false_ne_true⟩

omit [Bus B] in
theorem Known.Same.mono (h : k.Same m m') (htmp : k'.tmp = true → k.tmp = true)
    (htmp2 : k'.tmp2 = true → k.tmp2 = true) : k'.Same m m' := by
  obtain ⟨hm, tmp, tmp2, rfl, hk⟩ := h
  exact ⟨hm, tmp, tmp2, rfl, fun h ↦ hk.tmp (htmp h), fun h ↦ hk.tmp2 (htmp2 h)⟩

omit [Bus B] in
theorem Known.Same.behindNext (h : k.Same m m') :
    k.Same (m.onRegs fun regs ↦ { regs with ppc := regs.npc })
      (m'.onRegs fun regs ↦ { regs with ppc := regs.npc }) := by
  obtain ⟨hm, tmp, tmp2, rfl, hk⟩ := h
  exact ⟨⟨hm.toBeRedone, hm.deferrals⟩, tmp, tmp2, rfl, hk.tmp, hk.tmp2⟩

omit [Bus B] in
theorem Outcome.Same.mono {o o' : Outcome (Machine B)}
    (h : o.Same k o') (htmp : k'.tmp = true → k.tmp = true)
    (htmp2 : k'.tmp2 = true → k.tmp2 = true) : o.Same k' o' := by
  cases h with
  | ended h => exact .ended (h.mono htmp htmp2)
  | paused h => exact .paused h

omit [Bus B] in
theorem Outcome.Same.andThen {o o' : Outcome (Machine B)} {f : Machine B → ℕ → Outcome (Machine B)}
    (h : o.Same k o') (hf : ∀ m m' i, k.Same m m' → (f m i).Same k' (f m' i)) :
    (o.andThen f).Same k' (o'.andThen f) := by
  cases h with
  | ended h => exact hf _ _ _ h
  | paused h => exact .paused h

omit [Bus B] in
theorem same_access {type : LineType} {ins : Machine B → Machine B} (hm : k.Same m m')
    (hins : k'.Same (ins m) (ins m')) :
    (Block.access Machine.pins g q type (fun _ ↦ ins) n m i).Same k'
      (Block.access Machine.pins g q type (fun _ ↦ ins) n m' i) := by
  have hredo : Machine.pins.accessToBeRedone (ins m) = false := hins.prompt.toBeRedone
  have hredo' : Machine.pins.accessToBeRedone (ins m') = false := by
    obtain ⟨-, _, _, heq, -⟩ := hins
    rw [heq]
    exact hredo
  have hwaits : Block.Waits Machine.pins g type m' ↔ Block.Waits Machine.pins g type m := by
    obtain ⟨-, _, _, rfl, -⟩ := hm
    exact Iff.rfl
  rw [Block.access, Block.access, hredo, hredo']
  by_cases hw : Block.Waits Machine.pins g type m
  · rw [if_pos hw, if_pos (hwaits.mpr hw)]
    exact .paused hm.forget
  · rw [if_neg hw, if_neg (mt hwaits.mp hw), if_neg Bool.false_ne_true, if_neg Bool.false_ne_true]
    split
    · exact .paused hins.forget
    · exact .ended hins

/-- An opcode that reads only what is known does the same. -/
theorem same_run {c : Code} (h : c.learn k = some k') (hm : k.Same m m') :
    ((c.toBlock (B := B)).run Machine.pins g q n m i).Same k'
      ((c.toBlock (B := B)).run Machine.pins g q n m' i) := by
  induction c generalizing k k' m m' n i with
  | nop =>
    obtain rfl := Option.some.inj h
    exact .ended hm
  | line l =>
    obtain ⟨hprompt, tmp, tmp2, rfl, hk⟩ := hm
    obtain ⟨tmp', tmp2', hrun, hk'⟩ := Line.run_temporaries h hk q
    refine .ended ⟨⟨hprompt.toBeRedone, hprompt.deferrals⟩, tmp', tmp2', ?_, hk'⟩
    exact congrArg (fun regs ↦ { m with regs := regs }) hrun
  | read kind addr target =>
    obtain ⟨hknown, rfl⟩ := Option.ite_some_none_eq_some.mp h
    refine same_access hm ?_
    obtain ⟨hprompt, tmp, tmp2, rfl, hk⟩ := hm
    have hprompt' : (m.onRegs (Regs.temporaries tmp tmp2)).Prompt :=
      ⟨hprompt.toBeRedone, hprompt.deferrals⟩
    have haddr : addr.eval (m.onRegs (Regs.temporaries tmp tmp2)).regs = addr.eval m.regs :=
      Addr.eval_temporaries hknown hk
    obtain ⟨tmp', tmp2', hstore, hk'⟩ :=
      target.store_temporaries (Bus.read kind (addr.eval m.regs) m.bus).1 hk
    rw [Machine.readLine, hprompt.deferrable, hprompt'.deferrable]
    refine ⟨⟨hprompt.toBeRedone, hprompt.deferrals⟩, tmp', tmp2', ?_, hk'⟩
    simp only [Machine.makeRead, haddr]
    exact congrArg (fun regs ↦ Machine.mk regs _ _ _ _) hstore
  | write addr data =>
    obtain ⟨hknown, rfl⟩ := Option.ite_some_none_eq_some.mp h
    obtain ⟨haddr, hdata⟩ := Bool.and_eq_true_iff.mp hknown
    refine same_access hm ?_
    obtain ⟨hprompt, tmp, tmp2, rfl, hk⟩ := hm
    have hprompt' : (m.onRegs (Regs.temporaries tmp tmp2)).Prompt :=
      ⟨hprompt.toBeRedone, hprompt.deferrals⟩
    have haddr' : addr.eval (m.onRegs (Regs.temporaries tmp tmp2)).regs = addr.eval m.regs :=
      Addr.eval_temporaries haddr hk
    have hdata' : data.eval (m.onRegs (Regs.temporaries tmp tmp2)).regs = data.eval m.regs :=
      Data.eval_temporaries hdata hk
    rw [Machine.writeLine, hprompt.deferrable, hprompt'.deferrable]
    refine ⟨⟨hprompt.toBeRedone, hprompt.deferrals⟩, tmp, tmp2, ?_, hk⟩
    simp only [Machine.makeWrite, haddr', hdata']
    rfl
  | seq a b iha ihb =>
    obtain ⟨k₁, ha, hb⟩ := Option.bind_eq_some_iff.mp h
    exact (iha ha hm).andThen fun m₁ m₁' j ↦ ihb hb
  | ite c a b iha ihb =>
    obtain ⟨hknown, h⟩ := Option.ite_none_right_eq_some.mp h
    obtain ⟨k₁, ha, h⟩ := Option.bind_eq_some_iff.mp h
    obtain ⟨k₂, hb, rfl⟩ := Option.map_eq_some_iff.mp h
    have hcond : c.eval q m'.regs = c.eval q m.regs := by
      obtain ⟨-, tmp, tmp2, rfl, hk⟩ := hm
      exact Cond.eval_temporaries hknown hk q
    simp only [Code.toBlock, Block.run, hcond]
    split
    · exact (iha ha hm).mono (fun h ↦ (Bool.and_eq_true_iff.mp h).1) fun h ↦
        (Bool.and_eq_true_iff.mp h).1
    · exact (ihb hb hm).mono (fun h ↦ (Bool.and_eq_true_iff.mp h).2) fun h ↦
        (Bool.and_eq_true_iff.mp h).2
  | eatWhile c =>
    obtain ⟨hknown, rfl⟩ := Option.ite_some_none_eq_some.mp h
    have hcond : c.eval .none m'.regs = c.eval .none m.regs := by
      obtain ⟨-, tmp, tmp2, rfl, hk⟩ := hm
      exact Cond.eval_temporaries hknown hk _
    simp only [Code.toBlock, Block.run, hcond]
    split
    · exact .paused hm.forget
    · exact .ended hm
  | eatForever => exact .paused hm.forget

end

/-! ## Execution behind the import -/

/-- The same but for the temporaries. -/
structure Running.Same (r r' : Running InstState (Machine B)) : Prop where
  instState : r.instState = r'.instState
  core : Known.nothing.Same r.core r'.core
  icount : r.icount = r'.icount
  instSubstate : r.instSubstate = r'.instSubstate

open Dispatch

theorem same_executeLoop {q q' : InstState} {m m' : Machine B} {fuel i : ℕ} (hq : q ≠ .reset)
    (hq' : q' ≠ .reset) (hm : Known.nothing.Same (m.onRegs fun regs ↦ { regs with ppc := regs.npc })
      (m'.onRegs fun regs ↦ { regs with ppc := regs.npc })) (hi : 0 < i) (hfuel : i ≤ fuel) :
    ∃ r r', r.Same r' ∧ ∀ rounds, i < rounds →
    w65c02s.executeLoop fuel rounds ⟨q, m, i, 0⟩ = some r ∧
      w65c02s.executeLoop fuel rounds ⟨q', m', i, 0⟩ = some r' := by
  induction i using Nat.strong_induction_on generalizing q q' m m' with
  | _ i ih =>
    have hir : m'.regs.ir = m.regs.ir := by
      obtain ⟨-, tmp, tmp2, heq, -⟩ := hm
      have hregs := congrArg (fun m : Machine B ↦ m.regs.ir) heq
      exact hregs
    obtain ⟨k, hk⟩ := Option.isSome_iff_exists.mp (learns_opcode m.regs.ir)
    have hh : w65c02s.handler (.opcode m.regs.ir) = some (w65c02s.opcode m.regs.ir) := rfl
    have hround := executeLoop_succ (Running.next_of_not_reset (r := ⟨q, m, i, 0⟩) hq) hh hi hfuel
    have hround' := executeLoop_succ (Running.next_of_not_reset (r := ⟨q', m', i, 0⟩) hq')
      (show w65c02s.handler (.opcode m'.regs.ir) =
      some (w65c02s.opcode m.regs.ir) from hir ▸ hh) hi hfuel
    have hsame : ((w65c02s.opcode m.regs.ir).run (.opcode m.regs.ir) _ i).Same k
        ((w65c02s.opcode m.regs.ir).run (.opcode m.regs.ir) _ i) := same_run hk hm
    have hleaves : (w65c02s.opcode m.regs.ir).Leaves i
        ((w65c02s.opcode m.regs.ir).run (.opcode m.regs.ir) _ i) := Handler.leaves_run hm.prompt hi
    have hshorter : ((w65c02s.opcode m.regs.ir).run (.opcode m.regs.ir)
        (m.onRegs fun regs ↦ { regs with ppc := regs.npc }) i).Shorter i :=
      Handler.shorter_run (ticks_opcode m.regs.ir) hi
    simp only [hir] at hround'
    generalize (w65c02s.opcode m.regs.ir).run (.opcode m.regs.ir)
      (m.onRegs fun regs ↦ { regs with ppc := regs.npc }) i = o at *
    generalize (w65c02s.opcode m.regs.ir).run (.opcode m.regs.ir)
      (m'.onRegs fun regs ↦ { regs with ppc := regs.npc }) i = o' at *
    cases hsame with
    | @ended c c' j hsame =>
      have hlt : j < i := hshorter
      have hnext := next_ne_reset (B := B) hh
      obtain ⟨r, r', hr, hloop⟩ :=
        ih j hlt hnext hnext hsame.forget.behindNext hleaves.within.1 (by omega)
      refine ⟨r, r', hr, fun rounds hrounds ↦ ?_⟩
      obtain ⟨rounds, rfl⟩ := Nat.exists_eq_succ_of_ne_zero (Nat.ne_zero_of_lt hrounds)
      rw [hround, hround']
      exact hloop rounds (by omega)
    | @paused c c' p hsame =>
      refine ⟨⟨.opcode m.regs.ir, c, 0, p⟩, ⟨.opcode m.regs.ir, c', 0, p⟩, ⟨rfl, hsame, rfl, rfl⟩,
        fun rounds hrounds ↦ ?_⟩
      obtain ⟨rounds, rfl⟩ := Nat.exists_eq_succ_of_ne_zero (Nat.ne_zero_of_lt hrounds)
      rw [hround, hround']
      exact ⟨executeLoop_of_icount (by omega) rfl, executeLoop_of_icount (by omega) rfl⟩

/-! ## The prefetch -/

/-- `prefetch_end` behind the read of an opcode. -/
theorem Regs.prefetchEnd_eq (r : Regs) (hirq : r.irqTaken = false) : r.prefetchEnd =
    { r with
      sync := false
      irqTaken := r.requested
      ir := if r.requested then 0x00 else r.ir
      pc := if r.requested then r.pc else r.pc + 1 } := by
  obtain ⟨alu, ppc, npc, pc, sp, tmp, tmp2, ir, nmiState, irqState, apu, v, rdy, nmi, irq,
      sync, inhibit⟩ := r
  obtain rfl : irq = false := hirq
  unfold prefetchEnd
  dsimp only
  split
  · next h => simp [requested, h]
  · next h => simp [requested, h]

/-- What `prefetch()` leaves: an interrupt is taken if one is requested. -/
def Regs.fetched (v : Byte) (r : Regs) : Regs :=
  { r with
    npc := r.pc
    sync := false
    irqTaken := r.requested
    ir := if r.requested then 0x00 else v
    pc := if r.requested then r.pc else r.pc + 1 }

theorem Machine.prefetch_eq {m : Machine B} (hm : m.Prompt)
    (hirq : m.regs.irqTaken = false) : m.prefetch =
    { m with
      regs := m.regs.fetched (Bus.read .readSync m.regs.pc m.bus).1
      bus := (Bus.read .readSync m.regs.pc m.bus).2
      log := m.log ++ [.read .readSync m.regs.pc (Bus.read .readSync m.regs.pc m.bus).1] } := by
  obtain ⟨regs, bus, log, redo, deferrals⟩ := m
  obtain ⟨rfl, rfl⟩ : redo = false ∧ deferrals = [] := ⟨hm.toBeRedone, hm.deferrals⟩
  exact congrArg (fun regs ↦ Machine.mk regs _ _ _ _) (Regs.prefetchEnd_eq _ hirq)

/-- Registers that differ in their program counters and the temporaries fetch the same. -/
theorem Regs.SameState.fetched {r r' : Regs} (h : r.SameState r') (hirq : r.irqTaken = false)
    (v : Byte) : { r.fetched v with ppc := r.pc } =
      { Regs.fetched v { r' with npc := r.pc, pc := r.pc, irqTaken := false } with
      ppc := r.pc }.temporaries
        r.tmp r.tmp2 := by
  obtain ⟨alu, ppc, npc, pc, sp, tmp, tmp2, ir, nmiState, irqState, apu, v, rdy, nmi, irq,
      sync, inhibit⟩ := r
  obtain ⟨rfl, rfl, rfl, rfl, rfl, rfl, rfl, rfl, rfl⟩ := h
  obtain rfl : irq = false := hirq
  rfl

/-- The instruction at `a` has been prefetched, or an interrupt is taken in its place. -/
structure Running.Prefetched (a : Word) (regs : Regs) (bus : B)
    (r : Running InstState (Machine B)) : Prop where
  instSubstate : r.instSubstate = 0
  instState : r.instState = .opcode r.core.regs.ir
  npc : r.core.regs.npc = a
  irqTaken : r.core.regs.irqTaken = regs.requested
  ir : r.core.regs.ir = if regs.requested then 0x00 else (Bus.read .readSync a bus).1
  pc : r.core.regs.pc = if regs.requested then a else a + 1

/-- The first accesses of an interrupt push the address `a`. -/
def Running.Pushes (a : Word) (r : Running InstState (Machine B)) : Prop :=
  ∃ r' d, w65c02s.executeRun 4 { r with icount := (3 : ℕ) } = some r' ∧ r'.core.log = r.core.log ++
    [.read .readArg a d, .write r.core.regs.sp
    (highByte a), .write r.core.regs.decSp.sp (lowByte a)]

/-- The first three cycles of an interrupt. -/
theorem run_brk {m : Machine B} (hm : m.Prompt) (hirq : m.regs.irqTaken = true) :
    ∃ (m' : Machine B) (p : ℕ) (d : Byte),
      Ow65c02s.brkSImp.run (.opcode 0x00) m 3 = .paused m' p ∧ m'.log = m.log ++
      [.read .readArg m.regs.pc d, .write m.regs.sp (highByte m.regs.pc), .write m.regs.decSp.sp
      (lowByte m.regs.pc)] := by
  obtain ⟨regs, bus, log, redo, deferrals⟩ := m
  obtain ⟨rfl, rfl⟩ : redo = false ∧ deferrals = [] := ⟨hm.toBeRedone, hm.deferrals⟩
  obtain ⟨alu, ppc, npc, pc, sp, tmp, tmp2, ir, nmiState, irqState, apu, v, rdy, nmi, irq, sync,
      inhibit⟩ := regs
  obtain rfl : irq = true := hirq
  refine ⟨_, _, (Bus.read .readArg pc bus).1, rfl, ?_⟩
  show log ++ [_] ++ [_] ++ [_] = log ++ [_, _, _]
  simp only [List.append_assoc]
  rfl

section

variable {a : Word} {r : Running InstState (Machine B)} (hr : r.core.Prompt)
include hr

theorem core_setStatePc : (r.setStatePc a).core =
    { r.core with
      regs := { r.core.regs with npc := a, pc := a, irqTaken := false }.fetched
        (Bus.read .readSync a r.core.bus).1 |> fun regs ↦ { regs with ppc := regs.npc }
      bus := (Bus.read .readSync a r.core.bus).2
      log := r.core.log ++ [.read .readSync a (Bus.read .readSync a r.core.bus).1] } := by
  have hprefetch :=
    Machine.prefetch_eq (m := (r.core.onRegs fun regs ↦ { regs with npc := a }).onRegs
    fun regs ↦ { regs with pc := regs.npc, irqTaken := false }) ⟨hr.toBeRedone, hr.deferrals⟩ rfl
  exact congrArg (fun m : Machine B ↦ m.onRegs fun regs ↦ { regs with ppc := regs.npc }) hprefetch

theorem prefetched_setStatePc : (r.setStatePc a).Prefetched a r.core.regs r.core.bus := by
  have hcore := core_setStatePc (a := a) hr
  refine ⟨rfl, rfl, ?_, ?_, ?_, ?_⟩ <;> rw [hcore] <;> rfl

theorem pushes_setStatePc (hrequested : r.core.regs.requested = true) :
    (r.setStatePc a).Pushes a := by
  have hprefetched := prefetched_setStatePc (a := a) hr
  have hpc : (r.setStatePc a).core.regs.pc = a := hprefetched.pc.trans (if_pos hrequested)
  have hir : (r.setStatePc a).core.regs.ir = 0x00 := hprefetched.ir.trans (if_pos hrequested)
  have hprompt : (r.setStatePc a).core.Prompt := by
    rw [core_setStatePc hr]
    exact ⟨hr.toBeRedone, hr.deferrals⟩
  obtain ⟨m', p, d, hrun, hlog⟩ :=
    run_brk (m := (r.setStatePc a).core.onRegs fun regs ↦ { regs with ppc := regs.npc })
    ⟨hprompt.toBeRedone, hprompt.deferrals⟩ (hprefetched.irqTaken.trans hrequested)
  have hnext :
      (Running.mk (.opcode (r.setStatePc a).core.regs.ir) (r.setStatePc a).core (3 : ℕ) 0).next =
      ⟨.opcode 0x00, (r.setStatePc a).core.onRegs fun regs ↦ { regs with ppc := regs.npc },
      (3 : ℕ), 0⟩ := by
    rw [Running.next_of_not_reset InstState.noConfusion, hir]
  refine ⟨⟨.opcode 0x00, m', 0, p⟩, d, ?_, ?_⟩
  · refine (executeLoop_succ hnext handler_brk (by decide) (by decide) 3).trans ?_
    rw [hrun]
    exact executeLoop_of_icount (by decide) rfl
  · refine hlog.trans ?_
    rw [show ((r.setStatePc a).core.onRegs fun regs ↦
      { regs with ppc := regs.npc }).regs.pc = a from hpc]
    rfl

end

/-- **Setting the program counter restarts execution.** -/
theorem setStatePc_restarts (a : Word) {r : Running InstState (Machine B)} (hr : r.core.Prompt)
    {q : InstState}
    (hq : q ≠ .reset) {m : Machine B} (hm : m.Prompt) (hstate : m.regs.SameState r.core.regs)
    (hbus : m.bus = r.core.bus) (hlog : m.log = r.core.log) (hpc : m.regs.pc = a)
    (hirq : m.regs.irqTaken = false) {n fuel : ℕ} (hn : 0 < n) (hfuel : n < fuel) :
    (∃ s s', w65c02s.executeRun fuel { r.setStatePc a with icount := n } = some s ∧
      w65c02s.executeRun fuel ⟨q, m.prefetch, n, 0⟩ = some s' ∧ s.Same s') ∧
    (r.setStatePc a).Prefetched a r.core.regs r.core.bus ∧
    (r.core.regs.requested = true → (r.setStatePc a).Pushes a) := by
  refine ⟨?_, prefetched_setStatePc hr, pushes_setStatePc hr⟩
  have hsame : Known.nothing.Same ((r.setStatePc a).core.onRegs fun regs ↦ { regs with
      ppc := regs.npc }) (m.prefetch.onRegs fun regs ↦ { regs with ppc := regs.npc }) := by
    subst hpc
    rw [core_setStatePc hr, Machine.prefetch_eq hm hirq, hbus, hlog]
    refine ⟨⟨hr.toBeRedone, hr.deferrals⟩, m.regs.tmp, m.regs.tmp2, ?_, nofun, nofun⟩
    have hregs := hstate.fetched hirq (Bus.read .readSync m.regs.pc r.core.bus).1
    simp only [Machine.onRegs, hm.toBeRedone, hm.deferrals, hr.toBeRedone, hr.deferrals]
    exact congrArg (fun regs ↦ Machine.mk regs _ _ _ _) hregs
  obtain ⟨s, s', hs, hloop⟩ := same_executeLoop (q := .opcode (r.setStatePc a).core.regs.ir)
    InstState.noConfusion hq hsame hn (Nat.le_of_lt hfuel)
  exact ⟨s, s', (hloop fuel hfuel).1, (hloop fuel hfuel).2, hs⟩

/-- A processor in the middle of LDA abs, with an NMI pending. -/
def insideLda : Running InstState (Machine Ram) :=
  { fullOfBrk with
    instState := .opcode 0xad
    core := ⟨{ Regs.init with nmiPending := true }, fullOfBrk.core.bus, [], false, []⟩
    instSubstate := 3 }

theorem setStatePc_restarts_insideLda :
    let m : Machine Ram :=
      ⟨{ Regs.init with nmiPending := true, pc := 0x1000 }, insideLda.core.bus, [], false, []⟩
    (∃ s s', w65c02s.executeRun 9 { insideLda.setStatePc 0x1000 with icount := (8 : ℕ) } = some s ∧
      w65c02s.executeRun 9 ⟨.none, m.prefetch, (8 : ℕ), 0⟩ = some s' ∧ s.Same s') ∧
    (insideLda.setStatePc 0x1000).Prefetched 0x1000 insideLda.core.regs insideLda.core.bus ∧
    (insideLda.setStatePc 0x1000).Pushes 0x1000 := by
  intro m
  have hrequested : insideLda.core.regs.requested = true := by decide
  refine And.imp_right (And.imp_right fun hpushes : insideLda.core.regs.requested = true →
    _ ↦ hpushes hrequested) ?_
  exact setStatePc_restarts 0x1000 (m := m) ⟨rfl, rfl⟩ InstState.noConfusion ⟨rfl, rfl⟩
    ⟨rfl, rfl, rfl, rfl, rfl, rfl, rfl, rfl, rfl⟩ rfl rfl rfl rfl (by decide) (by decide)

end RoscoEmulator.M6502
