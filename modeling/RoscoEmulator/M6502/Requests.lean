import RoscoEmulator.M6502.Execution

/-!
# Interrupt requests between the cycles

IRQ and NMI may change behind every cycle of an instruction. `Phase` is how far an instruction is:
what it knows of `m_irq_taken`, the program counter and the status. `Code.check` follows the lines
of an opcode from phase to phase, and `check_sound` says that it does so rightly, whatever the
changes are. -/

namespace RoscoEmulator.M6502

variable {B : Type*}

/-! ## Changes -/

/-- The lines that request an interrupt. -/
inductive Request
  | irq | nmi
deriving DecidableEq, Repr

def Request.line : Request → InputLine
  | irq => .irq
  | nmi => .nmi

/-- A change of a line. -/
def Request.event (change : Request × Bool) : Event := .input change.1.line change.2

/-- The changes between two cycles. -/
abbrev Changes : Type := List (Request × Bool)

def Changes.events (as : Changes) : List Event := as.map Request.event

/-- What is done to the machine by a change. At least one cycle has passed before it. -/
def Machine.hear (change : Request × Bool) (m : Machine B) : Machine B :=
  { m with
    regs := m.regs.executeSetInput true change.1.line change.2
    log := m.log ++ [Request.event change] }

/-- Any number of changes between two cycles. -/
def requests (B : Type*) : Surroundings Changes (Machine B) where
  change as m := as.foldl (fun m a ↦ m.hear a) m
  idle := []
  change_idle _ := rfl

/-- Changes move nothing but the lines. -/
theorem requests_regs (as : Changes) (m : Machine B) :
    ∃ irq nmi pending, ((requests B).change as m).regs =
      { m.regs with irqState := irq, nmiState := nmi, nmiPending := pending } := by
  induction as generalizing m with
  | nil => exact ⟨_, _, _, rfl⟩
  | cons a as ih =>
    obtain ⟨irq, nmi, pending, h⟩ := ih (m.hear a)
    refine ⟨irq, nmi, pending, h.trans ?_⟩
    obtain ⟨request, state⟩ := a
    cases request <;> rfl

/-- Nothing is deferred. -/
structure Machine.Prompt (m : Machine B) : Prop where
  toBeRedone : m.toBeRedone = false
  deferrals : m.deferrals = []

variable {t : Stage} {target : Target} {t' : Stage} {m : Machine B} {q : InstState}

theorem Machine.Prompt.change (hm : m.Prompt) (as : Changes) :
    ((requests B).change as m).Prompt := by
  induction as generalizing m with
  | nil => exact hm
  | cons a as ih => exact ih (m := m.hear a) ⟨hm.toBeRedone, hm.deferrals⟩

theorem Machine.Prompt.deferrable (hm : m.Prompt) (target : Target) (make : Machine B → Machine B) :
    m.deferrable target make = make m := by
  obtain ⟨regs, bus, log, toBeRedone, deferrals⟩ := m
  obtain rfl : deferrals = [] := hm.deferrals
  rfl

theorem of_accesses_prompt {g : Bool} {make : Machine B → Machine B} {type : LineType}
    {m' : Machine B} {as : List Changes} (h : Accesses Machine.pins
    (requests B) g q type (fun _ ↦ Machine.deferrable target make) m as m') (hm : m.Prompt)
    (hmake : ∀ m : Machine B, m.Prompt → (make m).Prompt) {I J : Regs → Prop}
    (hI : ∀ as (m : Machine B), I m.regs → I ((requests B).change as m).regs)
    (hJ : ∀ as (m : Machine B), J m.regs → J ((requests B).change as m).regs)
    (hIJ : ∀ m : Machine B, I m.regs → J (make m).regs) (hstart : I m.regs) :
    m'.Prompt ∧ J m'.regs := by
  induction h with
  | wait a _ _ ih => exact ih (hm.change a) (hI a _ hstart)
  | @redo c c' a as _ hredo _ ih =>
    rw [hm.deferrable] at hredo
    exact absurd ((hmake _ hm).toBeRedone.symm.trans hredo) Bool.false_ne_true
  | @done c a _ _ =>
    rw [hm.deferrable]
    exact ⟨(hmake c hm).change a, hJ a _ (hIJ c hstart)⟩

/-! ## The status -/

/-- B and E are set, as they are in `m_P` at all times. -/
def Tagged (v : Byte) : Prop := v &&& (flagB ||| flagE) = flagB ||| flagE

instance (v : Byte) : Decidable (Tagged v) := inferInstanceAs (Decidable (_ = _))

theorem tagged_iff : ∀ v : Byte, Tagged v ↔ v.getLsbD 4 = true ∧ v.getLsbD 5 = true := by
  decide

theorem Tagged.or {v : Byte} (h : Tagged v) (w : Byte) : Tagged (v ||| w) := by
  rw [tagged_iff] at h ⊢
  simp [h]

theorem tagged_or (v : Byte) : Tagged (v ||| (flagB ||| flagE)) := by
  rw [BitVec.or_comm]
  exact Tagged.or (by decide) v

theorem Tagged.clear {v f : Byte} (h : Tagged v) (hf : f &&& (flagB ||| flagE) = 0) :
    Tagged (v &&& ~~~f) := by
  have hclear : ∀ f : Byte, f &&& (flagB ||| flagE) = 0 → Tagged (~~~f) := by decide
  have hf' := hclear f hf
  rw [tagged_iff] at h hf' ⊢
  simp only [BitVec.getLsbD_and, h, hf', Bool.and_self, and_self]

namespace Alu

variable {s : Alu}

theorem tagged_clear {f : Byte} (hf : f &&& (flagB ||| flagE) = 0) (h : Tagged s.p) :
    Tagged (s.clear f).p :=
  h.clear hf

theorem tagged_raise (f : Byte) (c : Bool) (h : Tagged s.p) : Tagged (s.raise f c).p := by
  cases c
  · exact h
  · exact h.or f

variable (v : Byte)

theorem tagged_raiseZn (h : Tagged s.p) : Tagged (s.raiseZn v).p := by
  unfold raiseZn
  split
  · exact tagged_raise _ _ h
  · exact tagged_raise _ _ h

theorem tagged_setNz (h : Tagged s.p) : Tagged (s.setNz v).p :=
  tagged_raise _ _ (tagged_raise _ _ (tagged_clear rfl h))

theorem tagged_doAdcD (h : Tagged s.p) : Tagged (s.doAdcD v).p := by
  unfold doAdcD
  extract_lets c al al' ah s₁ s₂ s₃ ah'
  have h₁ : Tagged s₁.p := tagged_clear rfl h
  have h₂ : Tagged s₂.p := by
    show Tagged (if _ then s₁.raise flagZ true else s₁.raise flagN _).p
    split
    · exact tagged_raise _ _ h₁
    · exact tagged_raise _ _ h₁
  have h₃ : Tagged s₃.p := tagged_raise _ _ h₂
  exact tagged_raise _ _ h₃

theorem tagged_doAdc (h : Tagged s.p) : Tagged (s.doAdc v).p := by
  unfold doAdc
  split
  · exact tagged_doAdcD v h
  · exact tagged_raise _ _ (tagged_raise _ _ (tagged_raiseZn _ (tagged_clear rfl h)))

theorem tagged_doSbcC (h : Tagged s.p) : Tagged (s.doSbcC v).p := by
  unfold doSbcC
  split
  · exact tagged_raise _ _ (tagged_raise _ _ (tagged_clear rfl h))
  · exact tagged_raise _ _ (tagged_raise _ _ (tagged_raiseZn _ (tagged_clear rfl h)))

theorem tagged_run (op : Operation) (v : Byte) (h : Tagged s.p) : Tagged (op.run v s).p := by
  cases op with
  | and | eor | ora => exact tagged_setNz _ h
  | adc => exact tagged_doAdc v h
  | sbcC => exact tagged_doSbcC v h
  | bit => exact tagged_raise _ _ (tagged_raise _ _ (tagged_raise _ _ (tagged_clear rfl h)))
  | cmp r => exact tagged_raise _ _ (tagged_raiseZn _ (tagged_clear rfl h))

theorem tagged_modify (m : Modification) (v : Byte) (h : Tagged s.p) : Tagged (m.run v s).2.p := by
  cases m with
  | asl => exact tagged_raise _ _ (tagged_raiseZn _ (tagged_clear rfl h))
  | lsr => exact tagged_raise _ _ (tagged_raise _ _ (tagged_clear rfl h))
  | rol | ror => exact tagged_raiseZn _ (tagged_raise _ _ (tagged_clear rfl h))
  | inc | dec => exact tagged_setNz _ h

theorem set_p (r : Reg) (v : Byte) (s : Alu) : (r.set v s).p = s.p := by
  cases r <;> rfl

end Alu

/-! ## Phases -/

/-- How far an instruction is. -/
inductive Phase
  /-- In front of `m_irq_taken = false` in the opcode that serves the interrupts. -/
  | entering
  | running
  /-- Behind `prefetch_start`. -/
  | fetching
  /-- Behind `prefetch_end`. -/
  | settled
deriving DecidableEq

/-- What `prefetch_end` leaves: an interrupt is taken in place of the opcode at `m_NPC`, or the
opcode has been fetched and no NMI waits. -/
structure Regs.Settled (r : Regs) : Prop where
  taken : r.irqTaken = true → r.ir = 0x00 ∧ r.pc = r.npc
  fetched : r.irqTaken = false → r.nmiPending = false ∧ r.pc = r.npc + 1

def Phase.Holds (r : Regs) : Phase → Prop
  | entering => True
  | running => r.irqTaken = false
  | fetching => r.irqTaken = false ∧ r.pc = r.npc
  | settled => r.Settled

/-- A phase, and whether `m_TMP` is a status that has been pulled. -/
structure Stage where
  phase : Phase
  status : Bool
deriving DecidableEq

structure Stage.Holds (t : Stage) (r : Regs) : Prop where
  tagged : Tagged r.p
  inhibited : r.inhibitInterrupts = false
  status : t.status = true → Tagged (lowByte r.tmp)
  phase : t.phase.Holds r

/-- What the phases are about. -/
def Regs.flow (r : Regs) : Bool × Bool × Bool × Word × Word × Byte :=
  (r.inhibitInterrupts, r.irqTaken, r.nmiPending, r.pc, r.npc, r.ir)

namespace Stage

variable {t t' : Stage} {r r' : Regs}

theorem Holds.keep (h : t.Holds r) (hp : Tagged r'.p)
    (htmp : t.status = true → Tagged (lowByte r'.tmp)) (hflow : r'.flow = r.flow) : t.Holds r' := by
  simp only [Regs.flow, Prod.mk.injEq] at hflow
  obtain ⟨hinhibit, hirq, hnmi, hpc, hnpc, hir⟩ := hflow
  refine ⟨hp, hinhibit.trans h.inhibited, htmp, ?_⟩
  have hphase := h.phase
  cases hq : t.phase with
  | entering => trivial
  | running =>
    rw [hq] at hphase
    exact hirq.trans hphase
  | fetching =>
    rw [hq] at hphase
    exact ⟨hirq.trans hphase.1, by rw [hpc, hnpc]; exact hphase.2⟩
  | settled =>
    rw [hq] at hphase
    refine ⟨fun ht ↦ ?_, fun hf ↦ ?_⟩
    · rw [hir, hpc, hnpc]
      exact hphase.taken (hirq.symm.trans ht)
    · rw [hnmi, hpc, hnpc]
      exact hphase.fetched (hirq.symm.trans hf)

theorem Holds.forget (h : t.Holds r) (ht : t' = { t with status := false }) (hp : Tagged r'.p)
    (hflow : r'.flow = r.flow) : t'.Holds r' := by
  subst ht
  have h' : ({ t with status := false } : Stage).Holds r :=
    ⟨h.tagged, h.inhibited, fun hs ↦ absurd hs Bool.false_ne_true, h.phase⟩
  exact h'.keep hp (fun hs ↦ absurd hs Bool.false_ne_true) hflow

/-- The program counter is free until the prefetch. -/
theorem Holds.movePc (h : t.Holds r) (hphase : t.phase = .entering ∨ t.phase = .running)
    (pc : Word) : t.Holds { r with pc := pc } := by
  refine ⟨h.tagged, h.inhibited, h.status, ?_⟩
  have hp := h.phase
  rcases hphase with hphase | hphase
  · rw [hphase]
    trivial
  · rw [hphase] at hp ⊢
    exact hp

/-- Before the end of the prefetch, changes of the lines do not matter. -/
theorem Holds.change (h : t.Holds r) (ht : t.phase ≠ .settled) (irq nmi pending : Bool) :
    t.Holds { r with irqState := irq, nmiState := nmi, nmiPending := pending } := by
  refine ⟨h.tagged, h.inhibited, h.status, ?_⟩
  have hphase := h.phase
  cases hq : t.phase with
  | entering => trivial
  | running | fetching =>
    rw [hq] at hphase
    exact hphase
  | settled => exact absurd hq ht

theorem Holds.prefetchEnd (h : t.Holds r) (hr : r.irqTaken = false ∧ r.pc = r.npc) :
    ({ t with phase := .settled } : Stage).Holds r.prefetchEnd := by
  unfold Regs.prefetchEnd
  dsimp only
  split
  · exact ⟨h.tagged, h.inhibited, h.status, fun _ ↦ ⟨rfl, hr.2⟩,
      fun hf ↦ absurd hf Bool.noConfusion⟩
  · next hnone =>
    rw [h.inhibited, Bool.not_false, Bool.and_true, Bool.or_eq_true, not_or] at hnone
    refine ⟨h.tagged, h.inhibited, h.status, fun ht ↦ ?_, fun _ ↦ ⟨?_, ?_⟩⟩
    · exact absurd (hr.1.symm.trans ht) Bool.false_ne_true
    · exact Bool.eq_false_iff.mpr hnone.1
    · exact congrArg (· + 1) hr.2

end Stage

/-- The phase behind a line, if the line may stand there. -/
def Line.check (t : Stage) : Line → Option Stage
  | incPc | jump | jumpNext | takeBranch =>
    if t.phase = .entering ∨ t.phase = .running then some t else none
  | addIndex _ | addIndexZp _ => some { t with status := false }
  | clear f => if f &&& (flagB ||| flagE) = 0 then some t else none
  | pullStatus => if t.status then some t else none
  | clearIrqTaken =>
      if t.phase = .entering ∨ t.phase = .running then some { t with phase := .running } else none
  | prefetchStart => if t.phase = .running then some { t with phase := .fetching } else none
  | prefetchEnd => if t.phase = .fetching then some { t with phase := .settled } else none
  | _ => some t

/-- The phase behind a read. -/
def Target.check (t : Stage) : Target → Option Stage
  | pc | pcHigh => if t.phase = .entering ∨ t.phase = .running then some t else .none
  | tmp | tmpHigh => some { t with status := false }
  | tmpStatus => some { t with status := true }
  | _ => some t

/-- The phase behind the lines of an opcode. A loop without end may be followed by any. -/
def Code.check : Code → Stage → Option Stage
  | nop, t => some t
  | line l, t => l.check t
  | read _ _ target, t => if t.phase = .settled then none else target.check t
  | write _ _, t => if t.phase = .settled then none else some t
  | seq a b, t => (a.check t).bind b.check
  | ite _ a b, t => if a.check t = b.check t then a.check t else none
  | eatWhile _, t => if t.phase = .settled then none else some t
  | eatForever, t => some { t with phase := .settled }

theorem Line.check_sound {l : Line} {r : Regs} (h : l.check t = some t') (hr : t.Holds r) :
    t'.Holds (l.run q r) := by
  cases l with
  | incPc | jump | jumpNext | takeBranch =>
    obtain ⟨hphase, rfl⟩ := Option.ite_some_none_eq_some.mp h
    exact hr.movePc hphase _
  | clear f =>
    obtain ⟨hf, rfl⟩ := Option.ite_some_none_eq_some.mp h
    exact hr.keep (Alu.tagged_clear hf hr.tagged) hr.status rfl
  | pullStatus =>
    obtain ⟨hs, rfl⟩ := Option.ite_some_none_eq_some.mp h
    exact hr.keep (hr.status hs) hr.status rfl
  | clearIrqTaken =>
    obtain ⟨-, rfl⟩ := Option.ite_some_none_eq_some.mp h
    exact ⟨hr.tagged, hr.inhibited, hr.status, rfl⟩
  | prefetchStart =>
    obtain ⟨hphase, rfl⟩ := Option.ite_some_none_eq_some.mp h
    have hp := hr.phase
    rw [hphase] at hp
    exact ⟨hr.tagged, hr.inhibited, hr.status, hp, rfl⟩
  | prefetchEnd =>
    obtain ⟨hphase, rfl⟩ := Option.ite_some_none_eq_some.mp h
    have hp := hr.phase
    rw [hphase] at hp
    exact hr.prefetchEnd hp
  | addIndex i | addIndexZp i =>
    obtain rfl := Option.some.inj h
    exact hr.forget rfl hr.tagged rfl
  | clearNmiPending =>
    obtain rfl := Option.some.inj h
    refine ⟨hr.tagged, hr.inhibited, hr.status, ?_⟩
    have hp := hr.phase
    cases hq : t.phase with
    | entering => trivial
    | running | fetching =>
      rw [hq] at hp
      exact hp
    | settled =>
      rw [hq] at hp
      exact ⟨hp.taken, fun hf ↦ ⟨rfl, (hp.fetched hf).2⟩⟩
  | incSp | decSp | addIndexTmp2 | txs | resetBits | setBits | resetBit | setBit
  | standardIrqCallback | endInterrupt =>
    obtain rfl := Option.some.inj h
    exact hr.keep hr.tagged hr.status rfl
  | operate op operand =>
    obtain rfl := Option.some.inj h
    exact hr.keep (Alu.tagged_run op _ hr.tagged) hr.status rfl
  | modify m =>
    obtain rfl := Option.some.inj h
    exact hr.keep (Alu.tagged_modify m _ hr.tagged) hr.status rfl
  | modifyReg m i =>
    obtain rfl := Option.some.inj h
    have hp :
        Tagged (i.set (m.run (i.get r.toAlu) r.toAlu).1 (m.run (i.get r.toAlu) r.toAlu).2).p := by
      rw [Alu.set_p]
      exact Alu.tagged_modify m _ hr.tagged
    exact hr.keep hp hr.status rfl
  | setNz i =>
    obtain rfl := Option.some.inj h
    exact hr.keep (Alu.tagged_setNz _ hr.tagged) hr.status rfl
  | transfer dest source =>
    obtain rfl := Option.some.inj h
    have hp : Tagged (dest.set (source.get r.toAlu) r.toAlu).p := by
      rw [Alu.set_p]
      exact hr.tagged
    exact hr.keep (Alu.tagged_setNz _ hp) hr.status rfl
  | tsx =>
    obtain rfl := Option.some.inj h
    exact hr.keep
      (Alu.tagged_setNz (s := { r.toAlu with x := lowByte r.sp }) _ hr.tagged) hr.status rfl
  | raise f =>
    obtain rfl := Option.some.inj h
    exact hr.keep (hr.tagged.or f) hr.status rfl
  | testBits operand =>
    obtain rfl := Option.some.inj h
    have hp :
        Tagged (if r.a &&& operand.eval r ≠ 0 then r.clear flagZ else r.raise flagZ true).p := by
      split
      · exact Alu.tagged_clear rfl hr.tagged
      · exact Alu.tagged_raise _ _ hr.tagged
    exact hr.keep hp hr.status rfl
  | enterInterrupt =>
    obtain rfl := Option.some.inj h
    exact hr.keep ((hr.tagged.or flagI).clear rfl) hr.status rfl

theorem Target.check_sound {r : Regs} (h : target.check t = some t') (ht : t.phase ≠ .settled)
    (hr : t.Holds r) (v : Byte) : t'.Holds (target.store v r) := by
  cases target with
  | none | tmp2 =>
    obtain rfl := Option.some.inj h
    exact hr.keep hr.tagged hr.status rfl
  | reg i =>
    obtain rfl := Option.some.inj h
    have hp : Tagged (i.set v r.toAlu).p := by
      rw [Alu.set_p]
      exact hr.tagged
    exact hr.keep hp hr.status rfl
  | p =>
    obtain rfl := Option.some.inj h
    exact hr.keep (tagged_or v) hr.status rfl
  | tmp | tmpHigh =>
    obtain rfl := Option.some.inj h
    exact hr.forget rfl hr.tagged rfl
  | tmpStatus =>
    obtain rfl := Option.some.inj h
    have h' : ({ t with status := false } : Stage).Holds (Target.tmpStatus.store v r) :=
      hr.forget rfl hr.tagged rfl
    refine ⟨h'.tagged, h'.inhibited, fun _ ↦ ?_, h'.phase⟩
    rw [store, lowByte_setWidth]
    exact tagged_or v
  | pc | pcHigh =>
    obtain ⟨hphase, rfl⟩ := Option.ite_some_none_eq_some.mp h
    exact hr.movePc hphase _
  | ir =>
    obtain rfl := Option.some.inj h
    refine ⟨hr.tagged, hr.inhibited, hr.status, ?_⟩
    have hp := hr.phase
    cases hq : t.phase with
    | entering => trivial
    | running | fetching =>
      rw [hq] at hp
      exact hp
    | settled => exact absurd hq ht

theorem Target.phase_of_check (h : target.check t = some t') : t'.phase = t.phase := by
  cases target with
  | none | reg | tmp | tmp2 | tmpHigh | tmpStatus | p | ir =>
    obtain rfl := Option.some.inj h
    rfl
  | pc | pcHigh =>
    obtain ⟨-, rfl⟩ := Option.ite_some_none_eq_some.mp h
    rfl

/-- **Phases are right.** An instruction that is checked comes from what its first phase says to
what its last one says. -/
theorem Code.check_sound [Bus B] {c : Code} {g : Bool} {m' : Machine B} {as : List Changes}
    (h : c.check t = some t') (hm : m.Prompt) (hr : t.Holds m.regs)
    (hevals : c.toBlock.Evals Machine.pins (requests B) g q m as m') :
    m'.Prompt ∧ t'.Holds m'.regs := by
  have hchange : ∀ {t : Stage}, t.phase ≠ .settled → ∀ as (m : Machine B), t.Holds m.regs →
      t.Holds ((requests B).change as m).regs := by
    intro t ht as m hr
    obtain ⟨irq, nmi, pending, hregs⟩ := requests_regs as m
    rw [hregs]
    exact hr.change ht irq nmi pending
  induction c generalizing t t' m m' as with
  | nop =>
    obtain rfl := Option.some.inj h
    obtain ⟨-, rfl⟩ := hevals
    exact ⟨hm, hr⟩
  | line l =>
    obtain ⟨-, rfl⟩ := hevals
    exact ⟨⟨hm.toBeRedone, hm.deferrals⟩, Line.check_sound h hr⟩
  | read kind addr target =>
    obtain ⟨ht, h⟩ := Option.ite_none_left_eq_some.mp h
    have ht' : t'.phase ≠ .settled := by
      rwa [Target.phase_of_check h]
    have ha : Accesses Machine.pins (requests B) g q .memoryRead
        (fun _ ↦ Machine.deferrable target (Machine.makeRead kind addr target)) m as m' := hevals
    exact of_accesses_prompt ha hm (fun m hm ↦ ⟨hm.toBeRedone, hm.deferrals⟩) (hchange ht)
      (hchange ht') (fun m hr ↦ Target.check_sound h ht hr _) hr
  | write addr data =>
    obtain ⟨ht, h⟩ := Option.ite_none_left_eq_some.mp h
    obtain rfl := Option.some.inj h
    have ha : Accesses Machine.pins (requests B) g q .memoryWrite
        (fun _ ↦ Machine.deferrable .none (Machine.makeWrite addr data)) m as m' := hevals
    exact of_accesses_prompt ha hm (fun m hm ↦ ⟨hm.toBeRedone, hm.deferrals⟩) (hchange ht)
      (hchange ht) (fun m hr ↦ hr) hr
  | seq a b iha ihb =>
    obtain ⟨t₁, h₁, h₂⟩ := Option.bind_eq_some_iff.mp h
    obtain ⟨as₁, as₂, m₁, -, hev₁, hev₂⟩ := hevals
    obtain ⟨hm₁, hr₁⟩ := iha h₁ hm hr hev₁
    exact ihb h₂ hm₁ hr₁ hev₂
  | ite c a b iha ihb =>
    obtain ⟨hab, ha⟩ := Option.ite_none_right_eq_some.mp h
    rw [toBlock, Block.Evals] at hevals
    split at hevals
    · exact iha ha hm hr hevals
    · exact ihb (hab.symm.trans ha) hm hr hevals
  | eatWhile c =>
    obtain ⟨ht, h⟩ := Option.ite_none_left_eq_some.mp h
    obtain rfl := Option.some.inj h
    replace hevals : Eats (requests B) (fun m ↦ c.eval .none m.regs) m as m' := hevals
    induction hevals with
    | stop _ => exact ⟨hm, hr⟩
    | again a _ _ ih => exact ih (hm.change a) (hchange ht a _ hr)
  | eatForever => exact hevals.elim

/-! ## The W65C02S -/

/-- The phase in which an opcode begins. -/
def firstStage (ir : Byte) : Stage := ⟨if ir = 0x00 then .entering else .running, false⟩

theorem check_w65c02s : ∀ ir : Byte,
    ((w65c02s.opcode ir).code.check (firstStage ir)).map Stage.phase = some .settled :=
  w65c02s.of_opcodes w65c02s (fun ir h _ ↦ (h.code.check (firstStage ir)).map Stage.phase =
    some .settled) (by decide +kernel)

theorem check_reset :
    (w65c02s.reset.code.check ⟨.running, false⟩).map Stage.phase = some .settled := rfl

end RoscoEmulator.M6502
