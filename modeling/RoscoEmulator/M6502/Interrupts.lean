import Mathlib.Data.Fin.VecNotation
import RoscoEmulator.M6502.Requests

/-!
# BRK, interrupts and RTI
-/

namespace RoscoEmulator.M6502

variable {B : Type*}

/-! ## Events -/

namespace Event

/-- The events of the bus. -/
def isAccess : Event → Bool
  | read .. | write .. => true
  | input .. => false

end Event

/-- The accesses among some events. -/
def accesses (es : List Event) : List Event := es.filter Event.isAccess

/-- The events in front of an access, which is counted from 0. -/
def beforeAccess : ℕ → List Event → List Event
  | _, [] => []
  | k, .input line state :: es => .input line state :: beforeAccess k es
  | 0, _ :: _ => []
  | k + 1, e :: es => e :: beforeAccess k es

/-- `m_nmi_state` and `m_nmi_pending`. -/
def Regs.nmi (r : Regs) : Bool × Bool := (r.nmiState, r.nmiPending)

/-- An event as `m_nmi_state` and `m_nmi_pending` see it. -/
def hearNmi : Bool × Bool → Event → Bool × Bool
  | (state, pending), .input .nmi s => (s, pending || (!state && s))
  | nmi, _ => nmi

/-- An NMI waits in front of an access. -/
def nmiPendingAt (k : ℕ) (r : Regs) (es : List Event) : Bool :=
  ((beforeAccess k es).foldl hearNmi r.nmi).2

section Lists

variable (nmi : Bool × Bool) (es : List Event)

@[simp] theorem hearNmi_read (kind : ReadKind) (addr : Word) (v : Byte) :
    hearNmi nmi (.read kind addr v) = nmi := rfl

@[simp] theorem hearNmi_write (addr : Word) (v : Byte) : hearNmi nmi (.write addr v) = nmi := rfl

@[simp] theorem accesses_changes (as : Changes) : accesses (as.events ++ es) = accesses es := by
  induction as with
  | nil => rfl
  | cons a as ih => exact ih

@[simp] theorem beforeAccess_changes (k : ℕ) (as : Changes) :
    beforeAccess k (as.events ++ es) = as.events ++ beforeAccess k es := by
  induction as with
  | nil => rfl
  | cons a as ih => cases k <;> exact congrArg (_ :: ·) ih

end Lists

/-! ## Progress of an instruction -/

/-- The same in all that an entry, a return and a prefetch are about. -/
structure Regs.Alike (r r' : Regs) : Prop where
  toAlu : r.toAlu = r'.toAlu
  pc : r.pc = r'.pc
  npc : r.npc = r'.npc
  sp : r.sp = r'.sp
  tmp : r.tmp = r'.tmp
  irqTaken : r.irqTaken = r'.irqTaken

namespace Regs.Alike

variable {r r' r'' : Regs}

theorem trans (h : r.Alike r') (h' : r'.Alike r'') : r.Alike r'' :=
  ⟨h.toAlu.trans h'.toAlu, h.pc.trans h'.pc, h.npc.trans h'.npc, h.sp.trans h'.sp,
    h.tmp.trans h'.tmp, h.irqTaken.trans h'.irqTaken⟩

theorem decSp (h : r.Alike r') : r.decSp.Alike r'.decSp :=
  ⟨h.toAlu, h.pc, h.npc, congrArg (fun sp ↦ setL sp (lowByte sp - 1)) h.sp, h.tmp, h.irqTaken⟩

theorem incSp (h : r.Alike r') : r.incSp.Alike r'.incSp :=
  ⟨h.toAlu, h.pc, h.npc, congrArg (fun sp ↦ setL sp (lowByte sp + 1)) h.sp, h.tmp, h.irqTaken⟩

theorem incPc (h : r.Alike r') : Alike { r with pc := r.pc + 1 } { r' with pc := r'.pc + 1 } :=
  ⟨h.toAlu, congrArg (· + 1) h.pc, h.npc, h.sp, h.tmp, h.irqTaken⟩

theorem store (h : r.Alike r') (target : Target) (v : Byte) :
    (target.store v r).Alike (target.store v r') := by
  cases target with
  | none | tmp2 | ir => exact ⟨h.toAlu, h.pc, h.npc, h.sp, h.tmp, h.irqTaken⟩
  | reg i => exact ⟨congrArg (i.set v) h.toAlu, h.pc, h.npc, h.sp, h.tmp, h.irqTaken⟩
  | tmp | tmpStatus => exact ⟨h.toAlu, h.pc, h.npc, h.sp, rfl, h.irqTaken⟩
  | tmpHigh => exact ⟨h.toAlu, h.pc, h.npc, h.sp, congrArg (setH · v) h.tmp, h.irqTaken⟩
  | pc => exact ⟨h.toAlu, rfl, h.npc, h.sp, h.tmp, h.irqTaken⟩
  | pcHigh => exact ⟨h.toAlu, congrArg (setH · v) h.pc, h.npc, h.sp, h.tmp, h.irqTaken⟩
  | p =>
    exact ⟨congrArg (fun s : Alu ↦ { s with p := v ||| (flagB ||| flagE) }) h.toAlu, h.pc, h.npc,
      h.sp, h.tmp, h.irqTaken⟩

end Regs.Alike

/-- The events on the way from one machine to another. -/
structure Machine.Progress (m : Machine B) (es : List Event) (m' : Machine B) : Prop where
  log : m'.log = m.log ++ es
  prompt : m'.Prompt

/-- On this way the request of an NMI has not been served. -/
structure Machine.Listens (m : Machine B) (es : List Event)
    (m' : Machine B) : Prop extends m.Progress es m' where
  nmi : m'.regs.nmi = es.foldl hearNmi m.regs.nmi

namespace Machine

variable {m m₁ m' : Machine B} {es es' : List Event}

theorem Progress.trans (h : m.Progress es m₁) (h' : m₁.Progress es' m') :
    m.Progress (es ++ es') m' :=
  ⟨by rw [h'.log, h.log, List.append_assoc], h'.prompt⟩

theorem Progress.onRegs (h : m.Progress es m₁) (f : Regs → Regs) : m.Progress es (m₁.onRegs f) :=
  ⟨h.log, h.prompt.toBeRedone, h.prompt.deferrals⟩

namespace Listens

theorem trans (h : m.Listens es m₁) (h' : m₁.Listens es' m') : m.Listens (es ++ es') m' :=
  ⟨h.toProgress.trans h'.toProgress, by rw [h'.nmi, h.nmi, List.foldl_append]⟩

theorem onRegs (h : m.Listens es m₁) {f : Regs → Regs} (hf : (f m₁.regs).nmi = m₁.regs.nmi) :
    m.Listens es (m₁.onRegs f) :=
  ⟨h.toProgress.onRegs f, hf.trans h.nmi⟩

theorem change (h : m.Listens es m₁) (as : Changes) :
    m.Listens (es ++ as.events) ((requests B).change as m₁) := by
  induction as generalizing m₁ es with
  | nil => exact (List.append_nil es).symm ▸ h
  | cons a as ih =>
    have ha : m₁.Listens [Request.event a] (m₁.hear a) := by
      refine ⟨⟨rfl, h.prompt.toBeRedone, h.prompt.deferrals⟩, ?_⟩
      obtain ⟨request, state⟩ := a
      cases request
      · rfl
      · simp [Machine.hear, Regs.nmi, Regs.executeSetInput, Request.line, hearNmi, Request.event]
    have hrest := ih (h.trans ha)
    rwa [List.append_assoc] at hrest

end Listens

end Machine

theorem change_alike (as : Changes) (m : Machine B) :
    ((requests B).change as m).regs.Alike m.regs := by
  obtain ⟨_, _, _, h⟩ := requests_regs as m
  rw [h]
  exact ⟨rfl, rfl, rfl, rfl, rfl, rfl⟩

theorem prefetchEnd_npc (r : Regs) : r.prefetchEnd.npc = r.npc := by
  unfold Regs.prefetchEnd
  dsimp only
  split <;> rfl

theorem prefetchEnd_toAlu (r : Regs) : r.prefetchEnd.toAlu = r.toAlu := by
  unfold Regs.prefetchEnd
  dsimp only
  split <;> rfl

theorem Target.store_nmi (target : Target) (v : Byte) (r : Regs) :
    (target.store v r).nmi = r.nmi := by
  cases target <;> rfl

/-! ## Lines one by one -/

section Lines

variable [Bus B] {q : InstState} {m m' : Machine B} {as : List Changes}

theorem of_evals_read {kind : ReadKind} {addr : Addr} {target : Target} (hm : m.Prompt)
    (h : (Code.read kind addr target).toBlock.Evals Machine.pins (requests B) false q m as m') :
    ∃ (a : Changes) (v : Byte), as = [a] ∧
      m.Listens (.read kind (addr.eval m.regs) v :: a.events) m' ∧
      m'.regs.Alike (target.store v m.regs) := by
  replace h : Accesses Machine.pins (requests B) false q .memoryRead
    (fun _ ↦ Machine.deferrable target (Machine.makeRead kind addr target)) m as m' := h
  cases h with
  | wait a hwait _ => exact absurd hwait.1 Bool.false_ne_true
  | redo a _ hredo _ =>
    rw [hm.deferrable] at hredo
    exact absurd (hm.toBeRedone.symm.trans hredo) Bool.false_ne_true
  | done a _ _ =>
    rw [hm.deferrable]
    have hmade :
        m.Listens [.read kind (addr.eval m.regs) (Bus.read kind (addr.eval m.regs) m.bus).1]
        (m.makeRead kind addr target) :=
        ⟨⟨rfl, hm.toBeRedone, hm.deferrals⟩, Target.store_nmi _ _ _⟩
    exact ⟨a, _, rfl, hmade.change a, change_alike a _⟩

theorem of_evals_write {addr : Addr} {data : Data} (hm : m.Prompt)
    (h : (Code.write addr data).toBlock.Evals Machine.pins (requests B) false q m as m') :
    ∃ a : Changes, as = [a] ∧
      m.Listens (.write (addr.eval m.regs) (data.eval m.regs) :: a.events) m' ∧
      m'.regs.Alike m.regs := by
  replace h : Accesses Machine.pins (requests B) false q .memoryWrite
    (fun _ ↦ Machine.deferrable .none (Machine.makeWrite addr data)) m as m' := h
  cases h with
  | wait a hwait _ => exact absurd hwait.1 Bool.false_ne_true
  | redo a _ hredo _ =>
    rw [hm.deferrable] at hredo
    exact absurd (hm.toBeRedone.symm.trans hredo) Bool.false_ne_true
  | done a _ _ =>
    rw [hm.deferrable]
    have hmade : m.Listens [.write (addr.eval m.regs) (data.eval m.regs)] (m.makeWrite addr data) :=
      ⟨⟨rfl, hm.toBeRedone, hm.deferrals⟩, rfl⟩
    exact ⟨a, rfl, hmade.change a, change_alike a _⟩

variable {c : Code}

theorem of_evals_push {data : Data} (hm : m.Prompt)
    (h : (Code.seq (.write .sp data) (.seq (.line .decSp) c)).toBlock.Evals Machine.pins
    (requests B) false q m as m') :
    ∃ (a : Changes) (as' : List Changes) (m₁ : Machine B), as = a :: as' ∧
      c.toBlock.Evals Machine.pins (requests B) false q m₁ as' m' ∧
      m.Listens (.write m.regs.sp (data.eval m.regs) :: a.events) m₁ ∧
      m₁.regs.Alike m.regs.decSp := by
  obtain ⟨_, _, m₁, rfl, h₁, _, _, m₂, rfl, ⟨rfl, rfl⟩, h⟩ := h
  obtain ⟨a, rfl, hlistens, halike⟩ := of_evals_write hm h₁
  exact ⟨a, _, _, rfl, h, @Machine.Listens.onRegs _ _ _ _ hlistens Regs.decSp rfl, halike.decSp⟩

theorem of_evals_prefetch (hm : m.Prompt)
    (h : (Code.block prefetch).toBlock.Evals Machine.pins (requests B) false q m as m') :
    ∃ (a : Changes) (op : Byte), as = [a] ∧
      m.Progress (.read .readSync m.regs.pc op :: a.events) m' ∧
      m'.regs.npc = m.regs.pc ∧ m'.regs.toAlu = m.regs.toAlu := by
  obtain ⟨_, _, m₁, rfl, ⟨rfl, rfl⟩, _, _, m₂, rfl, h₂, _, _, m₃, rfl, ⟨rfl, rfl⟩, rfl, rfl⟩ := h
  obtain ⟨a, op, rfl, hlistens, halike⟩ := of_evals_read (m := m.onRegs Regs.prefetchStart)
    ⟨hm.toBeRedone, hm.deferrals⟩ h₂
  refine ⟨a, op, rfl, ⟨hlistens.log, hlistens.prompt.toBeRedone, hlistens.prompt.deferrals⟩, ?_, ?_⟩
  · exact (prefetchEnd_npc m₂.regs).trans halike.npc
  · exact (prefetchEnd_toAlu m₂.regs).trans halike.toAlu

/-! ## `brk` -/

/-- The dummy cycle of `brk`, which takes the program counter on if no interrupt is taken. -/
theorem of_evals_dummy (hm : m.Prompt)
    (h : (Code.ite .interrupted (.block [readPc .none])
    (.block [readPc .none, incPc])).toBlock.Evals Machine.pins
      (requests B) false q m as m') :
    ∃ (a : Changes) (d : Byte), as = [a] ∧ m.Listens (.read .readArg m.regs.pc d :: a.events) m' ∧
      m'.regs.Alike { m.regs with
        pc := if m.regs.irqTaken || m.regs.nmiPending then m.regs.pc else m.regs.pc + 1 } := by
  rw [Code.toBlock, Block.Evals] at h
  split at h
  · next hc =>
    obtain ⟨_, _, m₁, rfl, h₁, rfl, rfl⟩ := h
    obtain ⟨a, d, rfl, hlistens, halike⟩ := of_evals_read hm h₁
    have hpc : (if m.regs.irqTaken || m.regs.nmiPending then m.regs.pc else m.regs.pc + 1) =
        m.regs.pc := if_pos hc
    rw [hpc]
    exact ⟨a, d, rfl, hlistens, halike⟩
  · next hc =>
    obtain ⟨_, _, m₁, rfl, h₁, _, _, m₂, rfl, ⟨rfl, rfl⟩, rfl, rfl⟩ := h
    obtain ⟨a, d, rfl, hlistens, halike⟩ := of_evals_read hm h₁
    have hpc : (if m.regs.irqTaken || m.regs.nmiPending then m.regs.pc else m.regs.pc + 1) =
        m.regs.pc + 1 :=
      if_neg hc
    rw [hpc]
    exact ⟨a, d, rfl, hlistens.onRegs rfl, halike.incPc⟩

/-- The two bytes of a vector. -/
theorem of_evals_word {v v' : Word} (hm : m.Prompt) (h : (Code.seq (.read .readArg (.const v) .pc)
    (.seq (.read .readArg (.const v') .pcHigh) c)).toBlock.Evals
      Machine.pins (requests B) false q m as m') :
    ∃ (a b : Changes) (lo hi : Byte) (as' : List Changes) (m₁ : Machine B),
      as = a :: b :: as' ∧ c.toBlock.Evals Machine.pins (requests B) false q m₁ as' m' ∧
      m.Progress (.read .readArg v lo :: a.events ++ .read .readArg v' hi :: b.events) m₁ ∧
        m₁.regs.Alike { m.regs with pc := hi ++ lo } := by
  obtain ⟨_, _, m₁, rfl, h₁, _, _, m₂, rfl, h₂, h⟩ := h
  obtain ⟨a, lo, rfl, hlo, halike₁⟩ := of_evals_read hm h₁
  obtain ⟨b, hi, rfl, hhi, halike₂⟩ := of_evals_read hlo.prompt h₂
  refine ⟨a, b, lo, hi, _, m₂, rfl, h, hlo.toProgress.trans hhi.toProgress, ?_⟩
  have hpc : setH (lo.setWidth 16) hi = hi ++ lo := by rw [setH_eq, lowByte_setWidth]
  rw [← hpc]
  exact halike₂.trans (halike₁.store .pcHigh hi)

theorem of_evals_irqCallback (h : (when .irqTaken [.line .standardIrqCallback]).toBlock.Evals
    Machine.pins (requests B) false q m as m') : as = [] ∧ m' = m := by
  rw [when, Code.toBlock, Block.Evals] at h
  split at h
  · obtain ⟨_, _, m₁, rfl, ⟨rfl, rfl⟩, rfl, rfl⟩ := h
    exact ⟨rfl, rfl⟩
  · exact h

theorem of_evals_vector (hm : m.Prompt) (h : (Code.ite .nmiTaken
      (.block [.line .standardIrqCallback, .read .readArg (.const 0xfffa) .pc,
        .read .readArg (.const 0xfffb) .pcHigh, .line .clearNmiPending])
      (.block [when .irqTaken [.line .standardIrqCallback], .read .readArg (.const 0xfffe) .pc,
        .read .readArg (.const 0xffff) .pcHigh])).toBlock.Evals
        Machine.pins (requests B) false q m as m')
    {vector : Word}
    (hvector : vector = if m.regs.irqTaken && m.regs.nmiPending then 0xfffa else 0xfffe) :
    ∃ (a b : Changes) (lo hi : Byte), as = [a, b] ∧
      m.Progress (.read .readArg vector lo :: a.events ++
        .read .readArg (vector + 1) hi :: b.events) m' ∧
      m'.regs.Alike { m.regs with pc := hi ++ lo } := by
  rw [Code.toBlock, Block.Evals] at h
  split at h
  · next hc =>
    rw [if_pos (show (m.regs.irqTaken && m.regs.nmiPending) = true from hc)] at hvector
    subst hvector
    obtain ⟨_, _, m₁, rfl, ⟨rfl, rfl⟩, h⟩ := h
    obtain ⟨a, b, lo, hi, _, m₂, rfl, ⟨_, _, m₃, rfl, ⟨rfl, rfl⟩, rfl, rfl⟩, hprogress, halike⟩ :=
      of_evals_word (m := m.onRegs fun r ↦ r) ⟨hm.toBeRedone, hm.deferrals⟩ h
    exact ⟨a, b, lo, hi, rfl, hprogress.onRegs _,
      halike.toAlu, halike.pc, halike.npc, halike.sp, halike.tmp, halike.irqTaken⟩
  · next hc =>
    rw [if_neg (show ¬ (m.regs.irqTaken && m.regs.nmiPending) = true from hc)] at hvector
    subst hvector
    obtain ⟨_, _, m₁, rfl, h₁, h⟩ := h
    obtain ⟨rfl, rfl⟩ := of_evals_irqCallback h₁
    obtain ⟨a, b, lo, hi, _, m₂, rfl, ⟨rfl, rfl⟩, hprogress, halike⟩ := of_evals_word hm h
    exact ⟨a, b, lo, hi, rfl, hprogress, halike⟩

/-- The events of an entry into a handler. -/
def entryEvents (r : Regs) (address : Word) (status : Byte) (vector : Word) (d lo hi op : Byte)
    (a : Fin 7 → Changes) : List Event :=
  .read .readArg r.pc d :: ((a 0).events ++ .write r.sp (highByte address) :: ((a 1).events ++
    .write r.decSp.sp (lowByte address) ::
    ((a 2).events ++ .write r.decSp.decSp.sp status :: ((a 3).events ++
      .read .readArg vector lo :: ((a 4).events ++ .read .readArg (vector + 1) hi ::
        ((a 5).events ++ .read .readSync (hi ++ lo) op :: (a 6).events))))))

/-- What `brk` does: whether an interrupt has been taken is asked in front of the first access, and
the request of an NMI counts in front of the fourth and of the fifth one too. -/
theorem of_evals_brk (hm : m.Prompt)
    (h : brk.toBlock.Evals Machine.pins (requests B) false q m as m') : ∃ (address : Word)
    (status : Byte) (vector : Word) (d lo hi op : Byte) (a : Fin 7 → Changes) (es : List Event),
      as = [a 0, a 1, a 2, a 3, a 4, a 5, a 6] ∧
      es = entryEvents m.regs address status vector d lo hi op a ∧
      m.Progress es m' ∧ m'.regs.npc = hi ++ lo ∧ address =
      (if m.regs.irqTaken || m.regs.nmiPending then m.regs.pc else m.regs.pc + 1) ∧ status =
      (if m.regs.irqTaken || nmiPendingAt 3 m.regs es then m.regs.p &&& ~~~flagB else m.regs.p) ∧
      vector = (if m.regs.irqTaken && nmiPendingAt 4 m.regs es then 0xfffa else 0xfffe) := by
  obtain ⟨_, _, m₁, rfl, h₁, h⟩ := h
  obtain ⟨a₀, d, rfl, hlistens₁, halike₁⟩ := of_evals_dummy hm h₁
  obtain ⟨a₁, _, m₂, rfl, h, hlistens₂, halike₂⟩ := of_evals_push hlistens₁.prompt h
  obtain ⟨a₂, _, m₃, rfl, h, hlistens₃, halike₃⟩ := of_evals_push hlistens₂.prompt h
  obtain ⟨a₃, _, m₄, rfl, h, hlistens₄, halike₄⟩ := of_evals_push hlistens₃.prompt h
  obtain ⟨_, _, m₅, rfl, h₅, _, _, m₆, rfl, ⟨rfl, rfl⟩, _, _, m₇, rfl, ⟨rfl, rfl⟩, hfetch⟩ := h
  obtain ⟨vector, hvector⟩ : ∃ v : Word,
      v = if m₄.regs.irqTaken && m₄.regs.nmiPending then 0xfffa else 0xfffe :=
    ⟨_, rfl⟩
  obtain ⟨a₄, a₅, lo, hi, rfl, hprogress₅, halike₅⟩ := of_evals_vector hlistens₄.prompt h₅ hvector
  have hlines := (hprogress₅.onRegs fun r ↦ Line.clearIrqTaken.run q r).onRegs fun r ↦
    Line.enterInterrupt.run q r
  obtain ⟨a₆, op, rfl, hprogress₆, hnpc, -⟩ := of_evals_prefetch hlines.prompt hfetch
  -- the registers at each access, seen from the start
  have halike₂' := halike₂.trans halike₁.decSp
  have halike₃' := halike₃.trans halike₂'.decSp
  have halike₄' := halike₄.trans halike₃'.decSp
  set address : Word :=
    if m.regs.irqTaken || m.regs.nmiPending then m.regs.pc else m.regs.pc + 1 with haddress
  have hsp₁ : m₁.regs.sp = m.regs.sp := halike₁.sp
  have hsp₂ : m₂.regs.sp = m.regs.decSp.sp := halike₂'.sp
  have hsp₃ : m₃.regs.sp = m.regs.decSp.decSp.sp := halike₃'.sp
  have hhigh : Data.eval m₁.regs .pcHigh = highByte address := congrArg highByte halike₁.pc
  have hlow : Data.eval m₂.regs .pcLow = lowByte address := congrArg lowByte halike₂'.pc
  have hnpc' : m'.regs.npc = hi ++ lo := hnpc.trans halike₅.pc
  have hpc : ((m₅.onRegs fun r ↦ Line.clearIrqTaken.run q r).onRegs fun r ↦
      Line.enterInterrupt.run q r).regs.pc = hi ++ lo := halike₅.pc
  have hlistens := ((hlistens₁.trans hlistens₂).trans hlistens₃).trans hlistens₄
  have hprogress := (hlistens.toProgress.trans hlines).trans hprogress₆
  rw [hsp₁, hsp₂, hsp₃, hhigh, hlow, hpc] at hprogress
  have hnmi₃ : m₃.regs.nmiPending = _ :=
    congrArg Prod.snd ((hlistens₁.trans hlistens₂).trans hlistens₃).nmi
  have hnmi₄ : m₄.regs.nmiPending = _ := congrArg Prod.snd hlistens.nmi
  refine ⟨address, Data.eval m₃.regs .pushedStatus, vector, d, lo, hi,
    op, ![a₀, a₁, a₂, a₃, a₄, a₅, a₆], _, ?_, rfl, ?_, hnpc', rfl, ?_, ?_⟩
  · rfl
  · simpa [entryEvents] using hprogress
  · have hp : m₃.regs.p = m.regs.p := congrArg Alu.p halike₃'.toAlu
    have hirq : m₃.regs.irqTaken = m.regs.irqTaken := halike₃'.irqTaken
    rw [Data.eval, hnmi₃, hp, hirq]
    simp [nmiPendingAt, entryEvents, beforeAccess]
  · have hirq : m₄.regs.irqTaken = m.regs.irqTaken := halike₄'.irqTaken
    rw [hvector, hnmi₄, hirq]
    simp [nmiPendingAt, entryEvents, beforeAccess]

/-! ## `rti_s_imp` -/

theorem of_evals_pull {target : Target} (hm : m.Prompt)
    (h : (Code.seq (.line .incSp) (.seq (.read .read .sp target) c)).toBlock.Evals Machine.pins
    (requests B) false q
      m as m') :
    ∃ (a : Changes) (as' : List Changes) (m₁ : Machine B) (v : Byte),
      c.toBlock.Evals Machine.pins (requests B) false q m₁ as' m' ∧
      m.Progress (.read .read m.regs.incSp.sp v :: a.events) m₁ ∧
      m₁.regs.Alike (target.store v m.regs.incSp) := by
  obtain ⟨_, _, m₁, rfl, ⟨rfl, rfl⟩, _, _, m₂, rfl, h₂, h⟩ := h
  obtain ⟨a, v, rfl, hlistens, halike⟩ :=
    of_evals_read (m := m.onRegs Regs.incSp) ⟨hm.toBeRedone, hm.deferrals⟩ h₂
  exact ⟨a, _, _, v, h, ⟨hlistens.log, hlistens.prompt⟩, halike⟩

/-- The events of a return. -/
def returnEvents (r : Regs) (d status lo hi : Byte) (pc : Word) (d' op : Byte)
    (a : Fin 6 → Changes) : List Event :=
  .read .readArg r.pc d :: ((a 0).events ++ .read .read r.incSp.sp status :: ((a 1).events ++
    .read .read r.incSp.incSp.sp lo ::
    ((a 2).events ++ .read .read r.incSp.incSp.incSp.sp hi :: ((a 3).events ++
      .read .readArg pc d' :: ((a 4).events ++ .read .readSync (hi ++ lo) op :: (a 5).events)))))

theorem of_evals_rti (hm : m.Prompt)
    (h : Ow65c02s.rtiSImp.code.toBlock.Evals Machine.pins (requests B) false q m as m') :
    ∃ (d status lo hi : Byte) (pc : Word) (d' op : Byte) (a : Fin 6 → Changes),
      m.Progress (returnEvents m.regs d status lo hi pc d' op a) m' ∧ m'.regs.npc = hi ++ lo ∧
        m'.regs.p = status ||| (flagB ||| flagE) := by
  obtain ⟨_, _, m₁, rfl, h₁, h⟩ := h
  obtain ⟨a₀, d, rfl, hlistens₁, halike₁⟩ := of_evals_read hm h₁
  obtain ⟨a₁, _, m₂, status, h, hprogress₂, halike₂⟩ := of_evals_pull hlistens₁.prompt h
  obtain ⟨a₂, _, m₃, lo, h, hprogress₃, halike₃⟩ := of_evals_pull hprogress₂.prompt h
  obtain ⟨a₃, _, m₄, hi, h, hprogress₄, halike₄⟩ := of_evals_pull hprogress₃.prompt h
  obtain ⟨_, _, m₅, rfl, h₅, _, _, m₆, rfl, ⟨rfl, rfl⟩, _, _, m₇, rfl, ⟨rfl, rfl⟩, hfetch⟩ := h
  obtain ⟨a₄, d', rfl, hlistens₅, halike₅⟩ := of_evals_read hprogress₄.prompt h₅
  have hlines :=
    (hlistens₅.toProgress.onRegs fun r ↦ Line.endInterrupt.run q r).onRegs fun r ↦ Line.jump.run q r
  obtain ⟨a₅, op, rfl, hprogress₆, hnpc, halu⟩ := of_evals_prefetch hlines.prompt hfetch
  have halike₂' := halike₂.trans (halike₁.incSp.store .p status)
  have halike₃' := halike₃.trans (halike₂'.incSp.store .tmp lo)
  have halike₄' := halike₄.trans (halike₃'.incSp.store .tmpHigh hi)
  have halike₅' := halike₅.trans halike₄'
  have htmp : m₅.regs.tmp = hi ++ lo := by
    have hword : setH (lo.setWidth 16) hi = hi ++ lo := by rw [setH_eq, lowByte_setWidth]
    exact halike₅'.tmp.trans hword
  have hsp₁ : m₁.regs.incSp.sp = m.regs.incSp.sp := halike₁.incSp.sp
  have hsp₂ : m₂.regs.incSp.sp = m.regs.incSp.incSp.sp := halike₂'.incSp.sp
  have hsp₃ : m₃.regs.incSp.sp = m.regs.incSp.incSp.incSp.sp := halike₃'.incSp.sp
  have hpc : ((m₅.onRegs fun r ↦ Line.endInterrupt.run q r).onRegs fun r ↦
      Line.jump.run q r).regs.pc = hi ++ lo :=
    htmp
  have hprogress := ((((hlistens₁.toProgress.trans hprogress₂).trans hprogress₃).trans
    hprogress₄).trans hlines).trans
    hprogress₆
  rw [hsp₁, hsp₂, hsp₃, hpc] at hprogress
  refine ⟨d, status, lo, hi, m₄.regs.pc, d', op, ![a₀, a₁, a₂, a₃, a₄, a₅], ?_, hnpc.trans hpc, ?_⟩
  · simpa [returnEvents, Addr.eval] using hprogress
  · exact (congrArg Alu.p halu).trans (congrArg Alu.p halike₅'.toAlu)

end Lines

end RoscoEmulator.M6502
