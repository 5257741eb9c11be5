import RoscoEmulator.M6502.Execution

/-!
# Opcodes on plain RAM

On plain RAM a read whose value goes nowhere does nothing, and the program counter may be taken past
an operand earlier or later. `Code.normal` leaves such reads out and moves the steps of the program
counter to the front, where they meet or where the program counter is loaded behind them. It changes
nothing: `run_normal`. -/

namespace RoscoEmulator.M6502

/-- What counts on plain RAM. -/
structure Plain where
  regs : Regs
  ram : Ram

/-- A machine whose memory is plain RAM and whose accesses are not deferred. -/
def Plain.machine (s : Plain) (log : List Event) : Machine Ram := ⟨s.regs, s.ram, log, false, []⟩

namespace Code

/-- The lines on plain RAM. -/
def run (q : InstState) : Code → Plain → Option Plain
  | nop, s => some s
  | line l, s => some { s with regs := l.run q s.regs }
  | read _ addr target, s =>
    some { s with regs := target.store (s.ram.mem (addr.eval s.regs)) s.regs }
  | write addr data, s =>
    some { s with ram := Bus.write (addr.eval s.regs) (data.eval s.regs) s.ram }
  | seq a b, s => (a.run q s).bind (b.run q)
  | ite c a b, s => if c.eval q s.regs then a.run q s else b.run q s
  | eatWhile c, s => if c.eval .none s.regs then none else some s
  | eatForever, _ => none

theorem run_of_exec {g : Bool} {q : InstState} {c : Code} {s : Plain} {log : List Event}
    {m : Machine Ram} (h : c.exec g q (s.machine log) = some m) :
    ∃ s' log', c.run q s = some s' ∧ m = s'.machine log' := by
  induction c generalizing s log m with
  | nop =>
    obtain rfl := Option.some.inj h
    exact ⟨s, log, rfl, rfl⟩
  | line l =>
    obtain rfl := Option.some.inj h
    exact ⟨_, log, rfl, rfl⟩
  | read kind addr target =>
    rw [exec] at h
    split at h
    · cases h
    · obtain rfl := Option.some.inj h
      exact ⟨_, _, rfl, rfl⟩
  | write addr data =>
    obtain rfl := Option.some.inj h
    exact ⟨_, _, rfl, rfl⟩
  | seq a b iha ihb =>
    obtain ⟨m₁, ha, hb⟩ := Option.bind_eq_some_iff.mp h
    obtain ⟨s₁, log₁, hs₁, rfl⟩ := iha ha
    obtain ⟨s₂, log₂, hs₂, rfl⟩ := ihb hb
    exact ⟨s₂, log₂, Option.bind_eq_some_iff.mpr ⟨s₁, hs₁, hs₂⟩, rfl⟩
  | ite c a b iha ihb =>
    rw [exec] at h
    split at h
    · next hc =>
      obtain ⟨s', log', hs', rfl⟩ := iha h
      exact ⟨s', log', (if_pos hc).trans hs', rfl⟩
    · next hc =>
      obtain ⟨s', log', hs', rfl⟩ := ihb h
      exact ⟨s', log', (if_neg hc).trans hs', rfl⟩
  | eatWhile c =>
    rw [exec] at h
    split at h
    · cases h
    · next hc =>
      obtain rfl := Option.some.inj h
      exact ⟨s, log, if_neg hc, rfl⟩
  | eatForever => cases h

/-- Without the loops of `eat-all-cycles`. -/
def loopFree : Code → Bool
  | seq a b | ite _ a b => a.loopFree && b.loopFree
  | eatWhile _ | eatForever => false
  | _ => true

theorem exec_of_loopFree {g : Bool} {q : InstState} {c : Code} (hc : c.loopFree = true) {s : Plain}
    (hrdy : s.regs.rdyState = true) (log : List Event) :
    ∃ (s' : Plain) (log' : List Event), c.exec g q (s.machine log) = some (s'.machine log') ∧
      s'.regs.rdyState = true := by
  induction c generalizing s log with
  | nop => exact ⟨s, log, rfl, hrdy⟩
  | line l => exact ⟨⟨l.run q s.regs, s.ram⟩, log, rfl, (Line.run_rdyState q s.regs l).trans hrdy⟩
  | read kind addr target =>
    let v : Byte := s.ram.mem (addr.eval s.regs)
    have hready : ¬ (g = true ∧ s.regs.rdyState = false) :=
      fun h ↦ Bool.false_ne_true (h.2.symm.trans hrdy)
    refine ⟨⟨target.store v s.regs, s.ram⟩, log ++ [.read kind (addr.eval s.regs) v], ?_,
      (Target.store_rdyState v s.regs target).trans hrdy⟩
    rw [exec]
    exact if_neg hready
  | write addr data => exact ⟨⟨s.regs, _⟩, _, rfl, hrdy⟩
  | seq a b iha ihb =>
    obtain ⟨ha, hb⟩ := Bool.and_eq_true_iff.mp hc
    obtain ⟨s₁, log₁, h₁, hrdy₁⟩ := iha ha hrdy log
    obtain ⟨s₂, log₂, h₂, hrdy₂⟩ := ihb hb hrdy₁ log₁
    exact ⟨s₂, log₂, Option.bind_eq_some_iff.mpr ⟨_, h₁, h₂⟩, hrdy₂⟩
  | ite c a b iha ihb =>
    obtain ⟨ha, hb⟩ := Bool.and_eq_true_iff.mp hc
    rw [exec]
    split
    · exact iha ha hrdy log
    · exact ihb hb hrdy log
  | eatWhile c => cases hc
  | eatForever => cases hc

/-! ## Steps of the program counter -/

end Code

/-- The program counter one step further. -/
def Plain.incPc (s : Plain) : Plain := { s with regs := Line.incPc.run .none s.regs }

def Target.keepsPc : Target → Bool
  | .pc | .pcHigh => false
  | _ => true

def Data.usesPc : Data → Bool
  | .pcHigh | .pcLow => true
  | _ => false

def Line.keepsPc : Line → Bool
  | incPc | jump | jumpNext | takeBranch | prefetchStart | prefetchEnd => false
  | _ => true

def Cond.usesPc : Cond → Bool
  | branchPageChanging => true
  | _ => false

namespace Code

/-- Lines that have nothing to do with the program counter. -/
def keepsPc : Code → Bool
  | nop => true
  | line l => l.keepsPc
  | read _ addr target => !addr.usesPc && target.keepsPc
  | write addr data => !addr.usesPc && !data.usesPc
  | seq a b => a.keepsPc && b.keepsPc
  | ite c a b => !c.usesPc && a.keepsPc && b.keepsPc
  | eatWhile _ | eatForever => false

end Code

theorem Addr.eval_incPc {addr : Addr} (h : addr.usesPc = false) (s : Plain) :
    addr.eval s.incPc.regs = addr.eval s.regs := by
  cases addr <;> first | rfl | cases h

theorem Target.store_incPc {target : Target} (h : target.keepsPc = true) (v : Byte) (s : Plain) :
    target.store v s.incPc.regs = (Plain.incPc { s with regs := target.store v s.regs }).regs := by
  cases target <;> first | rfl | cases h

theorem Data.eval_incPc {data : Data} (h : data.usesPc = false) (s : Plain) :
    data.eval s.incPc.regs = data.eval s.regs := by
  cases data <;> first | rfl | cases h

theorem Cond.eval_incPc {c : Cond} (h : c.usesPc = false) (q : InstState) (s : Plain) :
    c.eval q s.incPc.regs = c.eval q s.regs := by
  cases c <;> first | rfl | cases h

theorem Line.run_incPc {l : Line} (h : l.keepsPc = true) (q : InstState) (s : Plain) :
    l.run q s.incPc.regs = (Plain.incPc { s with regs := l.run q s.regs }).regs := by
  cases l <;> first | rfl | cases h

namespace Code

variable {q : InstState} {s : Plain}

theorem run_of_keepsPc {c : Code} (hc : c.keepsPc = true) (s : Plain) :
    c.run q s.incPc = (c.run q s).map Plain.incPc := by
  induction c generalizing s with
  | nop => rfl
  | line l => exact congrArg (fun r ↦ some (Plain.mk r s.ram)) (Line.run_incPc hc q s)
  | read kind addr target =>
    obtain ⟨haddr, htarget⟩ := Bool.and_eq_true_iff.mp hc
    rw [run, run, Addr.eval_incPc ((Bool.not_eq_true' _).mp haddr)]
    exact congrArg (fun r ↦ some (Plain.mk r s.ram)) (Target.store_incPc htarget _ s)
  | write addr data =>
    obtain ⟨haddr, hdata⟩ := Bool.and_eq_true_iff.mp hc
    rw [run, run, Addr.eval_incPc ((Bool.not_eq_true' _).mp haddr),
      Data.eval_incPc ((Bool.not_eq_true' _).mp hdata)]
    rfl
  | seq a b iha ihb =>
    obtain ⟨ha, hb⟩ := Bool.and_eq_true_iff.mp hc
    rw [run, run, iha ha, Option.bind_map, Option.map_bind]
    exact congrArg _ (funext fun s₁ ↦ ihb hb s₁)
  | ite c a b iha ihb =>
    obtain ⟨hca, hb⟩ := Bool.and_eq_true_iff.mp hc
    obtain ⟨hc, ha⟩ := Bool.and_eq_true_iff.mp hca
    rw [run, run, Cond.eval_incPc ((Bool.not_eq_true' _).mp hc)]
    split
    · exact iha ha s
    · exact ihb hb s
  | eatWhile c => cases hc
  | eatForever => cases hc

/-- The program counter is loaded before it counts. -/
def loadsPc : Code → Bool
  | read _ addr .pc => !addr.usesPc
  | seq a b => a.loadsPc || a.keepsPc && b.loadsPc
  | _ => false

theorem run_of_loadsPc {c : Code} (hc : c.loadsPc = true) (s : Plain) :
    c.run q s.incPc = c.run q s := by
  induction c generalizing s with
  | read kind addr target =>
    cases target with
    | pc =>
      rw [run, run, Addr.eval_incPc ((Bool.not_eq_true' _).mp hc)]
      rfl
    | _ => cases hc
  | seq a b iha ihb =>
    rw [run, run]
    rcases Bool.or_eq_true_iff.mp hc with ha | hab
    · rw [iha ha]
    · obtain ⟨ha, hb⟩ := Bool.and_eq_true_iff.mp hab
      rw [run_of_keepsPc ha, Option.bind_map]
      exact congrArg _ (funext fun s₁ ↦ ihb hb s₁)
  | _ => cases hc

/-! ## Normal forms -/

/-- A line in front of others. A step of the program counter is left out where the program counter
is loaded next. -/
def before (a b : Code) : Code := if a = .line .incPc ∧ b.loadsPc then b else .seq a b

/-- A line behind the steps of the program counter that others begin with. -/
def cons (a : Code) : Code → Code
  | seq b₁ b₂ =>
    if b₁ = .line .incPc ∧ a.keepsPc then .seq b₁ (cons a b₂) else before a (.seq b₁ b₂)
  | b => before a b

theorem run_before (a b : Code) (s : Plain) : (before a b).run q s = (Code.seq a b).run q s := by
  unfold before
  split
  · next h =>
    obtain ⟨rfl, hb⟩ := h
    exact (run_of_loadsPc hb s).symm
  · rfl

theorem run_cons (a b : Code) (s : Plain) : (cons a b).run q s = (Code.seq a b).run q s := by
  induction b generalizing s with
  | seq b₁ b₂ _ ih =>
    rw [cons]
    split
    · next h =>
      obtain ⟨rfl, ha⟩ := h
      calc (Code.seq (.line .incPc) (cons a b₂)).run q s
          = (cons a b₂).run q s.incPc := rfl
        _ = (a.run q s.incPc).bind (b₂.run q) := ih s.incPc
        _ = (a.run q s).bind fun s₁ ↦ b₂.run q s₁.incPc := by
          rw [run_of_keepsPc ha, Option.bind_map]; rfl
        _ = (Code.seq a (.seq (.line .incPc) b₂)).run q s := rfl
    · exact run_before _ _ s
  | _ => exact run_before _ _ s

/-- Without the reads that do nothing. -/
def normal : Code → Code
  | read _ _ .none => .nop
  | seq a b => if a.normal = .nop then b.normal else cons a.normal b.normal
  | ite c a b => if a.normal = .nop ∧ b.normal = .nop then .nop else .ite c a.normal b.normal
  | c => c

/-- **A normal form does the same.** -/
theorem run_normal (c : Code) (s : Plain) : c.normal.run q s = c.run q s := by
  induction c generalizing s with
  | read kind addr target => cases target <;> rfl
  | seq a b iha ihb =>
    have hseq : (Code.seq a.normal b.normal).run q s = (Code.seq a b).run q s := by
      rw [run, run, iha]
      exact congrArg _ (funext ihb)
    rw [normal, ← hseq]
    split
    · next h =>
      rw [h]
      rfl
    · exact run_cons _ _ s
  | ite c a b iha ihb =>
    have hite : (Code.ite c a.normal b.normal).run q s = (Code.ite c a b).run q s := by
      rw [run, run, iha, ihb]
    rw [normal, ← hite]
    split
    · next h =>
      rw [h.1, h.2]
      exact (ite_self _).symm
    · rfl
  | _ => rfl

end Code

end RoscoEmulator.M6502
