import RoscoEmulator.M6502.Dispatch
import RoscoEmulator.M6502.Interleaving

/-!
# Instructions while the lines stay as they are

`Code.exec` executes the lines of an opcode one after the other, without cycles and substates. An
access that is deferred leaves its thrown-away values behind and is then made. `mem_results_iff`
says that the functions which the generator writes from the lines come to the same end, in whatever
time slices they are called. -/

namespace RoscoEmulator.M6502

variable {B : Type*}

/-- Plain RAM, with the writes that have been made. -/
structure Ram where
  mem : Word → Byte
  writes : List (Word × Byte)

instance : Bus Ram where
  read _ addr b := (b.mem addr, b)
  write addr data b := ⟨Function.update b.mem addr data, b.writes ++ [(addr, data)]⟩

/-- Nothing happens between two time slices. -/
def still (σ : Type*) : Surroundings Unit σ where
  change _ := id
  idle := ()
  change_idle _ := rfl

namespace Machine

/-- The attempts of the next access that are deferred. -/
def afterDeferrals (target : Target) (m : Machine B) : Machine B :=
  { m with
    regs := (m.deferrals.headD []).foldl (fun r v ↦ target.store v r) m.regs
    deferrals := m.deferrals.tail }

end Machine

section Exec

variable [Bus B] (rdyGated : Bool) (q : InstState)

/-- The lines one after the other. A loop of `eat-all-cycles` that is entered has no end, and
neither has a wait for RDY. -/
def Code.exec : Code → Machine B → Option (Machine B)
  | nop, m => some m
  | line l, m => some (m.onRegs fun r ↦ l.run q r)
  | read kind addr target, m =>
      if rdyGated ∧ m.regs.rdyState = false then none
      else some ((m.afterDeferrals target).makeRead kind addr target)
  | write addr data, m => some ((m.afterDeferrals .none).makeWrite addr data)
  | seq a b, m => (a.exec m).bind b.exec
  | ite c a b, m => if c.eval q m.regs then a.exec m else b.exec m
  | eatWhile c, m => if c.eval .none m.regs then none else some m
  | eatForever, _ => none

/-- The lines of an opcode with its device. -/
def Handler.exec (h : Handler) (m : Machine B) : Option (Machine B) :=
  h.code.exec h.device.rdyGated q m

end Exec

/-! ## Accesses -/

section Accesses

variable {g : Bool} {q : InstState} {target : Target} {make : Machine B → Machine B}
  {type : LineType} {m m' : Machine B}

theorem afterDeferrals_of_nil (h : m.deferrals.headD [] = []) :
    m.afterDeferrals target = { m with deferrals := m.deferrals.tail } := by
  rw [Machine.afterDeferrals, h]
  rfl

theorem deferrable_of_nil (h : m.deferrals.headD [] = []) :
    m.deferrable target make = make (m.afterDeferrals target) := by
  rw [afterDeferrals_of_nil h]
  unfold Machine.deferrable Machine.asked
  rcases hd : m.deferrals with - | ⟨- | ⟨v, vs⟩, rest⟩
  · rfl
  · rfl
  · rw [hd] at h
    cases h

theorem deferrable_of_cons {v : Byte} {vs : List Byte} {rest : List (List Byte)}
    (h : m.deferrals = (v :: vs) :: rest) : m.deferrable target make =
      { m with regs := target.store v m.regs, deferrals := vs :: rest, toBeRedone := true } := by
  unfold Machine.deferrable Machine.asked
  rw [h]
  rfl

/-- The values of the attempts that are deferred are stored one after the other. -/
theorem afterDeferrals_of_cons {v : Byte} {vs : List Byte} {rest : List (List Byte)}
    (h : m.deferrals = (v :: vs) :: rest) :
    m.afterDeferrals target =
      Machine.afterDeferrals target
      { m with regs := target.store v m.regs, deferrals := vs :: rest } := by
  simp only [Machine.afterDeferrals, h, List.headD_cons, List.foldl_cons, List.tail_cons]

theorem cons_of_headD {v : Byte} {vs : List Byte} (h : m.deferrals.headD [] = v :: vs) :
    ∃ rest, m.deferrals = (v :: vs) :: rest := by
  cases hd : m.deferrals with
  | nil =>
    rw [hd] at h
    cases h
  | cons d rest =>
    rw [hd] at h
    exact ⟨rest, congrArg (· :: rest) h⟩

@[simp] theorem Target.store_rdyState (v : Byte) (r : Regs) (target : Target) :
    (target.store v r).rdyState = r.rdyState := by
  cases target <;> rfl

@[simp] theorem Regs.prefetchEnd_rdyState (r : Regs) : r.prefetchEnd.rdyState = r.rdyState := by
  unfold Regs.prefetchEnd
  dsimp only
  split <;> rfl

@[simp] theorem Line.run_rdyState (q : InstState) (r : Regs) (l : Line) :
    (l.run q r).rdyState = r.rdyState := by
  cases l with
  | prefetchEnd => exact Regs.prefetchEnd_rdyState r
  | _ => rfl

/-- An access is made when the attempts that are deferred are over, also where something might
happen between them. -/
theorem exists_accesses {α : Type*} (env : Surroundings α (Machine B))
    (hmake : ∀ m, (make m).toBeRedone = m.toBeRedone)
    (hm : m.toBeRedone = false) (hready : ¬ Block.Waits Machine.pins g type m) :
    ∃ as, Accesses Machine.pins env g q type (fun _ ↦ Machine.deferrable target make) m as
      (make (m.afterDeferrals target)) := by
  induction hvs : m.deferrals.headD [] generalizing m with
  | nil =>
    have hline := @deferrable_of_nil _ target make m hvs
    have hmade : (m.deferrable target make).toBeRedone = false := by
      rw [hline]
      exact (hmake _).trans hm
    have hdone : Accesses Machine.pins env g q type (fun _ ↦ Machine.deferrable target make) m
        [env.idle] (env.change env.idle (m.deferrable target make)) := .done env.idle hready hmade
    rw [env.change_idle, hline] at hdone
    exact ⟨[env.idle], hdone⟩
  | cons v vs ih =>
    obtain ⟨rest, hd⟩ := cons_of_headD hvs
    have hline := @deferrable_of_cons _ target make m _ _ _ hd
    rw [afterDeferrals_of_cons hd]
    have hnext : ¬ Block.Waits Machine.pins g type
        { m with regs := target.store v m.regs, deferrals := vs :: rest } := by
      intro h
      exact hready ⟨h.1, h.2.1, (Target.store_rdyState v m.regs target).symm.trans h.2.2⟩
    obtain ⟨as, hrest⟩ :=
      @ih { m with regs := target.store v m.regs, deferrals := vs :: rest } hm hnext rfl
    refine ⟨env.idle :: as, .redo env.idle hready (congrArg Machine.toBeRedone hline) ?_⟩
    have hagain : env.change env.idle (Machine.pins.accessRedone (m.deferrable target make)) =
        { m with regs := target.store v m.regs, deferrals := vs :: rest } := by
      rw [env.change_idle, hline]
      obtain ⟨regs, bus, log, toBeRedone, deferrals⟩ := m
      obtain rfl : toBeRedone = false := hm
      rfl
    rw [hagain]
    exact hrest

/-- That is the only end it has. -/
theorem of_accesses {as : List Unit} (h : Accesses Machine.pins (still (Machine B)) g q type
    (fun _ ↦ Machine.deferrable target make) m as m')
    (hm : m.toBeRedone = false) (hmake : ∀ m, (make m).toBeRedone = m.toBeRedone) :
    ¬ Block.Waits Machine.pins g type m ∧ m' = make (m.afterDeferrals target) := by
  induction h with
  | wait a hwait _ ih => exact absurd hwait (ih hm).1
  | @redo c c' a as hready hredo hrest ih =>
    cases hvs : c.deferrals.headD [] with
    | nil =>
      have hdone : (c.deferrable target make).toBeRedone = false := by
        rw [deferrable_of_nil hvs]
        exact (hmake _).trans hm
      exact absurd (hdone.symm.trans hredo) Bool.false_ne_true
    | cons v vs =>
      obtain ⟨rest, hd⟩ := cons_of_headD hvs
      have hagain :
          (still (Machine B)).change a (Machine.pins.accessRedone (c.deferrable target make)) =
          { c with regs := target.store v c.regs, deferrals := vs :: rest } := by
        rw [deferrable_of_cons hd]
        obtain ⟨regs, bus, log, toBeRedone, deferrals⟩ := c
        obtain rfl : toBeRedone = false := hm
        rfl
      rw [hagain] at ih
      exact ⟨hready, by rw [afterDeferrals_of_cons hd]; exact (ih hm).2⟩
  | @done c a hready hdone =>
    refine ⟨hready, ?_⟩
    cases hvs : c.deferrals.headD [] with
    | nil => exact deferrable_of_nil hvs
    | cons v vs =>
      obtain ⟨rest, hd⟩ := cons_of_headD hvs
      have hredo := congrArg Machine.toBeRedone (@deferrable_of_cons _ target make c _ _ _ hd)
      exact absurd (hdone.symm.trans hredo) Bool.false_ne_true

end Accesses

/-! ## Instructions -/

variable [Bus B] {g : Bool} {q : InstState} {m m' : Machine B}

variable {c : Code}

theorem toBeRedone_exec (hm : m.toBeRedone = false) (h : c.exec g q m = some m') :
    m'.toBeRedone = false := by
  induction c generalizing m m' with
  | nop =>
    obtain rfl := Option.some.inj h
    exact hm
  | line l =>
    obtain rfl := Option.some.inj h
    exact hm
  | read kind addr target =>
    rw [Code.exec] at h
    split at h
    · cases h
    · obtain rfl := Option.some.inj h
      exact hm
  | write addr data =>
    obtain rfl := Option.some.inj h
    exact hm
  | seq a b iha ihb =>
    obtain ⟨m₁, ha, hb⟩ := Option.bind_eq_some_iff.mp h
    exact ihb (iha hm ha) hb
  | ite c a b iha ihb =>
    rw [Code.exec] at h
    split at h
    · exact iha hm h
    · exact ihb hm h
  | eatWhile c =>
    rw [Code.exec] at h
    split at h
    · cases h
    · obtain rfl := Option.some.inj h
      exact hm
  | eatForever => cases h

theorem exists_evals {α : Type*} (env : Surroundings α (Machine B)) (hm : m.toBeRedone = false)
    (h : c.exec g q m = some m') : ∃ as, c.toBlock.Evals Machine.pins env g q m as m' := by
  induction c generalizing m m' with
  | nop =>
    obtain rfl := Option.some.inj h
    exact ⟨[], rfl, rfl⟩
  | line l =>
    obtain rfl := Option.some.inj h
    exact ⟨[], rfl, rfl⟩
  | read kind addr target =>
    rw [Code.exec] at h
    split at h
    · cases h
    · next hready =>
      obtain rfl := Option.some.inj h
      exact exists_accesses env (fun _ ↦ rfl) hm fun hw ↦ hready ⟨hw.1, hw.2.2⟩
  | write addr data =>
    obtain rfl := Option.some.inj h
    exact exists_accesses env (fun _ ↦ rfl) hm fun hw ↦ LineType.noConfusion hw.2.1
  | seq a b iha ihb =>
    obtain ⟨m₁, ha, hb⟩ := Option.bind_eq_some_iff.mp h
    obtain ⟨as₁, h₁⟩ := iha hm ha
    obtain ⟨as₂, h₂⟩ := ihb (toBeRedone_exec hm ha) hb
    exact ⟨as₁ ++ as₂, as₁, as₂, m₁, rfl, h₁, h₂⟩
  | ite c a b iha ihb =>
    rw [Code.exec] at h
    split at h
    · next hc =>
      obtain ⟨as, ha⟩ := iha hm h
      exact ⟨as, by rwa [Code.toBlock, Block.Evals, if_pos hc]⟩
    · next hc =>
      obtain ⟨as, hb⟩ := ihb hm h
      exact ⟨as, by rwa [Code.toBlock, Block.Evals, if_neg hc]⟩
  | eatWhile c =>
    rw [Code.exec] at h
    split at h
    · cases h
    · next hc =>
      obtain rfl := Option.some.inj h
      exact ⟨[], .stop (Bool.eq_false_iff.mpr hc)⟩
  | eatForever => cases h

omit [Bus B] in
/-- A loop of `eat-all-cycles` that is entered is not left again. -/
theorem of_eats {k : Machine B → Bool} {as : List Unit} (h : Eats (still (Machine B)) k m as m') :
    k m = false ∧ m' = m := by
  induction h with
  | stop hk => exact ⟨hk, rfl⟩
  | again a hk _ ih => exact absurd (ih.1.symm.trans hk) Bool.false_ne_true

theorem of_evals (hm : m.toBeRedone = false) {as : List Unit}
    (h : c.toBlock.Evals Machine.pins (still (Machine B)) g q m as m') :
    c.exec g q m = some m' := by
  induction c generalizing m m' as with
  | nop => exact congrArg some h.2.symm
  | line l => exact congrArg some h.2.symm
  | read kind addr target =>
    have ha : Accesses Machine.pins (still (Machine B)) g q .memoryRead
        (fun _ ↦ Machine.deferrable target (Machine.makeRead kind addr target)) m as m' := h
    obtain ⟨hready, rfl⟩ := of_accesses ha hm fun _ ↦ rfl
    exact if_neg fun hw ↦ hready ⟨hw.1, rfl, hw.2⟩
  | write addr data =>
    have ha : Accesses Machine.pins (still (Machine B)) g q .memoryWrite
        (fun _ ↦ Machine.deferrable .none (Machine.makeWrite addr data)) m as m' := h
    obtain ⟨-, rfl⟩ := of_accesses ha hm fun _ ↦ rfl
    rfl
  | seq a b iha ihb =>
    obtain ⟨as₁, as₂, m₁, -, h₁, h₂⟩ := h
    have ha := iha hm h₁
    exact Option.bind_eq_some_iff.mpr ⟨m₁, ha, ihb (toBeRedone_exec hm ha) h₂⟩
  | ite c a b iha ihb =>
    rw [Code.exec]
    simp only [Code.toBlock, Block.Evals] at h
    split at h
    · next hc =>
      rw [if_pos hc]
      exact iha hm h
    · next hc =>
      rw [if_neg hc]
      exact ihb hm h
  | eatWhile c =>
    obtain ⟨hc, rfl⟩ := of_eats h
    exact if_neg (Bool.eq_false_iff.mp hc)
  | eatForever => exact h.elim

/-! ## Results -/

/-- What an instruction has done. -/
structure Performed (B : Type*) where
  regs : Regs
  bus : B
  log : List Event

def Machine.performed (m : Machine B) : Performed B := ⟨m.regs, m.bus, m.log⟩

/-- What the generated functions of an opcode have done when it is at its end, in any time
slices. -/
def Handler.results (h : Handler) (q : InstState) (m : Machine B) : Set (Performed B) :=
  {p | ∃ (fuel : ℕ) (slice : ℕ → Prop) (i : ℕ) (as : List Unit) (r : Running InstState (Machine B)),
    0 < i ∧ i ≤ fuel ∧ h.toOpcode.Executes Machine.pins (still _) fuel slice ⟨q, m, i, 0⟩ as r ∧
      r.core.performed = p}

/-- **The time slices do not matter.** The generated functions come to the end that the lines
have. -/
theorem mem_results_iff {h : Handler} {p : Performed B} (hm : m.toBeRedone = false) :
    p ∈ h.results q m ↔ ∃ m', h.exec q m = some m' ∧ m'.performed = p := by
  constructor
  · rintro ⟨fuel, slice, i, as, r, hi, hfuel, hexec, hp⟩
    obtain ⟨m', j, -, rfl, bs, -, hevals⟩ := Opcode.evals_of_executes hi hfuel hexec
    exact ⟨m', of_evals hm hevals, hp⟩
  · rintro ⟨m', hexec, hp⟩
    obtain ⟨as, hevals⟩ := exists_evals (still _) hm hexec
    have hexecutes :=
      @Opcode.executes_of_evals _ _ _ Machine.pins (still _) 1 h.toOpcode q m as m' one_pos hevals
    exact ⟨1, (· = 1), 1, as, _, one_pos, le_rfl, hexecutes, hp⟩

end RoscoEmulator.M6502
