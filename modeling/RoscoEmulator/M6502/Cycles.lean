import RoscoEmulator.M6502.Make
import Mathlib.Algebra.Order.Ring.Nat

/-!
# An instruction counted in cycles

What an opcode of the lists is for, without the code that is written for it: its instructions run
until they end or until the cycles are used up, and then they go on from the substate that they have
reached. A deferred access uses up the cycles too, and it is made again. `Block.run_add` and
`Block.resume_add` say that the cycles may come in two parts if no access is deferred. -/

namespace RoscoEmulator.M6502

variable {ι σ : Type*}

/-- Instructions end with some cycles left, or they use up the cycles and wait at a substate. -/
inductive Outcome (σ : Type*) where
  | ended (c : σ) (cycles : ℕ)
  | paused (c : σ) (substate : ℕ)

namespace Outcome

/-- What follows instructions that end. -/
def andThen (k : σ → ℕ → Outcome σ) : Outcome σ → Outcome σ
  | ended c i => k c i
  | paused c p => paused c p

/-- `m` more cycles. Instructions that wait at a substate take them from there. -/
def more (m : ℕ) (resume : ℕ → σ → ℕ → Outcome σ) : Outcome σ → Outcome σ
  | ended c i => ended c (i + m)
  | paused c p => resume p c m

@[simp] theorem andThen_ended (k : σ → ℕ → Outcome σ) (c : σ) (i : ℕ) :
    (ended c i).andThen k = k c i := rfl

@[simp] theorem andThen_paused (k : σ → ℕ → Outcome σ) (c : σ) (p : ℕ) :
    (paused c p).andThen k = paused c p := rfl

@[simp] theorem more_ended (m : ℕ) (k : ℕ → σ → ℕ → Outcome σ) (c : σ) (i : ℕ) :
    (ended c i).more m k = ended c (i + m) := rfl

@[simp] theorem more_paused (m : ℕ) (k : ℕ → σ → ℕ → Outcome σ) (c : σ) (p : ℕ) :
    (paused c p).more m k = k p c m := rfl

/-- The cycles that are left lie between one and those there were, and a substate is one of the `n`
from `lo` on. -/
def Within (lo n i : ℕ) : Outcome σ → Prop
  | ended _ j => 0 < j ∧ j ≤ i
  | paused _ p => lo ≤ p ∧ p < lo + n

/-- What the instructions leave satisfies `P`. -/
def All (P : σ → Prop) : Outcome σ → Prop
  | ended c _ | paused c _ => P c

/-- Some cycle has passed. -/
def Shorter (i : ℕ) : Outcome σ → Prop
  | ended _ j => j < i
  | paused _ _ => True

section

variable {lo a b i m : ℕ} {o : Outcome σ} {k k' : σ → ℕ → Outcome σ}

theorem Within.left (h : o.Within lo a i) : o.Within lo (a + b) i := by
  cases o with
  | ended c j => exact h
  | paused c p => exact ⟨h.1, by have := h.2; omega⟩

theorem Within.right (h : o.Within (lo + a) b i) : o.Within lo (a + b) i := by
  cases o with
  | ended c j => exact h
  | paused c p => exact ⟨by have := h.1; omega, by have := h.2; omega⟩

theorem Within.andThen (h : o.Within lo a i) (hk : ∀ c j, 0 < j → (k c j).Within (lo + a) b j) :
    (o.andThen k).Within lo (a + b) i := by
  cases o with
  | paused c p => exact left (o := .paused c p) h
  | ended c j =>
    have hr := (hk c j h.1).right
    rw [andThen_ended]
    cases hc : k c j with
    | ended c' j' =>
      rw [hc] at hr
      exact ⟨hr.1, hr.2.trans h.2⟩
    | paused c' p =>
      rw [hc] at hr
      exact hr

theorem All.andThen {P : σ → Prop} (h : o.All P) (hk : ∀ c j, P c → (k c j).All P) :
    (o.andThen k).All P := by
  cases o with
  | ended c j => exact hk c j h
  | paused c p => exact h

/-- Only the substates that the instructions may wait at count. -/
theorem Within.more_congr {r r' : ℕ → σ → ℕ → Outcome σ} (h : o.Within lo a i)
    (hr : ∀ p, lo ≤ p → p < lo + a → r p = r' p) : o.more m r = o.more m r' := by
  cases o with
  | ended c j => rfl
  | paused c p => exact congrFun (congrFun (hr p h.1 h.2) c) m

end

end Outcome

open Outcome

namespace Block

variable (pins : Pins σ) (rdyGated : Bool) (q : ι)

/-- The processor waits for RDY before the access. -/
def Waits (type : LineType) (c : σ) : Prop :=
  rdyGated ∧ type = .memoryRead ∧ pins.rdyState c = false

instance (type : LineType) (c : σ) : Decidable (Waits pins rdyGated type c) :=
  inferInstanceAs (Decidable (_ ∧ _ ∧ _))

/-- One memory access with the substates `n` and `n + 1`. -/
def access (type : LineType) (ins : ι → σ → σ) (n : ℕ) (c : σ) (i : ℕ) : Outcome σ :=
  if Waits pins rdyGated type c then paused c n
  else if pins.accessToBeRedone (ins q c) then paused (pins.accessRedone (ins q c)) n
  else if i = 1 then paused (ins q c) (n + 1) else ended (ins q c) (i - 1)

/-- The instructions from their start, with the substates from `n` on and `i` cycles. -/
def run : Block ι σ → ℕ → σ → ℕ → Outcome σ
  | nop, _, c, i => ended c i
  | line .none ins, _, c, i => ended (ins q c) i
  | line .memoryRead ins, n, c, i => access pins rdyGated q .memoryRead ins n c i
  | line .memoryWrite ins, n, c, i => access pins rdyGated q .memoryWrite ins n c i
  | seq a b, n, c, i => (a.run n c i).andThen (b.run (n + a.substates))
  | ite k a b, n, c, i => if k q c then a.run n c i else b.run (n + a.substates) c i
  | eatWhile k, n, c, i => if k c then paused c n else ended c i
  | eatForever, n, c, _ => paused c n

/-- The instructions from the substate `p`, one of theirs. -/
def resume (p : ℕ) : Block ι σ → ℕ → σ → ℕ → Outcome σ
  | nop, _, c, i | line .none _, _, c, i => ended c i
  | line .memoryRead ins, n, c, i =>
    if p = n then access pins rdyGated q .memoryRead ins n c i else ended c i
  | line .memoryWrite ins, n, c, i =>
    if p = n then access pins rdyGated q .memoryWrite ins n c i else ended c i
  | seq a b, n, c, i =>
      if p < n + a.substates
        then (a.resume p n c i).andThen (b.run pins rdyGated q (n + a.substates))
      else b.resume p (n + a.substates) c i
  | ite _ a b, n, c, i =>
      if p < n + a.substates then a.resume p n c i else b.resume p (n + a.substates) c i
  | eatWhile k, n, c, i => if k c then paused c n else ended c i
  | eatForever, n, c, _ => paused c n

-- their equations are derived here, once for all the proofs below
attribute [local simp] run resume

/-- Every way through the instructions takes a cycle. -/
def ticks : Block ι σ → Bool
  | nop | line .none _ | eatWhile _ => false
  | line .memoryRead _ | line .memoryWrite _ | eatForever => true
  | seq a b => a.ticks || b.ticks
  | ite _ a b => a.ticks && b.ticks

/-- Every line keeps `P`. -/
def Keeps (P : σ → Prop) : Block ι σ → Prop
  | line _ ins => ∀ c, P c → P (ins q c)
  | seq a b | ite _ a b => a.Keeps P ∧ b.Keeps P
  | _ => True

variable {pins rdyGated q} {n i m p : ℕ}

theorem within_access (type : LineType) (ins : ι → σ → σ) (c : σ) (hi : 0 < i) :
    (access pins rdyGated q type ins n c i).Within n 2 i := by
  unfold access
  split_ifs
  · exact ⟨le_rfl, by omega⟩
  · exact ⟨le_rfl, by omega⟩
  · exact ⟨by omega, by omega⟩
  · exact ⟨by omega, by omega⟩

theorem within_run (b : Block ι σ) (c : σ) (hi : 0 < i) :
    (b.run pins rdyGated q n c i).Within n b.substates i := by
  induction b generalizing n c i with
  | nop => exact ⟨hi, le_rfl⟩
  | line type ins =>
    cases type with
    | none => exact ⟨hi, le_rfl⟩
    | memoryRead | memoryWrite => exact within_access _ ins c hi
  | seq a b iha ihb => exact (iha c hi).andThen fun c j hj ↦ ihb c hj
  | ite k a b iha ihb =>
    rw [run]
    split
    · exact (iha c hi).left
    · exact (ihb c hi).right
  | eatWhile k =>
    rw [run]
    split
    · exact ⟨le_rfl, Nat.lt_succ_self n⟩
    · exact ⟨hi, le_rfl⟩
  | eatForever => exact ⟨le_rfl, Nat.lt_succ_self n⟩

theorem within_resume (b : Block ι σ) (c : σ) (hi : 0 < i) :
    (b.resume pins rdyGated q p n c i).Within n b.substates i := by
  induction b generalizing n c i with
  | nop => exact ⟨hi, le_rfl⟩
  | line type ins =>
    cases type with
    | none => exact ⟨hi, le_rfl⟩
    | memoryRead | memoryWrite =>
      rw [resume]
      split
      · exact within_access _ ins c hi
      · exact ⟨hi, le_rfl⟩
  | seq a b iha ihb =>
    rw [resume]
    split
    · exact (iha c hi).andThen fun c j hj ↦ within_run b c hj
    · exact (ihb c hi).right
  | ite k a b iha ihb =>
    rw [resume]
    split
    · exact (iha c hi).left
    · exact (ihb c hi).right
  | eatWhile k =>
    rw [resume]
    split
    · exact ⟨le_rfl, Nat.lt_succ_self n⟩
    · exact ⟨hi, le_rfl⟩
  | eatForever => exact ⟨le_rfl, Nat.lt_succ_self n⟩

section Parts

variable {P : σ → Prop} (hredo : ∀ c, P c → pins.accessToBeRedone c = false) {c : σ} (hc : P c)
include hredo hc

theorem all_access (type : LineType) {ins : ι → σ → σ} (hins : ∀ c, P c → P (ins q c)) (i : ℕ) :
    (access pins rdyGated q type ins n c i).All P := by
  rw [access, hredo _ (hins c hc), if_neg Bool.false_ne_true]
  split_ifs
  · exact hc
  · exact hins c hc
  · exact hins c hc

theorem all_run {b : Block ι σ} (hb : b.Keeps q P) (i : ℕ) :
    (b.run pins rdyGated q n c i).All P := by
  induction b generalizing n c i with
  | nop | eatForever => exact hc
  | line type ins =>
    cases type with
    | none => exact hb c hc
    | memoryRead | memoryWrite => exact all_access hredo hc _ hb i
  | seq a b iha ihb => exact (iha hc hb.1 i).andThen fun c j hc ↦ ihb hc hb.2 j
  | ite k a b iha ihb =>
    rw [run]
    split
    · exact iha hc hb.1 i
    · exact ihb hc hb.2 i
  | eatWhile k =>
    rw [run]
    split <;> exact hc

theorem all_resume {b : Block ι σ} (hb : b.Keeps q P) (i : ℕ) :
    (b.resume pins rdyGated q p n c i).All P := by
  induction b generalizing n c i with
  | nop | eatForever => exact hc
  | line type ins =>
    cases type with
    | none => exact hc
    | memoryRead | memoryWrite =>
      rw [resume]
      split
      · exact all_access hredo hc _ hb i
      · exact hc
  | seq a b iha ihb =>
    rw [resume]
    split
    · exact (iha hc hb.1 i).andThen fun c j hc ↦ all_run hredo hc hb.2 j
    · exact ihb hc hb.2 i
  | ite k a b iha ihb =>
    rw [resume]
    split
    · exact iha hc hb.1 i
    · exact ihb hc hb.2 i
  | eatWhile k =>
    rw [resume]
    split <;> exact hc

theorem access_add (type : LineType) {ins : ι → σ → σ} (hins : ∀ c, P c → P (ins q c)) (hi : 0 < i)
    (hm : 0 < m) : access pins rdyGated q type ins n c (i + m) =
    (access pins rdyGated q type ins n c i).more m fun p c j ↦
      if p = n then access pins rdyGated q type ins n c j else ended c j := by
  by_cases hwait : Waits pins rdyGated type c
  · -- the wait for RDY takes the other cycles too
    have h : ∀ j, access pins rdyGated q type ins n c j = paused c n := fun j ↦ if_pos hwait
    rw [h, h, more_paused, if_pos rfl, h]
  · have hdone : ¬ pins.accessToBeRedone (ins q c) = true :=
      Bool.eq_false_iff.mp (hredo _ (hins c hc))
    have h : ∀ j, access pins rdyGated q type ins n c j =
        if j = 1 then paused (ins q c) (n + 1) else ended (ins q c) (j - 1) := fun j ↦
      (if_neg hwait).trans (if_neg hdone)
    rw [h, h, if_neg (by omega)]
    by_cases h1 : i = 1
    · rw [if_pos h1, more_paused, if_neg (Nat.succ_ne_self n), h1, Nat.add_sub_cancel_left]
    · rw [if_neg h1, more_ended, Nat.sub_add_comm hi]

/-- The cycles of some instructions may come in two parts. -/
theorem run_add {b : Block ι σ} (hb : b.Keeps q P) (hi : 0 < i) (hm : 0 < m) :
    b.run pins rdyGated q n c (i + m) =
      (b.run pins rdyGated q n c i).more m fun p c j ↦ b.resume pins rdyGated q p n c j := by
  induction b generalizing n c i with
  | nop => rfl
  | line type ins =>
    cases type with
    | none => rfl
    | memoryRead | memoryWrite => exact access_add hredo hc _ hb hi hm
  | seq a b iha ihb =>
    rw [run, run, iha hc hb.1 hi]
    have hw : (a.run pins rdyGated q n c i).Within n a.substates i := within_run a c hi
    have hall : (a.run pins rdyGated q n c i).All P := all_run hredo hc hb.1 i
    cases ha : a.run pins rdyGated q n c i with
    | ended c' j =>
      rw [ha] at hw hall
      rw [more_ended, andThen_ended, andThen_ended, ihb hall hb.2 hw.1]
      exact (within_run b c' hw.1).more_congr fun p hp _ ↦ by
        funext c j
        rw [resume, if_neg (Nat.not_lt.mpr hp)]
    | paused c' p =>
      rw [ha] at hw
      rw [more_paused, andThen_paused, more_paused, resume, if_pos hw.2]
  | ite k a b iha ihb =>
    rw [run, run]
    split
    · rw [iha hc hb.1 hi]
      exact (within_run a c hi).more_congr fun p _ hp ↦ by
        funext c j
        rw [resume, if_pos hp]
    · rw [ihb hc hb.2 hi]
      exact (within_run b c hi).more_congr fun p hp _ ↦ by
        funext c j
        rw [resume, if_neg (Nat.not_lt.mpr hp)]
  | eatWhile k =>
    rw [run, run]
    by_cases hk : k c
    · rw [if_pos hk, if_pos hk, more_paused, resume, if_pos hk]
    · rw [if_neg hk, if_neg hk, more_ended]
  | eatForever => rfl

/-- The same for instructions that go on from a substate. -/
theorem resume_add {b : Block ι σ} (hb : b.Keeps q P) (hi : 0 < i) (hm : 0 < m) :
    b.resume pins rdyGated q p n c (i + m) =
      (b.resume pins rdyGated q p n c i).more m fun p c j ↦ b.resume pins rdyGated q p n c j := by
  induction b generalizing n c i with
  | nop => rfl
  | line type ins =>
    cases type with
    | none => rfl
    | memoryRead | memoryWrite =>
      rw [resume, resume]
      split
      · exact access_add hredo hc _ hb hi hm
      · rfl
  | seq a b iha ihb =>
    rw [resume, resume]
    split
    · rw [iha hc hb.1 hi]
      have hw : (a.resume pins rdyGated q p n c i).Within n a.substates i := within_resume a c hi
      have hall : (a.resume pins rdyGated q p n c i).All P := all_resume hredo hc hb.1 i
      cases ha : a.resume pins rdyGated q p n c i with
      | ended c' j =>
        rw [ha] at hw hall
        rw [more_ended, andThen_ended, andThen_ended, run_add hredo hall hb.2 hw.1 hm]
        exact (within_run b c' hw.1).more_congr fun p hp _ ↦ by
          funext c j
          rw [resume, if_neg (Nat.not_lt.mpr hp)]
      | paused c' p' =>
        rw [ha] at hw
        rw [more_paused, andThen_paused, more_paused, resume, if_pos hw.2]
    · rw [ihb hc hb.2 hi]
      exact (within_resume b c hi).more_congr fun p hp _ ↦ by
        funext c j
        rw [resume, if_neg (Nat.not_lt.mpr hp)]
  | ite k a b iha ihb =>
    rw [resume, resume]
    split
    · rw [iha hc hb.1 hi]
      exact (within_resume a c hi).more_congr fun p _ hp ↦ by
        funext c j
        rw [resume, if_pos hp]
    · rw [ihb hc hb.2 hi]
      exact (within_resume b c hi).more_congr fun p hp _ ↦ by
        funext c j
        rw [resume, if_neg (Nat.not_lt.mpr hp)]
  | eatWhile k =>
    rw [resume, resume]
    by_cases hk : k c
    · rw [if_pos hk, if_pos hk, more_paused, resume, if_pos hk]
    · rw [if_neg hk, if_neg hk, more_ended]
  | eatForever => rfl

end Parts

theorem shorter_access (type : LineType) (ins : ι → σ → σ) (c : σ) (hi : 0 < i) :
    (access pins rdyGated q type ins n c i).Shorter i := by
  unfold access
  split_ifs
  · trivial
  · trivial
  · trivial
  · exact Nat.sub_lt hi one_pos

theorem shorter_run {b : Block ι σ} (hb : b.ticks = true) (c : σ) (hi : 0 < i) :
    (b.run pins rdyGated q n c i).Shorter i := by
  induction b generalizing n c i with
  | nop | eatWhile => cases hb
  | line type ins =>
    cases type with
    | none => cases hb
    | memoryRead | memoryWrite => exact shorter_access _ ins c hi
  | seq a b iha ihb =>
    rw [run]
    have hw : (a.run pins rdyGated q n c i).Within n a.substates i := within_run a c hi
    cases ha : a.run pins rdyGated q n c i with
    | paused c' p => trivial
    | ended c' j =>
      rw [ha] at hw
      rw [andThen_ended]
      rcases Bool.or_eq_true_iff.mp hb with h | h
      · have hs : (a.run pins rdyGated q n c i).Shorter i := iha h c hi
        have hw' : (b.run pins rdyGated q (n + a.substates) c' j).Within _ _ j :=
          within_run b c' hw.1
        rw [ha] at hs
        cases hc : b.run pins rdyGated q (n + a.substates) c' j with
        | paused => trivial
        | ended c'' j' =>
          rw [hc] at hw'
          exact lt_of_le_of_lt hw'.2 hs
      · have hs : (b.run pins rdyGated q (n + a.substates) c' j).Shorter j := ihb h c' hw.1
        cases hc : b.run pins rdyGated q (n + a.substates) c' j with
        | paused => trivial
        | ended c'' j' =>
          rw [hc] at hs
          exact lt_of_lt_of_le hs hw.2
  | ite k a b iha ihb =>
    rw [run]
    obtain ⟨ha, hb⟩ := Bool.and_eq_true_iff.mp hb
    split
    · exact iha ha c hi
    · exact ihb hb c hi
  | eatForever => trivial

end Block

end RoscoEmulator.M6502
