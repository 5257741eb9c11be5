import Mathlib.Data.Nat.Notation

/-!
# Statements with case labels

The body of a function that is a `switch` with `case` labels anywhere inside it, in its branches and
loops too. `exec` runs a statement from its start, `resume` from one of its labels; both say whether
control falls over the end or a `return` leaves the function.

A loop runs at most `fuel` times whenever it is entered, and a run that would go further has no
result. -/

namespace RoscoEmulator

/-- How a statement is left: over its end, or by `return`. -/
inductive Flow (τ : Type*) where
  | next (t : τ)
  | ret (t : τ)

namespace Flow

variable {τ : Type*}

def state : Flow τ → τ
  | next t | ret t => t

/-- What follows a statement, which runs unless the statement returns. -/
def andThen (k : τ → Option (Flow τ)) : Flow τ → Option (Flow τ)
  | next t => k t
  | ret t => some (ret t)

@[simp] theorem state_next (t : τ) : (next t).state = t := rfl

@[simp] theorem state_ret (t : τ) : (ret t).state = t := rfl

@[simp] theorem andThen_next (k : τ → Option (Flow τ)) (t : τ) : (next t).andThen k = k t := rfl

@[simp] theorem andThen_ret (k : τ → Option (Flow τ)) (t : τ) : (ret t).andThen k = some (ret t) :=
  rfl

end Flow

inductive Stmt (τ : Type*) where
  | nop
  | act (f : τ → τ)
  | seq (a b : Stmt τ)
  | ite (c : τ → Bool) (a b : Stmt τ)
  | loop (c : τ → Bool) (a : Stmt τ)
  | label (n : ℕ)
  | ret

namespace Stmt

variable {τ : Type*}

/-- A loop that is entered with so much fuel. -/
def iterate (c : τ → Bool) (body : τ → Option (Flow τ)) : ℕ → τ → Option (Flow τ)
  | 0, t => if c t then none else some (.next t)
  | fuel + 1, t =>
    if c t then (body t).bind (Flow.andThen (iterate c body fuel)) else some (.next t)

/-- Runs the statement from its start. -/
def exec (fuel : ℕ) : Stmt τ → τ → Option (Flow τ)
  | nop, t | label _, t => some (.next t)
  | act f, t => some (.next (f t))
  | seq a b, t => (a.exec fuel t).bind (Flow.andThen (b.exec fuel))
  | ite c a b, t => if c t then a.exec fuel t else b.exec fuel t
  | loop c a, t => iterate c (a.exec fuel) fuel t
  | ret, t => some (.ret t)

def hasLabel (n : ℕ) : Stmt τ → Bool
  | label m => m == n
  | seq a b | ite _ a b => a.hasLabel n || b.hasLabel n
  | loop _ a => a.hasLabel n
  | nop | act _ | ret => false

/-- Runs the statement from the label `n`, which it has. -/
def resume (fuel n : ℕ) : Stmt τ → τ → Option (Flow τ)
  | seq a b, t =>
      if a.hasLabel n then (a.resume fuel n t).bind (Flow.andThen (b.exec fuel))
        else b.resume fuel n t
  | ite _ a b, t => if a.hasLabel n then a.resume fuel n t else b.resume fuel n t
  -- the label is passed in the middle of an iteration, and the test comes after it
  | loop c a, t => (a.resume fuel n t).bind (Flow.andThen (iterate c (a.exec fuel) fuel))
  | nop, t | label _, t | act _, t | ret, t => some (.next t)

/-- `switch(e) body`: without a label for the value of `e` nothing of the body runs. -/
def switch (fuel : ℕ) (e : τ → ℕ) (body : Stmt τ) (t : τ) : Option (Flow τ) :=
  if body.hasLabel (e t) then body.resume fuel (e t) t else some (.next t)

section Rules

variable {fuel n : ℕ} {a b : Stmt τ} {c : τ → Bool} {t u : τ}

@[simp] theorem exec_nop : (nop : Stmt τ).exec fuel t = some (.next t) := rfl

@[simp] theorem exec_label : (label n : Stmt τ).exec fuel t = some (.next t) := rfl

@[simp] theorem exec_act (f : τ → τ) : (act f).exec fuel t = some (.next (f t)) := rfl

@[simp] theorem exec_ret : (ret : Stmt τ).exec fuel t = some (.ret t) := rfl

theorem exec_seq : (seq a b).exec fuel t = (a.exec fuel t).bind (Flow.andThen (b.exec fuel)) := rfl

theorem exec_seq_next (h : a.exec fuel t = some (.next u)) :
    (seq a b).exec fuel t = b.exec fuel u := by
  rw [exec_seq, h]
  rfl

theorem exec_seq_ret (h : a.exec fuel t = some (.ret u)) :
    (seq a b).exec fuel t = some (.ret u) := by
  rw [exec_seq, h]
  rfl

theorem exec_ite : (ite c a b).exec fuel t = if c t then a.exec fuel t else b.exec fuel t := rfl

theorem exec_ite_pos (h : c t = true) : (ite c a b).exec fuel t = a.exec fuel t := if_pos h

theorem exec_ite_neg (h : c t = false) : (ite c a b).exec fuel t = b.exec fuel t :=
  if_neg (Bool.eq_false_iff.mp h)

theorem resume_seq_left (h : a.hasLabel n = true) :
    (seq a b).resume fuel n t = (a.resume fuel n t).bind (Flow.andThen (b.exec fuel)) := if_pos h

theorem resume_seq_right (h : a.hasLabel n = false) :
    (seq a b).resume fuel n t = b.resume fuel n t :=
  if_neg (Bool.eq_false_iff.mp h)

theorem resume_ite_left (h : a.hasLabel n = true) :
    (ite c a b).resume fuel n t = a.resume fuel n t := if_pos h

theorem resume_ite_right (h : a.hasLabel n = false) :
    (ite c a b).resume fuel n t = b.resume fuel n t :=
  if_neg (Bool.eq_false_iff.mp h)

/-- The label at the start of a sequence is passed to what follows it. -/
theorem resume_label_seq : (seq (label n) b).resume fuel n t = b.exec fuel t := by
  have h : (label n : Stmt τ).hasLabel n = true := beq_self_eq_true n
  rw [resume_seq_left h]
  rfl

end Rules

section Loops

variable {c : τ → Bool} {body : τ → Option (Flow τ)} {t u : τ}

theorem iterate_of_not (h : c t = false) (fuel : ℕ) : iterate c body fuel t = some (.next t) := by
  cases fuel <;> exact if_neg (Bool.eq_false_iff.mp h)

theorem exec_loop_of_not {fuel : ℕ} {a : Stmt τ} (h : c t = false) :
    (loop c a).exec fuel t = some (.next t) :=
  iterate_of_not h fuel

/-- The body returns in the first iteration. -/
theorem iterate_ret (hc : c t = true) (h : body t = some (.ret u)) (fuel : ℕ) :
    iterate c body (fuel + 1) t = some (.ret u) := by
  rw [iterate, if_pos hc, h]
  rfl

/-- A loop that counts down and returns from its last iteration. -/
theorem iterate_countdown (s : ℕ → τ) (hc : ∀ k, c (s (k + 1)) = true)
    (hstep : ∀ k, body (s (k + 2)) = some (.next (s (k + 1)))) (hlast : body (s 1) = some (.ret u))
    {k fuel : ℕ} (h : k < fuel) : iterate c body fuel (s (k + 1)) = some (.ret u) := by
  induction k generalizing fuel with
  | zero =>
    obtain ⟨fuel, rfl⟩ := Nat.exists_eq_add_of_lt h
    exact iterate_ret (hc 0) hlast _
  | succ k ih =>
    obtain ⟨fuel, rfl⟩ : ∃ m, fuel = m + 1 := ⟨fuel - 1, by omega⟩
    rw [iterate, if_pos (hc _), hstep k]
    exact ih (Nat.lt_of_succ_lt_succ h)

end Loops

end Stmt

end RoscoEmulator
