import RoscoEmulator.M6502.Cycles

/-!
# The generated functions run the instructions

`_full` is a run of the opcode's instructions from their start and `_partial` one from the substate
that it finds, both counted in cycles as in `Block.run` and `Block.resume`. -/

namespace RoscoEmulator.M6502

open Stmt

variable {ι σ : Type*} {pins : Pins σ} {rdyGated : Bool} {q : ι} {c : σ} {n i p s fuel : ℕ}

/-- How the generated code is left. -/
def Outcome.flow (q : ι) (s : ℕ) : Outcome σ → Flow (Running ι σ)
  | ended c i => .next ⟨q, c, i, s⟩
  | paused c p => .ret ⟨q, c, 0, p⟩

open Outcome

theorem bind_flow {x : Option (Flow (Running ι σ))} {b : Stmt (Running ι σ)} {o : Outcome σ}
    {k : σ → ℕ → Outcome σ} {lo m : ℕ} (hx : x = some (o.flow q s)) (ho : o.Within lo m i)
    (hb : ∀ c j, 0 < j → j ≤ i → b.exec fuel ⟨q, c, j, s⟩ = some ((k c j).flow q s)) :
    x.bind (Flow.andThen (b.exec fuel)) = some ((o.andThen k).flow q s) := by
  subst hx
  cases o with
  | ended c j => exact hb c j ho.1 ho.2
  | paused c p => rfl

/-- A label behind the code changes nothing. -/
theorem exec_seq_label {a : Stmt (Running ι σ)} {t : Running ι σ} :
    (Stmt.seq a (.label n)).exec fuel t = a.exec fuel t := by
  rw [exec_seq]
  cases a.exec fuel t with
  | none => rfl
  | some f => cases f <;> rfl

section Access

theorem exec_countCycle (i : ℤ) :
    (countCycle : Stmt (Running ι σ)).exec fuel ⟨q, c, i, s⟩ = some (.next ⟨q, c, i - 1, s⟩) := rfl

theorem rdyWait_ret (hrdy : pins.rdyState c = false) (hi : 0 < i) (hfuel : i ≤ fuel) :
    (rdyWait pins n).exec fuel ⟨q, c, i, s⟩ = some (.ret ⟨q, c, 0, n⟩) := by
  obtain ⟨k, rfl⟩ : ∃ k, i = k + 1 := ⟨i - 1, by omega⟩
  refine iterate_countdown (fun j ↦ (⟨q, c, (j : ℤ), s⟩ : Running ι σ)) (fun j ↦ ?_)
    (fun j ↦ ?_) ?_ hfuel
  · exact (Bool.not_eq_true' _).mpr hrdy
  · rw [exec_seq_next (exec_countCycle _), show ((j + 2 : ℕ) : ℤ) - 1 = ((j + 1 : ℕ) : ℤ) by omega]
    exact exec_ite_neg (decide_eq_false (by show ¬((j + 1 : ℕ) : ℤ) ≤ 0; omega))
  · rw [exec_seq_next (exec_countCycle _)]
    exact exec_ite_pos rfl

/-- The check of `m_icount` behind an access that has been made. -/
theorem countAccess_flow (hdone : pins.accessToBeRedone c = false) (hi : 0 < i) :
    (countAccess pins n).exec fuel (⟨q, c, i, s⟩ : Running ι σ) =
      some ((if i = 1 then paused c (n + 1) else ended c (i - 1)).flow q s) := by
  rw [countAccess, exec_seq_next (exec_countCycle _)]
  by_cases h1 : i = 1
  · subst h1
    rw [if_pos rfl, exec_ite_pos rfl]
    exact exec_seq_next (exec_ite_neg hdone)
  · rw [if_neg h1, show (i : ℤ) - 1 = ((i - 1 : ℕ) : ℤ) by omega]
    exact exec_ite_neg (decide_eq_false (by show ¬((i - 1 : ℕ) : ℤ) ≤ 0; omega))

/-- The same check behind an access that has been deferred, which takes the instruction back in
front of it. -/
theorem countAccess_deferred (hredo : pins.accessToBeRedone c = true) :
    (countAccess pins n).exec fuel (⟨q, c, 0, s⟩ : Running ι σ) =
      some ((paused (pins.accessRedone c) n).flow q s) := by
  have hagain : (Stmt.ite (fun r : Running ι σ ↦ pins.accessToBeRedone r.core)
      (.seq (insLine fun _ ↦ pins.accessRedone) <|
        .seq (.act fun r ↦ { r with icount := r.icount + 1 }) <| setSubstate n)
      (setSubstate (n + 1))).exec fuel ⟨q, c, 0 - 1, s⟩ =
        some (.next ⟨q, pins.accessRedone c, 0, n⟩) := exec_ite_pos hredo
  rw [countAccess, exec_seq_next (exec_countCycle _), exec_ite_pos rfl, exec_seq_next hagain]
  rfl

theorem memoryAccess_flow (type : LineType) (ins : ι → σ → σ) (hi : 0 < i) (hfuel : i ≤ fuel) :
    (memoryAccess pins rdyGated type ins n).exec fuel ⟨q, c, i, s⟩ =
      some ((Block.access pins rdyGated q type ins n c i).flow q s) := by
  have hins : (Stmt.seq (accessLine pins ins) (countAccess pins n)).exec fuel ⟨q, c, i, s⟩ =
      some ((if pins.accessToBeRedone (ins q c) then paused (pins.accessRedone (ins q c)) n
        else if i = 1 then paused (ins q c) (n + 1) else ended (ins q c) (i - 1)).flow q s) := by
    have hline : (accessLine pins ins).exec fuel ⟨q, c, i, s⟩ = some (.next
        ⟨q, ins q c, if pins.accessToBeRedone (ins q c) then min (i : ℤ) 0 else i, s⟩) := rfl
    rw [exec_seq_next hline]
    by_cases hredo : pins.accessToBeRedone (ins q c) = true
    · rw [if_pos hredo, if_pos hredo, min_eq_right (Int.natCast_nonneg i)]
      exact countAccess_deferred hredo
    · rw [if_neg hredo, if_neg hredo]
      exact countAccess_flow (Bool.eq_false_iff.mpr hredo) hi
  unfold memoryAccess Block.access
  by_cases hgate : rdyGated ∧ type = .memoryRead
  · rw [if_pos hgate]
    cases hrdy : pins.rdyState c with
    | false =>
      rw [if_pos ⟨hgate.1, hgate.2, hrdy⟩]
      exact exec_seq_ret (rdyWait_ret hrdy hi hfuel)
    | true =>
      rw [if_neg fun h ↦ Bool.noConfusion (hrdy.symm.trans h.2.2), ← hins]
      exact exec_seq_next (exec_loop_of_not ((Bool.not_eq_false' _).mpr hrdy))
  · rw [if_neg hgate, if_neg fun h ↦ hgate ⟨h.1, h.2.1⟩]
    exact (exec_seq_next rfl).trans hins

theorem hasLabel_memoryAccess (type : LineType) (ins : ι → σ → σ) :
    (memoryAccess pins rdyGated type ins n).hasLabel p = false := by
  unfold memoryAccess
  split <;> rfl

end Access

/-- The loop of `eat-all-cycles`, which it leaves in its first iteration. -/
theorem eatLoop_flow {k : Running ι σ → Bool} (hk : k ⟨q, c, i, s⟩ = true) (a : Stmt (Running ι σ))
    (hi : 0 < i) (hfuel : i ≤ fuel) (ha : a.exec fuel ⟨q, c, i, s⟩ = some (.ret ⟨q, c, 0, n⟩)) :
    (Stmt.loop k a).exec fuel ⟨q, c, i, s⟩ = some ((paused c n).flow q s) := by
  obtain ⟨m, rfl⟩ : ∃ m, fuel = m + 1 := ⟨fuel - 1, by omega⟩
  exact iterate_ret hk ha m

variable (b : Block ι σ)

/-- The lines of the `_full` function run the instructions. -/
theorem fullCode_flow (hi : 0 < i) (hfuel : i ≤ fuel) :
    (fullCode pins rdyGated b n).exec fuel ⟨q, c, i, s⟩ =
      some ((b.run pins rdyGated q n c i).flow q s) := by
  induction b generalizing n c i with
  | nop => rfl
  | line type ins =>
    cases type with
    | none => rfl
    | memoryRead | memoryWrite => exact memoryAccess_flow _ ins hi hfuel
  | seq a b iha ihb =>
    exact bind_flow (iha hi hfuel) (Block.within_run a c hi) fun c j hj hji ↦
      ihb hj (hji.trans hfuel)
  | ite k a b iha ihb =>
    rw [fullCode, exec_ite, Block.run]
    split
    · exact iha hi hfuel
    · exact ihb hi hfuel
  | eatWhile k =>
    rw [fullCode, Block.run]
    split
    · next hk => exact eatLoop_flow hk _ hi hfuel rfl
    · next hk => exact exec_loop_of_not (Bool.eq_false_iff.mpr hk)
  | eatForever => exact eatLoop_flow rfl _ hi hfuel rfl

theorem partialCode_flow (b : Block ι σ) (hi : 0 < i) (hfuel : i ≤ fuel) :
    (partialCode pins rdyGated b n).exec fuel ⟨q, c, i, s⟩ =
      some ((b.run pins rdyGated q n c i).flow q s) := by
  induction b generalizing n c i with
  | nop => rfl
  | line type ins =>
    cases type with
    | none => rfl
    | memoryRead | memoryWrite =>
      refine (exec_seq_next rfl).trans ?_
      rw [exec_seq_label]
      exact memoryAccess_flow _ ins hi hfuel
  | seq a b iha ihb =>
    exact bind_flow (iha hi hfuel) (Block.within_run a c hi) fun c j hj hji ↦
      ihb hj (hji.trans hfuel)
  | ite k a b iha ihb =>
    rw [partialCode, exec_ite, Block.run]
    split
    · exact iha hi hfuel
    · exact ihb hi hfuel
  | eatWhile k =>
    rw [partialCode, Block.run]
    split
    · next hk => exact eatLoop_flow hk _ hi hfuel rfl
    · next hk => exact exec_loop_of_not (Bool.eq_false_iff.mpr hk)
  | eatForever => exact eatLoop_flow rfl _ hi hfuel rfl

theorem hasLabel_partialCode :
    (partialCode pins rdyGated b n).hasLabel p = decide (n ≤ p ∧ p < n + b.substates) := by
  induction b generalizing n with
  | nop => exact (decide_eq_false fun h ↦ absurd h.2 (Nat.not_lt.mpr h.1)).symm
  | line type ins =>
    cases type with
    | none => exact (decide_eq_false fun h ↦ absurd h.2 (Nat.not_lt.mpr h.1)).symm
    | memoryRead | memoryWrite =>
      rw [partialCode, hasLabel, hasLabel, hasLabel, hasLabel, hasLabel_memoryAccess,
        Bool.false_or, Bool.eq_iff_iff, Bool.or_eq_true, beq_iff_eq, beq_iff_eq, decide_eq_true_eq,
        Block.substates]
      omega
  | seq a b iha ihb | ite k a b iha ihb =>
    rw [partialCode, hasLabel, iha, ihb, Bool.eq_iff_iff, Bool.or_eq_true, decide_eq_true_eq,
      decide_eq_true_eq,
      decide_eq_true_eq, Block.substates]
    omega
  | eatWhile k | eatForever =>
    rw [partialCode, hasLabel, Bool.eq_iff_iff, decide_eq_true_eq, Block.substates]
    refine beq_iff_eq.trans ?_
    omega

/-- The labels lead back into the instructions. -/
theorem resume_partialCode_flow (hi : 0 < i) (hfuel : i ≤ fuel) (hp : n ≤ p ∧ p < n + b.substates) :
    (partialCode pins rdyGated b n).resume fuel p ⟨q, c, i, s⟩ =
      some ((b.resume pins rdyGated q p n c i).flow q s) := by
  induction b generalizing n c i with
  | nop => exact absurd hp.2 (Nat.not_lt.mpr hp.1)
  | line type ins =>
    cases type with
    | none => exact absurd hp.2 (Nat.not_lt.mpr hp.1)
    | memoryRead | memoryWrite =>
      rw [partialCode, Block.resume]
      by_cases hpn : p = n
      · subst hpn
        rw [if_pos rfl, resume_label_seq, exec_seq_label]
        exact memoryAccess_flow _ ins hi hfuel
      · have hfirst : (Stmt.label n : Stmt (Running ι σ)).hasLabel p = false :=
          beq_false_of_ne (Ne.symm hpn)
        rw [if_neg hpn, resume_seq_right hfirst, resume_seq_right (hasLabel_memoryAccess _ _)]
        rfl
  | seq a b iha ihb =>
    rw [partialCode, Block.resume]
    have hb : (partialCode pins rdyGated a n).hasLabel p = decide (n ≤ p ∧ p < n + a.substates) :=
      hasLabel_partialCode a
    by_cases hpa : p < n + a.substates
    · rw [resume_seq_left (hb.trans (decide_eq_true ⟨hp.1, hpa⟩)), if_pos hpa]
      exact bind_flow (iha hi hfuel ⟨hp.1, hpa⟩) (Block.within_resume a c hi) fun c j hj hji ↦
        partialCode_flow b hj (hji.trans hfuel)
    · rw [resume_seq_right (hb.trans (decide_eq_false fun h ↦ hpa h.2)), if_neg hpa]
      exact ihb hi hfuel ⟨Nat.not_lt.mp hpa, by have := hp.2; rw [Block.substates] at this; omega⟩
  | ite k a b iha ihb =>
    rw [partialCode, Block.resume]
    have hb : (partialCode pins rdyGated a n).hasLabel p = decide (n ≤ p ∧ p < n + a.substates) :=
      hasLabel_partialCode a
    by_cases hpa : p < n + a.substates
    · rw [resume_ite_left (hb.trans (decide_eq_true ⟨hp.1, hpa⟩)), if_pos hpa]
      exact iha hi hfuel ⟨hp.1, hpa⟩
    · rw [resume_ite_right (hb.trans (decide_eq_false fun h ↦ hpa h.2)), if_neg hpa]
      exact ihb hi hfuel ⟨Nat.not_lt.mp hpa, by have := hp.2; rw [Block.substates] at this; omega⟩
  | eatWhile k =>
    obtain rfl : p = n := Nat.le_antisymm (Nat.le_of_lt_succ hp.2) hp.1
    exact @partialCode_flow _ _ pins rdyGated _ _ _ _ _ _ (.eatWhile k) hi hfuel
  | eatForever =>
    obtain rfl : p = n := Nat.le_antisymm (Nat.le_of_lt_succ hp.2) hp.1
    exact @partialCode_flow _ _ pins rdyGated _ _ _ _ _ _ .eatForever hi hfuel

end RoscoEmulator.M6502
