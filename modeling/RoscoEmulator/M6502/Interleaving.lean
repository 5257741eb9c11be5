import RoscoEmulator.M6502.Generated

/-!
# An instruction and its surroundings

Between two time slices the rest of the machine may change the lines of the processor. `Block.Evals`
is an instruction that runs to its end with such changes, one behind each bus cycle and one behind
each cycle in which it waits: it knows no cycles and no substates. The slices of the generated code
are runs of this kind, and with slices of one cycle they are all of them: `evals_of_executes` and
`executes_of_evals`. -/

namespace RoscoEmulator.M6502

/-- What may happen to a processor between two of its time slices. -/
structure Surroundings (α σ : Type*) where
  change : α → σ → σ
  idle : α
  change_idle : ∀ c, change idle c = c

variable {α ι σ : Type*}

/-- The second list is the first one with idle changes put in. -/
inductive Padded (idle : α) : List α → List α → Prop
  | nil : Padded idle [] []
  | cons (a : α) {as bs : List α} : Padded idle as bs → Padded idle (a :: as) (a :: bs)
  | idle {as bs : List α} : Padded idle as bs → Padded idle as (idle :: bs)

namespace Padded

variable {idle : α} {as as' bs bs' : List α}

theorem refl : ∀ as : List α, Padded idle as as
  | [] => .nil
  | a :: as => .cons a (refl as)

theorem trans {cs : List α} (h : Padded idle as bs) (h' : Padded idle bs cs) :
    Padded idle as cs := by
  induction h' generalizing as with
  | nil => exact h
  | cons a _ ih =>
    cases h with
    | cons _ h => exact .cons a (ih h)
    | idle h => exact .idle (ih h)
  | idle _ ih => exact .idle (ih h)

theorem append (h : Padded idle as bs) (h' : Padded idle as' bs') :
    Padded idle (as ++ as') (bs ++ bs') := by
  induction h with
  | nil => exact h'
  | cons a _ ih => exact .cons a ih
  | idle _ ih => exact .idle ih

end Padded

section Runs

variable (pins : Pins σ) (env : Surroundings α σ) (rdyGated : Bool) (q : ι)

/-- An access to its end: the processor waits for RDY, and an access that is deferred is made
again. -/
inductive Accesses (type : LineType) (ins : ι → σ → σ) : σ → List α → σ → Prop
  | wait {c c' : σ} (a : α) {as : List α} : Block.Waits pins rdyGated type c →
      Accesses type ins (env.change a c) as c' → Accesses type ins c (a :: as) c'
  | redo {c c' : σ} (a : α) {as : List α} : ¬ Block.Waits pins rdyGated type c →
      pins.accessToBeRedone (ins q c) = true →
      Accesses type ins (env.change a (pins.accessRedone (ins q c))) as c' →
      Accesses type ins c (a :: as) c'
  | done {c : σ} (a : α) : ¬ Block.Waits pins rdyGated type c →
      pins.accessToBeRedone (ins q c) = false → Accesses type ins c [a] (env.change a (ins q c))

/-- The loop of `eat-all-cycles` to its end. -/
inductive Eats (k : σ → Bool) : σ → List α → σ → Prop
  | stop {c : σ} : k c = false → Eats k c [] c
  | again {c c' : σ} (a : α) {as : List α} :
    k c = true → Eats k (env.change a c) as c' → Eats k c (a :: as) c'

namespace Block

/-- Instructions that run to their end, with the changes behind their cycles. -/
def Evals : Block ι σ → σ → List α → σ → Prop
  | nop, c, as, c' => as = [] ∧ c' = c
  | line .none ins, c, as, c' => as = [] ∧ c' = ins q c
  | line .memoryRead ins, c, as, c' => Accesses pins env rdyGated q .memoryRead ins c as c'
  | line .memoryWrite ins, c, as, c' => Accesses pins env rdyGated q .memoryWrite ins c as c'
  | seq a b, c, as, c' => ∃ as₁ as₂ c₁, as = as₁ ++ as₂ ∧ a.Evals c as₁ c₁ ∧ b.Evals c₁ as₂ c'
  | ite k a b, c, as, c' => if k q c then a.Evals c as c' else b.Evals c as c'
  | eatWhile k, c, as, c' => Eats env k c as c'
  | eatForever, _, _, _ => False

/-- Instructions that run to their end from the substate `p`, one of theirs. -/
def EvalsFrom (p : ℕ) : Block ι σ → ℕ → σ → List α → σ → Prop
  | nop, _, c, as, c' | line .none _, _, c, as, c' => as = [] ∧ c' = c
  | line .memoryRead ins, n, c, as, c' =>
      if p = n then Accesses pins env rdyGated q .memoryRead ins c as c' else as = [] ∧ c' = c
  | line .memoryWrite ins, n, c, as, c' =>
      if p = n then Accesses pins env rdyGated q .memoryWrite ins c as c' else as = [] ∧ c' = c
  | seq a b, n, c, as, c' =>
      if p < n + a.substates then
        ∃ as₁ as₂ c₁, as = as₁ ++ as₂ ∧ a.EvalsFrom p n c as₁ c₁ ∧
          b.Evals pins env rdyGated q c₁ as₂ c'
      else b.EvalsFrom p (n + a.substates) c as c'
  | ite _ a b, n, c, as, c' =>
      if p < n + a.substates then a.EvalsFrom p n c as c'
        else b.EvalsFrom p (n + a.substates) c as c'
  | eatWhile k, _, c, as, c' => Eats env k c as c'
  | eatForever, _, _, _, _ => False

end Block

/-- Time slices that are given to instructions until they end, with the changes in front of the
slices. -/
inductive Reaches (resume : ℕ → σ → ℕ → Outcome σ) (slice : ℕ → Prop) :
    Outcome σ → List α → σ → Prop
  | ended (c : σ) (i : ℕ) : Reaches resume slice (.ended c i) [] c
  | paused {c c' : σ} {p : ℕ} (a : α) (i : ℕ) {as : List α} : 0 < i → slice i →
      Reaches resume slice (resume p (env.change a c) i) as c' →
      Reaches resume slice (.paused c p) (a :: as) c'

end Runs

namespace Block

open Outcome

variable {pins : Pins σ} {env : Surroundings α σ} {rdyGated : Bool} {q : ι}
    {slice : ℕ → Prop} {n i p : ℕ}

/-! ## Slices of any length -/

/-- An outcome of instructions leads on to an end of theirs. -/
def Leads (env : Surroundings α σ) (rest : ℕ → σ → List α → σ → Prop) (whole : List α → σ → Prop) :
    Outcome σ → Prop
  | ended c _ => ∃ bs, Padded env.idle [] bs ∧ whole bs c
  | paused c p =>
    ∀ a as c', rest p (env.change a c) as c' → ∃ bs, Padded env.idle (a :: as) bs ∧ whole bs c'

variable {o : Outcome σ} {whole : List α → σ → Prop} {c' : σ} {as : List α}

theorem Leads.congr {rest rest' : ℕ → σ → List α → σ → Prop} {lo k : ℕ} (h : Leads env rest whole o)
    (ho : o.Within lo k i) (hrest : ∀ p, lo ≤ p → p < lo + k → rest' p = rest p) :
    Leads env rest' whole o := by
  cases o with
  | ended c j => exact h
  | paused c p =>
    intro a as c' hc'
    rw [hrest p ho.1 ho.2] at hc'
    exact h a as c' hc'

/-- Instructions that are followed by others. -/
theorem Leads.andThen {rest rest' restB : ℕ → σ → List α → σ → Prop} {wholeA : List α → σ → Prop}
    {wholeB : σ → List α → σ → Prop} {k : σ → ℕ → Outcome σ} {lo m : ℕ}
    (h : Leads env rest wholeA o)
    (ho : o.Within lo m i) (hrest : ∀ p c as c', lo ≤ p → p < lo + m → rest' p c as c' →
      ∃ as₁ as₂ c₁, as = as₁ ++ as₂ ∧ rest p c as₁ c₁ ∧ wholeB c₁ as₂ c')
    (hwhole : ∀ as₁ as₂ c₁ c', wholeA as₁ c₁ → wholeB c₁ as₂ c' → whole (as₁ ++ as₂) c')
    (hk : ∀ c j, 0 < j → Leads env restB (wholeB c) (k c j)) (hkrest : ∀ c j, 0 < j →
    Leads env restB (wholeB c) (k c j) → Leads env rest' (wholeB c) (k c j)) :
    Leads env rest' whole (o.andThen k) := by
  cases o with
  | paused c p =>
    intro a as c' hc'
    obtain ⟨as₁, as₂, c₁, rfl, h₁, h₂⟩ := hrest p _ as c' ho.1 ho.2 hc'
    obtain ⟨bs, hbs, hA⟩ := h a as₁ c₁ h₁
    exact ⟨bs ++ as₂, hbs.append (.refl as₂), hwhole _ _ _ _ hA h₂⟩
  | ended c j =>
    obtain ⟨bs, hbs, hA⟩ := h
    have hB := hkrest c j ho.1 (hk c j ho.1)
    rw [andThen_ended]
    cases hkc : k c j with
    | ended c' j' =>
      rw [hkc] at hB
      obtain ⟨bs', hbs', hB⟩ := hB
      exact ⟨bs ++ bs', hbs.append hbs', hwhole _ _ _ _ hA hB⟩
    | paused c' p =>
      rw [hkc] at hB
      intro a as c'' hc''
      obtain ⟨bs', hbs', hB⟩ := hB a as c'' hc''
      exact ⟨bs ++ bs', hbs.append hbs', hwhole _ _ _ _ hA hB⟩

theorem leads_access (type : LineType) (ins : ι → σ → σ) (c : σ) :
    Leads env
      (fun p c as c' ↦ if p = n then Accesses pins env rdyGated q type ins c as c' else as = [] ∧
      c' = c) (Accesses pins env rdyGated q type ins c)
      (access pins rdyGated q type ins n c i) := by
  unfold access
  split_ifs with hwait hredo hlast
  · intro a as c' h
    rw [if_pos rfl] at h
    exact ⟨a :: as, .refl _, .wait a hwait h⟩
  · intro a as c' h
    rw [if_pos rfl] at h
    exact ⟨a :: as, .refl _, .redo a hwait hredo h⟩
  · intro a as c' h
    rw [if_neg (Nat.succ_ne_self n)] at h
    obtain ⟨rfl, rfl⟩ := h
    exact ⟨[a], .refl _, .done a hwait (Bool.eq_false_iff.mpr hredo)⟩
  · have hdone :
        Accesses pins env rdyGated q type ins c [env.idle] (env.change env.idle (ins q c)) :=
      .done env.idle hwait (Bool.eq_false_iff.mpr hredo)
    rw [env.change_idle] at hdone
    exact ⟨[env.idle], .idle .nil, hdone⟩

theorem leads_eatWhile (k : σ → Bool) (c : σ) :
    Leads env (fun _ ↦ Eats env k) (Eats env k c) (if k c then paused c n else ended c i) := by
  split_ifs with hk
  · intro a as c' h
    exact ⟨a :: as, .refl _, .again a hk h⟩
  · exact ⟨[], .nil, .stop (Bool.eq_false_iff.mpr hk)⟩

/-- What some cycles leave of the instructions leads on to their end. -/
theorem leads_run (b : Block ι σ) (c : σ) (hi : 0 < i) :
    Leads env (fun p ↦ b.EvalsFrom pins env rdyGated q p n) (b.Evals pins env rdyGated q c)
      (b.run pins rdyGated q n c i) := by
  induction b generalizing n c i with
  | nop => exact ⟨[], .nil, rfl, rfl⟩
  | line type ins =>
    cases type with
    | none => exact ⟨[], .nil, rfl, rfl⟩
    | memoryRead | memoryWrite => exact leads_access _ ins c
  | seq a b iha ihb =>
    refine Leads.andThen (iha c hi) (within_run a c hi) ?_ ?_
      (fun c j hj ↦ @ihb (n + a.substates) j c hj) ?_
    · intro p c as c' _ hp hrest
      rwa [EvalsFrom, if_pos hp] at hrest
    · intro as₁ as₂ c₁ c' hA hB
      exact ⟨as₁, as₂, c₁, rfl, hA, hB⟩
    · intro c j hj h
      refine h.congr (within_run b c hj) fun p hp _ ↦ ?_
      funext c as c'
      rw [EvalsFrom, if_neg (Nat.not_lt.mpr hp)]
  | ite k a b iha ihb =>
    by_cases hk : k q c = true
    · have hrun : (ite k a b).run pins rdyGated q n c i = a.run pins rdyGated q n c i := if_pos hk
      have hwhole : (ite k a b).Evals pins env rdyGated q c = a.Evals pins env rdyGated q c := by
        funext as c'
        exact if_pos hk
      rw [hrun, hwhole]
      refine (iha c hi).congr (within_run a c hi) fun p _ hp ↦ ?_
      funext c as c'
      exact if_pos hp
    · have hrun :
          (ite k a b).run pins rdyGated q n c i = b.run pins rdyGated q (n + a.substates) c i :=
        if_neg hk
      have hwhole : (ite k a b).Evals pins env rdyGated q c = b.Evals pins env rdyGated q c := by
        funext as c'
        exact if_neg hk
      rw [hrun, hwhole]
      refine (ihb c hi).congr (within_run b c hi) fun p hp _ ↦ ?_
      funext c as c'
      exact if_neg (Nat.not_lt.mpr hp)
  | eatWhile k => exact leads_eatWhile k c
  | eatForever => exact fun a as c' h ↦ h.elim

theorem leads_resume (b : Block ι σ) (c : σ) (hi : 0 < i) :
    Leads env (fun p ↦ b.EvalsFrom pins env rdyGated q p n) (b.EvalsFrom pins env rdyGated q p n c)
      (b.resume pins rdyGated q p n c i) := by
  induction b generalizing n c i with
  | nop => exact ⟨[], .nil, rfl, rfl⟩
  | line type ins =>
    cases type with
    | none => exact ⟨[], .nil, rfl, rfl⟩
    | memoryRead | memoryWrite =>
      simp only [resume, EvalsFrom]
      by_cases hp : p = n
      · simp only [hp, if_true]
        exact leads_access _ ins c
      · simp only [hp, if_false]
        exact ⟨[], .nil, rfl, rfl⟩
  | seq a b iha ihb =>
    by_cases hp : p < n + a.substates
    · have hrun : (seq a b).resume pins rdyGated q p n c i =
          (a.resume pins rdyGated q p n c i).andThen (b.run pins rdyGated q (n + a.substates)) :=
          if_pos hp
      rw [hrun]
      refine Leads.andThen (iha c hi) (within_resume a c hi) ?_ ?_
        (fun c j hj ↦ leads_run b c hj) ?_
      · intro p c as c' _ hp hrest
        rwa [EvalsFrom, if_pos hp] at hrest
      · intro as₁ as₂ c₁ c' hA hB
        rw [EvalsFrom, if_pos hp]
        exact ⟨as₁, as₂, c₁, rfl, hA, hB⟩
      · intro c j hj h
        refine h.congr (within_run b c hj) fun p hp _ ↦ ?_
        funext c as c'
        rw [EvalsFrom, if_neg (Nat.not_lt.mpr hp)]
    · have hrun : (seq a b).resume pins rdyGated q p n c i =
          b.resume pins rdyGated q p (n + a.substates) c i :=
        if_neg hp
      have hwhole : (seq a b).EvalsFrom pins env rdyGated q p n c =
          b.EvalsFrom pins env rdyGated q p (n + a.substates) c := by
        funext as c'
        exact if_neg hp
      rw [hrun, hwhole]
      refine (ihb c hi).congr (within_resume b c hi) fun p hp _ ↦ ?_
      funext c as c'
      rw [EvalsFrom, if_neg (Nat.not_lt.mpr hp)]
  | ite k a b iha ihb =>
    by_cases hp : p < n + a.substates
    · have hrun :
          (ite k a b).resume pins rdyGated q p n c i = a.resume pins rdyGated q p n c i := if_pos hp
      have hwhole : (ite k a b).EvalsFrom pins env rdyGated q p n c =
          a.EvalsFrom pins env rdyGated q p n c := by
        funext as c'
        exact if_pos hp
      rw [hrun, hwhole]
      refine (iha c hi).congr (within_resume a c hi) fun p _ hp ↦ ?_
      funext c as c'
      exact if_pos hp
    · have hrun : (ite k a b).resume pins rdyGated q p n c i =
          b.resume pins rdyGated q p (n + a.substates) c i := if_neg hp
      have hwhole : (ite k a b).EvalsFrom pins env rdyGated q p n c =
          b.EvalsFrom pins env rdyGated q p (n + a.substates) c := by
        funext as c'
        exact if_neg hp
      rw [hrun, hwhole]
      refine (ihb c hi).congr (within_resume b c hi) fun p hp _ ↦ ?_
      funext c as c'
      exact if_neg (Nat.not_lt.mpr hp)
  | eatWhile k => exact leads_eatWhile k c
  | eatForever => exact fun a as c' h ↦ h.elim

theorem evals_of_leads {b : Block ι σ}
    (h : Reaches env (fun p c i ↦ b.resume pins rdyGated q p n c i) slice o as c')
    (ho : Leads env (fun p ↦ b.EvalsFrom pins env rdyGated q p n) whole o) :
    ∃ bs, Padded env.idle as bs ∧ whole bs c' := by
  induction h generalizing whole with
  | ended c i => exact ho
  | paused a i hi _ _ ih =>
    obtain ⟨bs, hbs, hrest⟩ := ih (leads_resume b _ hi)
    obtain ⟨bs', hbs', hwhole⟩ := ho a bs _ hrest
    exact ⟨bs', (Padded.cons a hbs).trans hbs', hwhole⟩

/-! ## Slices of one cycle -/

theorem andThen_ended_self (o : Outcome σ) : o.andThen .ended = o := by
  cases o <;> rfl

/-- Slices of one cycle for instructions that are part of others. -/
theorem Reaches.part {resume resume' : ℕ → σ → ℕ → Outcome σ} {k : σ → ℕ → Outcome σ} {lo m : ℕ}
    {o : Outcome σ} {as₁ as₂ : List α} {c₁ c' : σ} (hwithin : ∀ p c, (resume p c 1).Within lo m 1)
    (hresume : ∀ p c, lo ≤ p → p < lo + m → resume' p c 1 = (resume p c 1).andThen k)
    (h : Reaches env resume (· = 1) o as₁ c₁) (ho : o.Within lo m 1)
    (hk : Reaches env resume' (· = 1) (k c₁ 1) as₂ c') :
    Reaches env resume' (· = 1) (o.andThen k) (as₁ ++ as₂) c' := by
  induction h with
  | ended c i =>
    obtain rfl : i = 1 := Nat.le_antisymm ho.2 ho.1
    exact hk
  | paused a i hi hslice _ ih =>
    subst hslice
    refine .paused a 1 hi rfl ?_
    rw [hresume _ _ ho.1 ho.2]
    exact ih (hwithin _ _) hk

theorem reaches_access {type : LineType} {ins : ι → σ → σ} {c : σ}
    (h : Accesses pins env rdyGated q type ins c as c') : Reaches env
    (fun p c i ↦ if p = n then access pins rdyGated q type ins n c i else ended c i) (· = 1)
      (access pins rdyGated q type ins n c 1) as c' := by
  induction h with
  | wait a hwait _ ih =>
    rw [access, if_pos hwait]
    refine .paused a 1 one_pos rfl ?_
    rwa [if_pos rfl]
  | redo a hwait hredo _ ih =>
    rw [access, if_neg hwait, if_pos hredo]
    refine .paused a 1 one_pos rfl ?_
    rwa [if_pos rfl]
  | done a hwait hdone =>
    rw [access, if_neg hwait, if_neg (Bool.eq_false_iff.mp hdone), if_pos rfl]
    refine .paused a 1 one_pos rfl ?_
    rw [if_neg (Nat.succ_ne_self n)]
    exact .ended _ 1

theorem reaches_eatWhile {k : σ → Bool} {c : σ} (h : Eats env k c as c') :
    Reaches env (fun _ c i ↦ if k c then paused c n else ended c i) (· = 1)
      (if k c then paused c n else ended c 1) as c' := by
  induction h with
  | stop hk =>
    rw [if_neg (Bool.eq_false_iff.mp hk)]
    exact .ended _ 1
  | again a hk _ ih =>
    rw [if_pos hk]
    exact .paused a 1 one_pos rfl ih

/-- Every run to the end comes from slices of one cycle. -/
theorem reaches_of_evals (b : Block ι σ) {c c' : σ} {as : List α}
    (h : b.Evals pins env rdyGated q c as c') : Reaches env
    (fun p c i ↦ b.resume pins rdyGated q p n c i) (· = 1) (b.run pins rdyGated q n c 1) as c' := by
  induction b generalizing n c as c' with
  | nop =>
    obtain ⟨rfl, rfl⟩ := h
    exact .ended _ 1
  | line type ins =>
    cases type with
    | none =>
      obtain ⟨rfl, rfl⟩ := h
      exact .ended _ 1
    | memoryRead | memoryWrite => exact reaches_access h
  | seq a b iha ihb =>
    obtain ⟨as₁, as₂, c₁, rfl, hA, hB⟩ := h
    have hrest : Reaches env (fun p c i ↦ (seq a b).resume pins rdyGated q p n c i) (· = 1)
        (b.run pins rdyGated q (n + a.substates) c₁ 1) as₂ c' := by
      have hpart :=
        @Reaches.part _ _ env _ (fun p c i ↦ (seq a b).resume pins rdyGated q p n c i) .ended
        (n + a.substates) b.substates _ _ [] _ c' (fun p c ↦ within_resume b c one_pos)
        (fun p c hp _ ↦ ?_) (ihb hB) (within_run b c₁ one_pos) (.ended _ 1)
      · rwa [andThen_ended_self, List.append_nil] at hpart
      · rw [andThen_ended_self, resume, if_neg (Nat.not_lt.mpr hp)]
    exact Reaches.part (fun p c ↦ within_resume a c one_pos) (fun p c _ hp ↦ if_pos hp) (iha hA)
      (within_run a c one_pos) hrest
  | ite k a b iha ihb =>
    rw [Evals] at h
    rw [run]
    split_ifs at h ⊢ with hk
    · have hpart :=
        @Reaches.part _ _ env _ (fun p c i ↦ (ite k a b).resume pins rdyGated q p n c i) .ended
        n a.substates _ _ [] _ c' (fun p c ↦ within_resume a c one_pos) (fun p c _ hp ↦ ?_) (iha h)
        (within_run a c one_pos) (.ended _ 1)
      · rwa [andThen_ended_self, List.append_nil] at hpart
      · rw [andThen_ended_self, resume, if_pos hp]
    · have hpart :=
        @Reaches.part _ _ env _ (fun p c i ↦ (ite k a b).resume pins rdyGated q p n c i) .ended
        (n + a.substates) b.substates _ _ [] _ c' (fun p c ↦ within_resume b c one_pos)
        (fun p c hp _ ↦ ?_) (ihb h) (within_run b c one_pos) (.ended _ 1)
      · rwa [andThen_ended_self, List.append_nil] at hpart
      · rw [andThen_ended_self, resume, if_neg (Nat.not_lt.mpr hp)]
  | eatWhile k => exact reaches_eatWhile h
  | eatForever => exact h.elim

end Block

/-! ## The generated functions -/

namespace Opcode

variable {pins : Pins σ} {env : Surroundings α σ} {fuel : ℕ} {op : Opcode ι σ} {slice : ℕ → Prop}
  {q : ι} {c : σ} {i : ℕ}

/-- What the generated functions leave behind. -/
def leave (op : Opcode ι σ) (q : ι) : Outcome σ → Running ι σ
  | .ended c i => ⟨op.next.getD q, c, i, 0⟩
  | .paused c p => ⟨q, c, 0, p⟩

theorem nextLine_exec (c : σ) (i : ℤ) (s : ℕ) :
    op.nextLine.exec fuel ⟨q, c, i, s⟩ = some (.next ⟨op.next.getD q, c, i, s⟩) := by
  rw [nextLine]
  cases op.next <;> rfl

theorem full_eq (hi : 0 < i) (hfuel : i ≤ fuel) : op.full pins fuel ⟨q, c, i, 0⟩ =
    some (op.leave q (op.instructions.run pins op.device.rdyGated q 1 c i)) := by
  rw [full, Stmt.exec_seq, fullCode_flow op.instructions hi hfuel]
  cases op.instructions.run pins op.device.rdyGated q 1 c i with
  | ended c j => exact congrArg (Option.map Flow.state) (nextLine_exec c j 0)
  | paused c p => rfl

theorem part_eq {p : ℕ} (hp : 1 ≤ p ∧ p < 1 + op.instructions.substates) (hi : 0 < i)
    (hfuel : i ≤ fuel) : op.part pins fuel ⟨q, c, i, p⟩ =
      some (op.leave q (op.instructions.resume pins op.device.rdyGated q p 1 c i)) := by
  have hzero : (Stmt.label 0 : Stmt (Running ι σ)).hasLabel p = false := beq_false_of_ne (by omega)
  have hcode : (partialCode pins op.device.rdyGated op.instructions 1).hasLabel p = true :=
    (hasLabel_partialCode _).trans (decide_eq_true hp)
  have hlabel : (op.partialCases pins).hasLabel p = true := by
    simp [partialCases, Stmt.hasLabel, hcode]
  rw [part, Stmt.switch, if_pos hlabel, partialCases, Stmt.resume_seq_right hzero,
    Stmt.resume_seq_left hcode, resume_partialCode_flow op.instructions hi hfuel hp]
  cases op.instructions.resume pins op.device.rdyGated q p 1 c i with
  | ended c j =>
    have hnext : op.nextLine.exec fuel ⟨q, c, j, p⟩ = some (.next ⟨op.next.getD q, c, j, p⟩) :=
      nextLine_exec c j p
    simp only [Outcome.flow, Option.bind_some, Flow.andThen_next, hnext]
    rfl
  | paused c p' => rfl

/-- Time slices for an instruction that `_full` or `_partial` may have left in the middle. -/
inductive Goes (pins : Pins σ) (env : Surroundings α σ) (fuel : ℕ) (op : Opcode ι σ)
    (slice : ℕ → Prop) : Running ι σ → List α → Running ι σ → Prop
  | ended {r : Running ι σ} : r.instSubstate = 0 → Goes pins env fuel op slice r [] r
  | part {r r' r'' : Running ι σ} (a : α) (i : ℕ) {as : List α} :
    r.instSubstate ≠ 0 → 0 < i → i ≤ fuel → slice i →
      op.part pins fuel { r with core := env.change a r.core, icount := i } = some r' →
      Goes pins env fuel op slice r' as r'' → Goes pins env fuel op slice r (a :: as) r''

/-- An instruction that is executed in time slices to its end, with changes between the slices. -/
def Executes (pins : Pins σ) (env : Surroundings α σ) (fuel : ℕ) (op : Opcode ι σ)
    (slice : ℕ → Prop) (r : Running ι σ) (as : List α) (r' : Running ι σ) : Prop :=
  ∃ r₁, op.full pins fuel r = some r₁ ∧ op.Goes pins env fuel slice r₁ as r'

variable {as : List α}

theorem reaches_of_goes {o : Outcome σ}
    {r : Running ι σ} (ho : o.Within 1 op.instructions.substates i)
    (h : op.Goes pins env fuel slice (op.leave q o) as r) :
    ∃ (c' : σ) (j : ℕ), 0 < j ∧ r = ⟨op.next.getD q, c', j, 0⟩ ∧
      Reaches env
      (fun p c i ↦ op.instructions.resume pins op.device.rdyGated q p 1 c i) slice o as c' := by
  generalize hr : op.leave q o = r₀ at h
  induction h generalizing o i with
  | ended hend =>
    subst hr
    cases o with
    | ended c j => exact ⟨c, j, ho.1, rfl, .ended c j⟩
    | paused c p => exact absurd hend (Nat.pos_iff_ne_zero.mp ho.1)
  | part a j hne hj hfuel hslice hpart _ ih =>
    subst hr
    cases o with
    | ended c j => exact absurd rfl hne
    | paused c p =>
      have hstep := @part_eq _ _ pins fuel op q (env.change a c) j p ho hj hfuel
      obtain rfl := Option.some.inj (hstep.symm.trans hpart)
      obtain ⟨c', j', hj', hr, hreach⟩ := ih (Block.within_resume op.instructions _ hj) rfl
      exact ⟨c', j', hj', hr, .paused a j hj hslice hreach⟩

theorem goes_of_reaches {o : Outcome σ}
    {c' : σ} (hfuel : 0 < fuel) (ho : o.Within 1 op.instructions.substates 1) (h : Reaches env
    (fun p c i ↦ op.instructions.resume pins op.device.rdyGated q p 1 c i) (· = 1) o as c') :
    op.Goes pins env fuel (· = 1) (op.leave q o) as ⟨op.next.getD q, c', (1 : ℕ), 0⟩ := by
  induction h with
  | ended c j =>
    obtain rfl : j = 1 := Nat.le_antisymm ho.2 ho.1
    exact .ended rfl
  | paused a j hj hs _ ih =>
    subst hs
    exact .part a 1 (Nat.pos_iff_ne_zero.mp ho.1) one_pos hfuel rfl (part_eq ho one_pos hfuel)
      (ih (Block.within_resume op.instructions _ one_pos))

/-- **The slices are runs of the instructions** with changes between their cycles. -/
theorem evals_of_executes {r : Running ι σ} (hi : 0 < i) (hfuel : i ≤ fuel)
    (h : op.Executes pins env fuel slice ⟨q, c, i, 0⟩ as r) :
    ∃ (c' : σ) (j : ℕ), 0 < j ∧ r = ⟨op.next.getD q, c', j, 0⟩ ∧ ∃ bs, Padded env.idle as bs ∧
      op.instructions.Evals pins env op.device.rdyGated q c bs c' := by
  obtain ⟨r₁, hfull, hgoes⟩ := h
  obtain rfl := Option.some.inj ((full_eq hi hfuel).symm.trans hfull)
  obtain ⟨c', j, hj, hr, hreach⟩ := reaches_of_goes (Block.within_run op.instructions c hi) hgoes
  exact ⟨c', j, hj, hr, Block.evals_of_leads hreach (Block.leads_run op.instructions c hi)⟩

/-- **With slices of one cycle they are all of them.** -/
theorem executes_of_evals {as : List α} {c' : σ} (hfuel : 0 < fuel)
    (h : op.instructions.Evals pins env op.device.rdyGated q c as c') :
    op.Executes pins env fuel (· = 1) ⟨q, c, (1 : ℕ), 0⟩ as ⟨op.next.getD q, c', (1 : ℕ), 0⟩ := by
  have hreach :=
    @Block.reaches_of_evals _ _ _ pins env op.device.rdyGated q 1 op.instructions c c' as h
  exact ⟨_, full_eq one_pos hfuel,
    goes_of_reaches hfuel (Block.within_run op.instructions c one_pos) hreach⟩

end Opcode

end RoscoEmulator.M6502
