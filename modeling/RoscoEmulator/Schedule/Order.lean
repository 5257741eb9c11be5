import RoscoEmulator.Schedule.Invariant

/-!
# The order in which timers fire

`execute_timers` fires the head of the active list, which is in the order of expiry and of
insertion, until it is not due. So a timer that fires is enabled and due, and no timer in the list
comes before it. The callback sees the expiry of its timer as the time, whatever it does, and what
it inserts expires at that time or later, except if it enables a timer that has expired already, or
passes a negative time. Such a timer is late: it fires next, after a timer that expires later.

Two timers with the same expiry fire in the order of their insertion in any case.
-/

namespace RoscoEmulator.Schedule

open List LinkedList

variable {ω : Type*} {s : Scheduler} {A I : List ℕ} {x : ℕ}

/-! ## One round of the loop -/

theorem WellFormed.foldl_apply {fired : Option ℕ} (h : WellFormed fired s A I) (ops : List Op) :
    ∃ A' I', WellFormed fired (ops.foldl Scheduler.apply s) A' I' ∧
      Evolves s (ops.foldl Scheduler.apply s) A A' := by
  induction ops generalizing s A I with
  | nil => exact ⟨A, I, h, .refl s A⟩
  | cons o ops ih =>
    obtain ⟨A₁, I₁, h₁, hevolves₁⟩ := h.apply o
    obtain ⟨A₂, I₂, h₂, hevolves₂⟩ := ih h₁
    exact ⟨A₂, I₂, h₂, hevolves₁.trans hevolves₂⟩

/-- The time stands still in a callback. -/
theorem WellFormed.time_scanl {fired : Option ℕ} (h : WellFormed fired s A I) (ops : List Op) :
    ∀ t ∈ (ops.scanl Scheduler.apply s).map Scheduler.time, t = s.time := by
  induction ops generalizing s A I with
  | nil => simp
  | cons o ops ih =>
    obtain ⟨A₁, I₁, h₁, hevolves₁⟩ := h.apply o
    intro t ht
    rw [scanl_cons, map_cons, mem_cons] at ht
    rcases ht with rfl | ht
    · rfl
    · exact (ih h₁ t ht).trans hevolves₁.time

/-- What a round leaves in the active list: timers that came after the one that fired, and new
ones. -/
structure Round (x : ℕ) (s s' : Scheduler) (A A' : List ℕ) : Prop where
  mem : ∀ y ∈ A', (y ∈ A ∧ y ≠ x ∧ Kept s s' y) ∨
    (s.insertions ≤ s'.inserted y ∧
      (s'.late y = true ∨ (s.timer x).expire ≤ (s'.timer y).expire))
  insertions_le : s.insertions ≤ s'.insertions
  basetime : s'.basetime = s.basetime

theorem WellFormed.fireTimer (h : WellFormed none s A I) (hx : s.timerList = some x) (hx₀ : x ≠ 0)
    (cb : Callbacks ω) (w : ω) :
    ∃ A' I', WellFormed none (s.fireTimer cb w x).2.1 A' I' ∧
      Round x s (s.fireTimer cb w x).2.1 A A' ∧
      ∀ t ∈ (s.fireTimer cb w x).2.2.times, t = (s.timer x).expire := by
  have h₁ := h.beginCallback hx
  have htime : (s.beginCallback x).time = (s.timer x).expire := rfl
  have hexpire : ∀ y, ((s.beginCallback x).timer y).expire = (s.timer y).expire := by
    intro y
    by_cases hyx : y = x
    · subst hyx
      simp [Scheduler.beginCallback]
    · simp [Scheduler.beginCallback, Function.update_of_ne hyx]
  rw [Scheduler.fireTimer]
  generalize (s.beginCallback x).callbackOps cb w x (s.timer x).enabled = r
  obtain ⟨w', ops⟩ := r
  obtain ⟨A₂, I₂, h₂, hevolves₂⟩ := h₁.foldl_apply ops
  obtain ⟨A₃, I₃, h₃, hevolves₃, hfresh⟩ := h₂.endCallback hx₀
  have hevolves := hevolves₂.trans hevolves₃
  refine ⟨A₃, I₃, h₃, ⟨?_, hevolves.insertions_le, hevolves.basetime⟩, ?_⟩
  · intro y hy
    have hnew : Fresh (s.beginCallback x)
        ((ops.foldl Scheduler.apply (s.beginCallback x)).endCallback x) y →
        s.insertions ≤ ((ops.foldl Scheduler.apply (s.beginCallback x)).endCallback x).inserted y ∧
        (((ops.foldl Scheduler.apply (s.beginCallback x)).endCallback x).late y = true ∨
          (s.timer x).expire ≤
            (((ops.foldl Scheduler.apply (s.beginCallback x)).endCallback x).timer y).expire) :=
      fun hy ↦ ⟨hy.inserted, htime ▸ hy.late⟩
    by_cases hyx : y = x
    · -- the timer that fired has been put back, by its callback or after it
      subst hyx
      refine Or.inr (hnew ?_)
      rcases hmodified :
          (ops.foldl Scheduler.apply (s.beginCallback y)).callbackTimerModified with _ | _
      · have hy₃ := hfresh hmodified hy
        exact ⟨hevolves₂.insertions_le.trans hy₃.inserted, hevolves₂.time ▸ hy₃.late⟩
      · have hsame : (ops.foldl Scheduler.apply (s.beginCallback y)).endCallback y =
            ops.foldl Scheduler.apply (s.beginCallback y) := by
          rw [Scheduler.endCallback, if_pos hmodified]
        rcases hevolves₃.mem y hy with ⟨hy₂, -⟩ | hy₃
        · rw [hsame]
          exact hevolves₂.modified y hy₂ rfl rfl hmodified
        · exact ⟨hevolves₂.insertions_le.trans hy₃.inserted, hevolves₂.time ▸ hy₃.late⟩
    · rcases hevolves.mem y hy with ⟨hyA, hkept⟩ | hy'
      · exact Or.inl ⟨hyA, hyx, hkept.expire.trans (hexpire y), hkept.inserted, hkept.late⟩
      · exact Or.inr (hnew hy')
  · intro t ht
    exact (h₁.time_scanl ops t ht).trans htime

/-- The dummy fires without a callback, and the active list is empty then. -/
theorem WellFormed.fireTimer_dummy (h : WellFormed none s [] I) (hx : s.timerList = some 0)
    (cb : Callbacks ω) (w : ω) : (s.fireTimer cb w 0).2.1.timerList = none ∧
      (s.fireTimer cb w 0).2.2.times = [(s.timer 0).expire] := by
  have hops : (s.beginCallback 0).callbackOps cb w 0 (s.timer 0).enabled = (w, []) := by
    rw [Scheduler.callbackOps, h.dummy_enabled]
    rcases ((s.beginCallback 0).timer 0).callback with _ | f <;> rfl
  rw [Scheduler.fireTimer, hops]
  exact ⟨(h.beginCallback hx).endCallback_dummy rfl, rfl⟩

/-! ## The run -/

/-- What is said of the timers that fire from a state with active list `A`. -/
structure FiringOrder (s : Scheduler) (A : List ℕ) (fs : List Firing) : Prop where
  each : ∀ f ∈ fs, f.expire ≤ s.basetime ∧ (f.wasEnabled = true ∨ f.timer = 0) ∧
    ∀ t ∈ f.times, t = f.expire
  head : ∀ f ∈ fs.head?, f.expire = Attotime.never ∨
    ∃ y ∈ A, f.expire = (s.timer y).expire ∧ f.inserted = s.inserted y ∧ f.late = s.late y
  origin : ∀ f ∈ fs, f.expire = Attotime.never ∨ s.insertions ≤ f.inserted ∨
    ∃ y ∈ A, f.expire = (s.timer y).expire ∧ f.inserted = s.inserted y
  chain : fs.IsChain fun f g ↦
    f.expire ≤ g.expire ∨ (g.late = true ∧ f.insertions ≤ g.inserted)
  ties : fs.Pairwise fun f g ↦ f.expire = g.expire → f.inserted < g.inserted

theorem FiringOrder.nil (s : Scheduler) (A : List ℕ) : FiringOrder s A [] :=
  ⟨by simp, by simp, by simp, .nil, .nil⟩

/-- The timers that come after the one that fires have not expired before it, and those that expire
with it were inserted after it. -/
theorem WellFormed.before_of_mem {y : ℕ} (h : WellFormed none s A I) (hx : s.timerList = some x)
    (hxA : x ∈ A) (hy : y ∈ A) (hyx : y ≠ x) : Before s x y := by
  have hhead := h.head_eq.symm.trans hx
  rcases A with _ | ⟨a, A⟩
  · simp at hxA
  · have hxa : a = x := Option.some_inj.mp hhead
    subst hxa
    exact (List.pairwise_cons.mp h.sorted).1 y ((List.mem_cons.mp hy).resolve_left hyx)

theorem FiringOrder.cons {s' : Scheduler} {A' : List ℕ} {fs : List Firing} {f : Firing}
    (hfs : FiringOrder s' A' fs) (h : WellFormed none s A I) (hx : s.timerList = some x)
    (hxA : x ∈ A) (hround : Round x s s' A A') (hdue : (s.timer x).expire ≤ s.basetime)
    (henabled : f.wasEnabled = true ∨ f.timer = 0) (hexpire : f.expire = (s.timer x).expire)
    (hinsertions : f.insertions = s.insertions) (hinserted : f.inserted = s.inserted x)
    (hlate : f.late = s.late x) (htimes : ∀ t ∈ f.times, t = (s.timer x).expire) :
    FiringOrder s A (f :: fs) := by
  have hnever : (s.timer x).expire < Attotime.never := lt_never (h.expires x hxA)
  have hlt := h.inserted_lt x hxA
  refine ⟨?_, ?_, ?_, ?_, ?_⟩
  · intro g hg
    rcases List.mem_cons.mp hg with rfl | hg
    · exact ⟨hexpire ▸ hdue, henabled, hexpire ▸ htimes⟩
    · rw [← hround.basetime]
      exact hfs.each g hg
  · intro g hg
    have hgf : f = g := by simpa using hg
    subst hgf
    exact Or.inr ⟨x, hxA, hexpire, hinserted, hlate⟩
  · intro g hg
    rcases List.mem_cons.mp hg with rfl | hg
    · exact Or.inr (Or.inr ⟨x, hxA, hexpire, hinserted⟩)
    · rcases hfs.origin g hg with hg | hg | ⟨y, hy, hgexpire, hginserted⟩
      · exact Or.inl hg
      · exact Or.inr (Or.inl (hround.insertions_le.trans hg))
      · rcases hround.mem y hy with ⟨hyA, -, hkept⟩ | ⟨hfresh, -⟩
        · exact Or.inr (Or.inr ⟨y, hyA, hgexpire.trans hkept.expire,
            hginserted.trans hkept.inserted⟩)
        · exact Or.inr (Or.inl (hginserted ▸ hfresh))
  · -- the next one is the dummy, or was there before, or is new
    refine List.isChain_cons.mpr ⟨?_, hfs.chain⟩
    intro g hg
    rcases hfs.head g hg with hg | ⟨y, hy, hgexpire, hginserted, hglate⟩
    · exact Or.inl (by rw [hexpire, hg]; exact hnever.le)
    · rw [hexpire, hgexpire, hinsertions, hginserted, hglate]
      rcases hround.mem y hy with ⟨hyA, hyx, hkept⟩ | ⟨hfresh, hlate | hle⟩
      · exact Or.inl (hkept.expire ▸ (h.before_of_mem hx hxA hyA hyx).expire_le)
      · exact Or.inr ⟨hlate, hfresh⟩
      · exact Or.inl hle
  · refine List.pairwise_cons.mpr ⟨?_, hfs.ties⟩
    intro g hg hfg
    rw [hinserted]
    rcases hfs.origin g hg with hg | hg | ⟨y, hy, hgexpire, hginserted⟩
    · rw [← hexpire, hfg, hg] at hnever
      exact absurd hnever (lt_irrefl _)
    · exact hlt.trans_le (hround.insertions_le.trans hg)
    · rcases hround.mem y hy with ⟨hyA, hyx, hkept⟩ | ⟨hfresh, -⟩
      · rw [hginserted, hkept.inserted]
        rcases h.before_of_mem hx hxA hyA hyx with hlt' | ⟨-, hlt'⟩
        · rw [← hexpire, hfg, hgexpire, hkept.expire] at hlt'
          exact absurd hlt' (lt_irrefl _)
        · exact hlt'
      · exact hlt.trans_le (hginserted ▸ hfresh)

theorem WellFormed.firingOrder (h : WellFormed none s A I) (cb : Callbacks ω) (fuel : ℕ) (w : ω) :
    FiringOrder s A (Scheduler.executeTimers cb fuel w s).2.2 := by
  induction fuel generalizing s A I w with
  | zero => exact .nil s A
  | succ fuel ih =>
    rw [Scheduler.executeTimers]
    rcases hx : s.timerList with _ | x
    · exact .nil s A
    · dsimp only
      by_cases hdue : (s.timer x).expire ≤ s.basetime
      swap
      · rw [if_neg hdue]
        exact .nil s A
      rw [if_pos hdue]
      rcases h.head hx with ⟨rfl, rfl, hdisabled⟩ | ⟨hxA, henabled⟩
      · -- the dummy, after which there is nothing
        obtain ⟨hnone, htimes⟩ := h.fireTimer_dummy hx cb w
        have hrest : (Scheduler.executeTimers cb fuel (s.fireTimer cb w 0).1
            (s.fireTimer cb w 0).2.1).2.2 = [] := by
          rcases fuel with _ | fuel
          · rfl
          · rw [Scheduler.executeTimers, hnone]
        rw [hrest]
        have hexpire : (s.fireTimer cb w 0).2.2.expire = Attotime.never := h.dummy_expire
        refine ⟨?_, ?_, ?_, .singleton _, pairwise_singleton _ _⟩
        · intro f hf
          rw [mem_singleton] at hf
          subst hf
          refine ⟨hdue, Or.inr rfl, ?_⟩
          rw [htimes]
          simp [h.dummy_expire, hexpire]
        · simp [hexpire]
        · simp [hexpire]
      · have hx₀ : x ≠ 0 := h.ne_zero (mem_append_left I hxA)
        obtain ⟨A', I', h', hround, htimes⟩ := h.fireTimer hx hx₀ cb w
        have ih' := ih h' (s.fireTimer cb w x).1
        exact ih'.cons h hx hxA hround hdue (Or.inl henabled) rfl rfl rfl rfl htimes

/-- **The order of the timers.** In a run of `execute_timers`, whatever the callbacks do, a timer
that fires is due and enabled (the dummy, which nothing calls, apart), and its expiry is the time
throughout its callback. It expires no earlier than the one before it, unless it was inserted since
then and had expired already. Timers that expire at the same time fire in the order of their
insertion. -/
theorem executeTimers_order (h : Reachable .idle s) (cb : Callbacks ω) (fuel : ℕ) (w : ω) :
    (∀ f ∈ (Scheduler.executeTimers cb fuel w s).2.2, f.expire ≤ s.basetime ∧
      (f.wasEnabled = true ∨ f.timer = 0) ∧ ∀ t ∈ f.times, t = f.expire) ∧
    (Scheduler.executeTimers cb fuel w s).2.2.IsChain (fun f g ↦
      f.expire ≤ g.expire ∨ (g.late = true ∧ f.insertions ≤ g.inserted)) ∧
    (Scheduler.executeTimers cb fuel w s).2.2.Pairwise
      (fun f g ↦ f.expire = g.expire → f.inserted < g.inserted) := by
  obtain ⟨-, A, I, hwf⟩ := phaseInvariant_of_reachable h
  have horder := hwf.firingOrder cb fuel w
  exact ⟨horder.each, horder.chain, horder.ties⟩

/-- Two timers, of which the second has been disabled, and the time has come for both. -/
def overdue : Scheduler :=
  { [Op.adjust 1 ⟨10, 0⟩ 0 .never, .adjust 2 ⟨3, 0⟩ 0 .never, .enable 2 false].foldl Scheduler.apply
      ((Scheduler.create.timerAlloc (some 0)).timerAlloc (some 1)) with
    basetime := ⟨20, 0⟩, executing := none }

theorem reachable_overdue : Reachable .idle overdue :=
  .timeslice ⟨20, 0⟩ none (.apply (.enable 2 false) rfl (.apply (.adjust 2 ⟨3, 0⟩ 0 .never) rfl
    (.apply (.adjust 1 ⟨10, 0⟩ 0 .never) rfl (.alloc (some 1) rfl (.alloc (some 0) rfl .create)))))

/-- The first callback enables the second timer. -/
def enableOverdue : Callbacks Unit :=
  fun _ _ f _ ↦ if f = 0 then ((), [.enable 2 true]) else ((), [])

/-- The timer that is enabled late fires all the same, and sees an earlier time. -/
theorem executeTimers_order_overdue :
    (Scheduler.executeTimers enableOverdue 3 () overdue).2.2.map (·.expire) = [⟨10, 0⟩, ⟨3, 0⟩] ∧
    (∀ f ∈ (Scheduler.executeTimers enableOverdue 3 () overdue).2.2, f.expire ≤ overdue.basetime ∧
      (f.wasEnabled = true ∨ f.timer = 0) ∧ ∀ t ∈ f.times, t = f.expire) := by
  have horder := executeTimers_order reachable_overdue enableOverdue 3 ()
  exact ⟨by decide +kernel, horder.1⟩

theorem executeTimers_not_sorted :
    ¬ ∀ (s : Scheduler), Reachable .idle s → ∀ (cb : Callbacks Unit) (fuel : ℕ),
      (Scheduler.executeTimers cb fuel () s).2.2.Pairwise fun f g ↦ f.expire ≤ g.expire := by
  intro hall
  have hsorted := hall overdue reachable_overdue enableOverdue 3
  have hexpires : (Scheduler.executeTimers enableOverdue 3 () overdue).2.2.map (·.expire) =
      [⟨10, 0⟩, ⟨3, 0⟩] := by decide +kernel
  have hmap : ([⟨10, 0⟩, ⟨3, 0⟩] : List Attotime).Pairwise (· ≤ ·) := by
    rw [← hexpires]
    exact List.pairwise_map.mpr hsorted
  exact absurd hmap (by decide)

end RoscoEmulator.Schedule
