import RoscoEmulator.Schedule.Restore

/-!
# The invariant of the timer lists

In every state the scheduler reaches the timers are arranged in the two lists. There is one way out
of it: if the base time is *never*, `execute_timers` takes the dummy for a timer that is due and
removes it, and then reads the head of an empty list. No state follows. -/

namespace RoscoEmulator.Schedule

open LinkedList

/-- The dummy timer alone is well formed. -/
theorem wellFormed_create : WellFormed none Scheduler.create [] [] := by
  have hlists : Lists Scheduler.create ([] ++ [0]) [] := by
    refine ⟨⟨⟨rfl, trivial⟩, ⟨rfl, trivial⟩⟩, rfl, ⟨trivial, trivial⟩, rfl, by simp, ?_⟩
    intro x hx
    have hx₀ : x = 0 := by simpa using hx
    subst hx₀
    exact Nat.zero_lt_one
  refine ⟨⟨hlists, rfl, rfl, rfl,
    List.Pairwise.nil, by simp, by simp, by simp, by simp, by simp⟩, ?_, by simp⟩
  intro x hx
  obtain ⟨hlt, htemporary⟩ := WellFormed.isPermanent_iff.mp hx
  have hx₀ : x = 0 := Nat.lt_one_iff.mp hlt
  subst hx₀
  exact absurd htemporary (by decide)

/-- The timers are well formed; at the head of the loop the active list may be empty instead. -/
def PhaseInvariant : Phase → Scheduler → Prop
  | .idle, s => s.callbackTimer = none ∧ ∃ A I, WellFormed none s A I
  | .loop, s => s.timerList = none ∨ ∃ A I, WellFormed none s A I
  | .callback x true, s => x ≠ 0 ∧ ∃ A I, WellFormed (some x) s A I
  | .callback x false, s =>
    x = 0 ∧ s.callbackTimerModified = false ∧ ∃ I, WellFormed (some x) s [] I

variable {p : Phase} {s : Scheduler}

theorem WellFormed.head {A I : List ℕ} {x : ℕ} (h : WellFormed none s A I)
    (hx : s.timerList = some x) :
    (x = 0 ∧ A = [] ∧ (s.timer x).enabled = false) ∨ (x ∈ A ∧ (s.timer x).enabled = true) := by
  have hhead := h.head_eq.symm.trans hx
  rcases A with _ | ⟨a, A⟩
  · have hx₀ : 0 = x := Option.some_inj.mp hhead
    subst hx₀
    exact Or.inl ⟨rfl, rfl, h.dummy_enabled⟩
  · have hxa : a = x := Option.some_inj.mp hhead
    subst hxa
    rcases h.enabled a List.mem_cons_self with henabled | ⟨hnone, -⟩
    · exact Or.inr ⟨List.mem_cons_self, henabled⟩
    · simp at hnone

/-- Operations run outside of `execute_timers` and in the callback of a timer that was enabled. -/
theorem PhaseInvariant.run {s' : Scheduler} (h : PhaseInvariant p s) (hp : p.runs = true)
    (hs' : ∀ {fired A I}, WellFormed fired s A I →
      ∃ A' I', WellFormed fired s' A' I' ∧ Evolves s s' A A') : PhaseInvariant p s' := by
  rcases p with _ | _ | ⟨x, _ | _⟩
  · obtain ⟨hnone, A, I, hwf⟩ := h
    obtain ⟨A', I', hwf', hevolves⟩ := hs' hwf
    exact ⟨hevolves.callbackTimer.trans hnone, A', I', hwf'⟩
  · simp [Phase.runs] at hp
  · simp [Phase.runs] at hp
  · obtain ⟨hx, A, I, hwf⟩ := h
    obtain ⟨A', I', hwf', -⟩ := hs' hwf
    exact ⟨hx, A', I', hwf'⟩

theorem phaseInvariant_of_reachable (h : Reachable p s) : PhaseInvariant p s := by
  induction h with
  | create => exact ⟨rfl, [], [], wellFormed_create⟩
  | alloc callback hp _ ih =>
    exact ih.run hp fun hwf ↦ hwf.init_evolves callback .never 0 false
  | apply o hp _ ih => exact ih.run hp fun hwf ↦ hwf.apply o
  | timeslice basetime executing _ ih =>
    obtain ⟨hnone, A, I, hwf⟩ := ih
    exact ⟨hnone, A, I,
      hwf.congr rfl rfl rfl rfl (fun _ ↦ SameSchedule.of_eq rfl) rfl rfl rfl rfl rfl⟩
  | enter _ ih => exact Or.inr ih.2
  | @fire s x _ hx hdue ih =>
    rcases ih with hnone | ⟨A, I, hwf⟩
    · simp [hnone] at hx
    · have hbegin := hwf.beginCallback hx
      rcases hwf.head hx with ⟨hx₀, hA, hdisabled⟩ | ⟨hxA, henabled⟩
      · subst hA
        rw [hdisabled]
        exact ⟨hx₀, rfl, I, hbegin⟩
      · rw [henabled]
        exact ⟨hwf.ne_zero (List.mem_append_left I hxA), A, I, hbegin⟩
  | @finish s x b _ ih =>
    rcases b with _ | _
    · obtain ⟨rfl, hmodified, I, hwf⟩ := ih
      exact Or.inl (hwf.endCallback_dummy hmodified)
    · obtain ⟨hx₀, A, I, hwf⟩ := ih
      obtain ⟨A', I', hwf', -⟩ := hwf.endCallback hx₀
      exact Or.inr ⟨A', I', hwf'⟩
  | @leave s x _ hx _ ih =>
    rcases ih with hnone | ⟨A, I, hwf⟩
    · simp [hnone] at hx
    · refine ⟨rfl, A, I, ⟨⟨hwf.lists.congr rfl rfl rfl rfl (Nat.le_refl _), hwf.dummy_expire,
        hwf.dummy_enabled, hwf.dummy_temporary, hwf.sorted, hwf.inserted_lt, hwf.expires,
        hwf.enabled, hwf.inactive, by simp⟩, hwf.permanent, by simp⟩⟩
  | presave _ ih =>
    obtain ⟨hnone, A, I, hwf⟩ := ih
    obtain ⟨hpresave, hstate, -, -⟩ := hwf.presave
    refine ⟨?_, A, I, hpresave⟩
    rw [hstate]
    exact hnone
  | load _ _ hcan hpermanent ih ih₀ =>
    obtain ⟨hnone, A, I, hwf⟩ := ih
    obtain ⟨-, A₀, I₀, hwf₀⟩ := ih₀
    obtain ⟨I', hload, hpreserved⟩ := hwf.load hwf₀ hcan hpermanent
    exact ⟨hpreserved.callbackTimer.trans hnone, A₀, I', hload⟩

/-- A state with its two lists, unless the active one was lost. -/
theorem exists_wellFormed (h : Reachable p s) (hp : p = .loop → s.timerList ≠ none) :
    ∃ fired A I, WellFormed fired s A I ∧ ∀ x, fired = some x → ∃ b, p = .callback x b := by
  have hinv := phaseInvariant_of_reachable h
  rcases p with _ | _ | ⟨x, _ | _⟩
  · obtain ⟨-, A, I, hwf⟩ := hinv
    exact ⟨none, A, I, hwf, by simp⟩
  · rcases hinv with hnone | ⟨A, I, hwf⟩
    · exact absurd hnone (hp rfl)
    · exact ⟨none, A, I, hwf, by simp⟩
  · obtain ⟨-, -, I, hwf⟩ := hinv
    exact ⟨some x, [], I, hwf, fun y hy ↦ ⟨false, by rw [Option.some_inj.mp hy]⟩⟩
  · obtain ⟨-, A, I, hwf⟩ := hinv
    exact ⟨some x, A, I, hwf, fun y hy ↦ ⟨true, by rw [Option.some_inj.mp hy]⟩⟩

/-- The links are those of an active list, which ends in the dummy, and of an inactive list; the
active list is in the order of expiry; every permanent timer is in exactly one of them; and a timer
is in the active list exactly if it is enabled and expires, but for a timer in its own callback. -/
def TimerListInvariant (p : Phase) (s : Scheduler) : Prop :=
  ∃ A I : List ℕ,
    (Linked s.next s.prev (A ++ [0]) ∧ s.timerList = (A ++ [0]).head?) ∧
    (Linked s.next s.prev I ∧ s.inactiveTimers = I.head?) ∧ (A ++ [0] ++ I).Nodup ∧
    (A ++ [0]).Pairwise (fun x y ↦ (s.timer x).expire ≤ (s.timer y).expire) ∧
    (s.timer 0).expire = Attotime.never ∧
    (∀ x, s.isPermanent x = true → (x ∈ A ∧ x ∉ I) ∨ (x ∉ A ∧ x ∈ I)) ∧
    ∀ x ∈ A ++ I, (∀ b, p ≠ .callback x b) →
      (x ∈ A ↔ (s.timer x).enabled = true ∧ (s.timer x).expire.isNever = false)

/-- **The timer lists.** The invariant holds in every state; at the head of the loop of
`execute_timers`, as long as there is an active list. -/
theorem timerListInvariant_of_reachable {p : Phase} {s : Scheduler} (h : Reachable p s)
    (hp : p = .loop → s.timerList ≠ none) : TimerListInvariant p s := by
  obtain ⟨fired, A, I, hwf, hfired⟩ := exists_wellFormed h hp
  refine ⟨A, I, ⟨hwf.lists.active, hwf.lists.timerList⟩, ⟨hwf.lists.inactive,
    hwf.lists.inactiveTimers⟩, hwf.lists.nodup, ?_, hwf.dummy_expire, ?_, ?_⟩
  · refine List.pairwise_append.mpr ⟨hwf.sorted.imp Before.expire_le,
      List.pairwise_singleton _ 0, ?_⟩
    intro x hx y hy
    rw [List.mem_singleton.mp hy, hwf.dummy_expire]
    exact (lt_never (hwf.expires x hx)).le
  · intro x hx
    rcases List.mem_append.mp (hwf.permanent x hx) with hA | hI
    · exact Or.inl ⟨hA, hwf.disjoint hA⟩
    · exact Or.inr ⟨fun hA ↦ hwf.disjoint hA hI, hI⟩
  · intro x hx hcallback
    constructor
    · intro hA
      refine ⟨?_, hwf.expires x hA⟩
      rcases hwf.enabled x hA with henabled | ⟨hx, -⟩
      · exact henabled
      · obtain ⟨b, hb⟩ := hfired x hx
        exact absurd hb (hcallback b)
    · rintro ⟨henabled, hexpires⟩
      rcases List.mem_append.mp hx with hA | hI
      · exact hA
      · have hactive := Arranged.isActive_iff.mpr ⟨hexpires, henabled⟩
        rw [hwf.inactive x hI] at hactive
        simp at hactive

/-- A one-shot timer that is due at once, in its callback. -/
theorem timerListInvariant_of_reachable_callback :
    TimerListInvariant (.callback 1 true)
      (((Scheduler.create.timerAlloc (some 0)).apply
      (.adjust 1 .zero 0 .never)).beginCallback 1) := by
  refine timerListInvariant_of_reachable ?_ (by simp)
  have hloop := Reachable.enter
    (.apply (.adjust 1 .zero 0 .never) rfl (.alloc (some 0) rfl .create))
  exact Reachable.fire hloop (by decide +kernel) (by decide +kernel)

end RoscoEmulator.Schedule
