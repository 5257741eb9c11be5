import RoscoEmulator.Schedule.Order

/-!
# The run after a restore

Two schedulers are alike if they have the same permanent timers, with the same fields, and active
lists that correspond, temporary timers under different names included. The numbers of a save and
the order of the inactive timers may differ. Nothing that a device sees tells them apart, so the
same operations follow and the same timers fire. A scheduler into which a state has been loaded is
like the one that was saved, so that the run goes on as if there had been no interruption. -/

namespace RoscoEmulator.Schedule

open Function List LinkedList Scheduler

/-! ## Schedulers that are alike -/

/-- The fields of a timer but for its number in a save. -/
structure SameTimer (t t' : Timer) : Prop where
  callback : t'.callback = t.callback
  param : t'.param = t.param
  enabled : t'.enabled = t.enabled
  temporary : t'.temporary = t.temporary
  period : t'.period = t.period
  start : t'.start = t.start
  expire : t'.expire = t.expire

theorem SameTimer.isActive {t t' : Timer} (h : SameTimer t t') : t'.isActive = t.isActive := by
  rw [Timer.isActive, Timer.isActive, h.expire, h.enabled]

/-- Two timers correspond. A permanent timer corresponds to itself. -/
structure Matches (s s' : Scheduler) (x x' : ℕ) : Prop where
  timer : SameTimer (s.timer x) (s'.timer x')
  inserted : s'.inserted x' = s.inserted x
  permanent : (s.timer x).temporary = false → x' = x

/-- Two schedulers with the active lists `A` and `A'`, in the callbacks of `fired` and `fired'`. -/
structure Alike (fired fired' : Option ℕ) (s s' : Scheduler) (A A' : List ℕ) : Prop where
  isPermanent : ∀ x, s'.isPermanent x = s.isPermanent x
  timer : ∀ x, s.isPermanent x = true → SameTimer (s.timer x) (s'.timer x)
  active : Forall₂ (Matches s s') A A'
  basetime : s'.basetime = s.basetime
  executing : s'.executing = s.executing
  insertions : s'.insertions = s.insertions
  callbackTimer : ∀ x, s.isPermanent x = true →
    (s'.callbackTimer = some x ↔ s.callbackTimer = some x)
  callbackTimer_isSome : s'.callbackTimer.isSome = s.callbackTimer.isSome
  callbackTimerModified : s.callbackTimer ≠ none →
    s'.callbackTimerModified = s.callbackTimerModified
  callbackTimerExpireTime : s.callbackTimer ≠ none →
    s'.callbackTimerExpireTime = s.callbackTimerExpireTime
  fired : ∀ x x', fired = some x → fired' = some x' → Matches s s' x x' ∧
    ((s.timer x).temporary = true → x ∈ A ∧ x' ∈ A')

namespace Alike

variable {fired fired' : Option ℕ} {s s' : Scheduler} {A A' I I' : List ℕ} {x : ℕ}

theorem time (h : Alike fired fired' s s' A A') : s'.time = s.time := by
  have hsome := h.callbackTimer_isSome
  have hexpire := h.callbackTimerExpireTime
  rw [Scheduler.time, Scheduler.time, h.executing, h.basetime]
  rcases hc : s.callbackTimer with _ | x <;> rcases hc' : s'.callbackTimer with _ | x'
  · rfl
  · simp [hc, hc'] at hsome
  · simp [hc, hc'] at hsome
  · exact hexpire (by simp [hc])

/-- A device sees no difference. -/
theorem view (h : Alike fired fired' s s' A A') : s'.view = s.view := by
  have htimer : s'.view.timer = s.view.timer := by
    funext x
    rw [Scheduler.view, Scheduler.view]
    dsimp only
    rw [h.isPermanent]
    split_ifs with hx
    · obtain ⟨-, hparam, henabled, -, hperiod, hstart, hexpire⟩ := h.timer x hx
      rw [hparam, henabled, hperiod, hstart, hexpire]
    · rfl
  have htime : s'.view.time = s.view.time := h.time
  calc s'.view = ⟨s'.view.time, s'.view.timer⟩ := rfl
    _ = ⟨s.view.time, s.view.timer⟩ := by rw [htime, htimer]

end Alike

variable (s : Scheduler) {x y : ℕ}

/-- Timers correspond as long as neither is changed. -/
theorem Matches.congr {s s' s₁ s₁' : Scheduler} {y' : ℕ} (h : Matches s s' y y')
    (htimer : s₁.timer y = s.timer y)
    (htimer' : s₁'.timer y' = s'.timer y') (hinserted : s₁.inserted y = s.inserted y)
    (hinserted' : s₁'.inserted y' = s'.inserted y') : Matches s₁ s₁' y y' := by
  refine ⟨?_, ?_, ?_⟩
  · rw [htimer, htimer']
    exact h.timer
  · rw [hinserted, hinserted', h.inserted]
  · rw [htimer]
    exact h.permanent

/-- A permanent timer corresponds to nothing else. -/
theorem Matches.eq_iff {s s' : Scheduler}
    {y' : ℕ} (h : Matches s s' y y') (hx : (s.timer x).temporary = false)
    (hx' : (s'.timer x).temporary = false) : y = x ↔ y' = x := by
  constructor
  · rintro rfl
    exact h.permanent hx
  · rintro rfl
    have htemporary : (s.timer y).temporary = false := h.timer.temporary.symm.trans hx'
    exact (h.permanent htemporary).symm

theorem Arranged.eq_of_key {fired : Option ℕ} {s : Scheduler} {A I : List ℕ}
    (h : Arranged fired s A I) (hx : x ∈ A)
    (hy : y ∈ A) (hexpire : (s.timer x).expire = (s.timer y).expire)
    (hinserted : s.inserted x = s.inserted y) : x = y := by
  have hpairwise : A.Pairwise fun a b ↦
      ((s.timer a).expire, s.inserted a) ≠ ((s.timer b).expire, s.inserted b) := by
    refine h.sorted.imp ?_
    rintro a b (hlt | ⟨-, hlt⟩) heq
    · exact absurd (congrArg Prod.fst heq) hlt.ne
    · exact absurd (congrArg Prod.snd heq) hlt.ne
  have hnodup : (A.map fun a ↦ ((s.timer a).expire, s.inserted a)).Nodup :=
    List.pairwise_map.mpr hpairwise
  exact inj_on_of_nodup_map hnodup hx hy (Prod.ext hexpire hinserted)

/-! ## The operations -/

/-- What an operation on a timer leaves of a scheduler. -/
structure ChangesOnly (x : ℕ) (s s₁ : Scheduler) : Prop where
  timer : ∀ y ≠ x, s₁.timer y = s.timer y
  inserted : ∀ y ≠ x, s₁.inserted y = s.inserted y
  isPermanent : ∀ y, s₁.isPermanent y = s.isPermanent y
  basetime : s₁.basetime = s.basetime
  executing : s₁.executing = s.executing
  callbackTimer : s₁.callbackTimer = s.callbackTimer
  callbackTimerExpireTime : s₁.callbackTimerExpireTime = s.callbackTimerExpireTime

namespace ChangesOnly

variable {s s₁ s₂ : Scheduler}

theorem trans (h : ChangesOnly x s s₁) (h' : ChangesOnly x s₁ s₂) : ChangesOnly x s s₂ where
  timer y hyx := (h'.timer y hyx).trans (h.timer y hyx)
  inserted y hyx := (h'.inserted y hyx).trans (h.inserted y hyx)
  isPermanent y := (h'.isPermanent y).trans (h.isPermanent y)
  basetime := h'.basetime.trans h.basetime
  executing := h'.executing.trans h.executing
  callbackTimer := h'.callbackTimer.trans h.callbackTimer
  callbackTimerExpireTime := h'.callbackTimerExpireTime.trans h.callbackTimerExpireTime

theorem of_samePointees (h : SamePointees s s₁)
    (hinserted : ∀ y ≠ x, s₁.inserted y = s.inserted y) : ChangesOnly x s s₁ :=
  ⟨fun y _ ↦ congrFun h.timer y, hinserted, h.isPermanent, h.basetime, h.executing, h.callbackTimer,
    h.callbackTimerExpireTime⟩

variable (s)

theorem setTimer {t : Timer} (ht : t.temporary = (s.timer x).temporary) (m : Bool) :
    ChangesOnly x s ({ s with callbackTimerModified := m }.setTimer x t) := by
  refine ⟨fun y hyx ↦ setTimer_of_ne _ hyx t, fun _ _ ↦ rfl, fun y ↦ ?_, rfl, rfl, rfl, rfl⟩
  by_cases hyx : y = x
  · subst hyx
    rw [Scheduler.isPermanent, setTimer_self, ht]
    rfl
  · rw [Scheduler.isPermanent, setTimer_of_ne _ hyx]
    rfl

theorem remove (x : ℕ) : ChangesOnly x s (s.timerListRemove x) :=
  of_samePointees (.timerListRemove s x) fun y _ ↦ congrFun (timerListRemove_history s x).inserted y

theorem insert (x : ℕ) : ChangesOnly x s (s.timerListInsert false x) :=
  of_samePointees (.timerListInsert s false x) fun y hyx ↦
    (congrFun (timerListInsert_history s false x).inserted y).trans (update_of_ne hyx _ s.inserted)

theorem reinsert {t : Timer} (ht : t.temporary = (s.timer x).temporary) (m : Bool) :
    ChangesOnly x s (({ s with callbackTimerModified := m }.setTimer x t).reinsert x) :=
  ((setTimer s ht m).trans (remove _ x)).trans (insert _ x)

theorem reclaim (x : ℕ) : ChangesOnly x s (s.reclaim x) :=
  (setTimer s
    (t := { s.timer x with callback := none }) rfl s.callbackTimerModified).trans (remove _ x)

/-- A new timer that is temporary. -/
theorem init (callback : Option ℕ) (startDelay : Attotime) (param : ℤ) :
    ChangesOnly s.allocated s (s.init callback startDelay param true) := by
  have hadd : ChangesOnly s.allocated s (s.addTimer callback startDelay param true) := by
    refine ⟨fun y hy ↦ update_of_ne hy _ _, fun _ _ ↦ rfl, fun y ↦ ?_, rfl, rfl, rfl, rfl⟩
    by_cases hy : y = s.allocated
    · subst hy
      simp [Scheduler.isPermanent, addTimer]
    · have hlt : y < s.allocated + 1 ↔ y < s.allocated := by omega
      simp [Scheduler.isPermanent, addTimer, update_of_ne hy, hlt]
  exact hadd.trans (insert _ _)

end ChangesOnly

theorem beginCallback_self (x : ℕ) :
    (s.beginCallback x).timer x = { s.timer x with
      enabled := if (s.timer x).period.isZero || (s.timer x).period.isNever then false
        else (s.timer x).enabled } := by
  simp [Scheduler.beginCallback]

theorem reinsert_self {s : Scheduler} (x : ℕ) (t : Timer) (m : Bool) :
    (({ s with callbackTimerModified := m }.setTimer x t).reinsert x).timer x = t ∧
    (({ s with callbackTimerModified := m }.setTimer x t).reinsert x).inserted x = s.insertions ∧
    (({ s with callbackTimerModified := m }.setTimer x t).reinsert x).insertions =
      s.insertions + 1 := by
  set s₁ := ({ s with callbackTimerModified := m } : Scheduler).setTimer x t with hs₁
  have hremove := timerListRemove_history s₁ x
  have hinsert := timerListInsert_history (s₁.timerListRemove x) false x
  refine ⟨?_, ?_, ?_⟩
  · rw [(SamePointees.reinsert s₁ x).timer]
    exact update_self x _ _
  · refine (congrFun hinsert.inserted x).trans ?_
    exact (update_self x _ _).trans hremove.insertions
  · exact hinsert.insertions.trans (congrArg (· + 1) hremove.insertions)

theorem init_self (callback : Option ℕ) (startDelay : Attotime) (param : ℤ) (temporary : Bool) :
    (s.init callback startDelay param temporary).timer s.allocated =
      { callback, param, temporary, period := .never, start := s.time, expire := s.time + startDelay
        enabled := !(s.time + startDelay).isNever, index := (s.timer s.allocated).index } ∧
    (s.init callback startDelay param temporary).inserted s.allocated = s.insertions ∧
    (s.init callback startDelay param temporary).insertions = s.insertions + 1 := by
  have hinsert := timerListInsert_history (s.addTimer callback startDelay param temporary) false
    s.allocated
  refine ⟨?_, ?_, hinsert.insertions⟩
  · rw [Scheduler.init, (SamePointees.timerListInsert _ false s.allocated).timer]
    exact update_self s.allocated _ _
  · exact (congrFun hinsert.inserted s.allocated).trans (update_self _ _ _)

section

variable {s s' s₁ s₁' : Scheduler} {x x' : ℕ}

theorem Matches.change {y y' : ℕ} (h : Matches s s' y y') (hs : ChangesOnly x s s₁)
    (hs' : ChangesOnly x' s' s₁')
    (hmatch : Matches s₁ s₁' x x') (hiff : y = x ↔ y' = x') : Matches s₁ s₁' y y' := by
  by_cases hyx : y = x
  · obtain rfl := hiff.mp hyx
    exact hyx ▸ hmatch
  · have hyx' := mt hiff.mpr hyx
    exact h.congr (hs.timer y hyx) (hs'.timer y' hyx') (hs.inserted y hyx) (hs'.inserted y' hyx')

theorem mem_place {y : ℕ} {A : List ℕ} (hy : y ∈ A) : y ∈ Arranged.place s x A := by
  rw [Arranged.place]
  split_ifs
  · exact mem_insertBefore.mpr (Or.inr hy)
  · exact hy

theorem forall₂_place {B B' : List ℕ} (htimer : s₁.timer = s.timer) (htimer' : s₁'.timer = s'.timer)
    (hmatch : Matches s₁ s₁' x x') (h : Forall₂ (Matches s₁ s₁') B B') :
    Forall₂ (Matches s₁ s₁') (Arranged.place s x B) (Arranged.place s' x' B') := by
  rw [Arranged.place, Arranged.place, ← htimer, ← htimer', hmatch.timer.isActive]
  split_ifs
  · refine forall₂_insertBefore hmatch ?_ h
    intro a _ b _ hab
    simp only [here, hab.timer.expire, hmatch.timer.expire, Bool.false_and, Bool.or_false]
  · exact h

end

namespace Alike

variable {fired fired' g g' : Option ℕ} {s s' s₁ s₁' : Scheduler}
    {A A' B B' I I' L L' : List ℕ} {x x' : ℕ}

/-- An operation on two timers that correspond, or that no device knows. -/
theorem change (h : Alike fired fired' s s' A A') (hs : ChangesOnly x s s₁)
    (hs' : ChangesOnly x' s' s₁') (hinsertions : s₁'.insertions = s₁.insertions)
    (hm : s.callbackTimer ≠ none → s₁'.callbackTimerModified = s₁.callbackTimerModified)
    (hx : ∀ y, s.isPermanent y = true → (y = x ↔ y = x') ∧
    (y = x → SameTimer (s₁.timer y) (s₁'.timer y))) (hactive : Forall₂ (Matches s₁ s₁') B B')
    (hfired : ∀ y y', g = some y → g' = some y' → Matches s₁ s₁' y y' ∧
      ((s₁.timer y).temporary = true → y ∈ B ∧ y' ∈ B')) : Alike g g' s₁ s₁' B B' where
  isPermanent y := by rw [hs.isPermanent, hs'.isPermanent, h.isPermanent]
  timer y hy := by
    rw [hs.isPermanent] at hy
    obtain ⟨hiff, htimer⟩ := hx y hy
    by_cases hyx : y = x
    · exact htimer hyx
    · rw [hs.timer y hyx, hs'.timer y (mt hiff.mpr hyx)]
      exact h.timer y hy
  active := hactive
  basetime := hs'.basetime.trans (h.basetime.trans hs.basetime.symm)
  executing := hs'.executing.trans (h.executing.trans hs.executing.symm)
  insertions := hinsertions
  callbackTimer y hy := by
    rw [hs.isPermanent] at hy
    rw [hs.callbackTimer, hs'.callbackTimer]
    exact h.callbackTimer y hy
  callbackTimer_isSome := by
    rw [hs.callbackTimer, hs'.callbackTimer]
    exact h.callbackTimer_isSome
  callbackTimerModified := by
    rw [hs.callbackTimer]
    exact hm
  callbackTimerExpireTime := by
    rw [hs.callbackTimer, hs.callbackTimerExpireTime, hs'.callbackTimerExpireTime]
    exact h.callbackTimerExpireTime
  fired := hfired

theorem reschedule (h : Alike fired fired' s s' A A') (hx : s.isPermanent x = true) {t t' : Timer}
    (ht : SameTimer t t') (htemporary : t.temporary = false) {m m' : Bool}
    (hm : s.callbackTimer ≠ none → m' = m)
    (hg : ∀ y, g = some y → fired = some y) (hg' : ∀ y, g' = some y → fired' = some y) :
    Alike g g' (({ s with callbackTimerModified := m }.setTimer x t).reinsert x)
      (({ s' with callbackTimerModified := m' }.setTimer x t').reinsert x)
      (Arranged.place (s.setTimer x t) x (A.erase x))
      (Arranged.place (s'.setTimer x t') x (A'.erase x)) := by
  have hx' : s'.isPermanent x = true := (h.isPermanent x).trans hx
  have hxtemporary := (WellFormed.isPermanent_iff.mp hx).2
  have hxtemporary' := (WellFormed.isPermanent_iff.mp hx').2
  have hsame := SamePointees.reinsert ({ s with callbackTimerModified := m }.setTimer x t) x
  have hsame' := SamePointees.reinsert ({ s' with callbackTimerModified := m' }.setTimer x t') x
  have hs := ChangesOnly.reinsert s (htemporary.trans hxtemporary.symm) m
  have hs' := ChangesOnly.reinsert s' ((ht.temporary.trans htemporary).trans hxtemporary'.symm) m'
  obtain ⟨hself, hinserted, hinsertions⟩ := @reinsert_self s x t m
  obtain ⟨hself', hinserted', hinsertions'⟩ := @reinsert_self s' x t' m'
  have hmatch : Matches (({ s with callbackTimerModified := m }.setTimer x t).reinsert x)
      (({ s' with callbackTimerModified := m' }.setTimer x t').reinsert x) x x := by
    refine ⟨?_, ?_, fun _ ↦ rfl⟩
    · rw [hself, hself']
      exact ht
    · rw [hinserted, hinserted', h.insertions]
  have heq_iff : ∀ {y y'}, Matches s s' y y' → (y = x ↔ y' = x) :=
    fun hy ↦ hy.eq_iff hxtemporary hxtemporary'
  have hactive := (forall₂_erase (fun a _ b _ hab ↦ heq_iff hab) h.active).imp
    fun _ _ hab ↦ hab.change hs hs' hmatch (heq_iff hab)
  refine h.change hs hs' (by rw [hinsertions, hinsertions', h.insertions]) ?_
    (fun y _ ↦ ⟨Iff.rfl, fun hyx ↦ hyx ▸ hmatch.timer⟩)
    (forall₂_place hsame.timer hsame'.timer hmatch hactive) ?_
  · rw [hsame.callbackTimerModified, hsame'.callbackTimerModified]
    exact hm
  · intro y y' hy hy'
    obtain ⟨hmatch', hmem⟩ := h.fired y y' (hg y hy) (hg' y' hy')
    refine ⟨hmatch'.change hs hs' hmatch (heq_iff hmatch'), fun htrue ↦ ?_⟩
    have hyx : y ≠ x := by
      rintro rfl
      rw [hself, htemporary] at htrue
      exact Bool.false_ne_true htrue
    rw [hs.timer y hyx] at htrue
    obtain ⟨hyA, hyA'⟩ := hmem htrue
    exact ⟨mem_place ((mem_erase_of_ne hyx).mpr hyA),
      mem_place ((mem_erase_of_ne (mt (heq_iff hmatch').mpr hyx)).mpr hyA')⟩

theorem setParam (h : Alike fired fired' s s' A A') (hx : s.isPermanent x = true) (param : ℤ) :
    Alike fired fired' (s.setTimer x { s.timer x with param })
      (s'.setTimer x { s'.timer x with param }) A A' := by
  have hx' : s'.isPermanent x = true := (h.isPermanent x).trans hx
  have hs := ChangesOnly.setTimer s (t := { s.timer x with param }) rfl s.callbackTimerModified
  have hs' := ChangesOnly.setTimer s' (t := { s'.timer x with param }) rfl s'.callbackTimerModified
  have htimer : SameTimer ((s.setTimer x { s.timer x with param }).timer x)
      ((s'.setTimer x { s'.timer x with param }).timer x) := by
    rw [setTimer_self, setTimer_self]
    obtain ⟨hcallback, -, henabled, htemporary, hperiod, hstart, hexpire⟩ := h.timer x hx
    exact ⟨hcallback, rfl, henabled, htemporary, hperiod, hstart, hexpire⟩
  have hmatches : ∀ {y y'}, Matches s s' y y' →
      Matches (s.setTimer x { s.timer x with param })
      (s'.setTimer x { s'.timer x with param }) y y' := by
    intro y y' hy
    have heq_iff :=
      hy.eq_iff (WellFormed.isPermanent_iff.mp hx).2 (WellFormed.isPermanent_iff.mp hx').2
    by_cases hyx : y = x
    · have hyx' := heq_iff.mp hyx
      subst hyx hyx'
      exact ⟨htimer, hy.inserted, fun _ ↦ rfl⟩
    · have hyx' := mt heq_iff.mpr hyx
      exact hy.congr (s.setTimer_of_ne hyx _) (s'.setTimer_of_ne hyx' _) rfl rfl
  refine h.change hs hs' h.insertions h.callbackTimerModified (fun y _ ↦
    ⟨Iff.rfl, fun hyx ↦ hyx ▸ htimer⟩) (h.active.imp fun _ _ ↦ hmatches) fun y y' hy hy' ↦ ?_
  obtain ⟨hmatch, hmem⟩ := h.fired y y' hy hy'
  refine ⟨hmatches hmatch, fun htrue ↦ hmem ?_⟩
  rwa [(WellFormed.sameSchedule_setTimer s x (t := { s.timer x with param }) ⟨rfl, rfl, rfl⟩
    y).temporary] at htrue

/-- The same new temporary timer, under two names. -/
theorem init (h : Alike fired fired' s s' A A') (hlt : ∀ y ∈ A, y < s.allocated)
    (hlt' : ∀ y ∈ A', y < s'.allocated) (hfired : ∀ y, fired = some y → y < s.allocated)
    (hfired' : ∀ y, fired' = some y → y < s'.allocated)
    (callback : Option ℕ) (startDelay : Attotime) (param : ℤ) : Alike fired fired'
    (s.init callback startDelay param true) (s'.init callback startDelay param true)
      (Arranged.place (s.addTimer callback startDelay param true) s.allocated A)
      (Arranged.place (s'.addTimer callback startDelay param true) s'.allocated A') := by
  have hsame :=
    SamePointees.timerListInsert (s.addTimer callback startDelay param true) false s.allocated
  have hsame' := SamePointees.timerListInsert (s'.addTimer callback startDelay param true) false
    s'.allocated
  have hs := ChangesOnly.init s callback startDelay param
  have hs' := ChangesOnly.init s' callback startDelay param
  obtain ⟨hself, hinserted, hinsertions⟩ := init_self s callback startDelay param true
  obtain ⟨hself', hinserted', hinsertions'⟩ := init_self s' callback startDelay param true
  have hmatch : Matches (s.init callback startDelay param true)
      (s'.init callback startDelay param true) s.allocated s'.allocated := by
    refine ⟨?_, ?_, ?_⟩
    · rw [hself, hself', h.time]
      exact ⟨rfl, rfl, rfl, rfl, rfl, rfl, rfl⟩
    · rw [hinserted, hinserted', h.insertions]
    · rw [hself]
      simp
  have hne : ∀ {y y'}, y < s.allocated → y' < s'.allocated →
      (y = s.allocated ↔ y' = s'.allocated) :=
    fun hy hy' ↦ iff_of_false (Nat.ne_of_lt hy) (Nat.ne_of_lt hy')
  have hactive := forall₂_imp_of_mem
    (fun a ha b hb hab ↦ hab.change hs hs' hmatch (hne (hlt a ha) (hlt' b hb))) h.active
  refine h.change hs hs' (by rw [hinsertions, hinsertions', h.insertions]) ?_ ?_
    (forall₂_place hsame.timer hsame'.timer hmatch hactive) ?_
  · rw [Scheduler.init, Scheduler.init, hsame.callbackTimerModified, hsame'.callbackTimerModified]
    exact h.callbackTimerModified
  · intro y hy
    have hy' : s'.isPermanent y = true := (h.isPermanent y).trans hy
    have hyx := (WellFormed.isPermanent_iff.mp hy).1
    exact ⟨hne hyx (WellFormed.isPermanent_iff.mp hy').1, fun heq ↦ absurd heq (Nat.ne_of_lt hyx)⟩
  · intro y y' hy hy'
    obtain ⟨hmatch', hmem'⟩ := h.fired y y' hy hy'
    refine ⟨hmatch'.change hs hs' hmatch (hne (hfired y hy) (hfired' y' hy')), fun htrue ↦ ?_⟩
    rw [hs.timer y (Nat.ne_of_lt (hfired y hy))] at htrue
    exact ⟨mem_place (hmem' htrue).1, mem_place (hmem' htrue).2⟩

/-- The heads of the two lists fire. -/
theorem beginCallback (h : Alike none none s s' (x :: L) (x' :: L')) (hnodup : (x :: L).Nodup)
    (hnodup' : (x' :: L').Nodup) :
    Alike (some x) (some x') (s.beginCallback x) (s'.beginCallback x') (x :: L) (x' :: L') := by
  obtain ⟨hmatch, htail⟩ := List.forall₂_cons.mp h.active
  have ht := hmatch.timer
  have hs := ChangesOnly.setTimer s (x := x) (t := { s.timer x with
    enabled := if (s.timer x).period.isZero || (s.timer x).period.isNever then false
      else (s.timer x).enabled })
    rfl s.callbackTimerModified
  have hs' := ChangesOnly.setTimer s' (x := x') (t := { s'.timer x' with
    enabled := if (s'.timer x').period.isZero || (s'.timer x').period.isNever then false
      else (s'.timer x').enabled })
    rfl s'.callbackTimerModified
  have hmatch₁ : Matches (s.beginCallback x) (s'.beginCallback x') x x' := by
    refine ⟨?_, hmatch.inserted, ?_⟩
    · rw [beginCallback_self, beginCallback_self, ht.period, ht.enabled]
      exact ⟨ht.callback, ht.param, rfl, ht.temporary, ht.period, ht.start, ht.expire⟩
    · rw [beginCallback_self]
      exact hmatch.permanent
  have heq_iff : ∀ y, s.isPermanent y = true → (x = y ↔ x' = y) := by
    intro y hy
    have hy' : s'.isPermanent y = true := (h.isPermanent y).trans hy
    exact hmatch.eq_iff (WellFormed.isPermanent_iff.mp hy).2 (WellFormed.isPermanent_iff.mp hy').2
  refine ⟨fun y ↦ (hs'.isPermanent y).trans ((h.isPermanent y).trans (hs.isPermanent y).symm), ?_,
    .cons hmatch₁ ?_, h.basetime, h.executing, h.insertions, ?_, rfl, fun _ ↦ rfl, fun _ ↦
    ht.expire, ?_⟩
  · intro y hy
    have hy : s.isPermanent y = true := (hs.isPermanent y).symm.trans hy
    by_cases hyx : x = y
    · have hyx' := (heq_iff y hy).mp hyx
      subst hyx hyx'
      exact hmatch₁.timer
    · have htimer := h.timer y hy
      rwa [← hs.timer y (Ne.symm hyx), ← hs'.timer y
        (Ne.symm (mt (heq_iff y hy).mpr hyx))] at htimer
  · refine forall₂_imp_of_mem ?_ htail
    intro a ha b hb hab
    have hax : a ≠ x := ne_of_mem_of_not_mem ha (List.nodup_cons.mp hnodup).1
    have hbx : b ≠ x' := ne_of_mem_of_not_mem hb (List.nodup_cons.mp hnodup').1
    exact hab.congr (hs.timer a hax) (hs'.timer b hbx) rfl rfl
  · intro y hy
    have hy : s.isPermanent y = true := (hs.isPermanent y).symm.trans hy
    have hiff : some x' = some y ↔ some x = some y := by
      rw [Option.some_inj, Option.some_inj, heq_iff y hy]
    exact hiff
  · intro y y' hy hy'
    obtain rfl := Option.some_inj.mp hy
    obtain rfl := Option.some_inj.mp hy'
    exact ⟨hmatch₁, fun _ ↦ ⟨mem_cons_self, mem_cons_self⟩⟩

/-- Two temporary timers that have fired are taken out. -/
theorem reclaim (h : Alike (some x) (some x') s s' A A') (hwf : WellFormed (some x) s A I)
    (hwf' : WellFormed (some x') s' A' I') (htemporary : (s.timer x).temporary = true) :
    Alike none none (s.reclaim x) (s'.reclaim x') (A.erase x) (A'.erase x') := by
  obtain ⟨hmatch, hmem⟩ := h.fired x x' rfl rfl
  obtain ⟨hxA, hxA'⟩ := hmem htemporary
  have htemporary' : (s'.timer x').temporary = true := hmatch.timer.temporary.trans htemporary
  have hs := ChangesOnly.reclaim s x
  have hs' := ChangesOnly.reclaim s' x'
  -- the two are in the same place
  have heq_iff : ∀ a ∈ A, ∀ b ∈ A', Matches s s' a b → (a = x ↔ b = x') := by
    intro a ha b hb hab
    constructor
    · rintro rfl
      exact hwf'.eq_of_key hb hxA' (hab.timer.expire.trans hmatch.timer.expire.symm)
        (hab.inserted.trans hmatch.inserted.symm)
    · rintro rfl
      exact hwf.eq_of_key ha hxA (hab.timer.expire.symm.trans hmatch.timer.expire)
        (hab.inserted.symm.trans hmatch.inserted)
  have hactive : Forall₂ (Matches (s.reclaim x) (s'.reclaim x')) (A.erase x) (A'.erase x') := by
    refine forall₂_imp_of_mem ?_ (forall₂_erase heq_iff h.active)
    intro a ha b hb hab
    have hax := (hwf.nodup.of_append_left.mem_erase_iff.mp ha).1
    have hbx := (hwf'.nodup.of_append_left.mem_erase_iff.mp hb).1
    exact hab.congr (hs.timer a hax) (hs'.timer b hbx) (hs.inserted a hax) (hs'.inserted b hbx)
  have hne : ∀ {s : Scheduler} {x y}, s.isPermanent y = true →
      (s.timer x).temporary = true → y ≠ x := by
    rintro s x _ hy htrue rfl
    rw [(WellFormed.isPermanent_iff.mp hy).2] at htrue
    exact Bool.false_ne_true htrue
  refine h.change hs hs' ?_ ?_ (fun y hy ↦ ?_) hactive (by simp)
  · rw [(Preserved.reclaim s htemporary).insertions,
      (Preserved.reclaim s' htemporary').insertions, h.insertions]
  · rw [Scheduler.reclaim, Scheduler.reclaim,
      (SamePointees.timerListRemove _ x).callbackTimerModified,
      (SamePointees.timerListRemove _ x').callbackTimerModified]
    exact h.callbackTimerModified
  · have hyx := hne hy htemporary
    exact ⟨iff_of_false hyx (hne ((h.isPermanent y).trans hy) htemporary'),
      fun heq ↦ absurd heq hyx⟩

end Alike

/-- Two schedulers that go on in the same way. -/
def Corresponds (fired fired' : Option ℕ) (s s' : Scheduler) : Prop :=
  ∃ A A' I I', WellFormed fired s A I ∧ WellFormed fired' s' A' I' ∧ Alike fired fired' s s' A A'

theorem adjust_eq (x : ℕ) (startDelay : Attotime) (param : ℤ) (period : Attotime) :
    s.adjust x startDelay param period =
      ({ s with callbackTimerModified :=
          if s.callbackTimer = some x then true else s.callbackTimerModified }.setTimer x
        { s.timer x with
          param, enabled := true, start := s.time, period
          expire :=
            s.time + if startDelay.seconds < 0 then Attotime.zero else startDelay }).reinsert
        x := by
  rw [Scheduler.adjust]
  by_cases hcallback : s.callbackTimer = some x
  · simp only [if_pos hcallback]
    rfl
  · simp only [if_neg hcallback]

namespace Corresponds

variable {fired fired' g g' : Option ℕ} {s s' : Scheduler} {x : ℕ}

section

variable (h : Corresponds fired fired' s s')
include h

theorem reschedule (hx : s.isPermanent x = true) {t t' : Timer} (ht : SameTimer t t')
    (htemporary : t.temporary = false) {m m' : Bool} (hmm : s.callbackTimer ≠ none → m' = m)
    (hg : ∀ y, g = some y → fired = some y) (hg' : ∀ y, g' = some y → fired' = some y)
    (hm : ∀ y, y ≠ x → fired = some y → g = some y ∧ m = s.callbackTimerModified)
    (hm' : ∀ y, y ≠ x → fired' = some y → g' = some y ∧ m' = s'.callbackTimerModified) :
    Corresponds g g' (({ s with callbackTimerModified := m }.setTimer x t).reinsert x)
      (({ s' with callbackTimerModified := m' }.setTimer x t').reinsert x) := by
  obtain ⟨A, A', I, I', hwf, hwf', halike⟩ := h
  have hx' : s'.isPermanent x = true := (halike.isPermanent x).trans hx
  exact ⟨_, _, _, _, hwf.reschedule (hwf.permanent x hx) t m hg hm,
    hwf'.reschedule (hwf'.permanent x hx') t' m' hg' hm',
    halike.reschedule hx ht htemporary hmm hg hg'⟩

theorem isPermanent (x : ℕ) : s'.isPermanent x = s.isPermanent x := by
  obtain ⟨A, A', I, I', -, -, halike⟩ := h
  exact halike.isPermanent x

theorem timer (hx : s.isPermanent x = true) : SameTimer (s.timer x) (s'.timer x) := by
  obtain ⟨A, A', I, I', -, -, halike⟩ := h
  exact halike.timer x hx

theorem view : s'.view = s.view := by
  obtain ⟨A, A', I, I', -, -, halike⟩ := h
  exact halike.view

theorem time : s'.time = s.time := by
  obtain ⟨A, A', I, I', -, -, halike⟩ := h
  exact halike.time

theorem callbackTimerModified (hs : s.callbackTimer ≠ none) :
    s'.callbackTimerModified = s.callbackTimerModified := by
  obtain ⟨A, A', I, I', -, -, halike⟩ := h
  exact halike.callbackTimerModified hs

/-- A change that leaves the mark alone. -/
theorem reschedule_unmarked (hx : s.isPermanent x = true) {t t' : Timer} (ht : SameTimer t t')
    (htemporary : t.temporary = false) (hg : ∀ y, g = some y → fired = some y)
    (hg' : ∀ y, g' = some y → fired' = some y) (hm : ∀ y, y ≠ x → fired = some y → g = some y)
    (hm' : ∀ y, y ≠ x → fired' = some y → g' = some y) :
    Corresponds g g' ((s.setTimer x t).reinsert x) ((s'.setTimer x t').reinsert x) :=
  h.reschedule hx ht htemporary h.callbackTimerModified hg hg'
    (fun y hyx hy ↦ ⟨hm y hyx hy, rfl⟩) fun y hyx hy ↦ ⟨hm' y hyx hy, rfl⟩

theorem enable (hx : s.isPermanent x = true) (b : Bool) :
    Corresponds fired fired' (s.enable x b) (s'.enable x b) := by
  have ht := h.timer hx
  have ht' : SameTimer { s.timer x with enabled := b } { s'.timer x with enabled := b } :=
    ⟨ht.callback, ht.param, rfl, ht.temporary, ht.period, ht.start, ht.expire⟩
  rw [Scheduler.enable, Scheduler.enable, ht.enabled]
  split_ifs with hne
  · exact h.reschedule_unmarked hx ht' (WellFormed.isPermanent_iff.mp hx).2 (fun _ hy ↦ hy)
      (fun _ hy ↦ hy) (fun _ _ hy ↦ hy) fun _ _ hy ↦ hy
  · exact h

theorem adjust (hx : s.isPermanent x = true) (startDelay : Attotime) (param : ℤ)
    (period : Attotime) : Corresponds fired fired' (s.adjust x startDelay param period)
      (s'.adjust x startDelay param period) := by
  have ht := h.timer hx
  have htime := h.time
  obtain ⟨A, A', I, I', hwf, hwf', halike⟩ := id h
  have hcallback := halike.callbackTimer x hx
  have hmm : s.callbackTimer ≠ none →
      (if s'.callbackTimer = some x then true else s'.callbackTimerModified) =
        if s.callbackTimer = some x then true else s.callbackTimerModified := by
    intro hs
    simp only [hcallback, h.callbackTimerModified hs]
  have ht' : SameTimer
      { s.timer x with
        param, enabled := true, start := s.time, period
        expire := s.time + if startDelay.seconds < 0 then Attotime.zero else startDelay }
      { s'.timer x with
        param, enabled := true, start := s.time, period
        expire := s.time + if startDelay.seconds < 0 then Attotime.zero else startDelay } :=
    ⟨ht.callback, rfl, rfl, ht.temporary, rfl, rfl, rfl⟩
  have hunmarked : ∀ {f : Option ℕ} {s : Scheduler} {A I : List ℕ}, WellFormed f s A I →
      ∀ y, y ≠ x → f = some y → f = some y ∧
        (if s.callbackTimer = some x then true else s.callbackTimerModified) =
          s.callbackTimerModified := by
    intro f s A I hwf y hyx hy
    have hne : s.callbackTimer ≠ some x := fun hc ↦
      hyx (Option.some_inj.mp ((hwf.callback y hy).symm.trans hc))
    exact ⟨hy, if_neg hne⟩
  rw [adjust_eq, adjust_eq, htime]
  exact h.reschedule hx ht' (WellFormed.isPermanent_iff.mp hx).2 hmm (fun _ hy ↦ hy)
    (fun _ hy ↦ hy) (hunmarked hwf) (hunmarked hwf')

theorem init (callback : Option ℕ) (startDelay : Attotime) (param : ℤ) :
    Corresponds fired fired' (s.init callback startDelay param true)
      (s'.init callback startDelay param true) := by
  obtain ⟨A, A', I, I', hwf, hwf', halike⟩ := h
  have hlt : ∀ {f : Option ℕ} {s : Scheduler} {A I : List ℕ}, WellFormed f s A I →
      ∀ y ∈ A, y < s.allocated :=
    fun hwf y hy ↦ hwf.lists.lt y (mem_append_left _ (mem_append_left _ hy))
  exact ⟨_, _, _, _, hwf.init callback startDelay param true,
    hwf'.init callback startDelay param true,
    halike.init (hlt hwf) (hlt hwf') (fun y hy ↦ hwf.lists.lt y (hwf.fired_mem y hy))
      (fun y hy ↦ hwf'.lists.lt y (hwf'.fired_mem y hy)) callback startDelay param⟩

/-- The same operation. -/
theorem apply (o : Op) : Corresponds fired fired' (s.apply o) (s'.apply o) := by
  rcases o with ⟨x, startDelay, param, period⟩ | ⟨x, b⟩ | ⟨x, duration⟩ | ⟨x, param⟩ |
    ⟨duration, callback, param⟩ | ⟨callback, param⟩ <;> rw [Scheduler.apply, Scheduler.apply]
  · rw [h.isPermanent]
    split_ifs with hx
    · exact h.adjust hx startDelay param period
    · exact h
  · rw [h.isPermanent]
    split_ifs with hx
    · exact h.enable hx b
    · exact h
  · rw [h.isPermanent]
    split_ifs with hx
    · rw [Scheduler.reset, Scheduler.reset, (h.timer hx).param, (h.timer hx).period]
      exact h.adjust hx duration _ _
    · exact h
  · rw [h.isPermanent]
    split_ifs with hx
    · obtain ⟨A, A', I, I', hwf, hwf', halike⟩ := h
      exact ⟨A, A', I, I', hwf.setTimer x ⟨rfl, rfl, rfl⟩, hwf'.setTimer x ⟨rfl, rfl, rfl⟩,
        halike.setParam hx param⟩
    · exact h
  · exact h.init callback duration param
  · exact h.init callback .zero param

theorem foldl_apply (ops : List Op) :
    Corresponds fired fired' (ops.foldl Scheduler.apply s) (ops.foldl Scheduler.apply s') := by
  induction ops generalizing s s' with
  | nil => exact h
  | cons o ops ih => exact ih (h.apply o)

theorem scanl_time (ops : List Op) :
    (ops.scanl Scheduler.apply s').map Scheduler.time =
      (ops.scanl Scheduler.apply s).map Scheduler.time := by
  induction ops generalizing s s' with
  | nil => simp [h.time]
  | cons o ops ih =>
    rw [scanl_cons, scanl_cons, map_cons, map_cons, h.time, ih (h.apply o)]

end

/-- The second half of the loop, for the two timers that have fired. -/
theorem endCallback {x x' : ℕ} (h : Corresponds (some x) (some x') s s') (hx₀ : x ≠ 0)
    (hx₀' : x' ≠ 0) : Corresponds none none (s.endCallback x) (s'.endCallback x') := by
  obtain ⟨A, A', I, I', hwf, hwf', halike⟩ := id h
  have hcallback : s.callbackTimer ≠ none := by simp [hwf.callback x rfl]
  have hmodified := h.callbackTimerModified hcallback
  obtain ⟨hmatch, -⟩ := halike.fired x x' rfl rfl
  have ht := hmatch.timer
  rw [Scheduler.endCallback, Scheduler.endCallback, hmodified, ht.temporary]
  split_ifs with htrue htemporary
  · exact ⟨A, A', I, I', hwf.of_modified htrue, hwf'.of_modified (hmodified.trans htrue),
      ⟨halike.isPermanent, halike.timer, halike.active, halike.basetime, halike.executing,
        halike.insertions, halike.callbackTimer, halike.callbackTimer_isSome,
        halike.callbackTimerModified, halike.callbackTimerExpireTime, by simp⟩⟩
  · have htemporary' : (s.timer x).temporary = false := by simpa using htemporary
    have hxx := hmatch.permanent htemporary'
    subst hxx
    have hx : s.isPermanent x' = true := WellFormed.isPermanent_iff.mpr
      ⟨hwf.lists.lt x' (hwf.fired_mem x' rfl), htemporary'⟩
    have ht' : SameTimer
        { s.timer x' with
          start := (s.timer x').expire, expire := (s.timer x').expire + (s.timer x').period }
        { s'.timer x' with
          start := (s'.timer x').expire, expire := (s'.timer x').expire + (s'.timer x').period } :=
      ⟨ht.callback, ht.param, ht.enabled, ht.temporary, ht.period, ht.expire,
        by rw [ht.expire, ht.period]⟩
    have hnone : ∀ y, y ≠ x' → some x' = some y → (none : Option ℕ) = some y :=
      fun y hyx hy ↦ absurd (Option.some_inj.mp hy).symm hyx
    exact h.reschedule_unmarked hx ht' htemporary' (by simp) (by simp) hnone hnone
  · have htemporary' : (s.timer x).temporary = true := by simpa using htemporary
    exact ⟨_, _, _, _, hwf.reclaim hx₀ htemporary',
      hwf'.reclaim hx₀' (ht.temporary.trans htemporary'), halike.reclaim hwf hwf' htemporary'⟩

end Corresponds

/-- What a device can tell of a timer that fired. A temporary timer has no name. -/
structure Fired where
  timer : Option ℕ
  callback : Option ℕ
  param : ℤ
  expire : Attotime
  times : List Attotime
deriving DecidableEq, Repr

def Firing.fired (f : Firing) : Fired :=
  ⟨if f.temporary then none else some f.timer, f.callback, f.param, f.expire, f.times⟩

/-- The timers whose callbacks were called, in order. -/
def fired (fs : List Firing) : List Fired := (fs.filter Firing.wasEnabled).map Firing.fired

variable {ω : Type*}

namespace Corresponds

variable {s s' : Scheduler}

/-- One round of the loop, for two timers that correspond. -/
theorem fireTimer {x x' : ℕ} {L L' I I' : List ℕ} (hwf : WellFormed none s (x :: L) I)
    (hwf' : WellFormed none s' (x' :: L') I') (h : Alike none none s s' (x :: L) (x' :: L'))
    (cb : Callbacks ω) (w : ω) :
    (s'.fireTimer cb w x').1 = (s.fireTimer cb w x).1 ∧
      fired [(s'.fireTimer cb w x').2.2] = fired [(s.fireTimer cb w x).2.2] ∧
      Corresponds none none (s.fireTimer cb w x).2.1 (s'.fireTimer cb w x').2.1 := by
  have hx : s.timerList = some x := hwf.head_eq
  have hx' : s'.timerList = some x' := hwf'.head_eq
  obtain ⟨hmatch, -⟩ := List.forall₂_cons.mp h.active
  have ht := hmatch.timer
  have hbegin : Corresponds (some x) (some x') (s.beginCallback x) (s'.beginCallback x') :=
    ⟨_, _, _, _, hwf.beginCallback hx, hwf'.beginCallback hx',
      h.beginCallback hwf.nodup.of_append_left hwf'.nodup.of_append_left⟩
  have hops : (s'.beginCallback x').callbackOps cb w x' (s'.timer x').enabled =
      (s.beginCallback x).callbackOps cb w x (s.timer x).enabled := by
    rw [callbackOps, callbackOps, beginCallback_self, beginCallback_self,
      hbegin.view, ht.enabled]
    dsimp only
    rw [ht.callback, ht.param]
  rw [Scheduler.fireTimer, Scheduler.fireTimer, hops]
  generalize (s.beginCallback x).callbackOps cb w x (s.timer x).enabled = r
  obtain ⟨w', ops⟩ := r
  have hx₀ : x ≠ 0 := hwf.ne_zero (mem_append_left I mem_cons_self)
  have hx₀' : x' ≠ 0 := hwf'.ne_zero (mem_append_left I' mem_cons_self)
  refine ⟨rfl, ?_, (hbegin.foldl_apply ops).endCallback hx₀ hx₀'⟩
  have hname : (if (s'.timer x').temporary then none else some x') =
      if (s.timer x).temporary then none else some x := by
    rw [ht.temporary]
    rcases htemporary : (s.timer x).temporary with _ | _
    · simp [hmatch.permanent htemporary]
    · rfl
  simp only [fired, filter_cons, filter_nil, ht.enabled]
  split_ifs
  · simp only [map_cons, map_nil, Firing.fired, hname, ht.callback, ht.param, ht.expire,
      hbegin.scanl_time ops]
  · rfl

theorem leave (h : Corresponds none none s s') :
    Corresponds none none { s with callbackTimer := none } { s' with callbackTimer := none } := by
  have hwf_leave : ∀ {s : Scheduler} {A I : List ℕ}, WellFormed none s A I →
      WellFormed none { s with callbackTimer := none } A I := fun hwf ↦
    ⟨⟨hwf.lists.congr rfl rfl rfl rfl (Nat.le_refl _), hwf.dummy_expire, hwf.dummy_enabled,
      hwf.dummy_temporary, hwf.sorted, hwf.inserted_lt, hwf.expires, hwf.enabled, hwf.inactive,
      by simp⟩, hwf.permanent, by simp⟩
  obtain ⟨A, A', I, I', hwf, hwf', halike⟩ := h
  refine ⟨A, A', I, I', hwf_leave hwf, hwf_leave hwf', ?_⟩
  refine ⟨halike.isPermanent, halike.timer, ?_, halike.basetime, halike.executing,
    halike.insertions, by simp, rfl, by simp, by simp, by simp⟩
  exact halike.active.imp fun _ _ hab ↦ ⟨hab.timer, hab.inserted, hab.permanent⟩

theorem executeTimers_of_none {s : Scheduler} (hs : s.timerList = none) (cb : Callbacks ω)
    (fuel : ℕ) (w : ω) : Scheduler.executeTimers cb fuel w s = (w, s, []) := by
  rcases fuel with _ | fuel
  · rfl
  · rw [Scheduler.executeTimers, hs]

theorem executeTimers_due {s : Scheduler} {x : ℕ} (hx : s.timerList = some x)
    (hdue : (s.timer x).expire ≤ s.basetime) (cb : Callbacks ω) (fuel : ℕ) (w : ω) :
    Scheduler.executeTimers cb (fuel + 1) w s =
      let r := s.fireTimer cb w x
      let r' := Scheduler.executeTimers cb fuel r.1 r.2.1
      (r'.1, r'.2.1, r.2.2 :: r'.2.2) := by
  rw [Scheduler.executeTimers, hx]
  simp only [if_pos hdue]

theorem executeTimers_not_due {s : Scheduler} {x : ℕ} (hx : s.timerList = some x)
    (hdue : ¬ (s.timer x).expire ≤ s.basetime) (cb : Callbacks ω) (fuel : ℕ) (w : ω) :
    Scheduler.executeTimers cb (fuel + 1) w s = (w, { s with callbackTimer := none }, []) := by
  rw [Scheduler.executeTimers]
  split
  next hnone => simp [hx] at hnone
  next y hy =>
    obtain rfl : x = y := Option.some_inj.mp (hx.symm.trans hy)
    exact if_neg hdue

theorem executeTimers_dummy {s : Scheduler} {I : List ℕ} (h : WellFormed none s [] I)
    (hdue : (s.timer 0).expire ≤ s.basetime) (cb : Callbacks ω) (fuel : ℕ) (w : ω) :
    (Scheduler.executeTimers cb (fuel + 1) w s).1 = w ∧
      fired (Scheduler.executeTimers cb (fuel + 1) w s).2.2 = [] ∧
      (Scheduler.executeTimers cb (fuel + 1) w s).2.1.timerList = none := by
  have hx : s.timerList = some 0 := h.head_eq
  obtain ⟨hnone, -⟩ := h.fireTimer_dummy hx cb w
  have hops : (s.beginCallback 0).callbackOps cb w 0 (s.timer 0).enabled = (w, []) := by
    rw [callbackOps, h.dummy_enabled]
    rcases ((s.beginCallback 0).timer 0).callback with _ | f <;> rfl
  have hw : (s.fireTimer cb w 0).1 = w := by rw [Scheduler.fireTimer, hops]
  have hfired : fired [(s.fireTimer cb w 0).2.2] = [] := by
    have hdisabled : (s.fireTimer cb w 0).2.2.wasEnabled = false := h.dummy_enabled
    simp [fired, hdisabled]
  rw [executeTimers_due hx hdue]
  simp only [executeTimers_of_none hnone]
  exact ⟨hw, hfired, hnone⟩

theorem fired_cons (f : Firing) (fs : List Firing) : fired (f :: fs) = fired [f] ++ fired fs := by
  rw [fired, fired, fired, ← map_append, ← filter_append, singleton_append]

/-- The same timers fire, and the schedulers are alike after it, or both have lost their lists. -/
theorem executeTimers (h : Corresponds none none s s') (cb : Callbacks ω) (fuel : ℕ) (w : ω) :
    (Scheduler.executeTimers cb fuel w s').1 = (Scheduler.executeTimers cb fuel w s).1 ∧
      fired (Scheduler.executeTimers cb fuel w s').2.2 =
        fired (Scheduler.executeTimers cb fuel w s).2.2 ∧
      (((Scheduler.executeTimers cb fuel w s).2.1.timerList = none ∧
          (Scheduler.executeTimers cb fuel w s').2.1.timerList = none) ∨
        Corresponds none none (Scheduler.executeTimers cb fuel w s).2.1
          (Scheduler.executeTimers cb fuel w s').2.1) := by
  induction fuel generalizing w s s' with
  | zero => exact ⟨rfl, rfl, Or.inr h⟩
  | succ fuel ih =>
    obtain ⟨A, A', I, I', hwf, hwf', halike⟩ := id h
    rcases halike.active with _ | ⟨hmatch, hrest⟩
    · -- both are down to the dummy
      have hexpire : (s'.timer 0).expire = (s.timer 0).expire :=
        hwf'.dummy_expire.trans hwf.dummy_expire.symm
      by_cases hdue : (s.timer 0).expire ≤ s.basetime
      · have hdue' : (s'.timer 0).expire ≤ s'.basetime := by rwa [hexpire, halike.basetime]
        obtain ⟨hw, hfired, hnone⟩ := executeTimers_dummy hwf hdue cb fuel w
        obtain ⟨hw', hfired', hnone'⟩ := executeTimers_dummy hwf' hdue' cb fuel w
        exact ⟨hw'.trans hw.symm, hfired'.trans hfired.symm, Or.inl ⟨hnone, hnone'⟩⟩
      · have hdue' : ¬ (s'.timer 0).expire ≤ s'.basetime := by rwa [hexpire, halike.basetime]
        have hx : s.timerList = some 0 := hwf.head_eq
        have hx' : s'.timerList = some 0 := hwf'.head_eq
        rw [executeTimers_not_due hx hdue, executeTimers_not_due hx' hdue']
        exact ⟨rfl, rfl, Or.inr h.leave⟩
    · rename_i x x' L L'
      have hx : s.timerList = some x := hwf.head_eq
      have hx' : s'.timerList = some x' := hwf'.head_eq
      have hdue_iff : (s'.timer x').expire ≤ s'.basetime ↔ (s.timer x).expire ≤ s.basetime := by
        rw [hmatch.timer.expire, halike.basetime]
      by_cases hdue : (s.timer x).expire ≤ s.basetime
      · obtain ⟨hw, hfired, hnext⟩ := fireTimer hwf hwf' halike cb w
        obtain ⟨hw', hfired', hlast⟩ := ih hnext (s.fireTimer cb w x).1
        rw [executeTimers_due hx hdue, executeTimers_due hx' (hdue_iff.mpr hdue)]
        dsimp only
        rw [hw, fired_cons, hfired, hfired', ← fired_cons]
        exact ⟨hw', rfl, hlast⟩
      · rw [executeTimers_not_due hx hdue, executeTimers_not_due hx' (hdue_iff.not.mpr hdue)]
        exact ⟨rfl, rfl, Or.inr h.leave⟩

end Corresponds

end RoscoEmulator.Schedule
