import RoscoEmulator.Schedule.Arrangement

/-!
# The operations keep the arrangement

Every operation on a timer, from a callback or not, and both halves of the loop of `execute_timers`
keep the timers arranged. The only step that breaks the lists is one that fires the dummy: this
happens when the base time has become *never*, and leaves an empty active list.

`Evolves` says what an operation does to the active list: a timer in it has been there before, with
the same expiry, or has just been inserted, and then expires no earlier than now unless it is marked
as late. -/

namespace RoscoEmulator.Schedule

open Function List LinkedList

/-! ## Kept and new timers -/

/-- The timer has not been inserted since, and expires when it did. -/
structure Kept (s s' : Scheduler) (y : ℕ) : Prop where
  expire : (s'.timer y).expire = (s.timer y).expire
  inserted : s'.inserted y = s.inserted y
  late : s'.late y = s.late y

/-- The timer has been inserted since, and has not expired yet unless it is marked as late. -/
structure Fresh (s s' : Scheduler) (y : ℕ) : Prop where
  inserted : s.insertions ≤ s'.inserted y
  late : s'.late y = true ∨ s.time ≤ (s'.timer y).expire

/-- What operations do to the active list. -/
structure Evolves (s s' : Scheduler) (A A' : List ℕ) : Prop where
  mem : ∀ y ∈ A', (y ∈ A ∧ Kept s s' y) ∨ Fresh s s' y
  modified : ∀ y ∈ A', s.callbackTimer = some y → s.callbackTimerModified = false →
    s'.callbackTimerModified = true → Fresh s s' y
  insertions_le : s.insertions ≤ s'.insertions
  time : s'.time = s.time
  basetime : s'.basetime = s.basetime
  callbackTimer : s'.callbackTimer = s.callbackTimer

namespace Evolves

variable {s s' s'' : Scheduler} {A A' A'' : List ℕ}

/-- Nothing but fields on which nothing depends has changed. -/
theorem of_eq (hexpire : ∀ y, (s'.timer y).expire = (s.timer y).expire)
    (hhistory : SameHistory s s') (htime : s'.time = s.time) (hbasetime : s'.basetime = s.basetime)
    (hmodified : s'.callbackTimerModified = s.callbackTimerModified)
    (hcallback : s'.callbackTimer = s.callbackTimer) : Evolves s s' A A where
  mem y hy := Or.inl ⟨hy, hexpire y, congrFun hhistory.inserted y, congrFun hhistory.late y⟩
  modified y _ _ hfalse htrue := by simp [hmodified, hfalse] at htrue
  insertions_le := hhistory.insertions.ge
  time := htime
  basetime := hbasetime
  callbackTimer := hcallback

theorem refl (s : Scheduler) (A : List ℕ) : Evolves s s A A :=
  of_eq (fun _ ↦ rfl) ⟨rfl, rfl, rfl⟩ rfl rfl rfl rfl

theorem trans (h : Evolves s s' A A') (h' : Evolves s' s'' A' A'') : Evolves s s'' A A'' := by
  have hfresh : ∀ {y}, Fresh s s' y → Kept s' s'' y → Fresh s s'' y := fun hy hkept ↦
    ⟨hkept.inserted ▸ hy.inserted, hkept.late ▸ hkept.expire ▸ hy.late⟩
  have hfresh' : ∀ {y}, Fresh s' s'' y → Fresh s s'' y := fun hy ↦
    ⟨h.insertions_le.trans hy.inserted, h.time ▸ hy.late⟩
  refine ⟨?_, ?_, h.insertions_le.trans h'.insertions_le, h'.time.trans h.time,
    h'.basetime.trans h.basetime, h'.callbackTimer.trans h.callbackTimer⟩
  · intro y hy
    rcases h'.mem y hy with ⟨hy', hkept'⟩ | hy'
    · rcases h.mem y hy' with ⟨hyA, hkept⟩ | hfresh₁
      · exact Or.inl ⟨hyA, hkept'.expire.trans hkept.expire, hkept'.inserted.trans hkept.inserted,
          hkept'.late.trans hkept.late⟩
      · exact Or.inr (hfresh hfresh₁ hkept')
    · exact Or.inr (hfresh' hy')
  · intro y hy hcallback hfalse htrue
    rcases h'.mem y hy with ⟨hy', hkept'⟩ | hy'
    · rcases hmodified : s'.callbackTimerModified with _ | _
      · exact hfresh' (h'.modified y hy (h.callbackTimer.trans hcallback) hmodified htrue)
      · exact hfresh (h.modified y hy' hcallback hfalse hmodified) hkept'
    · exact hfresh' hy'

theorem fresh_insert {s s₁ : Scheduler} (x : ℕ) (hinsertions : s₁.insertions = s.insertions)
    (htime : s₁.time = s.time) : Fresh s (s₁.timerListInsert false x) x := by
  have hhistory := timerListInsert_history s₁ false x
  have hinserted : (s₁.timerListInsert false x).inserted x = s₁.insertions :=
    (congrFun hhistory.inserted x).trans (update_self x _ s₁.inserted)
  have hlate : (s₁.timerListInsert false x).late x = decide ((s₁.timer x).expire < s₁.time) :=
    (congrFun hhistory.late x).trans (update_self x _ s₁.late)
  refine ⟨(hinserted.trans hinsertions).ge, ?_⟩
  rw [hlate, (SamePointees.timerListInsert s₁ false x).timer, decide_eq_true_eq, ← htime]
  exact lt_or_ge _ _

theorem kept_insert {s s₁ : Scheduler} {x y : ℕ} (hyx : y ≠ x) (htimer : s₁.timer y = s.timer y)
    (hhistory : SameHistory s s₁) : Kept s (s₁.timerListInsert false x) y := by
  have hhistory' := timerListInsert_history s₁ false x
  refine ⟨?_, ?_, ?_⟩
  · rw [(SamePointees.timerListInsert s₁ false x).timer, htimer]
  · refine (congrFun hhistory'.inserted y).trans ?_
    exact (update_of_ne hyx _ s₁.inserted).trans (congrFun hhistory.inserted y)
  · refine (congrFun hhistory'.late y).trans ?_
    exact (update_of_ne hyx _ s₁.late).trans (congrFun hhistory.late y)

theorem insertions_insert (s : Scheduler) (x : ℕ) :
    (s.timerListInsert false x).insertions = s.insertions + 1 :=
  (timerListInsert_history s false x).insertions

/-- A timer is changed, and put where it belongs now. -/
theorem reschedule (x : ℕ) (t : Timer) (m : Bool)
    (hm : m = s.callbackTimerModified ∨ s.callbackTimer = some x) :
    Evolves s (({ s with callbackTimerModified := m }.setTimer x t).reinsert x) A
      (Arranged.place (s.setTimer x t) x (A.erase x)) := by
  set s₁ := ({ s with callbackTimerModified := m } : Scheduler).setTimer x t with hs₁
  have hset : SameHistory s s₁ := ⟨rfl, rfl, rfl⟩
  have hremove : SameHistory s (s₁.timerListRemove x) :=
    hset.trans (timerListRemove_history s₁ x)
  have hpointees := SamePointees.timerListRemove s₁ x
  have hsame := SamePointees.reinsert s₁ x
  have hmem : ∀ y ∈ Arranged.place (s.setTimer x t) x (A.erase x),
      (y ∈ A ∧ y ≠ x ∧ Kept s (s₁.reinsert x) y) ∨ (y = x ∧ Fresh s (s₁.reinsert x) y) := by
    intro y hy
    have hy' : y = x ∨ y ∈ A.erase x := by
      rw [Arranged.place] at hy
      split_ifs at hy
      · exact mem_insertBefore.mp hy
      · exact Or.inr hy
    by_cases hyx : y = x
    · subst hyx
      exact Or.inr ⟨rfl, fresh_insert y hremove.insertions hpointees.time⟩
    · have hyA : y ∈ A := mem_of_mem_erase (hy'.resolve_left hyx)
      refine Or.inl ⟨hyA, hyx, kept_insert hyx ?_ hremove⟩
      rw [hpointees.timer]
      exact update_of_ne hyx _ _
  refine ⟨?_, ?_, ?_, hsame.time, hsame.basetime, hsame.callbackTimer⟩
  · intro y hy
    rcases hmem y hy with ⟨hyA, -, hkept⟩ | ⟨-, hfresh⟩
    · exact Or.inl ⟨hyA, hkept⟩
    · exact Or.inr hfresh
  · intro y hy hcallback hfalse htrue
    rcases hmem y hy with ⟨-, hyx, -⟩ | ⟨-, hfresh⟩
    · -- the flag has changed, so that it is the timer of the callback that was changed
      rw [hsame.callbackTimerModified] at htrue
      have htrue' : m = true := htrue
      rcases hm with hm | hm
      · rw [htrue', hfalse] at hm
        simp at hm
      · exact absurd (Option.some_inj.mp (hcallback.symm.trans hm)) hyx
    · exact hfresh
  · rw [Scheduler.reinsert, insertions_insert, hremove.insertions]
    exact Nat.le_succ _

/-- A timer that was changed and put back is a new one. -/
theorem fresh_reinsert (s : Scheduler) (x : ℕ) (t : Timer) :
    Fresh s ((s.setTimer x t).reinsert x) x :=
  fresh_insert x (timerListRemove_history (s.setTimer x t) x).insertions
    (SamePointees.timerListRemove (s.setTimer x t) x).time

/-- A timer is taken out. -/
theorem reclaim (hnodup : A.Nodup) (x : ℕ) : Evolves s (s.reclaim x) A (A.erase x) := by
  set s₁ := s.setTimer x { s.timer x with callback := none } with hs₁
  have hset : SameHistory s s₁ := ⟨rfl, rfl, rfl⟩
  have hhistory := hset.trans (timerListRemove_history s₁ x)
  have hsame := SamePointees.timerListRemove s₁ x
  refine ⟨?_, ?_, hhistory.insertions.ge, hsame.time, hsame.basetime, hsame.callbackTimer⟩
  · intro y hy
    obtain ⟨hyx, hyA⟩ := hnodup.mem_erase_iff.mp hy
    refine Or.inl ⟨hyA, ?_, congrFun hhistory.inserted y, congrFun hhistory.late y⟩
    rw [Scheduler.reclaim, hsame.timer, s.setTimer_of_ne hyx]
  · intro y _ _ hfalse htrue
    have hmodified : (s.reclaim x).callbackTimerModified = s.callbackTimerModified :=
      hsame.callbackTimerModified
    rw [hmodified, hfalse] at htrue
    simp at htrue

/-- A new timer is put where it belongs. -/
theorem init (hlt : ∀ y ∈ A, y < s.allocated) (callback : Option ℕ) (startDelay : Attotime)
    (param : ℤ) (temporary : Bool) :
    Evolves s (s.init callback startDelay param temporary) A
      (Arranged.place (s.addTimer callback startDelay param temporary) s.allocated A) := by
  set s₁ := s.addTimer callback startDelay param temporary with hs₁
  have hsame := SamePointees.timerListInsert s₁ false s.allocated
  refine ⟨?_, ?_, ?_, hsame.time, hsame.basetime, hsame.callbackTimer⟩
  · intro y hy
    have hy' : y = s.allocated ∨ y ∈ A := by
      rw [Arranged.place] at hy
      split_ifs at hy
      · exact mem_insertBefore.mp hy
      · exact Or.inr hy
    rcases hy' with rfl | hyA
    · exact Or.inr (fresh_insert _ rfl rfl)
    · have hyx : y ≠ s.allocated := Nat.ne_of_lt (hlt y hyA)
      refine Or.inl ⟨hyA, kept_insert hyx ?_ ⟨rfl, rfl, rfl⟩⟩
      exact update_of_ne hyx _ _
  · intro y hy hcallback hfalse htrue
    have hmodified : (s.init callback startDelay param temporary).callbackTimerModified =
        s.callbackTimerModified := hsame.callbackTimerModified
    rw [hmodified, hfalse] at htrue
    simp at htrue
  · rw [Scheduler.init, insertions_insert]
    exact Nat.le_succ _

end Evolves

/-! ## Operations -/

namespace WellFormed

variable {fired : Option ℕ} {s : Scheduler} {A I : List ℕ} {x : ℕ}

theorem congr {s' : Scheduler} (h : WellFormed fired s A I) (hnext : s'.next = s.next)
    (hprev : s'.prev = s.prev)
    (htimerList : s'.timerList = s.timerList) (hinactive : s'.inactiveTimers = s.inactiveTimers)
    (htimer : ∀ x, SameSchedule (s.timer x) (s'.timer x)) (hallocated : s'.allocated = s.allocated)
    (hinserted : s'.inserted = s.inserted) (hinsertions : s'.insertions = s.insertions)
    (hmodified : s'.callbackTimerModified = s.callbackTimerModified)
    (hcallback : s'.callbackTimer = s.callbackTimer) : WellFormed fired s' A I := by
  have hlists := h.lists.congr hnext hprev htimerList hinactive hallocated.ge
  refine ⟨h.toArranged.congr hlists (fun x _ ↦ htimer x) hinserted hinsertions hmodified
    hcallback, ?_, h.fired_mem⟩
  intro x hx
  rw [Scheduler.isPermanent, (htimer x).temporary, hallocated] at hx
  exact h.permanent x hx

theorem enable (h : WellFormed fired s A I) (hx : s.isPermanent x = true) (enable : Bool) :
    ∃ A' I', WellFormed fired (s.enable x enable) A' I' ∧ Evolves s (s.enable x enable) A A' := by
  rw [Scheduler.enable]
  split_ifs with hne
  · exact ⟨_, _, h.reschedule (h.permanent x hx) _ s.callbackTimerModified (fun _ hy ↦ hy)
      fun _ _ hy ↦ ⟨hy, rfl⟩, .reschedule x _ _ (Or.inl rfl)⟩
  · exact ⟨A, I, h, .refl s A⟩

theorem adjust (h : WellFormed fired s A I) (hx : s.isPermanent x = true) (startDelay : Attotime)
    (param : ℤ) (period : Attotime) :
    ∃ A' I', WellFormed fired (s.adjust x startDelay param period) A' I' ∧
      Evolves s (s.adjust x startDelay param period) A A' := by
  rw [Scheduler.adjust]
  by_cases hcallback : s.callbackTimer = some x
  · rw [if_pos hcallback]
    refine ⟨_, _, h.reschedule (h.permanent x hx) _ true (fun _ hy ↦ hy) ?_,
      .reschedule x _ true (Or.inr hcallback)⟩
    -- the timer whose callback runs is `x` itself
    intro y hyx hy
    exact absurd (Option.some_inj.mp ((h.callback y hy).symm.trans hcallback)) hyx
  · rw [if_neg hcallback]
    exact ⟨_, _, h.reschedule (h.permanent x hx) _ s.callbackTimerModified (fun _ hy ↦ hy)
      fun _ _ hy ↦ ⟨hy, rfl⟩, .reschedule x _ _ (Or.inl rfl)⟩

theorem sameSchedule_setTimer (s : Scheduler) (x : ℕ) {t : Timer} (ht : SameSchedule (s.timer x) t)
    (y : ℕ) : SameSchedule (s.timer y) ((s.setTimer x t).timer y) := by
  by_cases hyx : y = x
  · subst hyx
    rw [Scheduler.setTimer_self]
    exact ht
  · exact SameSchedule.of_eq (s.setTimer_of_ne hyx t)

theorem setTimer (h : WellFormed fired s A I) (x : ℕ) {t : Timer}
    (ht : SameSchedule (s.timer x) t) : WellFormed fired (s.setTimer x t) A I :=
  h.congr rfl rfl rfl rfl (sameSchedule_setTimer s x ht) rfl rfl rfl rfl rfl

theorem init_evolves (h : WellFormed fired s A I) (callback : Option ℕ) (startDelay : Attotime)
    (param : ℤ) (temporary : Bool) :
    ∃ A' I', WellFormed fired (s.init callback startDelay param temporary) A' I' ∧
      Evolves s (s.init callback startDelay param temporary) A A' := by
  refine ⟨_, _, h.init callback startDelay param temporary, .init ?_ _ _ _ _⟩
  exact fun y hy ↦ h.lists.lt y (mem_append_left I (mem_append_left _ hy))

theorem apply (h : WellFormed fired s A I) (o : Op) :
    ∃ A' I', WellFormed fired (s.apply o) A' I' ∧ Evolves s (s.apply o) A A' := by
  have hsame : ∃ A' I', WellFormed fired s A' I' ∧ Evolves s s A A' := ⟨A, I, h, .refl s A⟩
  rcases o with ⟨x, startDelay, param, period⟩ | ⟨x, b⟩ | ⟨x, duration⟩ | ⟨x, param⟩ |
    ⟨duration, callback, param⟩ | ⟨callback, param⟩
  · rw [Scheduler.apply]
    split_ifs with hx
    · exact h.adjust hx startDelay param period
    · exact hsame
  · rw [Scheduler.apply]
    split_ifs with hx
    · exact h.enable hx b
    · exact hsame
  · rw [Scheduler.apply]
    split_ifs with hx
    · exact h.adjust hx duration _ _
    · exact hsame
  · rw [Scheduler.apply]
    split_ifs with hx
    · have hschedule := sameSchedule_setTimer s x (t := { s.timer x with param }) ⟨rfl, rfl, rfl⟩
      exact ⟨A, I, h.setTimer x ⟨rfl, rfl, rfl⟩,
        .of_eq (fun y ↦ (hschedule y).expire) ⟨rfl, rfl, rfl⟩ rfl rfl rfl rfl⟩
    · exact hsame
  · exact h.init_evolves callback duration param true
  · exact h.init_evolves callback .zero param true

/-! ## The loop of `execute_timers` -/

/-- The first half, for the timer at the head of the list. -/
theorem beginCallback (h : WellFormed none s A I) (hx : s.timerList = some x) :
    WellFormed (some x) (s.beginCallback x) A I := by
  have hhead : x ∈ A ++ [0] := List.mem_of_head? (h.head_eq.symm.trans hx)
  have hxI : x ∉ I := h.lists.notMem_inactive hhead
  have hexpire : ∀ y, ((s.beginCallback x).timer y).expire = (s.timer y).expire ∧
      ((s.beginCallback x).timer y).temporary = (s.timer y).temporary := by
    intro y
    by_cases hyx : y = x
    · subst hyx
      simp [Scheduler.beginCallback]
    · simp [Scheduler.beginCallback, update_of_ne hyx]
  have hne : ∀ y, y ≠ x → (s.beginCallback x).timer y = s.timer y :=
    fun y hyx ↦ update_of_ne hyx _ _
  have hdisabled : (s.timer 0).enabled = false → ((s.beginCallback x).timer 0).enabled = false := by
    intro h0
    by_cases hx₀ : 0 = x
    · subst hx₀
      simp [Scheduler.beginCallback, h0]
    · rw [hne 0 hx₀, h0]
  refine ⟨⟨h.lists.congr rfl rfl rfl rfl (Nat.le_refl _), ?_, hdisabled h.dummy_enabled, ?_, ?_,
    h.inserted_lt, ?_, ?_, ?_, ?_⟩, ?_, ?_⟩
  · rw [(hexpire 0).1, h.dummy_expire]
  · rw [(hexpire 0).2, h.dummy_temporary]
  · refine h.sorted.imp ?_
    intro y z hyz
    rw [Before, (hexpire y).1, (hexpire z).1]
    exact hyz
  · intro y hy
    rw [(hexpire y).1]
    exact h.expires y hy
  · intro y hy
    by_cases hyx : y = x
    · exact Or.inr ⟨congrArg some hyx.symm, rfl⟩
    · rw [hne y hyx]
      rcases h.enabled y hy with henabled | ⟨hnone, -⟩
      · exact Or.inl henabled
      · simp at hnone
  · intro y hy
    rw [hne y (ne_of_mem_of_not_mem hy hxI)]
    exact h.inactive y hy
  · exact fun y hy ↦ hy
  · intro y hy
    rw [Scheduler.isPermanent, (hexpire y).2] at hy
    exact h.permanent y hy
  · intro y hy
    rw [← Option.some_inj.mp hy]
    exact mem_append_left I hhead

section

variable (h : WellFormed (some x) s A I)
include h

/-- A timer that was adjusted in its callback is where it belongs. -/
theorem of_modified (hmodified : s.callbackTimerModified = true) : WellFormed none s A I := by
  refine ⟨⟨h.lists, h.dummy_expire, h.dummy_enabled, h.dummy_temporary, h.sorted, h.inserted_lt,
    h.expires, ?_, h.inactive, by simp⟩, h.permanent, by simp⟩
  intro y hy
  rcases h.enabled y hy with henabled | ⟨-, hfalse⟩
  · exact Or.inl henabled
  · rw [hmodified] at hfalse
    simp at hfalse

theorem mem_of_fired (hx₀ : x ≠ 0) : x ∈ A ++ I := by
  have hmem := h.fired_mem x rfl
  simp only [mem_append, mem_singleton] at hmem ⊢
  tauto

/-- A temporary timer that has fired is taken out. -/
theorem reclaim (hx₀ : x ≠ 0) (htemporary : (s.timer x).temporary = true) :
    WellFormed none (s.reclaim x) (A.erase x) (I.erase x) := by
  refine ⟨h.toArranged.takeOut (h.mem_of_fired hx₀) _ s.callbackTimerModified (by simp) ?_, ?_,
    by simp⟩
  · exact fun y hyx hy ↦ absurd (Option.some_inj.mp hy).symm hyx
  · intro y hy
    rw [Scheduler.reclaim, (SamePointees.timerListRemove _ x).isPermanent, isPermanent_iff] at hy
    have hyx : y ≠ x := by
      rintro rfl
      rw [Scheduler.setTimer_self] at hy
      simp [htemporary] at hy
    rw [s.setTimer_of_ne hyx] at hy
    have hmem := h.permanent y (isPermanent_iff.mpr hy)
    rw [mem_append, mem_erase_of_ne hyx, mem_erase_of_ne hyx]
    exact List.mem_append.mp hmem

/-- The second half, for a timer that is not the dummy. If it is still in the list it is a new
one. -/
theorem endCallback (hx₀ : x ≠ 0) :
    ∃ A' I', WellFormed none (s.endCallback x) A' I' ∧ Evolves s (s.endCallback x) A A' ∧
      (s.callbackTimerModified = false → x ∈ A' → Fresh s (s.endCallback x) x) := by
  have hnodup := h.nodup.of_append_left
  rw [Scheduler.endCallback]
  split_ifs with hmodified htemporary
  · exact ⟨A, I, h.of_modified hmodified, .refl s A, by simp [hmodified]⟩
  · refine ⟨_, _, h.reschedule (h.mem_of_fired hx₀) _ s.callbackTimerModified (by simp) ?_,
      .reschedule x _ _ (Or.inl rfl), fun _ _ ↦ Evolves.fresh_reinsert s x _⟩
    exact fun y hyx hy ↦ absurd (Option.some_inj.mp hy).symm hyx
  · refine ⟨_, _, h.reclaim hx₀ (by simpa using htemporary), .reclaim hnodup x, ?_⟩
    exact fun _ hmem ↦ absurd rfl (hnodup.mem_erase_iff.mp hmem).1

end

/-- The dummy fires when it is alone in the active list, and leaves nothing there. -/
theorem endCallback_dummy (h : WellFormed (some 0) s [] I)
    (hmodified : s.callbackTimerModified = false) : (s.endCallback 0).timerList = none := by
  have htemporary : ¬ (!(s.timer 0).temporary) = true := by simp [h.dummy_temporary]
  rw [Scheduler.endCallback, if_neg (Bool.not_eq_true _ ▸ hmodified), if_neg htemporary]
  have hlists : Lists (s.setTimer 0 { s.timer 0 with callback := none }) ([] ++ 0 :: []) I :=
    h.lists.setTimer 0 _
  exact hlists.timerListRemove_active.timerList

end WellFormed

end RoscoEmulator.Schedule
