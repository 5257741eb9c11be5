import RoscoEmulator.Schedule.Lists

/-!
# How the timers are arranged

`Arranged` is the invariant of the two lists. The active list is in the order of expiry, timers that
expire at the same time being in the order of their insertion, and ends in the dummy; its timers are
enabled and expire, those of the inactive list are disabled or never expire. The exception is a
one-shot timer in its own callback: it is disabled and still in the active list, unless it has been
adjusted.

An operation takes a timer out of its list, changes it and puts it back. Both halves keep the
arrangement of the other timers.
-/

namespace RoscoEmulator.Schedule

open Function List LinkedList

theorem lt_never {t : Attotime} (h : t.isNever = false) : t < Attotime.never := by
  rw [Attotime.lt_iff]
  have hlt : ¬ attotimeMaxSeconds ≤ t.seconds := by simpa [Attotime.isNever] using h
  exact Or.inl (Int.not_le.mp hlt)

/-- `x` expires before `y`, or at the same time and was inserted before it. -/
def Before (s : Scheduler) (x y : ℕ) : Prop :=
  (s.timer x).expire < (s.timer y).expire ∨
    ((s.timer x).expire = (s.timer y).expire ∧ s.inserted x < s.inserted y)

theorem lex_trans {α : Type} [Preorder α] {e e' e'' : α} {p q r : Prop} (hpq : p → q → r)
    (h : e < e' ∨ e = e' ∧ p) (h' : e' < e'' ∨ e' = e'' ∧ q) : e < e'' ∨ e = e'' ∧ r := by
  rcases h with h | ⟨rfl, hp⟩
  · rcases h' with h' | ⟨rfl, -⟩
    · exact .inl (h.trans h')
    · exact .inl h
  · exact h'.imp_right (.imp_right (hpq hp))

theorem Before.trans {s : Scheduler} {x y z : ℕ} (hxy : Before s x y) (hyz : Before s y z) :
    Before s x z :=
  lex_trans .trans hxy hyz

theorem Before.expire_le {s : Scheduler} {x y : ℕ} (h : Before s x y) :
    (s.timer x).expire ≤ (s.timer y).expire := by
  rcases h with h | ⟨h, -⟩
  · exact h.le
  · exact h.le

/-- The fields of a timer on which its place depends are the same. -/
structure SameSchedule (t t' : Timer) : Prop where
  expire : t'.expire = t.expire
  enabled : t'.enabled = t.enabled
  temporary : t'.temporary = t.temporary

theorem SameSchedule.of_eq {t t' : Timer} (h : t' = t) : SameSchedule t t' := by
  subst h
  exact ⟨rfl, rfl, rfl⟩

theorem SameSchedule.isActive {t t' : Timer} (h : SameSchedule t t') :
    t'.isActive = t.isActive := by
  rw [Timer.isActive, Timer.isActive, h.expire, h.enabled]

/-- The arrangement of the timers in the active list `A`, the dummy apart, and the inactive list
`I`, while the callback of `fired` runs. -/
structure Arranged (fired : Option ℕ) (s : Scheduler) (A I : List ℕ) : Prop where
  lists : Lists s (A ++ [0]) I
  dummy_expire : (s.timer 0).expire = Attotime.never
  dummy_enabled : (s.timer 0).enabled = false
  dummy_temporary : (s.timer 0).temporary = true
  sorted : A.Pairwise (Before s)
  inserted_lt : ∀ x ∈ A, s.inserted x < s.insertions
  expires : ∀ x ∈ A, (s.timer x).expire.isNever = false
  enabled : ∀ x ∈ A, (s.timer x).enabled = true ∨
    (fired = some x ∧ s.callbackTimerModified = false)
  inactive : ∀ x ∈ I, (s.timer x).isActive = false
  callback : ∀ x, fired = some x → s.callbackTimer = some x

namespace Arranged

variable {fired fired' : Option ℕ} {s : Scheduler} {A I : List ℕ} {x : ℕ}

section

variable (h : Arranged fired s A I)
include h

theorem nodup : (A ++ I).Nodup := by
  have hperm : (A ++ [0] ++ I).Perm (0 :: (A ++ I)) := by simp [perm_middle]
  exact (List.nodup_cons.mp (hperm.nodup_iff.mp h.lists.nodup)).2

theorem zero_notMem : 0 ∉ A ++ I := by
  have hperm : (A ++ [0] ++ I).Perm (0 :: (A ++ I)) := by simp [perm_middle]
  exact (List.nodup_cons.mp (hperm.nodup_iff.mp h.lists.nodup)).1

theorem ne_zero (hx : x ∈ A ++ I) : x ≠ 0 := by
  rintro rfl
  exact h.zero_notMem hx

theorem disjoint (hA : x ∈ A) : x ∉ I :=
  h.lists.notMem_inactive (mem_append_left _ hA)

theorem head_eq : s.timerList = (A ++ [0]).head? := h.lists.timerList

end

theorem erase_append_zero {A : List ℕ} (hx : x ≠ 0) : (A ++ [0]).erase x = A.erase x ++ [0] := by
  by_cases hA : x ∈ A
  · exact erase_append_left [0] hA
  · have hzero : x ∉ ([0] : List ℕ) := by simpa using hx
    rw [erase_append_right [0] hA, erase_of_not_mem hzero, erase_of_not_mem hA]

/-- A timer is changed and taken out. Its callback may have been marked as modified. -/
theorem takeOut (h : Arranged fired s A I) (hx : x ∈ A ++ I) (t : Timer) (m : Bool)
    (hfired : ∀ y, fired' = some y → s.callbackTimer = some y)
    (hm : ∀ y, y ≠ x → fired = some y → fired' = some y ∧ m = s.callbackTimerModified) :
    Arranged fired' (({ s with callbackTimerModified := m }.setTimer x t).timerListRemove x)
      (A.erase x) (I.erase x) := by
  set s₁ := ({ s with callbackTimerModified := m } : Scheduler).setTimer x t with hs₁
  have hlists₁ : Lists s₁ (A ++ [0]) I := h.lists.congr rfl rfl rfl rfl (Nat.le_refl _)
  have hx₀ := h.ne_zero hx
  have hmem : x ∈ A ++ [0] ++ I := by
    simp only [mem_append] at hx ⊢
    tauto
  have hlists := hlists₁.timerListRemove hmem
  rw [erase_append_zero hx₀] at hlists
  have hsame := SamePointees.timerListRemove s₁ x
  have hinserted : (s₁.timerListRemove x).inserted = s.inserted :=
    (timerListRemove_history s₁ x).inserted
  have hinsertions : (s₁.timerListRemove x).insertions = s.insertions :=
    (timerListRemove_history s₁ x).insertions
  have hne : ∀ y, y ≠ x → (s₁.timerListRemove x).timer y = s.timer y := fun y hy ↦ by
    rw [hsame.timer]
    exact update_of_ne hy _ _
  have hA : ∀ y ∈ A.erase x, y ∈ A ∧ y ≠ x := fun y hy ↦
    ((h.nodup.of_append_left).mem_erase_iff.mp hy).symm
  have hI : ∀ y ∈ I.erase x, y ∈ I ∧ y ≠ x := fun y hy ↦
    ((h.nodup.of_append_right).mem_erase_iff.mp hy).symm
  refine ⟨hlists, ?_, ?_, ?_, ?_, ?_, ?_, ?_, ?_, ?_⟩
  · rw [hne 0 hx₀.symm, h.dummy_expire]
  · rw [hne 0 hx₀.symm, h.dummy_enabled]
  · rw [hne 0 hx₀.symm, h.dummy_temporary]
  · refine (h.sorted.sublist erase_sublist).imp_of_mem ?_
    intro y z hy hz hyz
    rw [Before, hne y (hA y hy).2, hne z (hA z hz).2, hinserted]
    exact hyz
  · intro y hy
    rw [hinserted, hinsertions]
    exact h.inserted_lt y (hA y hy).1
  · intro y hy
    rw [hne y (hA y hy).2]
    exact h.expires y (hA y hy).1
  · intro y hy
    obtain ⟨hyA, hyx⟩ := hA y hy
    rw [hne y hyx, hsame.callbackTimerModified]
    rcases h.enabled y hyA with henabled | ⟨hy, hmodified⟩
    · exact Or.inl henabled
    · obtain ⟨hfired', hm⟩ := hm y hyx hy
      exact Or.inr ⟨hfired', hm.trans hmodified⟩
  · intro y hy
    rw [hne y (hI y hy).2]
    exact h.inactive y (hI y hy).1
  · intro y hy
    rw [hsame.callbackTimer]
    exact hfired y hy

/-- The active list with a timer put in its place. -/
def place (s : Scheduler) (x : ℕ) (A : List ℕ) : List ℕ :=
  if (s.timer x).isActive then insertBefore (Scheduler.here false s.timer x) x A else A

/-- The inactive list with a timer put in front, if it belongs there. -/
def placeInactive (s : Scheduler) (x : ℕ) (I : List ℕ) : List ℕ :=
  if (s.timer x).isActive then I else x :: I

theorem here_zero (h : Arranged fired s A I) (checkIndex : Bool)
    (hx : (s.timer x).expire.isNever = false) : Scheduler.here checkIndex s.timer x 0 = true := by
  have hlt := lt_never hx
  rw [← h.dummy_expire] at hlt
  simp [Scheduler.here, hlt]

theorem isActive_iff {t : Timer} :
    t.isActive = true ↔ t.expire.isNever = false ∧ t.enabled = true := by
  simp [Timer.isActive]

theorem insert (h : Arranged fired s A I) (hx : x ∉ A ++ I) (hx₀ : x ≠ 0) (hlt : x < s.allocated) :
    Arranged fired (s.timerListInsert false x) (place s x A) (placeInactive s x I) := by
  have hsame := SamePointees.timerListInsert s false x
  have hinserted : (s.timerListInsert false x).inserted =
      update s.inserted x s.insertions := (timerListInsert_history s false x).inserted
  have hinsertions : (s.timerListInsert false x).insertions = s.insertions + 1 :=
    (timerListInsert_history s false x).insertions
  have hne : ∀ y, y ≠ x → (s.timerListInsert false x).inserted y = s.inserted y := fun y hy ↦ by
    rw [hinserted, update_of_ne hy]
  have hself : (s.timerListInsert false x).inserted x = s.insertions := by
    rw [hinserted, update_self]
  have hx' : x ∉ A ++ [0] ++ I := by
    simp only [mem_append, mem_singleton] at hx ⊢
    tauto
  have hxA : ∀ y ∈ A, y ≠ x := fun y hy hyx ↦ hx (hyx ▸ mem_append_left I hy)
  have hsorted : A.Pairwise (Before (s.timerListInsert false x)) := by
    refine h.sorted.imp_of_mem ?_
    intro y z hy hz hyz
    rw [Before, hsame.timer, hne y (hxA y hy), hne z (hxA z hz)]
    exact hyz
  have hinserted_lt : ∀ y ∈ A, (s.timerListInsert false x).inserted y <
      (s.timerListInsert false x).insertions := fun y hy ↦ by
    rw [hne y (hxA y hy), hinsertions]
    exact Nat.lt_succ_of_lt (h.inserted_lt y hy)
  by_cases hactive : (s.timer x).isActive = true
  · obtain ⟨hexpires, henabled⟩ := isActive_iff.mp hactive
    have hzero := h.here_zero false hexpires
    have hlists := h.lists.timerListInsert_active hx' hlt false hactive
      ⟨0, mem_append_right A (mem_singleton_self 0), hzero⟩
    rw [insertBefore_append hzero] at hlists
    rw [place, placeInactive, if_pos hactive, if_pos hactive]
    refine ⟨hlists, ?_, ?_, ?_, ?_, ?_, ?_, ?_, ?_, ?_⟩
    · rw [hsame.timer, h.dummy_expire]
    · rw [hsame.timer, h.dummy_enabled]
    · rw [hsame.timer, h.dummy_temporary]
    · refine pairwise_insertBefore Before.trans ?_ ?_ hsorted
      · intro y hy hhere
        have hlt : (s.timer x).expire < (s.timer y).expire := by simpa [Scheduler.here] using hhere
        exact Or.inl (by rwa [hsame.timer])
      · intro y hy hhere
        have hle : (s.timer y).expire ≤ (s.timer x).expire := by simpa [Scheduler.here] using hhere
        rw [Before, hsame.timer, hne y (hxA y hy), hself]
        rcases hle.lt_or_eq with hlt | heq
        · exact Or.inl hlt
        · exact Or.inr ⟨heq, h.inserted_lt y hy⟩
    · intro y hy
      rcases mem_insertBefore.mp hy with rfl | hy
      · rw [hself, hinsertions]
        exact Nat.lt_succ_self _
      · exact hinserted_lt y hy
    · intro y hy
      rw [hsame.timer]
      rcases mem_insertBefore.mp hy with rfl | hy
      · exact hexpires
      · exact h.expires y hy
    · intro y hy
      rw [hsame.timer, hsame.callbackTimerModified]
      rcases mem_insertBefore.mp hy with rfl | hy
      · exact Or.inl henabled
      · exact h.enabled y hy
    · intro y hy
      rw [hsame.timer]
      exact h.inactive y hy
    · intro y hy
      rw [hsame.callbackTimer]
      exact h.callback y hy
  · rw [place, placeInactive, if_neg hactive, if_neg hactive]
    rw [Bool.not_eq_true] at hactive
    have hlists := h.lists.timerListInsert_inactive hx' hlt false hactive
    refine ⟨hlists, ?_, ?_, ?_, hsorted, hinserted_lt, ?_, ?_, ?_, ?_⟩
    · rw [hsame.timer, h.dummy_expire]
    · rw [hsame.timer, h.dummy_enabled]
    · rw [hsame.timer, h.dummy_temporary]
    · intro y hy
      rw [hsame.timer]
      exact h.expires y hy
    · intro y hy
      rw [hsame.timer, hsame.callbackTimerModified]
      exact h.enabled y hy
    · intro y hy
      rw [hsame.timer]
      rcases List.mem_cons.mp hy with rfl | hy
      · exact hactive
      · exact h.inactive y hy
    · intro y hy
      rw [hsame.callbackTimer]
      exact h.callback y hy

theorem congr {s' : Scheduler} (h : Arranged fired s A I) (hlists : Lists s' (A ++ [0]) I)
    (htimer : ∀ x ∈ A ++ [0] ++ I, SameSchedule (s.timer x) (s'.timer x))
    (hinserted : s'.inserted = s.inserted) (hinsertions : s'.insertions = s.insertions)
    (hmodified : s'.callbackTimerModified = s.callbackTimerModified)
    (hcallback : s'.callbackTimer = s.callbackTimer) : Arranged fired s' A I := by
  have hA : ∀ x ∈ A, SameSchedule (s.timer x) (s'.timer x) := fun x hx ↦
    htimer x (mem_append_left I (mem_append_left [0] hx))
  have hI : ∀ x ∈ I, SameSchedule (s.timer x) (s'.timer x) := fun x hx ↦
    htimer x (mem_append_right _ hx)
  have hzero : SameSchedule (s.timer 0) (s'.timer 0) :=
    htimer 0 (mem_append_left I (mem_append_right A (mem_singleton_self 0)))
  refine ⟨hlists, ?_, ?_, ?_, ?_, ?_, ?_, ?_, ?_, ?_⟩
  · rw [hzero.expire, h.dummy_expire]
  · rw [hzero.enabled, h.dummy_enabled]
  · rw [hzero.temporary, h.dummy_temporary]
  · refine h.sorted.imp_of_mem ?_
    intro x y hx hy hxy
    rw [Before, (hA x hx).expire, (hA y hy).expire, hinserted]
    exact hxy
  · intro x hx
    rw [hinserted, hinsertions]
    exact h.inserted_lt x hx
  · intro x hx
    rw [(hA x hx).expire]
    exact h.expires x hx
  · intro x hx
    rw [(hA x hx).enabled, hmodified]
    exact h.enabled x hx
  · intro x hx
    rw [(hI x hx).isActive]
    exact h.inactive x hx
  · intro x hx
    rw [hcallback]
    exact h.callback x hx

theorem place_congr {s s' : Scheduler} (h : s'.timer = s.timer) (x : ℕ) (A : List ℕ) :
    place s' x A = place s x A := by
  rw [place, place, h]

theorem placeInactive_congr {s s' : Scheduler} (h : s'.timer = s.timer) (x : ℕ) (I : List ℕ) :
    placeInactive s' x I = placeInactive s x I := by
  rw [placeInactive, placeInactive, h]

theorem mem_place_append {s : Scheduler} {x y : ℕ} {A I : List ℕ} :
    y ∈ place s x A ++ placeInactive s x I ↔ y = x ∨ y ∈ A ++ I := by
  rw [place, placeInactive]
  split_ifs with hactive
  · rw [mem_append, mem_insertBefore, mem_append]
    tauto
  · rw [mem_append, mem_cons, mem_append]
    tauto

/-- A timer is changed, and put where it belongs now. -/
theorem reschedule (h : Arranged fired s A I) (hx : x ∈ A ++ I) (t : Timer) (m : Bool)
    (hfired : ∀ y, fired' = some y → s.callbackTimer = some y)
    (hm : ∀ y, y ≠ x → fired = some y → fired' = some y ∧ m = s.callbackTimerModified) :
    Arranged fired' (({ s with callbackTimerModified := m }.setTimer x t).reinsert x)
      (place (s.setTimer x t) x (A.erase x)) (placeInactive (s.setTimer x t) x (I.erase x)) := by
  have hout := h.takeOut hx t m hfired hm
  have hx₀ := h.ne_zero hx
  have hnotMem : x ∉ A.erase x ++ I.erase x := by
    rw [mem_append, h.nodup.of_append_left.mem_erase_iff,
      h.nodup.of_append_right.mem_erase_iff]
    tauto
  have hsame := SamePointees.timerListRemove ({ s with callbackTimerModified := m }.setTimer x t) x
  have hlt : x < s.allocated := by
    refine h.lists.lt x ?_
    simp only [mem_append] at hx ⊢
    tauto
  have hin := hout.insert hnotMem hx₀ (hlt.trans_eq hsame.allocated.symm)
  rw [place_congr hsame.timer, placeInactive_congr hsame.timer] at hin
  exact hin

/-- A new timer is put where it belongs. -/
theorem init (h : Arranged fired s A I) (callback : Option ℕ) (startDelay : Attotime) (param : ℤ)
    (temporary : Bool) : Arranged fired (s.init callback startDelay param temporary)
      (place (s.addTimer callback startDelay param temporary) s.allocated A)
      (placeInactive (s.addTimer callback startDelay param temporary) s.allocated I) := by
  have hnotMem : s.allocated ∉ A ++ [0] ++ I := fun hmem ↦ Nat.lt_irrefl _ (h.lists.lt _ hmem)
  have hne : ∀ x ∈ A ++ [0] ++ I, x ≠ s.allocated := fun x hx ↦ ne_of_mem_of_not_mem hx hnotMem
  have hadd : Arranged fired (s.addTimer callback startDelay param temporary) A I := by
    refine h.congr ⟨?_, h.lists.timerList, ?_, h.lists.inactiveTimers, h.lists.nodup, ?_⟩ ?_ rfl rfl
      rfl rfl
    · exact Lists.linked_update h.lists.active
        (fun hmem ↦ hnotMem (mem_append_left I hmem)) none none
    · exact Lists.linked_update h.lists.inactive
        (fun hmem ↦ hnotMem (mem_append_right _ hmem)) none none
    · exact fun x hx ↦ Nat.lt_succ_of_lt (h.lists.lt x hx)
    · exact fun x hx ↦ SameSchedule.of_eq (update_of_ne (hne x hx) _ _)
  refine hadd.insert ?_ ?_ (Nat.lt_succ_self _)
  · intro hmem
    refine hnotMem ?_
    simp only [mem_append] at hmem ⊢
    tauto
  · exact (hne 0 (by simp)).symm

end Arranged

/-! ## Every timer is in a list -/

/-- The timers are arranged, and the permanent ones are all there, and so is the one that fired. -/
structure WellFormed (fired : Option ℕ) (s : Scheduler) (A I : List ℕ) : Prop
    extends Arranged fired s A I where
  permanent : ∀ x, s.isPermanent x = true → x ∈ A ++ I
  fired_mem : ∀ x, fired = some x → x ∈ A ++ [0] ++ I

namespace WellFormed

variable {fired fired' : Option ℕ} {s : Scheduler} {A I : List ℕ} {x : ℕ}

theorem isPermanent_iff {s : Scheduler} {y : ℕ} :
    s.isPermanent y = true ↔ y < s.allocated ∧ (s.timer y).temporary = false := by
  simp [Scheduler.isPermanent]

/-- Where the timers of two lists are after one of them was put in its place. -/
theorem mem_place {s : Scheduler} {x y : ℕ} (h : y = x ∨ y ∈ A ++ I) :
    y ∈ Arranged.place s x A ++ Arranged.placeInactive s x I := Arranged.mem_place_append.mpr h

theorem mem_place_zero {s : Scheduler} {x y : ℕ} (h : y ∈ A ++ [0] ++ I) :
    y ∈ Arranged.place s x A ++ [0] ++ Arranged.placeInactive s x I := by
  have hcases : y = 0 ∨ y ∈ A ++ I := by
    simp only [mem_append, mem_singleton] at h ⊢
    tauto
  rcases hcases with rfl | hmem
  · exact mem_append_left _ (mem_append_right _ (mem_singleton_self 0))
  · have hplace := @mem_place A I s x y (Or.inr hmem)
    simp only [mem_append] at hplace ⊢
    tauto

theorem reschedule (h : WellFormed fired s A I) (hx : x ∈ A ++ I) (t : Timer) (m : Bool)
    (hfired : ∀ y, fired' = some y → fired = some y)
    (hm : ∀ y, y ≠ x → fired = some y → fired' = some y ∧ m = s.callbackTimerModified) :
    WellFormed fired' (({ s with callbackTimerModified := m }.setTimer x t).reinsert x)
      (Arranged.place (s.setTimer x t) x (A.erase x))
      (Arranged.placeInactive (s.setTimer x t) x (I.erase x)) := by
  have hsame := SamePointees.reinsert ({ s with callbackTimerModified := m }.setTimer x t) x
  have herase : ∀ y, y ∈ A ++ I → y = x ∨ y ∈ A.erase x ++ I.erase x := by
    intro y hy
    by_cases hyx : y = x
    · exact Or.inl hyx
    · rw [mem_append, mem_erase_of_ne hyx, mem_erase_of_ne hyx, ← mem_append]
      exact Or.inr hy
  refine ⟨h.toArranged.reschedule hx t m (fun y hy ↦ h.callback y (hfired y hy)) hm, ?_, ?_⟩
  · intro y hy
    rw [Arranged.mem_place_append]
    by_cases hyx : y = x
    · exact Or.inl hyx
    · refine herase y (h.permanent y ?_)
      have htimer : ({ s with callbackTimerModified := m }.setTimer x t).timer y = s.timer y :=
        update_of_ne hyx _ _
      rw [hsame.isPermanent, Scheduler.isPermanent, htimer] at hy
      exact hy
  · intro y hy
    have hmem := h.fired_mem y (hfired y hy)
    by_cases hyx : y = x
    · have hplace := @mem_place (A.erase x) (I.erase x) (s.setTimer x t) x y (Or.inl hyx)
      simp only [mem_append] at hplace ⊢
      tauto
    · refine mem_place_zero ?_
      rw [← Arranged.erase_append_zero (h.ne_zero hx), mem_append, mem_erase_of_ne hyx,
        mem_erase_of_ne hyx]
      exact List.mem_append.mp hmem

theorem init (h : WellFormed fired s A I) (callback : Option ℕ) (startDelay : Attotime) (param : ℤ)
    (temporary : Bool) : WellFormed fired (s.init callback startDelay param temporary)
      (Arranged.place (s.addTimer callback startDelay param temporary) s.allocated A)
      (Arranged.placeInactive (s.addTimer callback startDelay param temporary) s.allocated I) := by
  refine ⟨h.toArranged.init callback startDelay param temporary, ?_, ?_⟩
  · intro y hy
    rw [Scheduler.init, (SamePointees.timerListInsert _ false s.allocated).isPermanent] at hy
    rw [Arranged.mem_place_append]
    by_cases hyx : y = s.allocated
    · exact Or.inl hyx
    · refine Or.inr (h.permanent y ?_)
      have htimer : (s.addTimer callback startDelay param temporary).timer y = s.timer y :=
        update_of_ne hyx _ _
      rw [isPermanent_iff, htimer] at hy
      have hlt : y < s.allocated + 1 := hy.1
      exact isPermanent_iff.mpr ⟨by omega, hy.2⟩
  · exact fun y hy ↦ mem_place_zero (h.fired_mem y hy)

end WellFormed

end RoscoEmulator.Schedule
