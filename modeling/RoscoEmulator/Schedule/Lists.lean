import RoscoEmulator.Schedule.Timers

/-!
# The two lists as lists

`Lists s A I` says that the pointers of `s` are those of an active list `A` and an inactive list
`I`. An insertion and a removal are then the operations on lists of the same name, and leave
everything but the pointers alone. -/

namespace RoscoEmulator.Schedule

open Function List LinkedList Scheduler

/-! ## What the lists leave alone -/

/-- The two states differ in the pointers, and in the numbers of the insertions, at most. -/
structure SamePointees (s s' : Scheduler) : Prop where
  timer : s'.timer = s.timer
  allocated : s'.allocated = s.allocated
  basetime : s'.basetime = s.basetime
  executing : s'.executing = s.executing
  callbackTimer : s'.callbackTimer = s.callbackTimer
  callbackTimerModified : s'.callbackTimerModified = s.callbackTimerModified
  callbackTimerExpireTime : s'.callbackTimerExpireTime = s.callbackTimerExpireTime

namespace SamePointees

variable {s s' s'' : Scheduler}

theorem trans (h : SamePointees s s') (h' : SamePointees s' s'') : SamePointees s s'' where
  timer := h'.timer.trans h.timer
  allocated := h'.allocated.trans h.allocated
  basetime := h'.basetime.trans h.basetime
  executing := h'.executing.trans h.executing
  callbackTimer := h'.callbackTimer.trans h.callbackTimer
  callbackTimerModified := h'.callbackTimerModified.trans h.callbackTimerModified
  callbackTimerExpireTime := h'.callbackTimerExpireTime.trans h.callbackTimerExpireTime

theorem isPermanent (h : SamePointees s s') (x : ℕ) : s'.isPermanent x = s.isPermanent x := by
  rw [Scheduler.isPermanent, Scheduler.isPermanent, h.timer, h.allocated]

theorem time (h : SamePointees s s') : s'.time = s.time := by
  rw [Scheduler.time, Scheduler.time, h.callbackTimer, h.callbackTimerExpireTime, h.executing,
    h.basetime]

theorem timerListRemove (s : Scheduler) (x : ℕ) : SamePointees s (s.timerListRemove x) := by
  rw [Scheduler.timerListRemove]
  rcases s.prev x with _ | p
  · split_ifs with hhead <;> dsimp only <;> rcases s.next x with _ | n <;>
      exact ⟨rfl, rfl, rfl, rfl, rfl, rfl, rfl⟩
  · dsimp only
    rcases update s.next p (s.next x) x with _ | n <;>
      exact ⟨rfl, rfl, rfl, rfl, rfl, rfl, rfl⟩

theorem timerListInsert (s : Scheduler) (checkIndex : Bool) (x : ℕ) :
    SamePointees s (s.timerListInsert checkIndex x) := by
  have hlog : SamePointees s (if checkIndex then s else s.logInsertion x) := by
    rcases checkIndex with _ | _ <;> exact ⟨rfl, rfl, rfl, rfl, rfl, rfl, rfl⟩
  rw [Scheduler.timerListInsert]
  refine hlog.trans ?_
  generalize (if checkIndex then s else s.logInsertion x) = s₁
  by_cases hactive : (s₁.timer x).isActive = true
  · rw [if_pos hactive]
    rcases findPosition _ s₁.next s₁.allocated none s₁.timerList with ⟨p, _ | c⟩ <;>
      exact ⟨rfl, rfl, rfl, rfl, rfl, rfl, rfl⟩
  · rw [if_neg hactive]
    exact ⟨rfl, rfl, rfl, rfl, rfl, rfl, rfl⟩

theorem reinsert (s : Scheduler) (x : ℕ) : SamePointees s (s.reinsert x) :=
  (timerListRemove s x).trans (timerListInsert _ false x)

end SamePointees

/-- The two states have the same insertions. -/
structure SameHistory (s s' : Scheduler) : Prop where
  insertions : s'.insertions = s.insertions
  inserted : s'.inserted = s.inserted
  late : s'.late = s.late

theorem SameHistory.trans {s s' s'' : Scheduler} (h : SameHistory s s') (h' : SameHistory s' s'') :
    SameHistory s s'' :=
  ⟨h'.insertions.trans h.insertions, h'.inserted.trans h.inserted, h'.late.trans h.late⟩

theorem timerListRemove_history (s : Scheduler) (x : ℕ) : SameHistory s (s.timerListRemove x) := by
  rw [Scheduler.timerListRemove]
  rcases s.prev x with _ | p
  · split_ifs with hhead <;> dsimp only <;> rcases s.next x with _ | n <;> exact ⟨rfl, rfl, rfl⟩
  · dsimp only
    rcases update s.next p (s.next x) x with _ | n <;> exact ⟨rfl, rfl, rfl⟩

/-- An insertion is numbered, unless it restores a saved order. -/
theorem timerListInsert_history (s : Scheduler) (checkIndex : Bool) (x : ℕ) :
    SameHistory (if checkIndex then s else s.logInsertion x) (s.timerListInsert checkIndex x) := by
  rw [Scheduler.timerListInsert]
  generalize (if checkIndex then s else s.logInsertion x) = s₁
  by_cases hactive : (s₁.timer x).isActive = true
  · rw [if_pos hactive]
    rcases findPosition _ s₁.next s₁.allocated none s₁.timerList with ⟨p, _ | c⟩ <;>
      exact ⟨rfl, rfl, rfl⟩
  · rw [if_neg hactive]
    exact ⟨rfl, rfl, rfl⟩

/-! ## The representation -/

/-- The pointers of the scheduler are those of two disjoint lists. -/
structure Lists (s : Scheduler) (A I : List ℕ) : Prop where
  active : Linked s.next s.prev A
  timerList : s.timerList = A.head?
  inactive : Linked s.next s.prev I
  inactiveTimers : s.inactiveTimers = I.head?
  nodup : (A ++ I).Nodup
  lt : ∀ x ∈ A ++ I, x < s.allocated

namespace Lists

variable {s s' : Scheduler} {A I : List ℕ} {x : ℕ}

section

variable (h : Lists s A I)
include h

/-- The lists depend on the pointers only. -/
theorem congr (hnext : s'.next = s.next) (hprev : s'.prev = s.prev)
    (htimerList : s'.timerList = s.timerList)
    (hinactive : s'.inactiveTimers = s.inactiveTimers) (hallocated : s.allocated ≤ s'.allocated) :
      Lists s' A I where
  active := hnext ▸ hprev ▸ h.active
  timerList := htimerList.trans h.timerList
  inactive := hnext ▸ hprev ▸ h.inactive
  inactiveTimers := hinactive.trans h.inactiveTimers
  nodup := h.nodup
  lt x hx := (h.lt x hx).trans_le hallocated

theorem setTimer (x : ℕ) (t : Timer) : Lists (s.setTimer x t) A I :=
  h.congr rfl rfl rfl rfl (Nat.le_refl _)

theorem logInsertion (x : ℕ) : Lists (s.logInsertion x) A I :=
  h.congr rfl rfl rfl rfl (Nat.le_refl _)

theorem nodup_active : A.Nodup := h.nodup.of_append_left

theorem nodup_inactive : I.Nodup := h.nodup.of_append_right

theorem notMem_inactive (hx : x ∈ A) : x ∉ I :=
  fun hI ↦ (List.nodup_append.mp h.nodup).2.2 x hx x hI rfl

/-- There are no more timers in the lists than were allocated. -/
theorem length_le : (A ++ I).length ≤ s.allocated := by
  have hsubset : (A ++ I).toFinset ⊆ Finset.range s.allocated := by
    intro x hx
    exact Finset.mem_range.mpr (h.lt x (List.mem_toFinset.mp hx))
  have hcard := Finset.card_le_card hsubset
  rwa [toFinset_card_of_nodup h.nodup, Finset.card_range] at hcard

theorem length_active_le : A.length ≤ s.allocated := by
  have hlength := h.length_le
  rw [length_append] at hlength
  exact (Nat.le_add_right _ _).trans hlength

end

variable {next prev : ℕ → Option ℕ} {l : List ℕ}

/-- The loop of `timer_list_insert` stops at the first timer before which the new one belongs. -/
theorem findPosition_eq (here : ℕ → Bool) {l₁ l₂ : List ℕ} (h : Chain next (l₁ ++ l₂)) {fuel : ℕ}
    (hfuel : l₂.length ≤ fuel) :
    findPosition here next fuel l₁.getLast? l₂.head? =
      ((l₁ ++ l₂.takeWhile fun y ↦ !here y).getLast?, (l₂.dropWhile fun y ↦ !here y).head?) := by
  induction l₂ generalizing l₁ fuel with
  | nil => rcases fuel with _ | fuel <;> simp [findPosition]
  | cons y l₂ ih =>
    rcases fuel with _ | fuel
    · simp at hfuel
    · rcases hy : here y with _ | _
      · have happend : l₁ ++ y :: l₂ = (l₁ ++ [y]) ++ l₂ := by simp
        have hlast : (l₁ ++ [y]).getLast? = some y := by simp
        have hnext : next y = l₂.head? := h.apply_eq
        rw [happend] at h
        have hih := ih h (Nat.le_of_succ_le_succ hfuel)
        rw [hlast, ← hnext] at hih
        simp only [List.head?_cons, findPosition, hy, Bool.false_eq_true, if_false,
          Bool.not_false, takeWhile_cons_of_pos, dropWhile_cons_of_pos]
        rw [hih]
        simp
      · simp [findPosition, hy]

theorem findPosition_head (here : ℕ → Bool) (h : Lists s A I) :
    findPosition here s.next s.allocated none s.timerList =
      ((A.takeWhile fun y ↦ !here y).getLast?, (A.dropWhile fun y ↦ !here y).head?) := by
  have hchain : Chain s.next ([] ++ A) := h.active.next
  rw [h.timerList]
  exact findPosition_eq here hchain h.length_active_le

/-- A write through a pointer of one list leaves the other alone. -/
theorem linked_setAt (h : Linked next prev l) {p q v w : Option ℕ} (hp : ∀ y ∈ l, p ≠ some y)
    (hq : ∀ y ∈ l, q ≠ some y) : Linked (setAt next p v) (setAt prev q w) l :=
  h.congr (fun y hy ↦ setAt_of_ne (hp y hy)) fun y hy ↦ setAt_of_ne (hq y hy)

/-- So does a write to a node that is in no list. -/
theorem linked_update (h : Linked next prev l) (hx : x ∉ l) (v w : Option ℕ) :
    Linked (update next x v) (update prev x w) l :=
  h.congr (fun _ hy ↦ update_of_ne (ne_of_mem_of_not_mem hy hx) _ _)
    fun _ hy ↦ update_of_ne (ne_of_mem_of_not_mem hy hx) _ _

theorem linkActive {l₁ l₂ : List ℕ} (h : Lists s (l₁ ++ l₂) I) (hx : x ∉ l₁ ++ l₂) (hxI : x ∉ I)
    (hlt : x < s.allocated)
    (hne : l₂ ≠ []) : Lists (s.linkActive x (l₁.getLast?, l₂.head?)) (l₁ ++ x :: l₂) I := by
  obtain ⟨c, l₂, rfl⟩ := exists_cons_of_ne_nil hne
  have hnodup : (l₁ ++ x :: c :: l₂).Nodup :=
    List.nodup_middle.mpr (List.nodup_cons.mpr ⟨hx, h.nodup_active⟩)
  have hnext : (s.linkActive x (l₁.getLast?, (c :: l₂).head?)).next =
      setAt (update s.next x (c :: l₂).head?) l₁.getLast? (some x) := rfl
  have hprev : (s.linkActive x (l₁.getLast?, (c :: l₂).head?)).prev =
      setAt (update s.prev x l₁.getLast?) (c :: l₂).head? (some x) := rfl
  have htimerList : (s.linkActive x (l₁.getLast?, (c :: l₂).head?)).timerList =
      if l₁.getLast?.isSome then s.timerList else some x := rfl
  refine ⟨h.active.link hnodup, ?_, ?_, h.inactiveTimers, ?_, ?_⟩
  · rw [htimerList, h.timerList]
    rcases l₁ with _ | ⟨a, l₁⟩
    · rfl
    · have hsome : (a :: l₁).getLast?.isSome = true := by simp
      rw [if_pos hsome]
      rfl
  · rw [hnext, hprev]
    have hI : ∀ {p : Option ℕ}, (∀ z, p = some z → z ∈ l₁ ++ c :: l₂) → ∀ y ∈ I, p ≠ some y :=
      fun hp y hy hpy ↦ h.notMem_inactive (hp y hpy) hy
    refine linked_setAt (linked_update h.inactive hxI _ _) (hI ?_) (hI ?_)
    · exact fun z hz ↦ mem_append_left _ (List.mem_of_getLast? hz)
    · exact fun z hz ↦ mem_append_right _ (List.mem_of_head? hz)
  · have hperm : (l₁ ++ x :: c :: l₂ ++ I).Perm (x :: (l₁ ++ c :: l₂ ++ I)) := by
      simp [perm_middle]
    refine hperm.nodup_iff.mpr (List.nodup_cons.mpr ⟨?_, h.nodup⟩)
    simp only [mem_append] at hx ⊢
    tauto
  · intro y hy
    have hy' : y = x ∨ y ∈ l₁ ++ c :: l₂ ++ I := by
      simp only [mem_append, mem_cons] at hy ⊢
      tauto
    rcases hy' with rfl | hy'
    · exact hlt
    · exact h.lt y hy'

/-- An inactive timer becomes the first of its list. -/
theorem linkInactive (h : Lists s A I) (hx : x ∉ A ++ I) (hlt : x < s.allocated) :
    Lists (s.linkInactive x) A (x :: I) := by
  obtain ⟨hxA, hxI⟩ : x ∉ A ∧ x ∉ I := by simpa using hx
  have hnodup : (x :: I).Nodup := List.nodup_cons.mpr ⟨hxI, h.nodup_inactive⟩
  have hhead : s.inactiveTimers ≠ some x := by
    rw [h.inactiveTimers]
    exact fun hhead ↦ hxI (List.mem_of_head? hhead)
  have hprev : (s.linkInactive x).prev =
      setAt (update s.prev x none) s.inactiveTimers (some x) := update_setAt_comm hhead
  have hnext : (s.linkInactive x).next = update s.next x s.inactiveTimers := rfl
  refine ⟨?_, h.timerList, ?_, rfl, ?_, ?_⟩
  · rw [hprev, hnext]
    refine (linked_update h.active hxA _ _).congr (fun y _ ↦ rfl) fun y hy ↦ setAt_of_ne ?_
    rw [h.inactiveTimers]
    exact fun hhead ↦ h.notMem_inactive hy (List.mem_of_head? hhead)
  · rw [hprev, hnext, h.inactiveTimers]
    have hlinked : Linked s.next s.prev ([] ++ I) := h.inactive
    exact hlinked.link hnodup
  · have hperm : (A ++ x :: I).Perm (x :: (A ++ I)) := perm_middle
    exact hperm.nodup_iff.mpr (List.nodup_cons.mpr ⟨hx, h.nodup⟩)
  · intro y hy
    rcases List.mem_cons.mp (List.perm_middle.mem_iff.mp hy) with rfl | hy
    · exact hlt
    · exact h.lt y hy

/-! ## Removal -/

theorem timerListRemove_eq (s : Scheduler) (x : ℕ) (hx : s.prev x ≠ some x) :
    s.timerListRemove x =
      { s with
        next := setAt s.next (s.prev x) (s.next x)
        prev := setAt s.prev (s.next x) (s.prev x)
        timerList := if s.prev x = none ∧ s.timerList = some x then s.next x else s.timerList
        inactiveTimers :=
          if s.prev x = none ∧ s.timerList ≠ some x then s.next x else s.inactiveTimers } := by
  rw [Scheduler.timerListRemove]
  rcases hp : s.prev x with _ | p
  · by_cases hhead : s.timerList = some x <;> rcases hn : s.next x with _ | n <;>
      simp [hhead, hn, hp, setAt]
  · have hxp : x ≠ p := fun hxp ↦ hx (hp.trans (congrArg some hxp.symm))
    have hnext : ∀ v, update s.next p v x = s.next x :=
      fun v ↦ update_of_ne hxp _ _
    rcases hn : s.next x with _ | n <;> simp [hnext, hn, hp, setAt]

variable {l₁ l₂ : List ℕ}

theorem prev_ne_self (h : Linked next prev (l₁ ++ x :: l₂)) (hnodup : (l₁ ++ x :: l₂).Nodup) :
    prev x ≠ some x := by
  rw [h.prev_eq]
  intro hlast
  exact (List.nodup_middle.mp hnodup).notMem
    (mem_append_left l₂ (List.mem_of_getLast? hlast))

/-- The pointers of one list do not lead to the other. -/
theorem linked_setAt_neighbours (h : Linked next prev l) (hdisjoint : ∀ y ∈ l, y ∉ l₁ ++ x :: l₂)
    {v w : Option ℕ} : Linked (setAt next l₁.getLast? v) (setAt prev l₂.head? w) l := by
  refine linked_setAt h (fun y hy hlast ↦ hdisjoint y hy ?_) fun y hy hhead ↦ hdisjoint y hy ?_
  · exact mem_append_left _ (List.mem_of_getLast? hlast)
  · exact mem_append_right _ (mem_cons_of_mem x (List.mem_of_head? hhead))

theorem timerListRemove_active (h : Lists s (l₁ ++ x :: l₂) I) :
    Lists (s.timerListRemove x) (l₁ ++ l₂) I := by
  have hnodup := h.nodup_active
  have hsub : (l₁ ++ l₂).Sublist (l₁ ++ x :: l₂) := (sublist_cons_self x l₂).append_left l₁
  rw [timerListRemove_eq s x (prev_ne_self h.active hnodup), h.active.prev_eq, h.active.next_eq]
  refine ⟨h.active.unlink hnodup, ?_, ?_, ?_, ?_, ?_⟩
  · rw [h.timerList]
    rcases l₁ with _ | ⟨a, l₁⟩ <;> simp
  · exact linked_setAt_neighbours h.inactive fun y hy hA ↦ h.notMem_inactive hA hy
  · dsimp only
    rw [h.timerList, h.inactiveTimers]
    rcases l₁ with _ | ⟨a, l₁⟩ <;> simp
  · exact h.nodup.sublist (hsub.append_right I)
  · exact fun y hy ↦ h.lt y ((hsub.append_right I).mem hy)

theorem timerListRemove_inactive (h : Lists s A (l₁ ++ x :: l₂)) :
    Lists (s.timerListRemove x) A (l₁ ++ l₂) := by
  have hnodup := h.nodup_inactive
  have hsub : (l₁ ++ l₂).Sublist (l₁ ++ x :: l₂) := (sublist_cons_self x l₂).append_left l₁
  have hhead : s.timerList ≠ some x := by
    rw [h.timerList]
    intro hhead
    exact h.notMem_inactive (List.mem_of_head? hhead) (mem_append_right _ mem_cons_self)
  rw [timerListRemove_eq s x (prev_ne_self h.inactive hnodup), h.inactive.prev_eq,
    h.inactive.next_eq]
  refine ⟨?_, ?_, h.inactive.unlink hnodup, ?_, ?_, ?_⟩
  · exact linked_setAt_neighbours h.active fun y hy hI ↦ h.notMem_inactive hy hI
  · simpa [hhead] using h.timerList
  · rw [h.inactiveTimers]
    rcases l₁ with _ | ⟨a, l₁⟩ <;> simp [hhead]
  · exact h.nodup.sublist (hsub.append_left A)
  · exact fun y hy ↦ h.lt y ((hsub.append_left A).mem hy)

theorem timerListRemove_active_head (h : Lists s (x :: A) I) : Lists (s.timerListRemove x) A I := by
  have h' : Lists s ([] ++ x :: A) I := h
  exact h'.timerListRemove_active

theorem timerListRemove_inactive_head (h : Lists s A (x :: I)) :
    Lists (s.timerListRemove x) A I := by
  have h' : Lists s A ([] ++ x :: I) := h
  exact h'.timerListRemove_inactive

theorem timerListRemove (h : Lists s A I) (hx : x ∈ A ++ I) :
    Lists (s.timerListRemove x) (A.erase x) (I.erase x) := by
  rcases List.mem_append.mp hx with hA | hI
  · have hxI := h.notMem_inactive hA
    obtain ⟨l₁, l₂, hx₁, rfl, herase⟩ := exists_erase_eq hA
    rw [herase, erase_of_not_mem hxI]
    exact h.timerListRemove_active
  · have hxA : x ∉ A := fun hA ↦ h.notMem_inactive hA hI
    obtain ⟨l₁, l₂, hx₁, rfl, herase⟩ := exists_erase_eq hI
    rw [herase, erase_of_not_mem hxA]
    exact h.timerListRemove_inactive

/-! ## Insertion -/

theorem timerListInsert_active (h : Lists s A I) (hx : x ∉ A ++ I) (hlt : x < s.allocated)
    (checkIndex : Bool) (hactive : (s.timer x).isActive = true)
    (hlast : ∃ y ∈ A, here checkIndex s.timer x y = true) : Lists (s.timerListInsert checkIndex x)
      (insertBefore (here checkIndex s.timer x) x A) I := by
  obtain ⟨hxA, hxI⟩ : x ∉ A ∧ x ∉ I := by simpa using hx
  have hlog : Lists (if checkIndex then s else s.logInsertion x) A I := by
    rcases checkIndex with _ | _
    · exact h.logInsertion x
    · exact h
  have htimer : (if checkIndex then s else s.logInsertion x).timer = s.timer := by
    rcases checkIndex with _ | _ <;> rfl
  have hallocated : (if checkIndex then s else s.logInsertion x).allocated = s.allocated := by
    rcases checkIndex with _ | _ <;> rfl
  rw [Scheduler.timerListInsert]
  generalize (if checkIndex then s else s.logInsertion x) = s₁ at *
  simp only [htimer, hactive, if_true]
  rw [hlog.findPosition_head]
  have hsplit := takeWhile_append_dropWhile (l := A)
    (p := fun y ↦ !here checkIndex s.timer x y)
  rw [← hsplit] at hlog hxA
  refine hlog.linkActive hxA hxI (hallocated ▸ hlt) ?_
  obtain ⟨y, hy, hhere⟩ := hlast
  intro hnil
  have hall := List.dropWhile_eq_nil_iff.mp hnil y hy
  simp [hhere] at hall

/-- The others are put first in the inactive list. -/
theorem timerListInsert_inactive (h : Lists s A I) (hx : x ∉ A ++ I) (hlt : x < s.allocated)
    (checkIndex : Bool) (hactive : (s.timer x).isActive = false) :
    Lists (s.timerListInsert checkIndex x) A (x :: I) := by
  rw [Scheduler.timerListInsert]
  rcases checkIndex with _ | _
  · have hactive' : ((s.logInsertion x).timer x).isActive = false := hactive
    simp only [Bool.false_eq_true, if_false, hactive']
    exact (h.logInsertion x).linkInactive hx hlt
  · simp only [if_true, hactive, Bool.false_eq_true, if_false]
    exact h.linkInactive hx hlt

/-- The nodes that are in no list keep their pointers. -/
theorem timerListInsert_next (h : Lists s A I) (checkIndex : Bool) {y : ℕ} (hyx : y ≠ x)
    (hy : y ∉ A ++ I) : (s.timerListInsert checkIndex x).next y = s.next y := by
  have hlog : Lists (if checkIndex then s else s.logInsertion x) A I := by
    rcases checkIndex with _ | _
    · exact h.logInsertion x
    · exact h
  have hnext : (if checkIndex then s else s.logInsertion x).next = s.next := by
    rcases checkIndex with _ | _ <;> rfl
  rw [Scheduler.timerListInsert, ← hnext]
  generalize (if checkIndex then s else s.logInsertion x) = s₁ at *
  by_cases hactive : (s₁.timer x).isActive = true
  · rw [if_pos hactive]
    rw [hlog.findPosition_head]
    have hlast : (A.takeWhile fun y ↦ !here checkIndex s₁.timer x y).getLast? ≠ some y := by
      intro hlast
      have hmem := (takeWhile_sublist _).mem (List.mem_of_getLast? hlast)
      exact hy (mem_append_left I hmem)
    rcases (A.dropWhile fun y ↦ !here checkIndex s₁.timer x y).head? with _ | c
    · exact (update_of_ne hyx _ _).trans (setAt_of_ne hlast)
    · exact (setAt_of_ne hlast).trans (update_of_ne hyx _ _)
  · rw [if_neg hactive]
    exact update_of_ne hyx _ _

/-- Taking out the first timer of a list changes no forward pointer. -/
theorem timerListRemove_next_of_head (s : Scheduler) (hprev : s.prev x = none) :
    (s.timerListRemove x).next = s.next := by
  have hne : s.prev x ≠ some x := by simp [hprev]
  rw [timerListRemove_eq s x hne, hprev]
  rfl

end Lists

end RoscoEmulator.Schedule
