import RoscoEmulator.Schedule.Operations

/-!
# Saving and restoring the timers

A save state holds the fields of the permanent timers and not the lists. `presave` numbers the
timers of the active list; `postload` empties both lists into a private one, dropping the temporary
timers, and inserts the timers again, a tie in the expiry being broken by the number. The active
list comes out as it was when the state was saved, whatever the lists were when it was loaded. -/

namespace RoscoEmulator.Schedule

open Function List LinkedList Scheduler

/-! ## Before the save -/

variable {timer : ℕ → Timer} {A I P : List ℕ} {x y : ℕ} {s : Scheduler}

theorem canSaveFrom_eq {l : List ℕ} (hchain : Chain s.next l) (fuel : ℕ) (hfuel : l.length ≤ fuel)
    (h : s.canSaveFrom fuel l.head? = true) :
    ∀ x ∈ l, (s.timer x).temporary = true → (s.timer x).expire.isNever = true := by
  induction l generalizing fuel with
  | nil => simp
  | cons x l ih =>
    rcases fuel with _ | fuel
    · simp at hfuel
    · rw [List.head?_cons, canSaveFrom] at h
      split_ifs at h with hlive
      rw [hchain.1] at h
      intro y hy htemporary
      rcases List.mem_cons.mp hy with rfl | hy
      · simpa [htemporary] using hlive
      · exact ih hchain.2 fuel (Nat.le_of_succ_le_succ hfuel) h y hy htemporary

/-- `presave` changes the numbers of the timers in a list, which are in order then. -/
theorem presaveFrom_spec {l : List ℕ} (hnodup : l.Nodup) (fuel : ℕ) (hfuel : l.length ≤ fuel)
    (index : ℕ) (s : Scheduler) (hchain : Chain s.next l) :
    let s' := presaveFrom fuel index l.head? s
    s' = { s with timer := s'.timer } ∧
      (∀ x, s'.timer x = { s.timer x with index := (s'.timer x).index }) ∧
      (∀ x ∉ l, s'.timer x = s.timer x) ∧ (∀ x ∈ l, index ≤ (s'.timer x).index) ∧
      l.Pairwise fun x y ↦ (s'.timer x).index < (s'.timer y).index := by
  induction l generalizing fuel index s with
  | nil =>
    rcases fuel with _ | fuel <;>
        exact ⟨rfl, fun _ ↦ rfl, fun _ _ ↦ rfl, by simp, List.Pairwise.nil⟩
  | cons x l ih =>
    rcases fuel with _ | fuel
    · simp at hfuel
    · obtain ⟨hx, hnodup⟩ := List.nodup_cons.mp hnodup
      obtain ⟨hstate, hfields, hother, hle, hpairwise⟩ := ih hnodup fuel
        (Nat.le_of_succ_le_succ hfuel) (index + 1) (s.setTimer x { s.timer x with index }) hchain.2
      have hnext : presaveFrom (fuel + 1) index (x :: l).head? s =
          presaveFrom fuel (index + 1) l.head? (s.setTimer x { s.timer x with index }) := by
        rw [List.head?_cons, presaveFrom, hchain.1]
      simp only [hnext]
      generalize presaveFrom fuel (index + 1) l.head?
        (s.setTimer x { s.timer x with index }) = s' at *
      have hself : s'.timer x = { s.timer x with index } := by
        rw [hother x hx, setTimer_self]
      refine ⟨hstate, ?_, ?_, ?_, ?_⟩
      · intro y
        by_cases hyx : y = x
        · subst hyx
          rw [hself]
        · have hy := hfields y
          rwa [s.setTimer_of_ne hyx] at hy
      · intro y hy
        obtain ⟨hyx, hyl⟩ : y ≠ x ∧ y ∉ l := by simpa using hy
        rw [hother y hyl, s.setTimer_of_ne hyx]
      · intro y hy
        rcases List.mem_cons.mp hy with rfl | hy
        · rw [hself]
        · exact (Nat.le_succ index).trans (hle y hy)
      · refine List.pairwise_cons.mpr ⟨?_, hpairwise⟩
        intro y hy
        rw [hself]
        exact hle y hy

/-! ## After the load -/

/-- `postload` keeps the timers, but for the callbacks of the temporary ones. -/
structure Preserved (s s' : Scheduler) : Prop where
  timer : ∀ x, (s.timer x).temporary = false → s'.timer x = s.timer x
  schedule : ∀ x, SameSchedule (s.timer x) (s'.timer x)
  index : ∀ x, (s'.timer x).index = (s.timer x).index
  allocated : s'.allocated = s.allocated
  basetime : s'.basetime = s.basetime
  executing : s'.executing = s.executing
  callbackTimer : s'.callbackTimer = s.callbackTimer
  insertions : s'.insertions = s.insertions
  inserted : s'.inserted = s.inserted

namespace Preserved

variable {s s' s'' : Scheduler}

theorem refl (s : Scheduler) : Preserved s s :=
  ⟨fun _ _ ↦ rfl, fun _ ↦ SameSchedule.of_eq rfl, fun _ ↦ rfl, rfl, rfl, rfl, rfl, rfl, rfl⟩

theorem trans (h : Preserved s s') (h' : Preserved s' s'') : Preserved s s'' where
  timer x hx := (h'.timer x ((h.schedule x).temporary.trans hx)).trans (h.timer x hx)
  schedule x :=
    ⟨(h'.schedule x).expire.trans (h.schedule x).expire,
      (h'.schedule x).enabled.trans (h.schedule x).enabled,
      (h'.schedule x).temporary.trans (h.schedule x).temporary⟩
  index x := (h'.index x).trans (h.index x)
  allocated := h'.allocated.trans h.allocated
  basetime := h'.basetime.trans h.basetime
  executing := h'.executing.trans h.executing
  callbackTimer := h'.callbackTimer.trans h.callbackTimer
  insertions := h'.insertions.trans h.insertions
  inserted := h'.inserted.trans h.inserted

theorem of_samePointees (h : SamePointees s s') (hhistory : SameHistory s s') : Preserved s s' where
  timer x _ := congrFun h.timer x
  schedule x := SameSchedule.of_eq (congrFun h.timer x)
  index x := congrArg Timer.index (congrFun h.timer x)
  allocated := h.allocated
  basetime := h.basetime
  executing := h.executing
  callbackTimer := h.callbackTimer
  insertions := hhistory.insertions
  inserted := hhistory.inserted

theorem timerListRemove (s : Scheduler) (x : ℕ) : Preserved s (s.timerListRemove x) :=
  .of_samePointees (.timerListRemove s x) (timerListRemove_history s x)

theorem timerListInsert (s : Scheduler) (x : ℕ) : Preserved s (s.timerListInsert true x) :=
  .of_samePointees (.timerListInsert s true x) (timerListInsert_history s true x)

theorem reclaim (s : Scheduler) {x : ℕ} (hx : (s.timer x).temporary = true) :
    Preserved s (s.reclaim x) := by
  have hreset : Preserved s (s.setTimer x { s.timer x with callback := none }) := by
    refine ⟨?_, WellFormed.sameSchedule_setTimer s x ⟨rfl, rfl, rfl⟩, ?_, rfl, rfl, rfl, rfl, rfl,
      rfl⟩
    · intro y hy
      refine s.setTimer_of_ne ?_ _
      rintro rfl
      simp [hx] at hy
    · intro y
      by_cases hyx : y = x
      · rw [hyx, setTimer_self]
      · rw [s.setTimer_of_ne hyx]
  exact hreset.trans (.timerListRemove _ x)

theorem isPermanent (h : Preserved s s') (x : ℕ) : s'.isPermanent x = s.isPermanent x := by
  rw [Scheduler.isPermanent, Scheduler.isPermanent, (h.schedule x).temporary, h.allocated]

end Preserved

/-- The first timer of a list goes to the private list `P`. -/
theorem Lists.setNext (h : Lists s A I) (hx : x ∉ A ++ I) (v : Option ℕ) :
    Lists { s with next := update s.next x v } A I := by
  obtain ⟨hxA, hxI⟩ : x ∉ A ∧ x ∉ I := by simpa using hx
  refine ⟨h.active.congr ?_ fun _ _ ↦ rfl, h.timerList, h.inactive.congr ?_ fun _ _ ↦ rfl,
    h.inactiveTimers, h.nodup, h.lt⟩
  · exact fun y hy ↦ update_of_ne (ne_of_mem_of_not_mem hy hxA) _ _
  · exact fun y hy ↦ update_of_ne (ne_of_mem_of_not_mem hy hxI) _ _

theorem chain_setNext {next : ℕ → Option ℕ} (h : Chain next P) (hx : x ∉ P) :
    Chain (update next x P.head?) (x :: P) := by
  refine ⟨update_self x _ _, h.congr ?_⟩
  exact fun y hy ↦ update_of_ne (ne_of_mem_of_not_mem hy hx) _ _

/-- The first loop of `postload`. -/
theorem takeInactive_spec (h : Lists s A I) (hchain : Chain s.next P) (hnodup : (A ++ I ++ P).Nodup)
    (fuel : ℕ) (hfuel : I.length ≤ fuel) :
    ∃ s', takeInactive fuel s P.head? = (s', (I.reverse ++ P).head?) ∧ Lists s' A [] ∧
      Chain s'.next (I.reverse ++ P) ∧ Preserved s s' := by
  induction I generalizing s P fuel with
  | nil =>
    have hnone : s.inactiveTimers = none := h.inactiveTimers
    refine ⟨s, ?_, h, hchain, .refl s⟩
    rcases fuel with _ | fuel
    · rfl
    · rw [takeInactive, hnone]
      rfl
  | cons x I ih =>
    rcases fuel with _ | fuel
    · simp at hfuel
    · have hhead : s.inactiveTimers = some x := h.inactiveTimers
      have hprev : s.prev x = none := h.inactive.prev_head
      have hremoved : Lists (s.timerListRemove x) A I := h.timerListRemove_inactive_head
      have hperm : (A ++ x :: I ++ P).Perm (x :: (A ++ I ++ P)) := by simp [perm_middle]
      obtain ⟨hx, hnodup'⟩ := List.nodup_cons.mp (hperm.nodup_iff.mp hnodup)
      obtain ⟨hxL, hxP⟩ : x ∉ A ++ I ∧ x ∉ P := by simpa [not_or, and_assoc] using hx
      have hnext := Lists.timerListRemove_next_of_head s hprev
      have hperm' : (A ++ I ++ x :: P).Perm (x :: (A ++ I ++ P)) := perm_middle
      obtain ⟨s', heq, hlists, hchain', hpreserved⟩ := ih
        (s := { s.timerListRemove x with
          next := update (s.timerListRemove x).next x P.head? })
        (P := x :: P) (hremoved.setNext hxL _) (hnext ▸ chain_setNext hchain hxP)
        (hperm'.nodup_iff.mpr (hperm.nodup_iff.mp hnodup)) fuel (Nat.le_of_succ_le_succ hfuel)
      refine ⟨s', ?_, hlists, ?_, (Preserved.timerListRemove s x).trans (.trans ?_ hpreserved)⟩
      · rw [takeInactive, hhead]
        rw [List.head?_cons] at heq
        simp only [heq]
        simp
      · simpa using hchain'
      · exact .of_samePointees ⟨rfl, rfl, rfl, rfl, rfl, rfl, rfl⟩ ⟨rfl, rfl, rfl⟩

/-- The second loop of `postload`: the dummy stays, and the temporary timers are dropped. -/
theorem takeActive_spec (h : Lists s (A ++ [0]) []) (hchain : Chain s.next P)
    (hnodup : (A ++ [0] ++ P).Nodup) (fuel : ℕ) (hfuel : A.length ≤ fuel) :
    ∃ s', takeActive fuel s P.head? =
        (s', ((A.filter fun x ↦ !(s.timer x).temporary).reverse ++ P).head?) ∧
      Lists s' [0] [] ∧
      Chain s'.next ((A.filter fun x ↦ !(s.timer x).temporary).reverse ++ P) ∧ Preserved s s' := by
  induction A generalizing s P fuel with
  | nil =>
    have hhead : s.timerList = some 0 := h.timerList
    have hnext : s.next 0 = none := h.active.next_head
    refine ⟨s, ?_, h, hchain, .refl s⟩
    rcases fuel with _ | fuel
    · rfl
    · simp [takeActive, hhead, hnext]
  | cons x A ih =>
    rcases fuel with _ | fuel
    · simp at hfuel
    · have hhead : s.timerList = some x := h.timerList
      have hprev : s.prev x = none := h.active.prev_head
      obtain ⟨n, hn⟩ : ∃ n, s.next x = some n := by
        have hnext : s.next x = (A ++ [0]).head? := h.active.next_head
        rcases A with _ | ⟨a, A⟩
        · exact ⟨0, hnext⟩
        · exact ⟨a, hnext⟩
      obtain ⟨hx, hnodup'⟩ := List.nodup_cons.mp hnodup
      obtain ⟨hxA, hxP⟩ : x ∉ A ++ [0] ∧ x ∉ P := by simpa [not_or, and_assoc] using hx
      have hfuel' := Nat.le_of_succ_le_succ hfuel
      rcases htemporary : (s.timer x).temporary with _ | _
      · -- a permanent timer goes to the private list
        have hremoved : Lists (s.timerListRemove x) (A ++ [0]) [] := h.timerListRemove_active_head
        have hnext := Lists.timerListRemove_next_of_head s hprev
        have htimer := (SamePointees.timerListRemove s x).timer
        have hperm : (A ++ [0] ++ x :: P).Perm (x :: (A ++ [0] ++ P)) := perm_middle
        obtain ⟨s', heq, hlists, hchain', hpreserved⟩ := ih
          (s := { s.timerListRemove x with
            next := update (s.timerListRemove x).next x P.head? })
          (P := x :: P) (hremoved.setNext (by simpa using hxA) _) (hnext ▸ chain_setNext hchain hxP)
          (hperm.nodup_iff.mpr hnodup) fuel hfuel'
        rw [htimer] at heq hchain'
        refine ⟨s', ?_, hlists, ?_, (Preserved.timerListRemove s x).trans (.trans ?_ hpreserved)⟩
        · rw [List.head?_cons] at heq
          simp [takeActive, hhead, hn, htemporary, heq]
        · simpa [htemporary] using hchain'
        · exact .of_samePointees ⟨rfl, rfl, rfl, rfl, rfl, rfl, rfl⟩ ⟨rfl, rfl, rfl⟩
      · -- a temporary one is dropped
        have hremoved : Lists (s.reclaim x) (A ++ [0]) [] :=
          (h.setTimer x { s.timer x with callback := none }).timerListRemove_active_head
        have hnext : (s.reclaim x).next = s.next := Lists.timerListRemove_next_of_head
          (s.setTimer x { s.timer x with callback := none }) hprev
        obtain ⟨s', heq, hlists, hchain', hpreserved⟩ :=
          ih (s := s.reclaim x) hremoved (hnext ▸ hchain) hnodup' fuel hfuel'
        have hpreserved₁ := Preserved.reclaim s htemporary
        have hfilter : (A.filter fun y ↦ !((s.reclaim x).timer y).temporary) =
            A.filter fun y ↦ !(s.timer y).temporary :=
          filter_congr fun y _ ↦ by rw [(hpreserved₁.schedule y).temporary]
        rw [hfilter] at heq hchain'
        refine ⟨s', ?_, hlists, ?_, hpreserved₁.trans hpreserved⟩
        · simp [takeActive, hhead, hn, htemporary, heq]
        · simpa [htemporary] using hchain'

/-- The order in which `postload` inserts the timers. -/
def BeforeIndex (timer : ℕ → Timer) (x y : ℕ) : Prop :=
  (timer x).expire < (timer y).expire ∨
    ((timer x).expire = (timer y).expire ∧ (timer x).index ≤ (timer y).index)

theorem BeforeIndex.trans {z : ℕ} (hxy : BeforeIndex timer x y) (hyz : BeforeIndex timer y z) :
    BeforeIndex timer x z :=
  lex_trans .trans hxy hyz

theorem beforeIndex_of_here (h : here true timer x y = true) : BeforeIndex timer x y := by
  simp only [here, gt_iff_lt, Bool.true_and, Bool.or_eq_true, decide_eq_true_eq,
    Bool.and_eq_true, Bool.not_eq_true', decide_eq_false_iff_not, not_lt] at h
  rcases h with h | ⟨h, hindex⟩
  · exact Or.inl h
  · rcases h.lt_or_eq with hlt | heq
    · exact Or.inl hlt
    · exact Or.inr ⟨heq, hindex.le⟩

theorem beforeIndex_of_not_here (h : here true timer x y = false) : BeforeIndex timer y x := by
  simp only [here, gt_iff_lt, Bool.true_and, Bool.or_eq_false_iff, decide_eq_false_iff_not,
    Bool.and_eq_false_iff, Bool.not_eq_false', decide_eq_true_eq, not_lt] at h
  obtain ⟨hle, h | h⟩ := h
  · exact Or.inl h
  · rcases hle.lt_or_eq with hlt | heq
    · exact Or.inl hlt
    · exact Or.inr ⟨heq, h⟩

/-- The third loop of `postload`: the timers that are to expire come in order. -/
theorem insertPrivate_spec (h : Lists s (A ++ [0]) I)
    (hchain : Chain s.next P) (hnodup : (A ++ [0] ++ I ++ P).Nodup)
    (hlt : ∀ x ∈ P, x < s.allocated) (hdummy : (s.timer 0).expire = Attotime.never)
    (hsorted : A.Pairwise (BeforeIndex s.timer)) (fuel : ℕ) (hfuel : P.length ≤ fuel) :
    ∃ s' A' I', insertPrivate fuel s P.head? = s' ∧ Lists s' (A' ++ [0]) I' ∧
      A'.Pairwise (BeforeIndex s.timer) ∧ A'.Perm (A ++ P.filter fun x ↦ (s.timer x).isActive) ∧
      I'.Perm (I ++ P.filter fun x ↦ !(s.timer x).isActive) ∧ Preserved s s' := by
  induction P generalizing s A I fuel with
  | nil =>
    refine ⟨s, A, I, ?_, h, hsorted, by simp, by simp, .refl s⟩
    rcases fuel with _ | fuel <;> rfl
  | cons x P ih =>
    rcases fuel with _ | fuel
    · simp at hfuel
    · have hperm : (A ++ [0] ++ I ++ x :: P).Perm (x :: (A ++ [0] ++ I ++ P)) := perm_middle
      obtain ⟨hx, hnodup'⟩ := List.nodup_cons.mp (hperm.nodup_iff.mp hnodup)
      obtain ⟨hxL, hxP⟩ : x ∉ A ++ [0] ++ I ∧ x ∉ P := by
        simpa [not_or, and_assoc] using hx
      have hsame := SamePointees.timerListInsert s true x
      have hstep : insertPrivate (fuel + 1) s (x :: P).head? =
          insertPrivate fuel (s.timerListInsert true x) P.head? := by
        rw [List.head?_cons, insertPrivate, hchain.1]
      have hchain' : Chain (s.timerListInsert true x).next P := by
        refine hchain.2.congr ?_
        intro y hy
        refine h.timerListInsert_next true (ne_of_mem_of_not_mem hy hxP) ?_
        exact fun hmem ↦ (List.nodup_append.mp hnodup').2.2 y hmem y hy rfl
      have hlt' : ∀ y ∈ P, y < (s.timerListInsert true x).allocated := fun y hy ↦
        (hlt y (mem_cons_of_mem x hy)).trans_eq hsame.allocated.symm
      have hdummy' : ((s.timerListInsert true x).timer 0).expire = Attotime.never := by
        rw [hsame.timer, hdummy]
      have hfuel' := Nat.le_of_succ_le_succ hfuel
      have hxlt := hlt x mem_cons_self
      rw [hstep]
      by_cases hactive : (s.timer x).isActive = true
      · have hzero : here true s.timer x 0 = true := by
          have hnever := lt_never (Arranged.isActive_iff.mp hactive).1
          rw [← hdummy] at hnever
          simp [here, hnever]
        have hlists := h.timerListInsert_active hxL hxlt true hactive
          ⟨0, mem_append_right A (mem_singleton_self 0), hzero⟩
        rw [insertBefore_append hzero] at hlists
        have hinsert := perm_insertBefore (here true s.timer x) x A
        have hsorted₁ : (insertBefore (here true s.timer x) x A).Pairwise
            (BeforeIndex (s.timerListInsert true x).timer) := by
          rw [hsame.timer]
          exact pairwise_insertBefore BeforeIndex.trans (fun y _ hy ↦ beforeIndex_of_here hy)
            (fun y _ hy ↦ beforeIndex_of_not_here hy) hsorted
        have hnodup₁ : (insertBefore (here true s.timer x) x A ++ [0] ++ I ++ P).Nodup :=
          (((hinsert.append_right [0]).append_right I).append_right P).nodup_iff.mpr
            (hperm.nodup_iff.mp hnodup)
        obtain ⟨s', A', I', heq, hlists', hsorted', hA', hI', hpreserved⟩ :=
          ih hlists hchain' hnodup₁ hlt' hdummy' hsorted₁ fuel hfuel'
        rw [hsame.timer] at hsorted' hA' hI'
        refine ⟨s', A', I', heq, hlists', hsorted', ?_, ?_,
          (Preserved.timerListInsert s x).trans hpreserved⟩
        · rw [filter_cons_of_pos (by simpa using hactive)]
          exact hA'.trans ((hinsert.append_right _).trans List.perm_middle.symm)
        · rwa [filter_cons_of_neg (by simpa using hactive)]
      · rw [Bool.not_eq_true] at hactive
        have hlists := h.timerListInsert_inactive hxL hxlt true hactive
        have hmiddle : (A ++ [0] ++ x :: I).Perm (x :: (A ++ [0] ++ I)) := perm_middle
        have hperm' : (A ++ [0] ++ x :: I ++ P).Perm (x :: (A ++ [0] ++ I ++ P)) :=
          hmiddle.append_right P
        obtain ⟨s', A', I', heq, hlists', hsorted', hA', hI', hpreserved⟩ := ih hlists hchain'
          (hperm'.nodup_iff.mpr (hperm.nodup_iff.mp hnodup)) hlt' hdummy'
          (hsame.timer ▸ hsorted) fuel hfuel'
        rw [hsame.timer] at hsorted' hA' hI'
        refine ⟨s', A', I', heq, hlists', hsorted', ?_, ?_,
          (Preserved.timerListInsert s x).trans hpreserved⟩
        · rwa [filter_cons_of_neg (by simpa using hactive)]
        · rw [filter_cons_of_pos (by simpa using hactive)]
          exact hI'.trans List.perm_middle.symm

/-- `postload`, from any two lists: the active list holds the permanent timers that are to expire,
in the order of their expiry and of their numbers. -/
theorem postload_spec (h : Lists s (A ++ [0]) I) (hdummy : (s.timer 0).expire = Attotime.never) :
    ∃ A' I', Lists s.postload (A' ++ [0]) I' ∧ A'.Pairwise (BeforeIndex s.timer) ∧
      (∀ x, x ∈ A' ↔ ((x ∈ A ∧ (s.timer x).temporary = false) ∨ x ∈ I) ∧
        (s.timer x).isActive = true) ∧
      (∀ x, x ∈ I' ↔ ((x ∈ A ∧ (s.timer x).temporary = false) ∨ x ∈ I) ∧
        (s.timer x).isActive = false) ∧ Preserved s s.postload := by
  have hlength := h.length_le
  simp only [length_append, length_singleton] at hlength
  have hnodup₁ : (A ++ [0] ++ I ++ []).Nodup := by
    rw [append_nil]
    exact h.nodup
  obtain ⟨s₁, heq₁, hlists₁, hchain₁, hpreserved₁⟩ :=
    takeInactive_spec (P := []) h trivial hnodup₁ s.allocated (by omega)
  have hperm₂ : (A ++ [0] ++ (I.reverse ++ [])).Perm (A ++ [0] ++ I) := by
    rw [append_nil]
    exact (reverse_perm I).append_left _
  obtain ⟨s₂, heq₂, hlists₂, hchain₂, hpreserved₂⟩ :=
    takeActive_spec hlists₁ hchain₁ (hperm₂.nodup_iff.mpr h.nodup) s₁.allocated
      (by rw [hpreserved₁.allocated]; omega)
  have hfilter : (A.filter fun x ↦ !(s₁.timer x).temporary) =
      A.filter fun x ↦ !(s.timer x).temporary :=
    filter_congr fun x _ ↦ by rw [(hpreserved₁.schedule x).temporary]
  rw [hfilter] at heq₂ hchain₂
  generalize hP : (A.filter fun x ↦ !(s.timer x).temporary).reverse ++ (I.reverse ++ []) = P at *
  have hpermP : P.Perm (A.filter (fun x ↦ !(s.timer x).temporary) ++ I) := by
    rw [← hP, append_nil]
    exact (reverse_perm _).append (reverse_perm I)
  have hsublist : (A.filter (fun x ↦ !(s.timer x).temporary) ++ I).Sublist (A ++ I) :=
    List.filter_sublist.append_right I
  have hperm : (A ++ [0] ++ I).Perm (0 :: (A ++ I)) := by simp [perm_middle]
  obtain ⟨hzero, hnodup⟩ := List.nodup_cons.mp (hperm.nodup_iff.mp h.nodup)
  have hmemP : ∀ x, x ∈ P ↔ (x ∈ A ∧ (s.timer x).temporary = false) ∨ x ∈ I := by
    intro x
    rw [hpermP.mem_iff, mem_append, mem_filter]
    simp
  have hnodupP : ([] ++ [0] ++ [] ++ P).Nodup := by
    refine List.nodup_cons.mpr ⟨?_, hpermP.nodup_iff.mpr (hnodup.sublist hsublist)⟩
    exact fun hmem ↦ hzero (hsublist.mem (hpermP.mem_iff.mp hmem))
  have hpreserved : Preserved s s₂ := hpreserved₁.trans hpreserved₂
  have hltP : ∀ x ∈ P, x < s₂.allocated := by
    intro x hx
    rw [hpreserved.allocated]
    have hmem := hsublist.mem (hpermP.mem_iff.mp hx)
    refine h.lt x ?_
    simp only [mem_append] at hmem ⊢
    tauto
  have hlengthP : P.length ≤ s₂.allocated := by
    have hle := hpermP.length_eq.trans_le hsublist.length_le
    rw [length_append] at hle
    rw [hpreserved.allocated]
    omega
  obtain ⟨s₃, A', I', heq₃, hlists₃, hsorted₃, hA', hI', hpreserved₃⟩ :=
    insertPrivate_spec (A := []) hlists₂ hchain₂ hnodupP hltP
      ((hpreserved.schedule 0).expire.trans hdummy) List.Pairwise.nil s₂.allocated hlengthP
  have hpostload : s.postload = s₃ := by
    rw [postload]
    rw [List.head?_nil] at heq₁
    simp only [heq₁, heq₂, heq₃]
  have hactive : ∀ x, (s₂.timer x).isActive = (s.timer x).isActive := fun x ↦
    (hpreserved.schedule x).isActive
  rw [hpostload]
  refine ⟨A', I', hlists₃, ?_, ?_, ?_, hpreserved.trans hpreserved₃⟩
  · refine hsorted₃.imp_of_mem ?_
    intro x y _ _ hxy
    rwa [BeforeIndex, (hpreserved.schedule x).expire, (hpreserved.schedule y).expire,
      hpreserved.index x, hpreserved.index y] at hxy
  · intro x
    rw [hA'.mem_iff, nil_append, mem_filter, hactive, hmemP]
  · intro x
    rw [hI'.mem_iff, nil_append, mem_filter, hactive, hmemP]
    simp

namespace WellFormed

variable {fired : Option ℕ} {s saved : Scheduler} {A I A₀ I₀ : List ℕ}

/-- `presave` keeps the arrangement, and numbers the active list. -/
theorem presave (h : WellFormed fired s A I) :
    WellFormed fired s.presave A I ∧ s.presave = { s with timer := s.presave.timer } ∧
      (∀ x, s.presave.timer x = { s.timer x with index := (s.presave.timer x).index }) ∧
      A.Pairwise fun x y ↦ (s.presave.timer x).index < (s.presave.timer y).index := by
  have hspec := presaveFrom_spec h.lists.nodup_active s.allocated h.lists.length_active_le 0 s
    h.lists.active.next
  rw [← h.head_eq] at hspec
  obtain ⟨hstate, hfields, -, -, hpairwise⟩ := hspec
  have hschedule : ∀ x, SameSchedule (s.timer x) (s.presave.timer x) := by
    intro x
    have hx : s.presave.timer x = { s.timer x with index := (s.presave.timer x).index } := hfields x
    rw [hx]
    exact ⟨rfl, rfl, rfl⟩
  refine ⟨?_, hstate, hfields, (List.pairwise_append.mp hpairwise).1⟩
  have hpresave : s.presave = { s with timer := s.presave.timer } := hstate
  rw [hpresave]
  exact h.congr rfl rfl rfl rfl hschedule rfl rfl rfl rfl rfl

/-- A state that can be saved has no temporary timer in its active list. -/
theorem isPermanent_of_canSave (h : WellFormed fired s A I) (hcan : s.canSave = true) {x : ℕ}
    (hx : x ∈ A) : s.isPermanent x = true := by
  rw [canSave, h.head_eq] at hcan
  have hmem : x ∈ A ++ [0] := mem_append_left _ hx
  have hlive := canSaveFrom_eq h.lists.active.next s.allocated h.lists.length_active_le hcan x hmem
  refine isPermanent_iff.mpr ⟨h.lists.lt x (mem_append_left I hmem), ?_⟩
  rw [← Bool.not_eq_true]
  intro htemporary
  simp [h.expires x hx] at hlive
  simp [hlive] at htemporary

theorem loadItems_timer (s saved : Scheduler) {x : ℕ} (hx : s.isPermanent x = true) :
    (s.loadItems saved).timer x = { s.timer x with
      param := (saved.timer x).param, enabled := (saved.timer x).enabled
      period := (saved.timer x).period, start := (saved.timer x).start
      expire := (saved.timer x).expire, index := (saved.timer x).index } := by
  simp [loadItems, hx]

theorem loadItems_temporary (s saved : Scheduler) (x : ℕ) :
    ((s.loadItems saved).timer x).temporary = (s.timer x).temporary := by
  rw [loadItems]
  dsimp only
  split_ifs <;> rfl

/-- **The active list of a save state.** Whatever the lists were, they are as they were saved. -/
theorem load (h : WellFormed none s A I) (h₀ : WellFormed none saved A₀ I₀)
    (hcan : saved.canSave = true) (hpermanent : ∀ x, s.isPermanent x = saved.isPermanent x) :
    ∃ I', WellFormed none (s.loadItems saved.presave).postload A₀ I' ∧
      Preserved (s.loadItems saved.presave) (s.loadItems saved.presave).postload := by
  obtain ⟨-, hstate, hfields, hindex⟩ := h₀.presave
  set s₁ := s.loadItems saved.presave with hs₁
  have hlists₁ : Lists s₁ (A ++ [0]) I := h.lists.congr rfl rfl rfl rfl (Nat.le_refl _)
  have htemporary : ∀ x, (s₁.timer x).temporary = (s.timer x).temporary :=
    loadItems_temporary s saved.presave
  have hother : ∀ x, (s.timer x).temporary = true → s₁.timer x = s.timer x := by
    intro x hx
    simp [hs₁, loadItems, Scheduler.isPermanent, hx]
  -- the fields of the permanent timers are the saved ones
  have hsaved : ∀ x, s.isPermanent x = true → (s₁.timer x).expire = (saved.timer x).expire ∧
      (s₁.timer x).enabled = (saved.timer x).enabled ∧
      (s₁.timer x).index = (saved.presave.timer x).index := by
    intro x hx
    have hexpire : (saved.presave.timer x).expire = (saved.timer x).expire := by rw [hfields x]
    have henabled : (saved.presave.timer x).enabled = (saved.timer x).enabled := by rw [hfields x]
    rw [hs₁, loadItems_timer s saved.presave hx]
    exact ⟨hexpire, henabled, rfl⟩
  have hactive : ∀ x, s.isPermanent x = true →
      (s₁.timer x).isActive = (saved.timer x).isActive := by
    intro x hx
    rw [Timer.isActive, Timer.isActive, (hsaved x hx).1, (hsaved x hx).2.1]
  have hdummy : s₁.timer 0 = s.timer 0 := hother 0 h.dummy_temporary
  obtain ⟨A', I', hlists, hsorted, hA', hI', hpreserved⟩ :=
    postload_spec hlists₁ (hdummy ▸ h.dummy_expire)
  have hperm₀ : ∀ x ∈ A₀, s.isPermanent x = true := fun x hx ↦
    (hpermanent x).trans (h₀.isPermanent_of_canSave hcan hx)
  have hactive₀ : ∀ x ∈ A₀, (saved.timer x).isActive = true := by
    intro x hx
    refine Arranged.isActive_iff.mpr ⟨h₀.expires x hx, ?_⟩
    rcases h₀.enabled x hx with henabled | ⟨hnone, -⟩
    · exact henabled
    · simp at hnone
  have hmem : ∀ x, x ∈ A' ↔ x ∈ A₀ := by
    intro x
    rw [hA']
    constructor
    · rintro ⟨hx, hx'⟩
      -- a temporary timer cannot be in the inactive list and about to expire
      have hx'' : s.isPermanent x = true := by
        refine isPermanent_iff.mpr ⟨hlists₁.lt x ?_, ?_⟩
        · simp only [mem_append]
          tauto
        · rcases hx with ⟨-, hx⟩ | hx
          · rw [← htemporary x, hx]
          · rw [← Bool.not_eq_true]
            intro htemp
            rw [hother x htemp, h.inactive x hx] at hx'
            simp at hx'
      have hmem₀ := h₀.permanent x ((hpermanent x).symm.trans hx'')
      rcases List.mem_append.mp hmem₀ with hmem₀ | hmem₀
      · exact hmem₀
      · rw [hactive x hx'', h₀.inactive x hmem₀] at hx'
        simp at hx'
    · intro hx
      have hx' := hperm₀ x hx
      refine ⟨?_, (hactive x hx').trans (hactive₀ x hx)⟩
      have htemp : (s₁.timer x).temporary = false :=
        (htemporary x).trans (isPermanent_iff.mp hx').2
      rcases List.mem_append.mp (h.permanent x hx') with hmem | hmem
      · exact Or.inl ⟨hmem, htemp⟩
      · exact Or.inr hmem
  have hnodup' : A'.Nodup := hlists.nodup_active.of_append_left
  have hnodup₀ : A₀.Nodup := h₀.lists.nodup_active.of_append_left
  have hsorted₀ : A₀.Pairwise (BeforeIndex s₁.timer) := by
    refine (h₀.sorted.and hindex).imp_of_mem ?_
    rintro x y hx hy ⟨hbefore, hindex⟩
    rw [BeforeIndex, (hsaved x (hperm₀ x hx)).1, (hsaved y (hperm₀ y hy)).1,
      (hsaved x (hperm₀ x hx)).2.2, (hsaved y (hperm₀ y hy)).2.2]
    rcases hbefore with hlt | ⟨heq, -⟩
    · exact Or.inl hlt
    · exact Or.inr ⟨heq, hindex.le⟩
  have heq : A' = A₀ := by
    refine List.Perm.eq_of_pairwise ?_ hsorted hsorted₀
      ((perm_ext_iff_of_nodup hnodup' hnodup₀).mpr hmem)
    intro x y hx hy hxy hyx
    have hx₀ := (hmem x).mp hx
    have hindex_eq : (saved.presave.timer x).index = (saved.presave.timer y).index := by
      rw [BeforeIndex, (hsaved x (hperm₀ x hx₀)).2.2, (hsaved y (hperm₀ y hy)).2.2] at hxy hyx
      rcases hxy with hlt | ⟨heq, hle⟩
      · rcases hyx with hlt' | ⟨heq', -⟩
        · exact absurd hlt' hlt.le.not_gt
        · exact absurd heq' hlt.ne'
      · rcases hyx with hlt' | ⟨-, hle'⟩
        · exact absurd heq hlt'.ne'
        · exact Nat.le_antisymm hle hle'
    have hnodup : (A₀.map fun x ↦ (saved.presave.timer x).index).Nodup :=
      List.pairwise_map.mpr (hindex.imp fun hlt ↦ Nat.ne_of_lt hlt)
    exact inj_on_of_nodup_map hnodup hx₀ hy hindex_eq
  subst heq
  have hhistory : saved.presave.inserted = saved.inserted ∧
      saved.presave.insertions = saved.insertions := by
    rw [hstate]
    exact ⟨rfl, rfl⟩
  have hinserted : s₁.postload.inserted = saved.inserted := hpreserved.inserted.trans hhistory.1
  have hinsertions : s₁.postload.insertions = saved.insertions :=
    hpreserved.insertions.trans hhistory.2
  have hexpire : ∀ x ∈ A', (s₁.postload.timer x).expire = (saved.timer x).expire := fun x hx ↦
    (hpreserved.schedule x).expire.trans (hsaved x (hperm₀ x hx)).1
  have hdummy' := hpreserved.schedule 0
  rw [hdummy] at hdummy'
  refine ⟨I', ⟨⟨hlists, hdummy'.expire.trans h.dummy_expire, hdummy'.enabled.trans h.dummy_enabled,
    hdummy'.temporary.trans h.dummy_temporary, ?_, ?_, ?_, ?_, ?_, fun x hx ↦ by simp at hx⟩, ?_,
    fun x hx ↦ by simp at hx⟩, hpreserved⟩
  · refine h₀.sorted.imp_of_mem ?_
    intro x y hx hy hxy
    rw [Before, hexpire x hx, hexpire y hy, hinserted]
    exact hxy
  · intro x hx
    rw [hinserted, hinsertions]
    exact h₀.inserted_lt x hx
  · intro x hx
    rw [hexpire x hx]
    exact h₀.expires x hx
  · intro x hx
    rw [(hpreserved.schedule x).enabled, (hsaved x (hperm₀ x hx)).2.1]
    exact Or.inl (Arranged.isActive_iff.mp (hactive₀ x hx)).2
  · intro x hx
    rw [(hpreserved.schedule x).isActive]
    exact ((hI' x).mp hx).2
  · intro x hx
    have hx' : s.isPermanent x = true := by
      rw [hpreserved.isPermanent] at hx
      rw [← hx, Scheduler.isPermanent, Scheduler.isPermanent, htemporary]
      rfl
    have htemp : (s₁.timer x).temporary = false := (htemporary x).trans (isPermanent_iff.mp hx').2
    rw [mem_append, hA', hI']
    rcases List.mem_append.mp (h.permanent x hx') with hmem | hmem
    · rcases (s₁.timer x).isActive with _ | _ <;> simp [hmem, htemp]
    · rcases (s₁.timer x).isActive with _ | _ <;> simp [hmem]

end WellFormed

end RoscoEmulator.Schedule
