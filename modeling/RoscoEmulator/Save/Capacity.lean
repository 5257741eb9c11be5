import RoscoEmulator.Save.Rewinder

/-!
# The memory of a rewinder

The states of a rewinder are to fit into its capacity. A capture behind the last state is checked
with the state already appended and the index not yet advanced, so that the index is never the last
one then: the first state is given up only after the list has outgrown the capacity, by a branch
that rounds down. -/

namespace RoscoEmulator.Save

open List

namespace Rewinder

variable (r : Rewinder)

/-- The states fit into the capacity. -/
def WithinCapacity : Prop := r.stateList.length * r.singlesize ≤ r.capsize

instance : Decidable r.WithinCapacity := inferInstanceAs (Decidable (_ ≤ _))

/-- A capture comes to the branch of `check_size` that is not to be entered. -/
def Trims (now : Attotime) : Prop :=
  r.enabled = true ∧ ∃ r' ∈ r.record now, r'.capsize < r'.stateList.length * r'.singlesize

/-- There is room for the state that a capture appends. -/
def HasRoom : Prop :=
  r.currentIndexIsLast = true → (r.stateList.length + 1) * r.singlesize ≤ r.capsize

variable {r} {now : Attotime} {r' : Rewinder}

theorem invalidate_eq_some (h : r.invalidate = some r') :
    ∃ first states, states.length = r.stateList.length ∧
      r' = { r with firstInvalidIndex := first, stateList := states } := by
  rw [invalidate] at h
  split_ifs at h
  · exact ⟨_, _, rfl, (Option.some.inj h).symm⟩
  · refine ⟨_, _, ?_, (Option.some.inj h).symm⟩
    rw [length_append, length_map, ← length_append, take_append_drop]
  · exact ⟨_, _, rfl, (Option.some.inj h).symm⟩

/-- Behind the last state one is appended. Any other is overwritten. -/
theorem record_eq_some (h : r.record now = some r') :
    ∃ first states, r' = { r with firstInvalidIndex := first, stateList := states } ∧
      states.length =
      if r.currentIndexIsLast then r.stateList.length + 1 else r.stateList.length := by
  rw [record] at h
  split_ifs at h with hlast
  · exact ⟨_, _, (Option.some.inj h).symm, by rw [if_pos hlast, length_append, length_singleton]⟩
  · obtain ⟨r₁, hinvalidate, hmap⟩ := Option.bind_eq_some_iff.mp h
    obtain ⟨_, -, rfl⟩ := Option.map_eq_some_iff.mp hmap
    obtain ⟨first, states, hlength, rfl⟩ := invalidate_eq_some hinvalidate
    exact ⟨_, _, rfl, by rw [if_neg hlast, length_set, hlength]⟩

theorem step_eq_some {state : Option RamState} (h : r.step = some (state, r')) :
    ∃ index, r' = { r with currentIndex := index } := by
  rw [step] at h
  by_cases hnone : ¬ r.enabled ∨ r.currentIndex ≤ rewindIndexFirst ∨
    r.firstInvalidIndex = rewindIndexFirst
  · have hsame : some (none, r) = some (state, r') := by
      rw [← h]
      rcases hnone with hoff | hnone
      · rw [if_pos hoff]
      · rw [if_pos hnone, ite_self]
    exact ⟨_, (congrArg Prod.snd (Option.some.inj hsame)).symm⟩
  · obtain ⟨hon, hsome⟩ := not_or.mp hnone
    rw [if_neg hon, if_neg hsome] at h
    obtain ⟨_, -, heq⟩ := Option.map_eq_some_iff.mp h
    exact ⟨_, (congrArg Prod.snd heq).symm⟩

theorem length_rotate (states : List RamState) : (rotate states).length = states.length := by
  cases states with
  | nil => rfl
  | cons state states => rw [rotate, length_append, length_singleton, length_cons]

/-- After the capture the states are those that the check has left. -/
theorem advance_eq (r : Rewinder) : ∃ index first states,
    r.advance = { r with currentIndex := index, firstInvalidIndex := first, stateList := states } ∧
      states.length = r.stateList.length - r.surplus := by
  rw [advance, checkSize]
  split_ifs
  · exact ⟨_, _, _, rfl, (length_rotate _).trans length_drop⟩
  · exact ⟨_, _, _, rfl, length_drop⟩

/-- The states beyond the capacity, of which there is one at most, are dropped where the capacity is
that of whole states. -/
theorem withinCapacity_advance_iff
    (h : r.stateList.length * r.singlesize ≤ r.capsize + r.singlesize) :
    r.advance.WithinCapacity ↔ r.WithinCapacity ∨ r.singlesize ∣ r.capsize := by
  obtain ⟨_, _, states, heq, hlength⟩ := r.advance_eq
  have hadvance : r.advance.WithinCapacity ↔
      (r.stateList.length - r.surplus) * r.singlesize ≤ r.capsize := by
    rw [heq, WithinCapacity, ← hlength]
    rfl
  rw [hadvance]
  by_cases hwithin : r.stateList.length * r.singlesize ≤ r.capsize
  · exact iff_of_true (Nat.le_trans (Nat.mul_le_mul_right _ (Nat.sub_le _ _)) hwithin)
      (Or.inl hwithin)
  · have hlt := Nat.lt_of_not_le hwithin
    have hpos : 0 < r.singlesize := by
      by_contra hzero
      rw [Nat.eq_zero_of_not_pos hzero, Nat.mul_zero] at hlt
      exact Nat.not_lt_zero _ hlt
    rw [surplus, if_pos hlt]
    refine Iff.trans ?_ (or_iff_right (show ¬ r.WithinCapacity from hwithin)).symm
    constructor
    · intro hle
      by_contra hdvd
      -- short of a whole state nothing is dropped
      have hne : r.stateList.length * r.singlesize ≠ r.capsize + r.singlesize := fun heq ↦
        hdvd ((Nat.dvd_add_iff_left (Nat.dvd_refl _)).mpr (heq ▸ Nat.dvd_mul_left _ _))
      rw [Nat.div_eq_of_lt (by omega), Nat.zero_mod, Nat.sub_zero] at hle
      exact hwithin hle
    · rintro ⟨k, hk⟩
      rw [Nat.mul_comm] at hk
      have hlength : r.stateList.length = k + 1 := by
        rw [hk] at hlt h
        rw [← Nat.succ_mul] at h
        exact Nat.le_antisymm (Nat.le_of_mul_le_mul_right h hpos) (Nat.lt_of_mul_lt_mul_right hlt)
      rw [hk, hlength, Nat.succ_mul, Nat.add_sub_cancel_left, Nat.div_self hpos]
      exact Nat.le_refl _

end Rewinder

namespace Session

open Rewinder

variable (s : Session)

/-- The call is not a capture that comes to the branch of `check_size`. -/
def LeavesUntrimmed (s : Session) : Call → Prop
  | .capture => ¬ s.rewinder.Trims s.now
  | _ => True

/-- A capture has room for the state that it appends. -/
def HasRoom (s : Session) : Call → Prop
  | .capture => s.rewinder.HasRoom
  | _ => True

/-- Or else the capacity is that of whole states. -/
def Replaces (s : Session) (call : Call) : Prop :=
  s.HasRoom call ∨ s.rewinder.singlesize ∣ s.rewinder.capsize

variable {s}

theorem rewinder_step_of_ne (call : Call) (h : call ≠ .capture) : ∃ index first states,
    (s.step call).rewinder =
      { s.rewinder with currentIndex := index, firstInvalidIndex := first, stateList := states } ∧
      states.length = s.rewinder.stateList.length := by
  cases call with
  | run time => exact ⟨_, _, _, rfl, rfl⟩
  | capture => exact absurd rfl h
  | invalidate =>
    rw [Session.step]
    rcases hinvalidate : s.rewinder.invalidate with _ | r
    · exact ⟨_, _, _, rfl, rfl⟩
    · obtain ⟨first, states, hlength, rfl⟩ := invalidate_eq_some hinvalidate
      exact ⟨_, _, _, rfl, hlength⟩
  | step =>
    rw [Session.step]
    rcases hstep : s.rewinder.step with _ | ⟨_ | state, r⟩
    · exact ⟨_, _, _, rfl, rfl⟩
    all_goals
      obtain ⟨index, rfl⟩ := step_eq_some hstep
      exact ⟨_, _, _, rfl, rfl⟩

/-- No call changes the capacity, or the size of a state. -/
theorem configuration_step (s : Session) (call : Call) :
    (s.step call).rewinder.enabled = s.rewinder.enabled ∧
      (s.step call).rewinder.singlesize = s.rewinder.singlesize ∧
      (s.step call).rewinder.capacity = s.rewinder.capacity := by
  by_cases hcall : call = .capture
  · subst hcall
    rw [Session.step]
    rcases hcapture : s.rewinder.capture s.now with _ | r
    · exact ⟨rfl, rfl, rfl⟩
    · rw [capture] at hcapture
      split_ifs at hcapture
      · obtain ⟨r₁, hrecord, rfl⟩ := Option.map_eq_some_iff.mp hcapture
        obtain ⟨_, _, rfl, -⟩ := record_eq_some hrecord
        obtain ⟨_, _, _, heq, -⟩ :=
          advance_eq { s.rewinder with firstInvalidIndex := _, stateList := _ }
        rw [heq]
        exact ⟨rfl, rfl, rfl⟩
      · rw [← Option.some.inj hcapture]
        exact ⟨rfl, rfl, rfl⟩
  · obtain ⟨_, _, _, heq, -⟩ := rewinder_step_of_ne (s := s) call hcall
    rw [heq]
    exact ⟨rfl, rfl, rfl⟩

theorem rewinder_step_capture (henabled : s.rewinder.enabled = true) :
    (s.rewinder.record s.now = none ∧ (s.step .capture).rewinder = s.rewinder) ∨
      ∃ r, s.rewinder.record s.now = some r ∧ (s.step .capture).rewinder = r.advance := by
  rw [Session.step, capture, if_neg (not_not.mpr henabled)]
  rcases hrecord : s.rewinder.record s.now with _ | r
  · exact Or.inl ⟨rfl, rfl⟩
  · exact Or.inr ⟨r, rfl, rfl⟩

theorem withinCapacity_step_iff (henabled : s.rewinder.enabled = true)
    (h : s.rewinder.WithinCapacity)
    (call : Call) : (s.step call).rewinder.WithinCapacity ↔ s.Replaces call := by
  by_cases hcall : call = .capture
  · subst hcall
    rcases rewinder_step_capture henabled with ⟨hrecord, heq⟩ | ⟨r, hrecord, heq⟩
    · -- nothing is recorded only where a state is to be overwritten
      rw [heq]
      refine iff_of_true h (Or.inl fun hlast ↦ ?_)
      rw [record, if_pos hlast] at hrecord
      cases hrecord
    · obtain ⟨first, states, rfl, hlength⟩ := record_eq_some hrecord
      rw [heq]
      by_cases hlast : s.rewinder.currentIndexIsLast = true
      · rw [if_pos hlast] at hlength
        refine (withinCapacity_advance_iff ?_).trans (or_congr ?_ Iff.rfl)
        · rw [hlength, Nat.succ_mul]
          exact Nat.add_le_add_right h _
        · show states.length * s.rewinder.singlesize ≤ s.rewinder.capsize ↔ _
          rw [hlength]
          exact ⟨fun hle _ ↦ hle, fun hroom ↦ hroom hlast⟩
      · rw [if_neg hlast] at hlength
        have hwithin : states.length * s.rewinder.singlesize ≤ s.rewinder.capsize := hlength ▸ h
        refine iff_of_true ?_ (Or.inl fun hlast' ↦ absurd hlast' hlast)
        exact (withinCapacity_advance_iff (Nat.le_add_right_of_le hwithin)).mpr (Or.inl hwithin)
  · obtain ⟨_, _, states, heq, hlength⟩ := rewinder_step_of_ne (s := s) call hcall
    rw [heq]
    refine iff_of_true ?_ (Or.inl (by cases call <;> trivial))
    show states.length * s.rewinder.singlesize ≤ s.rewinder.capsize
    rw [hlength]
    exact h

theorem leavesUntrimmed_iff_hasRoom (henabled : s.rewinder.enabled = true)
    (h : s.rewinder.WithinCapacity) (call : Call) : s.LeavesUntrimmed call ↔ s.HasRoom call := by
  cases call with
  | capture =>
    constructor
    · intro huntrimmed hlast
      by_contra hroom
      have hlength : (s.rewinder.stateList ++ [(⟨true, s.now⟩ : RamState)]).length =
          s.rewinder.stateList.length + 1 := length_append
      refine huntrimmed ⟨henabled,
        { s.rewinder with stateList := s.rewinder.stateList ++ [⟨true, s.now⟩] }, if_pos hlast, ?_⟩
      rw [hlength]
      exact Nat.lt_of_not_le hroom
    · rintro hroom ⟨-, r, hrecord, hlt⟩
      obtain ⟨first, states, rfl, hlength⟩ := record_eq_some hrecord
      refine absurd (show s.rewinder.capsize < states.length * s.rewinder.singlesize from hlt)
        (Nat.not_lt.mpr ?_)
      rw [hlength]
      split_ifs with hlast
      · exact hroom hlast
      · exact h
  | run _ | invalidate | step => exact Iff.rfl

/-- The memory of a rewinder keeps within the capacity just as long as captures behind the last
state have room for another, or else a whole number of states fills the capacity. The branch of
`check_size` is not entered just as long as they have room. -/
theorem always_withinCapacity_iff (capacity singlesize : ℕ) (calls : List Call) :
    (Run.Always step (fun s ↦ s.rewinder.WithinCapacity) (start capacity singlesize) calls ↔
      Run.Meets step Replaces (start capacity singlesize) calls) ∧
    (Run.Meets step LeavesUntrimmed (start capacity singlesize) calls ↔
      Run.Meets step HasRoom (start capacity singlesize) calls) := by
  have hstart : (start capacity singlesize).rewinder.WithinCapacity := by
    show 0 * singlesize ≤ _
    rw [Nat.zero_mul]
    exact Nat.zero_le _
  constructor
  · exact Run.always_iff_meets (J := fun s ↦ s.rewinder.enabled = true)
      (P := fun s ↦ s.rewinder.WithinCapacity) (fun s call h ↦ (configuration_step s call).1.trans
      h) (fun s call henabled h ↦ withinCapacity_step_iff henabled h call) rfl hstart calls
  · refine Run.meets_congr_of_inv (s := start capacity singlesize)
      (J := fun s ↦ s.rewinder.enabled = true ∧ s.rewinder.WithinCapacity)
      (fun s call h huntrimmed ↦ ⟨(configuration_step s call).1.trans h.1, ?_⟩)
      (fun s call h ↦ leavesUntrimmed_iff_hasRoom h.1 h.2 call) ⟨rfl, hstart⟩ calls
    exact (withinCapacity_step_iff h.1 h.2 call).mpr
      (Or.inl ((leavesUntrimmed_iff_hasRoom h.1 h.2 call).mp huntrimmed))

/-- Three states of 400000 bytes are kept in one megabyte. -/
theorem not_withinCapacity_captures :
    ¬ ∀ (capacity singlesize : ℕ) (calls : List Call), singlesize ≤ capacity * 1024 * 1024 →
      Run.Always step (fun s ↦ s.rewinder.WithinCapacity) (start capacity singlesize) calls ∧
        Run.Meets step LeavesUntrimmed (start capacity singlesize) calls :=
  fun h ↦ absurd (h 1 400000 [.capture, .capture, .capture] (by decide)).1.last (by decide)

end Session

end RoscoEmulator.Save
