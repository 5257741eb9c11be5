import RoscoEmulator.Lib.GuardedRun
import RoscoEmulator.Emu.Attotime

/-!
# Rewinding

`rewinder`: a list of states in memory and the index of the current one. A capture behind the last
state appends a state, any other overwrites the one at the index and makes those behind it invalid.
A step loads the state in front of the index.

The index is that of the state that was captured last, or loaded last, or else of the one to be
written next. When the last state of the list is the one to be written next, the next capture takes
it for one that has been captured, and appends. -/

namespace RoscoEmulator.Save

open Option List

/-- `ram_state`, without its data. -/
structure RamState where
  valid : Bool
  time : Attotime
  deriving DecidableEq

/-- `rewinder`, with the size of a state. -/
structure Rewinder where
  singlesize : ℕ
  enabled : Bool
  capacity : ℕ
  currentIndex : ℤ
  firstInvalidIndex : ℤ
  stateList : List RamState

/-- `REWIND_INDEX_NONE`. -/
def rewindIndexNone : ℤ := -1

/-- `REWIND_INDEX_FIRST`. -/
def rewindIndexFirst : ℤ := 0

/-- An index is of 32 bits. -/
def wrap (i : ℤ) : ℤ := i.bmod (2 ^ 32)

namespace Rewinder

variable (r : Rewinder)

/-- `current_index_is_last`. -/
def currentIndexIsLast : Bool := r.currentIndex = r.stateList.length - 1

/-- `m_state_list.at`. -/
def atIndex (i : ℤ) : Option RamState := if 0 ≤ i then r.stateList[i.toNat]? else none

def capsize : ℕ := r.capacity * 1024 * 1024

/-- `invalidate`. Nothing comes back if the index is outside of the list. -/
def invalidate : Option Rewinder :=
  if ¬ r.enabled then some r
  else if r.currentIndexIsLast then some r
  else if 0 ≤ r.currentIndex ∧ r.currentIndex ≤ r.stateList.length then
    some { r with
      firstInvalidIndex := r.currentIndex
      stateList := r.stateList.take r.currentIndex.toNat ++
        (r.stateList.drop r.currentIndex.toNat).map fun state ↦ { state with valid := false } }
  else none

/-- The states that `check_size` drops. -/
def surplus : ℕ :=
  if r.capsize < r.stateList.length * r.singlesize then
    (r.stateList.length * r.singlesize - r.capsize) / r.singlesize % 2 ^ 32
  else 0

/-- The first state goes to the end, as an invalid one. -/
def rotate : List RamState → List RamState
  | [] => []
  | state :: states => states ++ [{ state with valid := false }]

/-- `check_size`. -/
def checkSize : Bool × Rewinder :=
  let r := { r with stateList := r.stateList.drop r.surplus }
  if r.capsize ≤ r.stateList.length * r.singlesize + r.singlesize ∧ r.currentIndexIsLast then
    (true, { r with stateList := rotate r.stateList })
  else (false, r)

/-- The state that `capture` writes. -/
def record (now : Attotime) : Option Rewinder :=
  if r.currentIndexIsLast then some { r with stateList := r.stateList ++ [⟨true, now⟩] }
  else
    r.invalidate.bind fun r ↦ (r.atIndex r.currentIndex).map fun _ ↦
      { r with stateList := r.stateList.set r.currentIndex.toNat ⟨true, now⟩ }

/-- What `capture` does with the indices. -/
def advance : Rewinder :=
  let (shrunk, r) := r.checkSize
  let r := if shrunk then r else { r with currentIndex := wrap (r.currentIndex + 1) }
  { r with
    firstInvalidIndex :=
      if r.currentIndexIsLast then rewindIndexNone else wrap (r.currentIndex + 1) }

/-- `capture`. -/
def capture (now : Attotime) : Option Rewinder :=
  if ¬ r.enabled then some r else (r.record now).map advance

/-- `step`, with the state that it has loaded. -/
def step : Option (Option RamState × Rewinder) :=
  if ¬ r.enabled then some (none, r)
  else if r.currentIndex ≤ rewindIndexFirst ∨ r.firstInvalidIndex = rewindIndexFirst
    then some (none, r)
  else
    let index :=
      (if rewindIndexNone < r.firstInvalidIndex ∧
        r.firstInvalidIndex < r.currentIndex then r.firstInvalidIndex
        else r.currentIndex) - 1
    (r.atIndex index).map fun state ↦ (some state, { r with currentIndex := index })

end Rewinder

/-! ## Runs -/

/-- The calls of a rewinder. The machine runs between them. -/
inductive Call where
  | run (time : Attotime)
  | invalidate
  | capture
  | step
  deriving DecidableEq

/-- A rewinder and its machine: the time, what the last call has loaded, the time of the state that
was loaded before with no capture since, and whether a call has left the list. -/
structure Session where
  rewinder : Rewinder
  now : Attotime
  loaded : Option RamState
  previous : Option Attotime
  outOfRange : Bool

namespace Session

def start (capacity singlesize : ℕ) : Session :=
  ⟨⟨singlesize, true, capacity, rewindIndexNone, rewindIndexNone, []⟩, Attotime.zero,
    none, none, false⟩

variable (s : Session)

/-- The time of the state that was loaded last, with no capture since. -/
def lastTime : Option Attotime := (s.loaded.map RamState.time).or s.previous

/-- A call. A load takes the machine back to the time of the state. -/
def step : Call → Session
  | .run time => { s with now := max s.now time, loaded := none, previous := s.lastTime }
  | .invalidate =>
      match s.rewinder.invalidate with
      | none => { s with outOfRange := true }
      | some r => { s with rewinder := r, loaded := none, previous := s.lastTime }
  | .capture =>
      match s.rewinder.capture s.now with
      | none => { s with outOfRange := true }
      | some r => { s with rewinder := r, loaded := none, previous := none }
  | .step =>
      match s.rewinder.step with
      | none => { s with outOfRange := true }
      | some (none, r) => { s with rewinder := r, loaded := none, previous := s.lastTime }
      | some (some state, r) =>
          { s with rewinder := r, now := state.time, loaded := some state, previous := s.lastTime }

/-- No call has left the list, and what has been loaded is a valid state that is not behind the one
before. -/
structure History : Prop where
  inRange : s.outOfRange = false
  valid : ∀ state ∈ s.loaded, state.valid = true
  descending : ∀ state ∈ s.loaded, ∀ time ∈ s.previous, state.time ≤ time

instance : Decidable s.History :=
  decidable_of_iff (s.outOfRange = false ∧ (∀ state ∈ s.loaded, state.valid = true) ∧
    ∀ state ∈ s.loaded, ∀ time ∈ s.previous, state.time ≤ time)
    ⟨fun h ↦ ⟨h.1, h.2.1, h.2.2⟩, fun h ↦ ⟨h.1, h.2, h.3⟩⟩

/-- A capture does not append behind an invalid state, and the next index is one of 32 bits. -/
def Careful (s : Session) : Call → Prop
  | .capture => s.rewinder.stateList.length < 2 ^ 31 - 1 ∧
      (s.rewinder.currentIndexIsLast = true →
      ∀ state ∈ s.rewinder.stateList.getLast?, state.valid = true)
  | _ => True

instance (s : Session) : DecidablePred s.Careful
  | .capture => inferInstanceAs (Decidable (s.rewinder.stateList.length < 2 ^ 31 - 1 ∧
      (s.rewinder.currentIndexIsLast = true →
      ∀ state ∈ s.rewinder.stateList.getLast?, state.valid = true)))
  | .run _ | .invalidate | .step => isTrue trivial

end Session

/-! ## The order of the states -/

namespace Rewinder

/-- The states in front of the current one are valid, and in the order of their times. So is the
current one, if it is valid. -/
structure Arranged (r : Rewinder) (now : Attotime) (past : List RamState) (state : RamState)
    (future : List RamState) : Prop where
  states : r.stateList = past ++ state :: future
  index : r.currentIndex = past.length
  valid : ∀ p ∈ past, p.valid = true ∧ p.time ≤ now
  sorted : past.Pairwise fun p q ↦ p.time ≤ q.time
  current : state.valid = true → state.time ≤ now ∧ ∀ p ∈ past, p.time ≤ state.time

/-- The list is not much larger than the capacity, which has room for a state. -/
structure Fits (r : Rewinder) : Prop where
  enabled : r.enabled = true
  singlesize_pos : 0 < r.singlesize
  singlesize_le : r.singlesize ≤ r.capsize
  length_le : r.stateList.length * r.singlesize < r.capsize + r.singlesize
  firstInvalidIndex_ge : -1 ≤ r.firstInvalidIndex

variable {r : Rewinder} {now : Attotime} {past future : List RamState} {state : RamState}

namespace Arranged

section

variable (h : r.Arranged now past state future)
include h

theorem length_eq : r.stateList.length = past.length + future.length + 1 := by
  rw [h.states, length_append, length_cons]
  omega

theorem currentIndexIsLast_iff : r.currentIndexIsLast = true ↔ future = [] := by
  have hlength := h.length_eq
  have hindex := h.index
  rw [currentIndexIsLast, decide_eq_true_eq, ← length_eq_zero_iff]
  omega

theorem mono {later : Attotime} (hle : now ≤ later) :
    r.Arranged later past state future where
  states := h.states
  index := h.index
  valid p hp := ⟨(h.valid p hp).1, le_trans (h.valid p hp).2 hle⟩
  sorted := h.sorted
  current hvalid := ⟨le_trans (h.current hvalid).1 hle, (h.current hvalid).2⟩

theorem toNat_index : r.currentIndex.toNat = past.length := by
  rw [h.index, Int.toNat_natCast]

/-- The current state and those behind it become invalid. -/
theorem invalidate_eq (hfits : r.Fits) (hne : future ≠ []) :
    r.invalidate = some { r with
      firstInvalidIndex := r.currentIndex
      stateList := past ++ { state with valid := false } :: future.map fun p ↦
        { p with valid := false } } := by
  have hindex := h.index
  have hlength := h.length_eq
  rw [Rewinder.invalidate, if_neg (not_not.mpr hfits.enabled),
    if_neg (mt h.currentIndexIsLast_iff.mp hne),
    if_pos (by omega), h.toNat_index, h.states, take_left, drop_left, map_cons]

theorem invalidate (hfits : r.Fits) : ∃ r' state' future', r.invalidate = some r' ∧
    r'.Arranged now past state' future' ∧ r'.Fits := by
  by_cases hlast : future = []
  · refine ⟨r, state, future, ?_, h, hfits⟩
    rw [Rewinder.invalidate, if_neg (not_not.mpr hfits.enabled),
      if_pos (h.currentIndexIsLast_iff.mpr hlast)]
  · refine ⟨_, _, _, h.invalidate_eq hfits hlast,
      ⟨rfl, h.index, h.valid, h.sorted, fun hvalid ↦ Bool.noConfusion hvalid⟩,
      ⟨hfits.enabled, hfits.singlesize_pos, hfits.singlesize_le, ?_, ?_⟩⟩
    · have hle := hfits.length_le
      rw [h.length_eq] at hle
      rw [length_append, length_cons, length_map, ← Nat.add_assoc]
      exact hle
    · have hindex := h.index
      show -1 ≤ r.currentIndex
      omega

end

/-- A step goes to one of the states in front. -/
theorem step (h : r.Arranged now past state future) (hfits : r.Fits) :
    r.step = some (none, r) ∨ ∃ before p after, past = before ++ p :: after ∧
      ∃ r', r.step = some (some p, r') ∧
      r'.Arranged p.time before p (after ++ state :: future) ∧ r'.Fits := by
  have hindex := h.index
  rw [Rewinder.step, if_neg (not_not.mpr hfits.enabled)]
  by_cases hnone : r.currentIndex ≤ rewindIndexFirst ∨ r.firstInvalidIndex = rewindIndexFirst
  · exact Or.inl (if_pos hnone)
  · right
    rw [if_neg hnone]
    obtain ⟨hcurrent, hinvalid⟩ := not_or.mp hnone
    rw [rewindIndexFirst] at hcurrent hinvalid
    obtain ⟨i, hi⟩ : ∃ i : ℕ,
        (if rewindIndexNone < r.firstInvalidIndex ∧ r.firstInvalidIndex < r.currentIndex then
        r.firstInvalidIndex else r.currentIndex) - 1 = i ∧ i < past.length := by
      rw [rewindIndexNone]
      split
      · exact ⟨(r.firstInvalidIndex - 1).toNat, by omega, by omega⟩
      · exact ⟨(r.currentIndex - 1).toNat, by omega, by omega⟩
    obtain ⟨hi, hlt⟩ := hi
    obtain ⟨before, p, after, rfl, hbefore⟩ : ∃ before p after, past = before ++ p :: after ∧
        before.length = i :=
      ⟨past.take i, past[i], past.drop (i + 1), by
        rw [← drop_eq_getElem_cons hlt, take_append_drop], by rw [length_take]; omega⟩
    have hstates : r.stateList = before ++ p :: (after ++ state :: future) := by
      rw [h.states, append_assoc, cons_append]
    have hget : r.atIndex i = some p := by
      rw [atIndex, if_pos (by omega), Int.toNat_natCast, hstates,
        List.getElem?_append_right (by omega), hbefore, Nat.sub_self, List.getElem?_cons_zero]
    have hsorted := List.pairwise_append.mp h.sorted
    refine ⟨before, p, after, rfl, { r with currentIndex := i }, ?_,
      ⟨hstates, by rw [hbefore], fun q hq ↦ ?_, hsorted.1,
        fun _ ↦ ⟨le_refl _, fun q hq ↦ hsorted.2.2 q hq p mem_cons_self⟩⟩,
      ⟨hfits.enabled, hfits.singlesize_pos, hfits.singlesize_le, hfits.length_le,
        hfits.firstInvalidIndex_ge⟩⟩
    · dsimp only
      rw [hi, hget, map_some]
    · exact ⟨(h.valid q (mem_append_left _ hq)).1, hsorted.2.2 q hq p mem_cons_self⟩

/-- All states up to a valid current one, and one that is captured now, are in order. -/
theorem append_now (h : r.Arranged now past state future) (hvalid : state.valid = true) :
    (∀ p ∈ past ++ [state, ⟨true, now⟩], p.valid = true ∧ p.time ≤ now) ∧
      (past ++ [state, ⟨true, now⟩]).Pairwise fun p q ↦ p.time ≤ q.time := by
  obtain ⟨hnow, hpast⟩ := h.current hvalid
  constructor
  · intro p hp
    rcases List.mem_append.mp hp with hp | hp
    · exact h.valid p hp
    · rcases List.mem_pair.mp hp with rfl | rfl
      · exact ⟨hvalid, hnow⟩
      · exact ⟨rfl, le_refl now⟩
  · refine List.pairwise_append.mpr ⟨h.sorted, List.pairwise_pair.mpr hnow, fun p hp q hq ↦ ?_⟩
    rcases List.mem_pair.mp hq with rfl | rfl
    · exact hpast p hp
    · exact (h.valid p hp).2

end Arranged

theorem wrap_eq {i : ℤ} (hle : -1 ≤ i) (hlt : i < 2 ^ 31) : wrap i = i :=
  Int.bmod_eq_of_le_mul_two (by omega) (by omega)

theorem advance_of_room (hle : r.stateList.length * r.singlesize < r.capsize + r.singlesize)
    (hlast : r.currentIndexIsLast = false) (hindex : -1 ≤ r.currentIndex)
    (hlt : r.currentIndex + 2 < 2 ^ 31) : ∃ first, -1 ≤ first ∧
      r.advance = { r with currentIndex := r.currentIndex + 1, firstInvalidIndex := first } := by
  have hsurplus : r.surplus = 0 := by
    rw [surplus]
    split
    · rw [Nat.div_eq_of_lt (by omega), Nat.zero_mod]
    · rfl
  have hcheck : r.checkSize = (false, r) := by
    rw [checkSize, hsurplus, drop_zero]
    exact if_neg fun h ↦ Bool.noConfusion (hlast.symm.trans h.2)
  refine ⟨r.advance.firstInvalidIndex, ?_, ?_⟩
  · rw [advance, hcheck]
    dsimp only
    rw [if_neg Bool.false_ne_true, wrap_eq (by omega) (by omega)]
    split
    · exact Int.le_refl (-1)
    · show -1 ≤ wrap (r.currentIndex + 1 + 1)
      rw [wrap_eq (by omega) (by omega)]
      omega
  · rw [advance, hcheck]
    dsimp only
    rw [if_neg Bool.false_ne_true, wrap_eq (by omega) (by omega)]

/-- Where the list has no room for the state that has been appended, the first is dropped, and the
next goes to the end. -/
theorem advance_of_full {k : ℕ} (hindex : r.currentIndex = k) (hlength : r.stateList.length = k + 2)
    (hpos : 0 < r.singlesize) (hfull : r.capsize + r.singlesize ≤ (k + 2) * r.singlesize)
    (hle : (k + 1) * r.singlesize < r.capsize + r.singlesize) :
    r.advance = { r with
      firstInvalidIndex := rewindIndexNone
      stateList := rotate (r.stateList.drop 1) } := by
  have hlarge : (k + 2) * r.singlesize = (k + 1) * r.singlesize + r.singlesize := Nat.succ_mul _ _
  have hone : ((k + 2) * r.singlesize - r.capsize) / r.singlesize = 1 :=
    Nat.div_eq_of_lt_le (by rw [Nat.one_mul]; omega) (by show _ < 2 * _; omega)
  have hsurplus : r.surplus = 1 := by
    rw [surplus, hlength, if_pos (by omega)]
    exact (congrArg (· % 2 ^ 32) hone).trans (Nat.mod_eq_of_lt (by decide))
  have hdrop : (r.stateList.drop 1).length = k + 1 := by
    rw [length_drop]
    omega
  have hrotate : (rotate (r.stateList.drop 1)).length = k + 1 := by
    rcases hstates : r.stateList.drop 1 with _ | ⟨state, states⟩
    · rw [hstates] at hdrop
      cases hdrop
    · rw [hstates] at hdrop
      rw [rotate, length_append]
      exact hdrop
  have hlast : ∀ states : List RamState, states.length = k + 1 →
      ({ r with stateList := states } : Rewinder).currentIndexIsLast = true := by
    intro states hstates
    rw [currentIndexIsLast, decide_eq_true_eq]
    dsimp only
    omega
  have hcheck : r.checkSize = (true, { r with stateList := rotate (r.stateList.drop 1) }) := by
    rw [checkSize, hsurplus]
    refine if_pos ⟨?_, hlast _ hdrop⟩
    show r.capsize ≤ (r.stateList.drop 1).length * r.singlesize + r.singlesize
    rw [hdrop]
    omega
  have hlast' := hlast _ hrotate
  rw [advance, hcheck]
  dsimp only
  rw [if_pos rfl, hlast', if_pos rfl]

/-- A capture keeps the order, unless it appends behind an invalid state. -/
theorem Arranged.capture (h : r.Arranged now past state future) (hfits : r.Fits)
    (hlt : r.stateList.length < 2 ^ 31 - 1) (hcareful : future = [] → state.valid = true) :
    ∃ r' past' state' future', r.capture now = some r' ∧
      r'.Arranged now past' state' future' ∧ r'.Fits := by
  have hindex := h.index
  have hlength := h.length_eq
  have hle := hfits.length_le
  rw [Rewinder.capture, if_neg (not_not.mpr hfits.enabled)]
  by_cases hlast : future = []
  · -- the new state is appended
    subst hlast
    obtain ⟨hvalid, hsorted⟩ := h.append_now (hcareful rfl)
    have hrecord : r.record now = some { r with stateList := past ++ [state, ⟨true, now⟩] } := by
      rw [record, if_pos (h.currentIndexIsLast_iff.mpr rfl), h.states, append_assoc]
      rfl
    have happended : (past ++ [state, ⟨true, now⟩]).length = past.length + 2 := length_append
    rw [length_nil, Nat.add_zero] at hlength
    rw [hlength] at hle
    rw [hrecord, map_some]
    by_cases hroom : (past.length + 2) * r.singlesize < r.capsize + r.singlesize
    · obtain ⟨first, hfirst, hadvance⟩ := advance_of_room
        (r := { r with stateList := past ++ [state, ⟨true, now⟩] })
        (by dsimp only; rw [happended]; exact hroom)
        (decide_eq_false (by dsimp only; rw [happended]; omega)) (by dsimp only; omega)
        (by dsimp only; omega)
      rw [hadvance]
      refine ⟨_, past ++ [state], ⟨true, now⟩, [], rfl, ⟨?_, ?_, fun p hp ↦ ?_, ?_, fun _ ↦ ?_⟩,
        ⟨hfits.enabled, hfits.singlesize_pos, hfits.singlesize_le, ?_, hfirst⟩⟩
      · rw [append_assoc]
        rfl
      · rw [length_append, length_singleton, hindex]
        rfl
      · exact hvalid p (by rw [append_cons]; exact mem_append_left _ hp)
      · rw [append_cons] at hsorted
        exact (List.pairwise_append.mp hsorted).1
      · exact ⟨le_refl now,
          fun p hp ↦ (hvalid p (by rw [append_cons]; exact mem_append_left _ hp)).2⟩
      · rw [happended]
        exact hroom
    · have hadvance := advance_of_full (r := { r with stateList := past ++ [state, ⟨true, now⟩] })
        hindex happended hfits.singlesize_pos (Nat.le_of_not_lt hroom) hle
      rw [hadvance]
      obtain ⟨first, rest, hdrop⟩ : ∃ first rest,
          (past ++ [state, ⟨true, now⟩]).drop 1 = first :: rest := by
        rcases hdrop : (past ++ [state, ⟨true, now⟩]).drop 1 with _ | ⟨first, rest⟩
        · have hzero := congrArg List.length hdrop
          rw [length_drop, happended] at hzero
          cases hzero
        · exact ⟨first, rest, rfl⟩
      have hsublist : rest.Sublist (past ++ [state, ⟨true, now⟩]) :=
        (sublist_cons_self first rest).trans (hdrop ▸ drop_sublist 1 _)
      have hrest : rest.length = past.length := by
        have hcount := congrArg List.length hdrop
        rw [length_drop, happended, length_cons] at hcount
        omega
      refine ⟨_, rest, { first with valid := false }, [], rfl, ⟨?_, ?_, fun p hp ↦ hvalid p
        (hsublist.subset hp), hsorted.sublist hsublist, fun hfalse ↦ Bool.noConfusion hfalse⟩,
        ⟨hfits.enabled, hfits.singlesize_pos, hfits.singlesize_le, ?_, Int.le_refl (-1)⟩⟩
      · dsimp only
        rw [hdrop, rotate]
      · rw [hrest, hindex]
      · rw [hdrop, rotate, length_append, hrest]
        exact hle
  · -- the current state is overwritten, and there is an invalid one behind it
    obtain ⟨next, rest, hnext⟩ := exists_cons_of_ne_nil hlast
    have hlast' := mt h.currentIndexIsLast_iff.mp hlast
    obtain ⟨rest', hrest⟩ : ∃ rest' : List RamState, rest' = rest.map fun p ↦
        { p with valid := false } := ⟨_, rfl⟩
    have hrecord : r.record now = some { r with
        firstInvalidIndex := r.currentIndex
        stateList := past ++ ⟨true, now⟩ :: { next with valid := false } :: rest' } := by
      rw [record, if_neg hlast', h.invalidate_eq hfits hlast, bind_some]
      dsimp only
      rw [atIndex, if_pos (by omega), h.toNat_index, List.getElem?_append_right (Nat.le_refl _),
        Nat.sub_self, List.getElem?_cons_zero, map_some, set_append_right _ _ (Nat.le_refl _),
        Nat.sub_self, set_cons_zero, hnext, map_cons, hrest]
    have hcount : (past ++ ⟨true, now⟩ :: { next with valid := false } :: rest').length =
        r.stateList.length := by
      rw [length_append, length_cons, length_cons, hrest, length_map, hlength, hnext,
        length_cons]
      omega
    rw [hrecord, map_some]
    obtain ⟨first, hfirst, hadvance⟩ := advance_of_room
      (r := { r with
        firstInvalidIndex := r.currentIndex
        stateList := past ++ ⟨true, now⟩ :: { next with valid := false } :: rest' })
      (by dsimp only; rw [hcount]; exact hle)
      (decide_eq_false (by dsimp only; rw [hcount]; exact fun heq ↦ hlast' (decide_eq_true heq)))
      (by dsimp only; omega) (by dsimp only; omega)
    rw [hadvance]
    refine ⟨_, past ++ [⟨true, now⟩], { next with valid := false }, rest', rfl,
      ⟨?_, ?_, fun p hp ↦ ?_, ?_,
      fun hfalse ↦ Bool.noConfusion hfalse⟩,
      ⟨hfits.enabled, hfits.singlesize_pos, hfits.singlesize_le, ?_, hfirst⟩⟩
    · rw [append_assoc]
      rfl
    · rw [length_append, length_singleton, hindex]
      rfl
    · rcases List.mem_append.mp hp with hp | hp
      · exact h.valid p hp
      · rw [List.mem_singleton.mp hp]
        exact ⟨rfl, le_refl now⟩
    · refine List.pairwise_append.mpr ⟨h.sorted, pairwise_singleton _ _, fun p hp q hq ↦ ?_⟩
      rw [List.mem_singleton.mp hq]
      exact (h.valid p hp).2
    · rw [hcount]
      exact hle

theorem capture_of_nil (now : Attotime) (hnil : r.stateList = []) (hindex : r.currentIndex = -1)
    (hfits : r.Fits) :
    ∃ r', r.capture now = some r' ∧ r'.Arranged now [] ⟨true, now⟩ [] ∧ r'.Fits := by
  have hlast : r.currentIndexIsLast = true := by
    rw [currentIndexIsLast, hnil, hindex]
    rfl
  have hpos := hfits.singlesize_pos
  have hle := hfits.singlesize_le
  obtain ⟨first, hfirst, hadvance⟩ := advance_of_room (r := { r with stateList := [⟨true, now⟩] })
    (by show 1 * r.singlesize < r.capsize + r.singlesize; omega)
    (decide_eq_false (by show ¬ r.currentIndex = 1 - 1; omega)) (by dsimp only; omega)
    (by dsimp only; omega)
  rw [capture, if_neg (not_not.mpr hfits.enabled), record, if_pos hlast, hnil, nil_append, map_some,
    hadvance]
  refine ⟨_, rfl,
    ⟨rfl, ?_, fun p hp ↦ absurd hp not_mem_nil, List.Pairwise.nil, fun _ ↦ ⟨le_refl now, fun p hp ↦
    absurd hp not_mem_nil⟩⟩, ⟨hfits.enabled, hpos, hle, ?_, hfirst⟩⟩
  · rw [hindex]
    rfl
  · show 1 * r.singlesize < r.capsize + r.singlesize
    omega

end Rewinder

/-! ## Runs of calls -/

namespace Session

/-- The history is as it should be, and the states in front of the current one are in order and not
behind what has been loaded. -/
structure Sound (s : Session) : Prop where
  history : s.History
  fits : s.rewinder.Fits
  arranged : (s.rewinder.stateList = [] ∧ s.rewinder.currentIndex = -1) ∨
    ∃ past state future, s.rewinder.Arranged s.now past state future ∧
      ∀ time ∈ s.lastTime, ∀ p ∈ past, p.time ≤ time

variable {s : Session}

/-- A call that loads nothing. -/
theorem Sound.of_none (h : s.Sound) {r : Rewinder} {now : Attotime} {previous : Option Attotime}
    (hfits : r.Fits) (harranged : (r.stateList = [] ∧ r.currentIndex = -1) ∨
      ∃ past state future, r.Arranged now past state future ∧
      ∀ time ∈ previous, ∀ p ∈ past, p.time ≤ time) :
    ({ s with rewinder := r, now, loaded := none, previous } : Session).Sound where
  history := ⟨h.history.inRange, fun _ hstate ↦ absurd hstate (not_mem_none _),
    fun _ hstate ↦ absurd hstate (not_mem_none _)⟩
  fits := hfits
  arranged := harranged

theorem Sound.step (h : s.Sound) (call : Call) (hcareful : s.Careful call) :
    (s.step call).Sound := by
  have hfits := h.fits
  cases call with
  | run time =>
    refine h.of_none hfits (h.arranged.imp_right ?_)
    rintro ⟨past, state, future, harranged, hbound⟩
    exact ⟨past, state, future, harranged.mono (le_max_left _ _), hbound⟩
  | invalidate =>
    rcases h.arranged with ⟨hnil, hindex⟩ | ⟨past, state, future, harranged, hbound⟩
    · have hlast : s.rewinder.currentIndexIsLast = true := by
        rw [Rewinder.currentIndexIsLast, hnil, hindex]
        rfl
      rw [Session.step, Rewinder.invalidate, if_neg (not_not.mpr hfits.enabled), if_pos hlast]
      exact h.of_none hfits (Or.inl ⟨hnil, hindex⟩)
    · obtain ⟨r, state', future', hinvalidate, harranged', hfits'⟩ := harranged.invalidate hfits
      rw [Session.step, hinvalidate]
      exact h.of_none hfits' (Or.inr ⟨past, state', future', harranged', hbound⟩)
  | capture =>
    rcases h.arranged with ⟨hnil, hindex⟩ | ⟨past, state, future, harranged, hbound⟩
    · obtain ⟨r, hcapture, harranged, hfits'⟩ := Rewinder.capture_of_nil s.now hnil hindex hfits
      rw [Session.step, hcapture]
      exact h.of_none hfits'
        (Or.inr ⟨_, _, _, harranged, fun _ htime ↦ absurd htime (not_mem_none _)⟩)
    · obtain ⟨hlt, hvalid⟩ := hcareful
      have hcareful' : future = [] → state.valid = true := by
        intro hnil
        refine hvalid (harranged.currentIndexIsLast_iff.mpr hnil) state ?_
        rw [harranged.states, hnil, List.getLast?_append_of_ne_nil _ (cons_ne_nil _ _)]
        rfl
      obtain ⟨r, past', state', future', hcapture, harranged', hfits'⟩ :=
        harranged.capture hfits hlt hcareful'
      rw [Session.step, hcapture]
      exact h.of_none hfits'
        (Or.inr ⟨past', state', future', harranged', fun _ htime ↦ absurd htime (not_mem_none _)⟩)
  | step =>
    rcases h.arranged with ⟨hnil, hindex⟩ | ⟨past, state, future, harranged, hbound⟩
    · have hnone : s.rewinder.step = some (none, s.rewinder) := by
        rw [Rewinder.step, if_neg (not_not.mpr hfits.enabled),
          if_pos (Or.inl (by rw [hindex]; decide))]
      rw [Session.step, hnone]
      exact h.of_none hfits (Or.inl ⟨hnil, hindex⟩)
    · rcases harranged.step hfits with hnone | ⟨before, p, after, rfl, r, hstep, harranged', hfits'⟩
      · rw [Session.step, hnone]
        exact h.of_none hfits (Or.inr ⟨past, state, future, harranged, hbound⟩)
      · have hmem : p ∈ before ++ p :: after := mem_append_right _ mem_cons_self
        have hvalid := (harranged.valid p hmem).1
        rw [Session.step, hstep]
        refine ⟨⟨h.history.inRange, ?_, ?_⟩, hfits', Or.inr ⟨before, p, _, harranged', ?_⟩⟩
        · rintro _ ⟨⟩
          exact hvalid
        · rintro _ ⟨⟩ time htime
          exact hbound time htime p hmem
        · rintro _ ⟨⟩ q hq
          exact (harranged'.current hvalid).2 q hq

theorem sound_start {capacity singlesize : ℕ} (hpos : 0 < singlesize)
    (hle : singlesize ≤ capacity * 1024 * 1024) :
    (start capacity singlesize).Sound where
  history := ⟨rfl, fun _ hstate ↦ absurd hstate (not_mem_none _),
    fun _ hstate ↦ absurd hstate (not_mem_none _)⟩
  fits := ⟨rfl, hpos, hle, by
    show 0 * singlesize < capacity * 1024 * 1024 + singlesize
    omega, Int.le_refl (-1)⟩
  arranged := Or.inl ⟨rfl, rfl⟩

/-- In a run whose captures never append behind an invalid state, all indices are inside of the
list, and the states that are loaded are valid and go back in time. -/
theorem always_history (capacity singlesize : ℕ) (hpos : 0 < singlesize)
    (hle : singlesize ≤ capacity * 1024 * 1024)
    (calls : List Call) (hcareful : Run.Meets step Careful (start capacity singlesize) calls) :
    Run.Always step History (start capacity singlesize) calls :=
  (Run.always_of_meets (fun _ call h hcareful ↦ h.step call hcareful)
    (sound_start hpos hle) hcareful).imp
    fun _ h ↦ h.history

theorem always_history_captures : Run.Always step History (start 1 1000)
    [.capture, .run ⟨1, 0⟩, .capture, .step, .invalidate, .capture, .step] := by
  refine always_history 1 1000 (by decide) (by decide) _ ?_
  decide

/-- Three captures, a step and two captures: the second of these appends behind a state that is no
longer valid, and that is what the next step loads. -/
theorem not_always_history_captures : ¬ Run.Always step History (start 1 1000)
    [.capture, .capture, .capture, .step, .capture, .capture, .step] :=
  fun h ↦ absurd h.last (by decide)

end Session

end RoscoEmulator.Save
