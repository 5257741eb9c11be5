import RoscoEmulator.Lib.Pieces

/-!
# Endless rows

What a store of bytes is for: an element at every position. A slice is what is read from it, and
`store` is what a write leaves; a slice reads what was stored in it last. A row that is cut into
pieces of one size is the window of its pieces. -/

namespace RoscoEmulator.Rows

open List Pieces

variable {α : Type*}

/-- The elements at `offset`. -/
def slice (row : ℕ → α) (offset count : ℕ) : List α := (range count).map fun i ↦ row (offset + i)

/-- A row with other elements at `offset`. -/
def store (row : ℕ → α) (offset : ℕ) (l : List α) : ℕ → α := fun i ↦
  if offset ≤ i ∧ i < offset + l.length then l.getD (i - offset) (row i) else row i

variable {row : ℕ → α} {offset count : ℕ} {l : List α}

@[simp] theorem length_slice : (slice row offset count).length = count := by
  rw [slice, length_map, length_range]

theorem slice_congr {row' : ℕ → α} (h : ∀ i, offset ≤ i → i < offset + count → row i = row' i) :
    slice row offset count = slice row' offset count :=
  map_congr_left fun i hi ↦ h _ (Nat.le_add_right _ _) (by
    have hlt := List.mem_range.mp hi
    omega)

theorem slice_eq_iff (hl : l.length = count) :
    slice row offset count = l ↔ ∀ i (hi : i < l.length), row (offset + i) = l[i] := by
  constructor
  · rintro rfl i hi
    simp only [slice, getElem_map, getElem_range]
  · intro h
    refine ext_getElem (by rw [length_slice, hl]) fun i hi hi' ↦ ?_
    simp only [slice, getElem_map, getElem_range, h i hi']

theorem store_of_mem {i : ℕ} (hi : offset ≤ i) (hi' : i - offset < l.length) :
    store row offset l i = l[i - offset] := by
  rw [store, if_pos (by omega), getD_eq_getElem]

theorem store_of_notMem {i : ℕ} (hi : ¬ (offset ≤ i ∧ i < offset + l.length)) :
    store row offset l i = row i := if_neg hi

@[simp] theorem store_nil : store row offset [] = row := by
  funext i
  refine store_of_notMem ?_
  rw [length_nil]
  omega

/-- A slice reads what was stored in it. -/
theorem slice_store_self : slice (store row offset l) offset l.length = l := by
  refine (slice_eq_iff rfl).mpr fun i hi ↦ ?_
  rw [store_of_mem (by omega) (by omega)]
  congr 1
  omega

/-- A slice apart from what was stored. -/
theorem slice_store_of_disjoint {other : ℕ}
    (h : other + count ≤ offset ∨ offset + l.length ≤ other) :
    slice (store row offset l) other count = slice row other count :=
  slice_congr fun i hi hi' ↦ store_of_notMem (by omega)

/-- What is stored in a slice is a part of it then. -/
theorem slice_store_of_within {pos : ℕ} (h : pos + l.length ≤ count) :
    slice (store row (offset + pos) l) offset count = putPart (slice row offset count) pos l := by
  have hlen : pos + l.length ≤ (slice row offset count).length := by rwa [length_slice]
  refine (slice_eq_iff (by rw [length_putPart hlen, length_slice])).mpr fun i hi ↦ ?_
  have hi' : i < count := by rwa [length_putPart hlen, length_slice] at hi
  rw [← getD_eq_getElem _ (row (offset + i)), getD_putPart hlen, store]
  refine if_congr (by omega) ?_ ?_
  · rw [Nat.add_sub_add_left]
  · rw [getD_eq_getElem _ _ (by rwa [length_slice])]
    simp only [slice, getElem_map, getElem_range]

/-- What is stored behind something else is stored with it. -/
theorem store_store (l' : List α) :
    store (store row offset l) (offset + l.length) l' = store row offset (l ++ l') := by
  funext i
  by_cases hl' : offset + l.length ≤ i ∧ i < offset + l.length + l'.length
  · rw [store_of_mem hl'.1 (by omega), store_of_mem (by omega) (by rw [length_append]; omega),
      getElem_append_right (by omega)]
    congr 1
    omega
  · rw [store_of_notMem hl']
    by_cases hl : offset ≤ i ∧ i < offset + l.length
    · rw [store_of_mem hl.1 (by omega), store_of_mem hl.1 (by rw [length_append]; omega),
        getElem_append_left]
    · rw [store_of_notMem hl, store_of_notMem (by rw [length_append]; omega)]

/-- To store in a slice is to store the slice with another part. -/
theorem store_putPart_slice {pos : ℕ} (h : pos + l.length ≤ count) :
    store row offset (putPart (slice row offset count) pos l) = store row (offset + pos) l := by
  rw [← slice_store_of_within h]
  funext i
  by_cases hi : offset ≤ i ∧ i < offset + count
  · rw [store_of_mem hi.1 (by rw [length_slice]; omega)]
    simp only [slice, getElem_map, getElem_range]
    rw [Nat.add_sub_cancel' hi.1]
  · rw [store_of_notMem (by rwa [length_slice]), store_of_notMem (by omega)]

/-- A slice does not see what is stored behind it. -/
theorem slice_store_take {other n : ℕ} (h : other + count ≤ offset + n) :
    slice (store row offset (l.take n)) other count = slice (store row offset l) other count := by
  refine slice_congr fun i hi hi' ↦ ?_
  by_cases hin : offset ≤ i ∧ i < offset + l.length
  · rw [store_of_mem hin.1 (by rw [length_take]; omega), store_of_mem hin.1 (by omega),
      getElem_take]
  · rw [store_of_notMem hin, store_of_notMem]
    rw [length_take]
    omega

/-- A row is the window of its pieces. -/
theorem window_slice {size : ℕ} (hsize : 0 < size) (d : α) :
    window (fun k ↦ slice row (k * size) size) d size offset count = slice row offset count := by
  refine map_congr_left fun i _ ↦ ?_
  have hmod := Nat.mod_lt (offset + i) hsize
  rw [getD_eq_getElem _ _ (by rwa [length_slice])]
  simp only [slice, getElem_map, getElem_range]
  rw [Nat.div_add_mod']

end RoscoEmulator.Rows
