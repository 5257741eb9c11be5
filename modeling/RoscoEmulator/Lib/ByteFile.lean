import Mathlib

/-!
# Files of bytes

A file is a length and a byte at every position below it. Reading returns what there is up to the
end of the file; writing beyond the end fills the gap with a default byte. The two laws a
block device needs are that a range reads back what was written to it, and that a write leaves
every range alone that is disjoint from its own.
-/

namespace RoscoEmulator

open List

/-- A file of bytes of type `β`. Nothing is said about the bytes at and beyond `length`. -/
structure ByteFile (β : Type) where
  length : ℕ
  byte : ℕ → β

namespace ByteFile

variable {β : Type}

/-- The bytes at `offset`, at most `count`, fewer at the end of the file. -/
def readAt (file : ByteFile β) (offset count : ℕ) : List β :=
  (range (min count (file.length - offset))).map fun i ↦ file.byte (offset + i)

/-- Write `bytes` at `offset`. -/
def writeAt [Inhabited β] (file : ByteFile β) (offset : ℕ) (bytes : List β) : ByteFile β where
  length := if bytes = [] then file.length else max file.length (offset + bytes.length)
  byte i :=
    if offset ≤ i ∧ i < offset + bytes.length then bytes.getD (i - offset) default
    else if i < file.length then file.byte i else default

/-- The positions that `count` bytes at `offset` take. -/
def extent (offset count : ℕ) : Set ℕ := Set.Ico offset (offset + count)

theorem length_readAt (file : ByteFile β) (offset count : ℕ) :
    (file.readAt offset count).length = min count (file.length - offset) := by
  rw [readAt, length_map, length_range]

variable {file : ByteFile β} {a offset b m count n : ℕ}

theorem length_readAt_of_le (h : offset + count ≤ file.length) :
    (file.readAt offset count).length = count := by
  rw [length_readAt]
  omega

/-- A part of what is read is what is read there. -/
theorem take_drop_readAt {i : ℕ} (hn : i + n ≤ count) :
    ((file.readAt offset count).drop i).take n = file.readAt (offset + i) n := by
  refine ext_getElem ?_ fun j hj hj' ↦ ?_
  · rw [length_take, length_drop, length_readAt, length_readAt]
    omega
  · simp only [readAt, getElem_take, getElem_drop, getElem_map, getElem_range]
    rw [Nat.add_assoc]

theorem take_readAt (hn : n ≤ count) : (file.readAt offset count).take n = file.readAt offset n :=
  take_drop_readAt (i := 0) ((Nat.zero_add n).symm ▸ hn)

/-- Two ranges in a row are one range. -/
theorem readAt_add (h : offset + m ≤ file.length) :
    file.readAt offset (m + n) = file.readAt offset m ++ file.readAt (offset + m) n := by
  have hm : m ≤ (file.readAt offset (m + n)).length := by
    rw [length_readAt]
    omega
  calc file.readAt offset (m + n)
      = (file.readAt offset (m + n)).take m ++ (file.readAt offset (m + n)).drop m :=
        (take_append_drop _ _).symm
    _ = file.readAt offset m ++ file.readAt (offset + m) n := by
        congr 1
        · exact take_readAt (Nat.le_add_right m n)
        · rw [← take_drop_readAt (Nat.le_refl (m + n)), take_of_length_le]
          rw [length_drop, length_readAt]
          omega

theorem disjoint_extent_iff (hm : 0 < m) :
    Disjoint (extent a m) (extent b m) ↔ a + m ≤ b ∨ b + m ≤ a := by
  simp only [extent, Set.disjoint_left, Set.mem_Ico]
  constructor
  · intro h
    -- the larger of the two offsets would lie in both ranges
    have hmax := @h (max a b)
    omega
  · rintro h i hi
    omega

theorem extent_subset (h : a ≤ b) (h' : b + n ≤ a + m) : extent b n ⊆ extent a m :=
  Set.Ico_subset_Ico h h'

theorem disjoint_extent_of_le (h : a + m ≤ b ∨ b + n ≤ a) : Disjoint (extent a m) (extent b n) := by
  simp only [extent, Set.disjoint_left, Set.mem_Ico]
  rintro i hi
  omega

section

variable [Inhabited β] (file : ByteFile β) {offset : ℕ} {bytes : List β}

theorem le_length_writeAt : file.length ≤ (file.writeAt offset bytes).length := by
  simp only [writeAt]
  split <;> omega

/-- A range reads back what was written to it. -/
theorem readAt_writeAt_self : (file.writeAt offset bytes).readAt offset bytes.length = bytes := by
  rcases eq_or_ne bytes [] with rfl | hne
  · simp [readAt]
  · have hmin : min bytes.length ((file.writeAt offset bytes).length - offset) = bytes.length := by
      simp only [writeAt, if_neg hne]
      omega
    refine ext_getElem (by rw [length_readAt, hmin]) fun i hi hi' ↦ ?_
    simp only [readAt, getElem_map, getElem_range, writeAt]
    rw [if_pos (by omega), Nat.add_sub_cancel_left, getD_eq_getElem?_getD,
      List.getElem?_eq_getElem hi', Option.getD_some]

theorem readAt_writeAt_of_length {n : ℕ} (hn : bytes.length = n) :
    (file.writeAt offset bytes).readAt offset n = bytes := by
  rw [← hn, readAt_writeAt_self]

/-- Once a range lies inside the file, a write to a disjoint range leaves it alone. -/
theorem readAt_writeAt_of_disjoint {other count : ℕ} (hfile : other + count ≤ file.length)
    (hdisj : Disjoint (extent other count) (extent offset bytes.length)) :
    (file.writeAt offset bytes).readAt other count = file.readAt other count := by
  have hle : file.length ≤ (file.writeAt offset bytes).length := file.le_length_writeAt
  refine ext_getElem (by rw [length_readAt, length_readAt]; omega) fun i hi hi' ↦ ?_
  have hcount : i < count := by
    rw [length_readAt] at hi'
    omega
  have hout : ¬ (offset ≤ other + i ∧ other + i < offset + bytes.length) := fun h ↦
    Set.disjoint_left.mp hdisj ⟨Nat.le_add_right _ _, Nat.add_lt_add_left hcount _⟩ h
  simp only [readAt, getElem_map, getElem_range, writeAt, if_neg hout]
  rw [if_pos (by omega)]

theorem length_writeAt (hne : bytes ≠ []) :
    (file.writeAt offset bytes).length = max file.length (offset + bytes.length) := by
  simp only [writeAt, if_neg hne]

theorem length_writeAt_of_le (h : offset + bytes.length ≤ file.length) :
    (file.writeAt offset bytes).length = file.length := by
  simp only [writeAt]
  split_ifs
  · rfl
  · omega

end

end ByteFile

end RoscoEmulator
