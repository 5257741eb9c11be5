import Mathlib.Data.List.Basic
import Mathlib.Data.List.GetD

/-!
# Bytes in pieces of one size

A long row of elements is cut into pieces of one size, and `window` is a range of it. A window that
lies in one piece is a part of that piece, and a window goes on where another one ends; so a loop
over pieces that puts one part after the other fills a buffer with a window. -/

namespace RoscoEmulator.Pieces

open List

variable {α : Type*}

/-- A part of a buffer. -/
def part (buffer : List α) (pos count : ℕ) : List α := (buffer.drop pos).take count

/-- A buffer with other elements from its start on. -/
def overlay (buffer l : List α) : List α := l ++ buffer.drop l.length

/-- A buffer with another part. -/
def putPart (buffer : List α) (pos : ℕ) (l : List α) : List α :=
  buffer.take pos ++ overlay (buffer.drop pos) l

@[simp] theorem length_overlay (buffer l : List α) :
    (overlay buffer l).length = max l.length buffer.length := by
  rw [overlay, length_append, length_drop]
  omega

variable {buffer l : List α} {count pos : ℕ}

/-- Elements that fill a buffer replace what was there. -/
theorem overlay_of_length_le (h : buffer.length ≤ l.length) : overlay buffer l = l := by
  rw [overlay, drop_eq_nil_of_le h, append_nil]

theorem take_overlay {n : ℕ} (h : n ≤ l.length) : (overlay buffer l).take n = l.take n := by
  rw [overlay, take_append_of_le_length h]

theorem length_part (h : pos + count ≤ buffer.length) : (part buffer pos count).length = count := by
  rw [part, length_take, length_drop]
  omega

theorem length_putPart (h : pos + l.length ≤ buffer.length) :
    (putPart buffer pos l).length = buffer.length := by
  rw [putPart, length_append, length_take, length_overlay, length_drop]
  omega

theorem take_putPart (h : pos ≤ buffer.length) :
    (putPart buffer pos l).take (pos + l.length) = buffer.take pos ++ l := by
  have hlen : (buffer.take pos).length = pos := length_take_of_le h
  have hlen' : (buffer.take pos ++ l).length = pos + l.length := by rw [length_append, hlen]
  rw [putPart, overlay, ← append_assoc, take_append_of_le_length (Nat.le_of_eq hlen'.symm),
    take_of_length_le (Nat.le_of_eq hlen')]

theorem getD_putPart {i : ℕ} (h : pos + l.length ≤ buffer.length) (d : α) :
    (putPart buffer pos l).getD i d =
      if pos ≤ i ∧ i < pos + l.length then l.getD (i - pos) d else buffer.getD i d := by
  have hlen : (buffer.take pos).length = pos := length_take_of_le (by omega)
  rw [putPart, overlay]
  split_ifs with hin
  · rw [getD_append_right _ _ _ _ (by omega), hlen, getD_append _ _ _ _ (by omega)]
  · rcases Nat.lt_or_ge i pos with hi | hi
    · rw [getD_append _ _ _ _ (by omega), getD_eq_getElem?_getD, List.getElem?_take_of_lt hi,
        getD_eq_getElem?_getD]
    · rw [getD_append_right _ _ _ _ (by omega), hlen,
        getD_append_right _ _ _ _ (by omega), getD_eq_getElem?_getD,
        List.getElem?_drop, List.getElem?_drop, getD_eq_getElem?_getD]
      congr 2
      omega

theorem part_putPart_self (h : pos ≤ buffer.length) :
    part (putPart buffer pos l) pos l.length = l := by
  have hlen : (buffer.take pos).length = pos := length_take_of_le h
  rw [part, putPart, drop_append_of_le_length (Nat.le_of_eq hlen.symm),
    drop_eq_nil_of_le (Nat.le_of_eq hlen), nil_append, take_overlay (Nat.le_refl _),
    take_length]

theorem part_putPart_of_disjoint {other : ℕ} (h : pos + l.length ≤ buffer.length)
    (hother : other + count ≤ buffer.length)
    (hdisj : pos + l.length ≤ other ∨ other + count ≤ pos) :
    part (putPart buffer pos l) other count = part buffer other count := by
  refine ext_getElem ?_ fun i hi hi' ↦ ?_
  · rw [length_part hother, length_part (by rw [length_putPart h]; exact hother)]
  · rw [length_part hother] at hi'
    have hget := getD_putPart (i := other + i) h (buffer[other + i])
    rw [if_neg (by omega), getD_eq_getElem _ _ (by rw [length_putPart h]; omega),
      getD_eq_getElem _ _ (by omega)] at hget
    simpa only [part, getElem_take, getElem_drop] using hget

/-- The elements at `offset`, in pieces of `size` elements. -/
def window (piece : ℕ → List α) (d : α) (size offset count : ℕ) : List α :=
  (range count).map fun i ↦ (piece ((offset + i) / size)).getD ((offset + i) % size) d

variable {piece : ℕ → List α} {d : α} {size offset : ℕ}

@[simp] theorem length_window (count : ℕ) : (window piece d size offset count).length = count := by
  rw [window, length_map, length_range]

theorem window_add (m n : ℕ) :
    window piece d size offset (m + n) =
      window piece d size offset m ++ window piece d size (offset + m) n := by
  rw [window, range_add, map_append, map_map]
  refine congrArg _ (map_congr_left fun i _ ↦ ?_)
  simp only [Function.comp_apply, Nat.add_assoc]

/-- A window in one piece. -/
theorem window_of_piece {k start : ℕ} (hlen : (piece k).length = size) (h : start + count ≤ size) :
    window piece d size (k * size + start) count = part (piece k) start count := by
  refine ext_getElem ?_ fun i hi hi' ↦ ?_
  · rw [length_window, length_part (by omega)]
  · rw [length_window] at hi
    have hsize : 0 < size := by omega
    have hdiv : (k * size + start + i) / size = k := by
      rw [Nat.add_assoc, Nat.mul_comm, Nat.mul_add_div hsize,
        Nat.div_eq_of_lt (by omega), Nat.add_zero]
    have hmod : (k * size + start + i) % size = start + i := by
      rw [Nat.add_assoc, Nat.mul_comm, Nat.mul_add_mod, Nat.mod_eq_of_lt (by omega)]
    simp only [window, part, getElem_map, getElem_range, getElem_take,
      getElem_drop, hdiv, hmod]
    rw [getD_eq_getElem?_getD, List.getElem?_eq_getElem (by omega), Option.getD_some]

theorem window_congr {piece' : ℕ → List α}
    (h : ∀ i < count, (piece ((offset + i) / size)).getD ((offset + i) % size) d =
      (piece' ((offset + i) / size)).getD ((offset + i) % size) d) :
    window piece d size offset count = window piece' d size offset count :=
  map_congr_left fun i hi ↦ h i (List.mem_range.mp hi)

end RoscoEmulator.Pieces
