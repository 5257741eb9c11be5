import Mathlib.Data.List.Basic

/-!
# Bounded queues in rings

A queue of at most `n` elements whose newest element gives way when another one comes, and the ring
of `n` cells that holds one: a read index, a write index and a count. `Ring.Valid` is the relation
between the three, and `Ring.contents` is the queue that a ring holds. -/

namespace RoscoEmulator

open Nat List

/-- The arrival of an element at a queue for at most `n` elements. In a full queue it takes the
place of the newest. -/
def boundedPush {α : Type*} (n : ℕ) (a : α) (q : List α) : List α :=
  if q.length < n then q ++ [a] else q.dropLast ++ [a]

theorem map_boundedPush {α β : Type*} (f : α → β) (n : ℕ) (a : α) (q : List α) :
    (boundedPush n a q).map f = boundedPush n (f a) (q.map f) := by
  unfold boundedPush
  rw [length_map]
  split_ifs
  · rw [map_append, map_singleton]
  · rw [map_append, map_dropLast, map_singleton]

theorem mem_boundedPush {α : Type*} {n : ℕ} {a b : α} {q : List α} (h : b ∈ boundedPush n a q) :
    b = a ∨ b ∈ q := by
  unfold boundedPush at h
  split_ifs at h
  · exact (List.mem_append.mp h).symm.imp_left List.mem_singleton.mp
  · exact (List.mem_append.mp h).symm.imp List.mem_singleton.mp (dropLast_subset q ·)

/-- Cells with a read index, a write index and the number of elements. -/
structure Ring (α : Type*) where
  cell : ℕ → α
  read : ℕ
  write : ℕ
  num : ℕ

namespace Ring

variable {α : Type*} {n : ℕ}

/-- The index behind `i`. -/
def next (n i : ℕ) : ℕ := if i + 1 = n then 0 else i + 1

/-- The index before `i`. -/
def prev (n i : ℕ) : ℕ := if i = 0 then n - 1 else i - 1

/-- A store at the write index, which backs up first where the ring is full. -/
def push (n : ℕ) (a : α) (r : Ring α) : Ring α :=
  let tail := if r.num = n then prev n r.write else r.write
  { r with
    cell := Function.update r.cell tail a
    write := next n tail
    num := if r.num < n then r.num + 1 else r.num }

/-- The element at the read index leaves. -/
def pop (n : ℕ) (r : Ring α) : Ring α := { r with read := next n r.read, num := r.num - 1 }

def front (r : Ring α) : α := r.cell r.read

/-- The indices are in range, and the write index is `num` cells behind the read index. -/
structure Valid (n : ℕ) (r : Ring α) : Prop where
  read_lt : r.read < n
  num_le : r.num ≤ n
  write_eq : r.write = (r.read + r.num) % n

/-- The queue in the ring, oldest first. -/
def contents (n : ℕ) (r : Ring α) : List α := (range r.num).map fun k ↦ r.cell ((r.read + k) % n)

@[simp] theorem length_contents (r : Ring α) : (r.contents n).length = r.num := by
  rw [contents, length_map, length_range]

variable {i : ℕ}

theorem next_mod (h : i < n) : next n i = (i + 1) % n := by
  unfold next
  split_ifs with hlast
  · rw [hlast, mod_self]
  · rw [mod_eq_of_lt (by omega)]

theorem prev_mod (h : i < n) : prev n i = (i + (n - 1)) % n := by
  unfold prev
  split_ifs with hzero
  · rw [hzero, Nat.zero_add, mod_eq_of_lt (by omega)]
  · rw [show i + (n - 1) = i - 1 + n by omega, add_mod_right, mod_eq_of_lt (by omega)]

theorem next_lt (h : i < n) : next n i < n := by
  rw [next_mod h]
  exact mod_lt _ (by omega)

/-- Two places of one turn are different cells. -/
theorem add_mod_ne {j k : ℕ} (hj : j < n) (hk : k < j) : (i + k) % n ≠ (i + j) % n := by
  intro h
  have hmod : (i + j - (i + k)) % n = 0 := sub_mod_eq_zero_of_mod_eq h.symm
  rw [Nat.add_sub_add_left, mod_eq_of_lt (by omega)] at hmod
  omega

namespace Valid

variable {r : Ring α} (h : r.Valid n)
include h

theorem write_lt : r.write < n := by
  rw [h.write_eq]
  exact mod_lt _ (zero_lt_of_lt h.read_lt)

/-- The cell that a push stores into is the next free one, or the newest of a full ring. -/
theorem tail_eq :
    (if r.num = n then prev n r.write else r.write) = (r.read + min r.num (n - 1)) % n := by
  split_ifs with hfull
  · rw [prev_mod h.write_lt, h.write_eq, mod_add_mod, hfull, Nat.min_eq_right (sub_le _ _),
      show r.read + n + (n - 1) = r.read + (n - 1) + n by omega, add_mod_right]
  · rw [h.write_eq, Nat.min_eq_left (by have := h.num_le; omega)]

theorem push (a : α) : (r.push n a).Valid n := by
  have hlt := h.read_lt
  have hle := h.num_le
  refine ⟨hlt, ?_, ?_⟩
  · change (if r.num < n then r.num + 1 else r.num) ≤ n
    split_ifs <;> omega
  · change next n _ = (r.read + if r.num < n then r.num + 1 else r.num) % n
    rw [h.tail_eq, next_mod (mod_lt _ (by omega)), mod_add_mod]
    split_ifs with hroom
    · rw [Nat.min_eq_left (by omega), Nat.add_assoc]
    · rw [Nat.min_eq_right (by omega), show r.read + (n - 1) + 1 = r.read + r.num by omega]

/-- A push to the ring is a push to its queue. -/
theorem contents_push (a : α) : (r.push n a).contents n = boundedPush n a (r.contents n) := by
  have hlt := h.read_lt
  have hle := h.num_le
  have hcell (k : ℕ) (hk : k < min r.num (n - 1)) :
      (r.push n a).cell ((r.read + k) % n) = r.cell ((r.read + k) % n) := by
    refine Function.update_of_ne ?_ a r.cell
    rw [h.tail_eq]
    exact add_mod_ne (by omega) hk
  have hnew : (r.push n a).cell ((r.read + min r.num (n - 1)) % n) = a := by
    rw [← h.tail_eq]
    exact Function.update_self _ a r.cell
  have hfill (m : ℕ) (hm : min r.num (n - 1) = m) (hnum : (r.push n a).num = m + 1) :
      (r.push n a).contents n = ((range m).map fun k ↦ r.cell ((r.read + k) % n)) ++ [a] := by
    subst hm
    rw [contents, hnum, range_succ, map_append, map_singleton]
    refine congrArg₂ _ (map_congr_left fun k hk ↦ hcell k (List.mem_range.mp hk)) ?_
    exact congrArg (fun x ↦ [x]) hnew
  rw [boundedPush, length_contents]
  split_ifs with hroom
  · exact hfill r.num (Nat.min_eq_left (by omega)) (if_pos hroom)
  · have hnum : (r.push n a).num = n - 1 + 1 := (if_neg hroom).trans (by omega)
    rw [hfill (n - 1) (Nat.min_eq_right (by omega)) hnum, contents, show r.num = n - 1 + 1 by omega,
      range_succ, map_append, map_singleton, dropLast_concat]

theorem pop (hpos : 0 < r.num) : (r.pop n).Valid n := by
  have hlt := h.read_lt
  have hle := h.num_le
  refine ⟨next_lt hlt, ?_, ?_⟩
  · change r.num - 1 ≤ n
    omega
  · change r.write = (next n r.read + (r.num - 1)) % n
    rw [next_mod hlt, mod_add_mod, h.write_eq,
      show r.read + 1 + (r.num - 1) = r.read + r.num by omega]

/-- The front of a ring that is not empty is the oldest element, and the rest stays. -/
theorem contents_eq_cons (hpos : 0 < r.num) : r.contents n = r.front :: (r.pop n).contents n := by
  have hrest : (r.pop n).contents n = (range (r.num - 1)).map fun k ↦
      r.cell ((r.read + (k + 1)) % n) := by
    refine map_congr_left fun k _ ↦ ?_
    change r.cell ((next n r.read + k) % n) = _
    rw [next_mod h.read_lt, mod_add_mod, Nat.add_assoc, Nat.add_comm 1 k]
  obtain ⟨m, hm⟩ : ∃ m, r.num = m + 1 := ⟨r.num - 1, by omega⟩
  rw [hrest, contents, hm, range_succ_eq_map, map_cons, map_map, Nat.add_zero,
    mod_eq_of_lt h.read_lt, Nat.add_sub_cancel]
  rfl

end Valid

/-- A ring with nothing in it. -/
theorem valid_empty (hn : 0 < n) (cell : ℕ → α) : (Ring.mk cell 0 0 0).Valid n :=
  ⟨hn, Nat.zero_le n, (zero_mod n).symm⟩

end Ring

end RoscoEmulator
