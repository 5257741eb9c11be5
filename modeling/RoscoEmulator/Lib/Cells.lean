import Mathlib.Data.List.Basic
import Mathlib.Data.List.Pairwise

/-!
# Memory as a function of addresses

Runs of cells that are copied out, copied in, or turned round in their place. What is stored does
not depend on the cells that are overwritten, and cells turned round twice are as before. -/

namespace RoscoEmulator.Cells

open List

variable {α : Type*}

/-- The cells from an address on. -/
def fetch (m : ℕ → α) (addr count : ℕ) : List α := (range count).map fun i ↦ m (addr + i)

/-- Values go into the cells from an address on. -/
def store (m : ℕ → α) (addr : ℕ) (values : List α) : ℕ → α :=
  fun a ↦ if addr ≤ a then (values[a - addr]?).getD (m a) else m a

/-- The cells from an address on change places, the first with the last. -/
def reverse (m : ℕ → α) (addr count : ℕ) : ℕ → α :=
  fun a ↦ if addr ≤ a ∧ a < addr + count then m (addr + (addr + count - 1 - a)) else m a

variable (m : ℕ → α) {addr count a : ℕ} {values : List α}

@[simp] theorem length_fetch (addr count : ℕ) : (fetch m addr count).length = count := by
  rw [fetch, length_map, length_range]

variable {i : ℕ}

theorem store_inside (hi : i < values.length) : store m addr values (addr + i) = values[i] := by
  rw [store, if_pos (Nat.le_add_right _ _), Nat.add_sub_cancel_left, List.getElem?_eq_getElem hi,
    Option.getD_some]

theorem store_outside (h : ¬ (addr ≤ a ∧ a < addr + values.length)) :
    store m addr values a = m a := by
  rw [store]
  split
  · next hle => rw [List.getElem?_eq_none (by omega), Option.getD_none]
  · rfl

@[simp] theorem store_nil (addr : ℕ) : store m addr [] = m := by
  funext a
  exact store_outside m (by rw [length_nil]; omega)

/-- Cells that are copied from another memory have its values. -/
theorem store_fetch (n : ℕ → α) (addr count a : ℕ) :
    store m addr (fetch n addr count) a = if addr ≤ a ∧ a < addr + count then n a else m a := by
  split
  · next hin =>
    obtain ⟨i, rfl⟩ := Nat.exists_eq_add_of_le hin.1
    rw [store_inside m (by rw [length_fetch]; omega)]
    simp only [fetch, getElem_map, getElem_range]
  · next hout => exact store_outside m (by rwa [length_fetch])

/-- What has been overwritten does not matter. -/
theorem store_congr {n : ℕ → α} (h : ∀ a, ¬ (addr ≤ a ∧ a < addr + values.length) → m a = n a) :
    store m addr values = store n addr values := by
  funext a
  by_cases hin : addr ≤ a ∧ a < addr + values.length
  · obtain ⟨i, rfl⟩ := Nat.exists_eq_add_of_le hin.1
    rw [store_inside m (by omega), store_inside n (by omega)]
  · rw [store_outside m hin, store_outside n hin, h a hin]

theorem reverse_inside (hi : i < count) :
    reverse m addr count (addr + i) = m (addr + (count - 1 - i)) := by
  rw [reverse, if_pos (by omega), show addr + count - 1 - (addr + i) = count - 1 - i by omega]

theorem reverse_outside (h : ¬ (addr ≤ a ∧ a < addr + count)) : reverse m addr count a = m a :=
  if_neg h

/-- Turned round twice, the cells are as before. -/
@[simp] theorem reverse_reverse (addr count : ℕ) :
    reverse (reverse m addr count) addr count = m := by
  funext a
  by_cases hin : addr ≤ a ∧ a < addr + count
  · obtain ⟨i, rfl⟩ := Nat.exists_eq_add_of_le hin.1
    rw [reverse_inside _ (by omega), reverse_inside _ (by omega),
      show count - 1 - (count - 1 - i) = i by omega]
  · rw [reverse_outside _ hin, reverse_outside _ hin]

/-- Runs of cells at several addresses are turned round, one after another. -/
def reverseAll (m : ℕ → α) (addrs : List ℕ) (count : ℕ) : ℕ → α :=
  addrs.foldl (fun m addr ↦ reverse m addr count) m

/-- Every memory is what some memory becomes when runs of cells are turned round. -/
theorem exists_reverseAll (addrs : List ℕ) (count : ℕ) (n : ℕ → α) :
    ∃ m, reverseAll m addrs count = n := by
  induction addrs with
  | nil => exact ⟨n, rfl⟩
  | cons addr addrs ih =>
    obtain ⟨m, hm⟩ := ih
    refine ⟨reverse m addr count, ?_⟩
    rw [reverseAll, foldl_cons, reverse_reverse]
    exact hm

theorem reverseAll_outside {addrs : List ℕ} (h : ∀ addr ∈ addrs, ¬ (addr ≤ a ∧ a < addr + count)) :
    reverseAll m addrs count a = m a := by
  induction addrs generalizing m with
  | nil => rfl
  | cons addr addrs ih =>
    rw [reverseAll, foldl_cons, ← reverseAll, ih _ fun x hx ↦ h x (mem_cons_of_mem _ hx),
      reverse_outside _ (h addr mem_cons_self)]

/-- Where the runs do not overlap, every one is turned round. -/
theorem reverseAll_inside {addrs : List ℕ}
    (h : addrs.Pairwise fun x y ↦ x + count ≤ y ∨ y + count ≤ x) (haddr : addr ∈ addrs)
    (hi : i < count) : reverseAll m addrs count (addr + i) = m (addr + (count - 1 - i)) := by
  induction addrs generalizing m with
  | nil => exact absurd haddr not_mem_nil
  | cons x addrs ih =>
    obtain ⟨hx, hrest⟩ := List.pairwise_cons.mp h
    rw [reverseAll, foldl_cons, ← reverseAll]
    rcases List.mem_cons.mp haddr with rfl | haddr
    · rw [reverseAll_outside _ fun y hy ↦ ?_, reverse_inside _ hi]
      have happart := hx y hy
      omega
    · have happart := hx addr haddr
      rw [ih _ hrest haddr, reverse_outside _ (by omega)]

end RoscoEmulator.Cells
