import RoscoEmulator.Memory.Slots

/-!
# Byte lanes

The memory behind a bus as bytes. An address names a byte, or several, or a part of one; the lanes
of an access are the bytes from the one that its address names on, the first in the lowest bits or,
big endian, in the highest. Each byte is loaded and stored on its own, under the lane of the
mask. -/

namespace RoscoEmulator.Memory

open BitVec List

namespace Access

variable (p : Access)

/-- The number of bytes that the addresses name. -/
def spaceBytes : ℕ := 2 ^ (32 - p.addrShift).toNat

/-- The byte that an address names. -/
def byteAddress (address : BitVec 32) : ℕ :=
  if p.addrShift < 0 then address.toNat * 2 ^ p.addrShift.natAbs
    else address.toNat / 2 ^ p.addrShift.natAbs

/-- The address is on a byte boundary. -/
def OnByte (address : BitVec 32) : Prop := 0 ≤ p.addrShift → 2 ^ p.addrShift.natAbs ∣ address.toNat

/-- The place of a lane in the order of the addresses. -/
def rank (bytes l : ℕ) : ℕ := if p.big then bytes - 1 - l else l

/-- The byte of a lane. -/
def laneAddress (bytes : ℕ) (address : BitVec 32) (l : ℕ) : ℕ :=
  (p.byteAddress address + p.rank bytes l) % p.spaceBytes

/-- The bytes behind the bus. -/
abbrev Bytes : Type := ℕ → BitVec 8

variable {w : ℕ}

/-- A lane of data or of a mask. -/
def lane (x : BitVec w) (l : ℕ) : BitVec 8 := (x >>> (8 * l)).setWidth 8

/-- The store of a byte under a mask. -/
def storeByte (mem : Bytes) (b : ℕ) (data mask : BitVec 8) : Bytes :=
  Function.update mem b (mem b &&& ~~~mask ||| data &&& mask)

/-- Stores every byte of an access. -/
def storeLanes (bytes : ℕ) (address : BitVec 32) (data mask : BitVec w) (mem : Bytes) : Bytes :=
  (range bytes).foldl
    (fun mem l ↦ storeByte mem (p.laneAddress bytes address l) (lane data l) (lane mask l)) mem

/-- Loads every byte of an access. -/
def loadLanes (bytes : ℕ) (address : BitVec 32) (mask : BitVec w) (mem : Bytes) : BitVec w :=
  (range bytes).foldl
    (fun r l ↦ r ||| (mem (p.laneAddress bytes address l) &&& lane mask l).setWidth w <<< (8 * l)) 0

/-- The access enables a bit of a byte. -/
def enables (bytes b k : ℕ) (access : BitVec 32 × BitVec w) : Bool :=
  (range bytes).any fun l ↦
    decide (p.laneAddress bytes access.1 l = b) && access.2.getLsbD (8 * l + k)

/-- What was accessed on the bus. -/
abbrev Log : Type := List (BitVec 32 × p.Native)

/-- A read on the bus. On the lanes that are not enabled it reads anything. -/
def busRead (other : BitVec 32 → p.Native → p.Native) : p.Rop (Bytes × p.Log) :=
  fun address mask st ↦
  (p.loadLanes p.nativeBytes address mask st.1 ||| other address mask &&& ~~~mask,
    (st.1, st.2 ++ [(address, mask)]))

/-- A write on the bus. -/
def busWrite : p.Wop (Bytes × p.Log) := fun address data mask st ↦
  (p.storeLanes p.nativeBytes address data mask st.1, st.2 ++ [(address, mask)])

/-- Every bit of the bytes that the mask selects is enabled by one access of the log, and no other
bit by any. -/
def EnablesOnce (address : BitVec 32) (mask : p.Target) (log : p.Log) : Prop :=
  ∀ b k, k < 8 → log.countP (p.enables p.nativeBytes b k) =
    if p.enables p.targetBytes b k (address, mask) then 1 else 0

variable {p}

/-! ## Bits of lanes -/

variable {bytes b k : ℕ} {address : BitVec 32}

theorem getLsbD_lane (x : BitVec w) (l : ℕ) (hk : k < 8) :
    (lane x l).getLsbD k = x.getLsbD (8 * l + k) := by
  rw [lane, getLsbD_setWidth, getLsbD_ushiftRight, decide_eq_true hk, Bool.true_and]

theorem getLsbD_storeByte (mem : Bytes) (a b k : ℕ) (data mask : BitVec 8) (hk : k < 8) :
    (storeByte mem a data mask b).getLsbD k =
      if a = b ∧ mask.getLsbD k = true then data.getLsbD k else (mem b).getLsbD k := by
  rw [storeByte, Function.update_apply]
  by_cases hb : b = a
  · subst hb
    rw [if_pos rfl, getLsbD_or, getLsbD_and, getLsbD_and, getLsbD_not,
      decide_eq_true hk]
    cases hmask : mask.getLsbD k <;> simp
  · rw [if_neg hb, if_neg fun h ↦ hb h.1.symm]

theorem enables_iff {mask : BitVec w} :
    p.enables bytes b k (address, mask) = true ↔
      ∃ l < bytes, p.laneAddress bytes address l = b ∧ mask.getLsbD (8 * l + k) = true := by
  simp only [enables, any_eq_true, mem_range, Bool.and_eq_true, decide_eq_true_eq]

theorem enables_zero : p.enables bytes b k (address, (0 : BitVec w)) = false := by
  refine Bool.eq_false_iff.mpr fun h ↦ ?_
  obtain ⟨l, _, _, hbit⟩ := enables_iff.mp h
  exact absurd hbit (by simp)

theorem getLsbD_storeLanes {data mask : BitVec w} (mem : Bytes) {v : Bool} (hk : k < 8)
    (hv : ∀ l < bytes, p.laneAddress bytes address l = b → mask.getLsbD (8 * l + k) = true →
      data.getLsbD (8 * l + k) = v) :
    (p.storeLanes bytes address data mask mem b).getLsbD k =
      if p.enables bytes b k (address, mask) then v else (mem b).getLsbD k := by
  have hstep : ∀ N ≤ bytes, ((range N).foldl
      (fun mem l ↦ storeByte mem (p.laneAddress bytes address l) (lane data l) (lane mask l)) mem
      b).getLsbD k =
        if ∃ l < N, p.laneAddress bytes address l = b ∧ mask.getLsbD (8 * l + k) = true then v
        else (mem b).getLsbD k := by
    intro N hN
    induction N with
    | zero => simp
    | succ N ih =>
      rw [range_succ, foldl_append, foldl_cons, foldl_nil, getLsbD_storeByte _ _ _ _ _ _ hk,
        getLsbD_lane _ _ hk, getLsbD_lane _ _ hk, ih (by omega)]
      by_cases hN' : p.laneAddress bytes address N = b ∧ mask.getLsbD (8 * N + k) = true
      · rw [if_pos hN', if_pos ⟨N, by omega, hN'⟩, hv N (by omega) hN'.1 hN'.2]
      · rw [if_neg hN']
        refine if_congr ⟨?_, ?_⟩ rfl rfl
        · rintro ⟨l, hl, h⟩
          exact ⟨l, by omega, h⟩
        · rintro ⟨l, hl, h⟩
          rcases Nat.lt_succ_iff_lt_or_eq.mp hl with hl | rfl
          · exact ⟨l, hl, h⟩
          · exact absurd h hN'
  rw [storeLanes, hstep bytes (Nat.le_refl _)]
  exact if_congr enables_iff.symm rfl rfl

theorem getLsbD_loadLanes {l : ℕ} (address : BitVec 32) (mask : BitVec w) (mem : Bytes)
    (hw : 8 * bytes ≤ w) (hl : l < bytes) (hk : k < 8) :
    (p.loadLanes bytes address mask mem).getLsbD (8 * l + k) =
      ((mem (p.laneAddress bytes address l)).getLsbD k && mask.getLsbD (8 * l + k)) := by
  have hstep : ∀ N, ((range N).foldl
      (fun r l ↦ r ||| (mem (p.laneAddress bytes address l) &&& lane mask l).setWidth w <<< (8 * l))
        0).getLsbD (8 * l + k) = (decide (l < N) &&
          ((mem (p.laneAddress bytes address l)).getLsbD k && mask.getLsbD (8 * l + k))) := by
    intro N
    induction N with
    | zero => simp
    | succ N ih =>
      rw [range_succ, foldl_append, foldl_cons, foldl_nil, getLsbD_or, ih,
        getLsbD_shiftLeft, decide_eq_true (by omega : 8 * l + k < w), Bool.true_and]
      rcases Nat.lt_trichotomy l N with hlt | rfl | hgt
      · rw [decide_eq_true (by omega : 8 * l + k < 8 * N), decide_eq_true hlt,
          decide_eq_true (by omega : l < N + 1), Bool.not_true, Bool.false_and, Bool.or_false]
      · rw [decide_eq_false (by omega : ¬8 * l + k < 8 * l), decide_eq_false (Nat.lt_irrefl l),
          decide_eq_true (Nat.lt_succ_self l), Bool.false_and, Bool.false_or, Bool.not_false,
          Bool.true_and, Bool.true_and, Nat.add_sub_cancel_left, getLsbD_setWidth,
          decide_eq_true (by omega : k < w), Bool.true_and, getLsbD_and, getLsbD_lane _ _ hk]
      · rw [decide_eq_false (by omega : ¬l < N),
          decide_eq_false (by omega : ¬l < N + 1), Bool.false_and, Bool.false_or, getLsbD_setWidth,
          getLsbD_of_ge _ _ (by omega : 8 ≤ 8 * l + k - 8 * N), Bool.and_false, Bool.and_false]
  rw [loadLanes, hstep, decide_eq_true hl, Bool.true_and]

end Access

end RoscoEmulator.Memory
