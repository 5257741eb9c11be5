import RoscoEmulator.Util.HardDisk

/-!
# The guessed geometry

The constructor of `hard_disk_file` for a plain file counts up from the number of whole sectors
until it meets a product of cylinders, heads and sectors per track with 2 to 16 heads and 2 to 63
sectors. A multiple of 4 is such a product, so the search ends within four rounds. What it ends at
is the least product of this kind, with the most sectors per track that there are for it. -/

namespace RoscoEmulator.Util

open List BitVec Nat

/-! ## Products of a geometry -/

/-- Heads and sectors per track that a geometry may have. -/
structure Allowed (heads sectors : ℕ) : Prop where
  two_le_heads : 2 ≤ heads
  heads_le : heads ≤ 16
  two_le_sectors : 2 ≤ sectors
  sectors_le : sectors ≤ 63

/-- A number of sectors that some geometry has. -/
def IsGeometry (n : ℕ) : Prop := ∃ c h s, Allowed h s ∧ c * h * s = n

variable {n : ℕ} {chs : ℕ × ℕ × ℕ} {s : ℕ}

theorem mem_range'_iff {first count : ℕ} :
    n ∈ (range' first count).reverse ↔ first ≤ n ∧ n < first + count := by
  rw [mem_reverse, mem_range'_1]

theorem mod_eq_zero_iff {c h : ℕ} (hs : 0 < s) (hh : 0 < h) :
    n % s = 0 ∧ n / s % h = 0 ∧ c = n / s / h ↔ c * h * s = n := by
  constructor
  · rintro ⟨hmods, hmodh, rfl⟩
    rw [Nat.div_mul_cancel (dvd_of_mod_eq_zero hmodh),
      Nat.div_mul_cancel (dvd_of_mod_eq_zero hmods)]
  · rintro rfl
    rw [mul_mod_left, Nat.mul_div_cancel _ hs, mul_mod_left, Nat.mul_div_cancel _ hh]
    exact ⟨rfl, rfl, rfl⟩

/-- The loop over the heads, for some sectors per track. -/
def guessHeads (totalsectors cursectors : ℕ) : Option (ℕ × ℕ × ℕ) :=
  if totalsectors % cursectors = 0 then
    ((range' 2 15).reverse).findSome? fun curheads ↦
      if totalsectors / cursectors % curheads = 0 then
        some (totalsectors / cursectors / curheads, curheads, cursectors)
      else none
  else none

theorem guessGeometry_eq (n : ℕ) :
    guessGeometry n = ((range' 2 62).reverse).findSome? (guessHeads n) := rfl

theorem guessHeads_eq_some (hs : 2 ≤ s) (hs' : s ≤ 63) (h : guessHeads n s = some chs) :
    Allowed chs.2.1 chs.2.2 ∧ chs.1 * chs.2.1 * chs.2.2 = n ∧ chs.2.2 = s := by
  rw [guessHeads] at h
  split_ifs at h with hmods
  obtain ⟨curheads, hheads, hchs⟩ := List.exists_of_findSome?_eq_some h
  split_ifs at hchs with hmodh
  obtain rfl := Option.some.inj hchs
  obtain ⟨hlo, hhi⟩ := mem_range'_iff.mp hheads
  have hle : curheads ≤ 16 := by omega
  exact ⟨⟨hlo, hle, hs, hs'⟩,
    (mod_eq_zero_iff (zero_lt_of_lt hs) (zero_lt_of_lt hlo)).mp ⟨hmods, hmodh, rfl⟩, rfl⟩

theorem guessHeads_isSome {c h : ℕ} (hallowed : Allowed h s) (hn : c * h * s = n) :
    (guessHeads n s).isSome := by
  obtain ⟨hlo, hhi, hs, -⟩ := hallowed
  obtain ⟨hmods, hmodh, -⟩ := (mod_eq_zero_iff (by omega) (by omega)).mpr hn
  rw [guessHeads, if_pos hmods, List.findSome?_isSome_iff]
  exact ⟨h, mem_range'_iff.mpr ⟨hlo, by omega⟩, by rw [if_pos hmodh]; rfl⟩

/-! ## The two inner loops -/

/-- The inner loops find a geometry exactly if there is one. -/
theorem guessGeometry_isSome_iff : (guessGeometry n).isSome ↔ IsGeometry n := by
  rw [guessGeometry_eq, List.findSome?_isSome_iff]
  constructor
  · rintro ⟨s, hs, hsome⟩
    obtain ⟨chs, hchs⟩ := Option.isSome_iff_exists.mp hsome
    obtain ⟨hlo, hhi⟩ := mem_range'_iff.mp hs
    obtain ⟨hallowed, hn, -⟩ := guessHeads_eq_some hlo (by omega) hchs
    exact ⟨_, _, _, hallowed, hn⟩
  · rintro ⟨c, h, s, hallowed, hn⟩
    have hs := hallowed.sectors_le
    exact ⟨s, mem_range'_iff.mpr ⟨hallowed.two_le_sectors, by omega⟩, guessHeads_isSome hallowed hn⟩

/-- What they find is a geometry of the number, with the most sectors per track. -/
theorem guessGeometry_eq_some (h : guessGeometry n = some chs) :
    Allowed chs.2.1 chs.2.2 ∧ chs.1 * chs.2.1 * chs.2.2 = n ∧
      ∀ c h s, Allowed h s → c * h * s = n → s ≤ chs.2.2 := by
  rw [guessGeometry_eq, List.findSome?_eq_some_iff] at h
  obtain ⟨before, cursectors, behind, hlist, hchs, hnone⟩ := h
  have hmem : cursectors ∈ (range' 2 62).reverse := by
    rw [hlist]
    exact mem_append_right _ mem_cons_self
  obtain ⟨hlo, hhi⟩ := mem_range'_iff.mp hmem
  obtain ⟨hallowed, hn, hs⟩ := guessHeads_eq_some hlo (by omega) hchs
  refine ⟨hallowed, hn, fun c h s hallowed' hn' ↦ ?_⟩
  -- a larger number of sectors would have been met before
  have hs' : s ∈ before ++ cursectors :: behind := by
    rw [← hlist]
    have hle := hallowed'.sectors_le
    exact mem_range'_iff.mpr ⟨hallowed'.two_le_sectors, by omega⟩
  have hsorted : (before ++ cursectors :: behind).Pairwise (· > ·) := by
    rw [← hlist]
    decide
  rw [hs]
  rcases List.mem_append.mp hs' with hbefore | hrest
  · have hsome := guessHeads_isSome hallowed' hn'
    rw [hnone s hbefore] at hsome
    exact absurd hsome Bool.false_ne_true
  · rcases List.mem_cons.mp hrest with rfl | hbehind
    · exact le_rfl
    · exact (rel_of_pairwise_cons (List.pairwise_append.mp hsorted).2.1 hbehind).le

/-! ## The outer loop -/

/-- The outer loop ends at the first number that has a geometry. -/
theorem guessFrom_eq_some {fuel : ℕ} {n : BitVec 32} (hfit : n.toNat + fuel ≤ 2 ^ 32)
    (h : guessFrom fuel n = some chs) : ∃ i < fuel, guessGeometry (n.toNat + i) = some chs ∧
    ∀ j < i, guessGeometry (n.toNat + j) = none := by
  induction fuel generalizing n with
  | zero => cases h
  | succ fuel ih =>
    rw [guessFrom] at h
    cases hguess : guessGeometry n.toNat with
    | some chs' =>
      rw [hguess] at h
      exact ⟨0, succ_pos _, hguess.trans h, fun j hj ↦ absurd hj (Nat.not_lt_zero j)⟩
    | none =>
      rw [hguess] at h
      obtain _ | fuel := fuel
      · cases h
      · have hsucc : (n + 1).toNat = n.toNat + 1 := by
          have hadd := toNat_add n 1
          have hone : (1 : BitVec 32).toNat = 1 := rfl
          omega
        obtain ⟨i, hi, hfound, hbefore⟩ := ih (by omega) h
        rw [hsucc] at hfound hbefore
        refine ⟨i + 1, by omega, ?_, fun j hj ↦ ?_⟩
        · rwa [← Nat.add_assoc, Nat.add_right_comm]
        · cases j with
          | zero => exact hguess
          | succ j =>
            have hnone := hbefore j (by omega)
            rwa [Nat.add_right_comm, Nat.add_assoc] at hnone

/-- More rounds than four change nothing. -/
theorem guessFrom_of_isSome {fuel : ℕ} {n : BitVec 32} (h : guessFrom fuel n = some chs) (k : ℕ) :
    guessFrom (fuel + k) n = some chs := by
  induction fuel generalizing n with
  | zero => cases h
  | succ fuel ih =>
    rw [Nat.add_right_comm, guessFrom]
    rw [guessFrom] at h
    cases hguess : guessGeometry n.toNat with
    | some chs' =>
      rw [hguess] at h
      exact h
    | none =>
      rw [hguess] at h
      exact ih h

/-! ## The constructor -/

/-- `(length - skipoffs) / hdinfo.sectorbytes` before it is converted to `uint32_t`. -/
def sectorCount (length : ℕ) (skipoffs : BitVec 32) : ℕ :=
  ((BitVec.ofNat 64 length - skipoffs.setWidth 64) / 512).toNat

/-- The disk has the least geometry from `count` sectors on. -/
structure LeastGeometry (h : HardDiskFile) (count : ℕ) : Prop where
  allowed : Allowed h.hdinfo.heads.toNat h.hdinfo.sectors.toNat
  count_le : count ≤ h.totalSectors
  le_count : h.totalSectors ≤ count + 3
  least : ∀ n, count ≤ n → IsGeometry n → h.totalSectors ≤ n
  sectors_max : ∀ c hd s, Allowed hd s → c * hd * s = h.totalSectors → s ≤ h.hdinfo.sectors.toNat

/-- **The search for a geometry** ends within four rounds, and at the least geometry that the
sectors of the file fit into. -/
theorem leastGeometry_ofFile (corefile : ByteFile Byte) (skipoffs : BitVec 32)
    (hcount : sectorCount corefile.length skipoffs < 2 ^ 32 - 3) :
    (∀ fuel, 4 ≤ fuel → guessFrom fuel (initialSectors corefile.length skipoffs) =
      some ((HardDiskFile.ofFile corefile skipoffs).hdinfo.cylinders.toNat,
        (HardDiskFile.ofFile corefile skipoffs).hdinfo.heads.toNat,
        (HardDiskFile.ofFile corefile skipoffs).hdinfo.sectors.toNat)) ∧
      LeastGeometry (HardDiskFile.ofFile corefile skipoffs)
      (sectorCount corefile.length skipoffs) := by
  have hinitial :
      (initialSectors corefile.length skipoffs).toNat = sectorCount corefile.length skipoffs := by
    rw [initialSectors, toNat_setWidth]
    exact mod_eq_of_lt (hcount.trans (by decide))
  obtain ⟨chs, hchs⟩ :=
    Option.isSome_iff_exists.mp (guessFrom_isSome (initialSectors corefile.length skipoffs))
  obtain ⟨i, hi, hfound, hbefore⟩ := guessFrom_eq_some (by omega) hchs
  rw [hinitial] at hfound hbefore
  obtain ⟨hallowed, hmul, hmax⟩ := guessGeometry_eq_some hfound
  obtain ⟨hlo, hheads, hlo', hsectors⟩ := hallowed
  have hcylinders : chs.1 < 2 ^ 32 := by
    have hle : chs.1 * 1 * 1 ≤ chs.1 * chs.2.1 * chs.2.2 :=
      Nat.mul_le_mul (Nat.mul_le_mul_left _ (by omega)) (by omega)
    omega
  have hc : (BitVec.ofNat 32 chs.1).toNat = chs.1 := by
    rw [toNat_ofNat, mod_eq_of_lt hcylinders]
  have hh : (BitVec.ofNat 32 chs.2.1).toNat = chs.2.1 := by
    rw [toNat_ofNat, mod_eq_of_lt (by omega)]
  have hs : (BitVec.ofNat 32 chs.2.2).toNat = chs.2.2 := by
    rw [toNat_ofNat, mod_eq_of_lt (by omega)]
  have htotal : (HardDiskFile.ofFile corefile skipoffs).totalSectors =
      sectorCount corefile.length skipoffs + i := by
    simp only [HardDiskFile.totalSectors, HardDiskFile.ofFile, hchs, Option.getD_some, hc, hh, hs]
    exact hmul
  constructor
  · intro fuel hfuel
    obtain ⟨k, rfl⟩ := Nat.exists_eq_add_of_le hfuel
    rw [guessFrom_of_isSome hchs k]
    simp only [HardDiskFile.ofFile, hchs, Option.getD_some, hc, hh, hs]
  · refine ⟨?_, by omega, by omega, fun n hle hn ↦ ?_, fun c hd s hallowed heq ↦ ?_⟩
    · simp only [HardDiskFile.ofFile, hchs, Option.getD_some, hh, hs]
      exact ⟨hlo, hheads, hlo', hsectors⟩
    · by_contra hlt
      obtain ⟨j, rfl⟩ := Nat.exists_eq_add_of_le hle
      have hsome := guessGeometry_isSome_iff.mpr hn
      rw [hbefore j (by omega)] at hsome
      exact absurd hsome Bool.false_ne_true
    · have hle := hmax c hd s hallowed (heq.trans htotal)
      simp only [HardDiskFile.ofFile, hchs, Option.getD_some, hs]
      exact hle

/-- A file of five sectors. -/
theorem leastGeometry_ofFile_five :
    LeastGeometry (HardDiskFile.ofFile ⟨2560, fun _ ↦ 0⟩ 0) (sectorCount 2560 0) :=
  (leastGeometry_ofFile ⟨2560, fun _ ↦ 0⟩ 0 (by decide)).2

end RoscoEmulator.Util
