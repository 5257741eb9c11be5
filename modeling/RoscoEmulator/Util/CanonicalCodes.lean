import RoscoEmulator.Lib.PrefixCode
import RoscoEmulator.Util.Huffman

/-!
# The canonical codes

`assign_canonical_codes` gives the codes of a length the numbers behind those that begin the codes
above it: the first number of a length is the Kraft sum of the codes above, in codes of this length.
That works out if this sum is whole, for every length from one on, and then no code is the start of
another one, as long as the codes are not more than there are strings. -/

namespace RoscoEmulator.Util

open Nat Function List PrefixCode BitString

variable {numbits : List ℕ}

/-- The Kraft sum of the codes above each length is one of codes of this length. -/
def Whole (numbits : List ℕ) (codelen : ℕ) : Prop :=
  ∀ L, 0 < L → L < codelen → 2 ^ (32 - L) ∣ kraftAbove 32 numbits L

variable {codelen : ℕ} {next : ℕ → ℕ} {curstart : ℕ} {bits : List ℕ}

/-- A round of `assign_canonical_codes` goes on with the sum of the codes above the next length. -/
theorem half_mul {total : ℕ} (hle : codelen < 32) (heven : total / 2 * 2 = total)
    (hsum : total * 2 ^ (32 - (codelen + 1)) = kraftAbove 32 numbits codelen) :
    total / 2 * 2 ^ (32 - codelen) = kraftAbove 32 numbits codelen := by
  rw [← hsum, show 32 - codelen =
    32 - (codelen + 1) + 1 by omega, pow_succ, Nat.mul_comm (2 ^ _) 2, ← Nat.mul_assoc, heven]

theorem total_mul
    (hcur : curstart * 2 ^ (32 - (codelen + 1)) = kraftAbove 32 numbits (codelen + 1)) :
    (curstart + numbits.count (codelen + 1)) * 2 ^ (32 - (codelen + 1)) =
      kraftAbove 32 numbits codelen := by
  rw [Nat.add_mul, hcur, kraftAbove_succ 32 numbits codelen]

/-- The first numbers of the lengths are there if the sums are whole. -/
theorem exists_startingCodes
    (hle : codelen ≤ 32) (hcur : curstart * 2 ^ (32 - codelen) = kraftAbove 32 numbits codelen)
    (hwhole : Whole numbits codelen) (starts : ℕ → ℕ) :
    ∃ starts', startingCodes (fun l ↦ numbits.count l) codelen curstart starts = some starts' ∧
      (∀ L, codelen < L → starts' L = starts L) ∧
        ∀ L, 0 < L → L ≤ codelen → starts' L * 2 ^ (32 - L) = kraftAbove 32 numbits L := by
  induction codelen generalizing curstart starts with
  | zero => exact ⟨starts, rfl, fun _ _ ↦ rfl, fun L hL hL' ↦ absurd hL (Nat.not_lt.mpr hL')⟩
  | succ codelen ih =>
    have htotal := total_mul hcur
    rcases Nat.eq_zero_or_pos codelen with rfl | hpos
    · refine ⟨update starts 1 curstart, rfl, fun L hL ↦ update_of_ne hL.ne' _ _, fun L hL hL' ↦ ?_⟩
      rw [show L = 1 by omega, update_self]
      exact hcur
    · have heven : (curstart + numbits.count (codelen + 1)) / 2 * 2 =
          curstart + numbits.count (codelen + 1) := by
        have hdvd := hwhole codelen hpos (lt_succ_self _)
        rw [← htotal, show 32 - codelen = 32 - (codelen + 1) + 1 by omega, pow_succ'] at hdvd
        exact Nat.div_mul_cancel (Nat.dvd_of_mul_dvd_mul_right (Nat.two_pow_pos _) hdvd)
      obtain ⟨starts', hstarts, habove, hbelow⟩ :=
        ih (le_of_succ_le hle) (half_mul hle heven htotal)
        (fun L hL hlt ↦ hwhole L hL (lt_succ_of_lt hlt)) (update starts (codelen + 1) curstart)
      refine ⟨starts', ?_, fun L hL ↦ ?_, fun L hL hL' ↦ ?_⟩
      · rw [startingCodes, if_neg (fun h ↦ h.2 heven)]
        exact hstarts
      · rw [habove L (lt_of_succ_lt hL), update_of_ne hL.ne']
      · rcases Nat.lt_or_eq_of_le hL' with hlt | rfl
        · exact hbelow L hL (le_of_lt_succ hlt)
        · rw [habove _ (lt_succ_self _), update_self]
          exact hcur

/-- The sums are whole if the first numbers are there. -/
theorem whole_of_startingCodes (hle : codelen ≤ 32)
    (hcur : curstart * 2 ^ (32 - codelen) = kraftAbove 32 numbits codelen) {starts starts' : ℕ → ℕ}
    (h : startingCodes (fun l ↦ numbits.count l) codelen curstart starts = some starts') :
    Whole numbits codelen := by
  induction codelen generalizing curstart starts with
  | zero => exact fun L _ hL' ↦ absurd hL' (Nat.not_lt_zero L)
  | succ codelen ih =>
    rcases Nat.eq_zero_or_pos codelen with rfl | hpos
    · exact fun L hL hL' ↦ absurd hL (Nat.not_lt.mpr (le_of_lt_succ hL'))
    · rw [startingCodes] at h
      split_ifs at h with hodd
      have heven : (curstart + numbits.count (codelen + 1)) / 2 * 2 =
          curstart + numbits.count (codelen + 1) := by
        by_contra hne
        exact hodd ⟨by omega, hne⟩
      have hhalf := half_mul hle heven (total_mul hcur)
      intro L hL hlt
      rcases Nat.lt_or_eq_of_le (le_of_lt_succ hlt) with hlt | rfl
      · exact ih (le_of_succ_le hle) hhalf h L hL hlt
      · exact Dvd.intro_left _ hhalf

/-- The sums of codes that take all strings are whole. -/
theorem whole_of_kraftSum (h : kraftSum 32 numbits = 2 ^ 32) : Whole numbits 32 :=
  fun _ _ hL ↦ dvd_kraftAbove h hL.le

theorem length_giveCodes (numbits : List ℕ) (next : ℕ → ℕ) :
    (giveCodes numbits next).length = numbits.length := by
  induction numbits generalizing next with
  | nil => rfl
  | cons n numbits ih =>
    rw [giveCodes]
    split_ifs
    · rw [length_cons, length_cons, ih]
    · rw [length_cons, length_cons, ih]

/-- The numbers of the codes are those that are free. -/
theorem inRoom_giveCodes {code : ℕ × ℕ} (hmem : code ∈ (giveCodes numbits next).zip numbits)
    (hpos : 0 < code.2) : InRoom next numbits code := by
  induction numbits generalizing next with
  | nil => exact absurd hmem (not_mem_nil)
  | cons n numbits ih =>
    rw [giveCodes] at hmem
    split_ifs at hmem with hn
    · rcases List.mem_cons.mp hmem with rfl | hmem
      · refine ⟨Nat.le_refl _, ?_⟩
        dsimp only
        rw [count_cons_self]
        omega
      · obtain ⟨hfirst, hlast⟩ := ih hmem
        by_cases heq : code.2 = n
        · rw [InRoom, heq, count_cons_self]
          rw [heq, update_self] at hfirst hlast
          omega
        · rw [InRoom, count_cons_of_ne (Ne.symm heq)]
          rw [update_of_ne heq] at hfirst hlast
          exact ⟨hfirst, hlast⟩
    · rcases List.mem_cons.mp hmem with rfl | hmem
      · exact absurd hpos hn
      · have hne : n ≠ code.2 := by omega
        rw [InRoom, count_cons_of_ne hne]
        exact ih hmem

/-- Every number that is free is given to a code. -/
theorem mem_giveCodes {n v : ℕ} (hn : 0 < n) (hin : InRoom next numbits (v, n)) :
    (v, n) ∈ (giveCodes numbits next).zip numbits := by
  induction numbits generalizing next with
  | nil => exact absurd hin.2 (Nat.not_lt.mpr hin.1)
  | cons n' numbits ih =>
    obtain ⟨hfirst, hlast⟩ := hin
    dsimp only at hfirst hlast
    rw [giveCodes]
    by_cases hsame : n' = n
    · subst hsame
      rw [if_pos hn, zip_cons_cons]
      rw [count_cons_self] at hlast
      rcases Nat.eq_or_lt_of_le hfirst with rfl | hlt
      · exact mem_cons_self
      · refine mem_cons_of_mem _ (ih ⟨?_, ?_⟩)
        · rw [update_self]
          exact hlt
        · rw [update_self]
          dsimp only
          omega
    · rw [count_cons_of_ne hsame] at hlast
      split_ifs
      · refine mem_cons_of_mem _ (ih ⟨?_, ?_⟩)
        · rwa [update_of_ne (Ne.symm hsame)]
        · rwa [update_of_ne (Ne.symm hsame)]
      · exact mem_cons_of_mem _ (ih ⟨hfirst, hlast⟩)

/-- **The codes are a prefix code**, if they have the bits for their numbers. -/
theorem prefixFree_giveCodes {W : ℕ} (hroom : Room W next numbits) (hle : ∀ n ∈ numbits, n ≤ W)
    (hfits : ∀ code ∈ (giveCodes numbits next).zip numbits, 0 < code.2 → code.1 < 2 ^ code.2) :
    PrefixFree ((giveCodes numbits next).zip numbits) := by
  induction numbits generalizing next with
  | nil => exact .nil
  | cons n numbits ih =>
    have hrest {code : ℕ × ℕ} {bits : List ℕ} (hcode : code ∈ bits.zip numbits) : code.2 ≤ W :=
      hle _ (mem_cons_of_mem _ (of_mem_zip hcode).2)
    rw [giveCodes] at hfits ⊢
    split_ifs at hfits ⊢ with hn
    · refine List.pairwise_cons.mpr ⟨fun code hcode _ hpos ↦ ?_, ?_⟩
      · have hdisjoint :=
          hroom.disjoint hn (hle n mem_cons_self) hpos (hrest hcode) (inRoom_giveCodes hcode hpos)
        have hv := hfits (next n, n) mem_cons_self hn
        have hu := hfits code (mem_cons_of_mem _ hcode) hpos
        exact ⟨not_begins (hle n mem_cons_self) (hrest hcode) hv hu hdisjoint,
          not_begins (hrest hcode) (hle n mem_cons_self) hu hv hdisjoint.symm⟩
      · exact ih hroom.tail (fun n' hn' ↦ hle n' (mem_cons_of_mem _ hn'))
          fun code hcode ↦ hfits code (mem_cons_of_mem _ hcode)
    · refine List.pairwise_cons.mpr ⟨fun code _ hpos ↦ absurd hpos hn, ?_⟩
      refine ih (fun i m hi him hm ↦ ?_) (fun n' hn' ↦ hle n' (mem_cons_of_mem _ hn'))
        fun code hcode ↦ hfits code (mem_cons_of_mem _ hcode)
      have h := hroom i m hi him hm
      rwa [count_cons_of_ne (by omega)] at h

/-- What `assign_canonical_codes` gives out. -/
structure Canonical (numbits bits : List ℕ) : Prop where
  length : bits.length = numbits.length
  fits : ∀ code ∈ bits.zip numbits, 0 < code.2 → code.1 < 2 ^ code.2
  prefixFree : PrefixFree (bits.zip numbits)

variable {maxbits : ℕ}

theorem curstart_zero (h : ∀ n ∈ numbits, n ≤ 32) :
    0 * 2 ^ (32 - 32) = kraftAbove 32 numbits 32 := by
  rw [Nat.zero_mul, kraftAbove_of_le h]

theorem any_maxbits_iff : numbits.any (maxbits < ·) ↔ ¬ ∀ n ∈ numbits, n ≤ maxbits := by
  simp only [any_eq_true, decide_eq_true_eq, not_forall, Nat.not_le, exists_prop]

theorem whole_of_assignCanonicalCodes
    (hmax : maxbits ≤ 32) (h : assignCanonicalCodes maxbits numbits = .ok bits) :
    (∀ n ∈ numbits, n ≤ maxbits) ∧ Whole numbits 32 := by
  rw [assignCanonicalCodes] at h
  split_ifs at h with hany
  have hle : ∀ n ∈ numbits, n ≤ maxbits := not_not.mp fun hno ↦ hany (any_maxbits_iff.mpr hno)
  refine ⟨hle, ?_⟩
  cases hstarts : startingCodes (fun l ↦ numbits.count l) 32 0 fun _ ↦ 0 with
  | none =>
    rw [hstarts] at h
    cases h
  | some starts =>
    exact whole_of_startingCodes (Nat.le_refl 32)
      (curstart_zero fun n hn ↦ (hle n hn).trans hmax) hstarts

/-- Whole sums have codes: those of a length stand where the sum of the codes above them ends. -/
theorem exists_giveCodes (hmax : maxbits ≤ 32) (hle : ∀ n ∈ numbits, n ≤ maxbits)
    (hwhole : Whole numbits 32) :
    ∃ starts, assignCanonicalCodes maxbits numbits = .ok (giveCodes numbits starts) ∧
      ∀ L, 0 < L → L ≤ 32 → starts L * 2 ^ (32 - L) = kraftAbove 32 numbits L ∧
        (starts L + numbits.count L) * 2 ^ (32 - L) = kraftAbove 32 numbits (L - 1) := by
  obtain ⟨starts, hstarts, -, hsums⟩ := exists_startingCodes (Nat.le_refl 32)
    (curstart_zero fun n hn ↦ (hle n hn).trans hmax) hwhole fun _ ↦ 0
  refine ⟨starts, ?_, fun L hL hL' ↦ ⟨hsums L hL hL', ?_⟩⟩
  · rw [assignCanonicalCodes, if_neg fun hany ↦ any_maxbits_iff.mp hany hle, hstarts]
  · obtain ⟨L, rfl⟩ := exists_eq_succ_of_ne_zero hL.ne'
    exact total_mul (hsums _ hL hL')

/-- **Codes that are not too many are a prefix code.** -/
theorem canonical_of_kraftSum
    (hmax : maxbits ≤ 32) (hbits : assignCanonicalCodes maxbits numbits = .ok bits)
    (hsum : kraftSum 32 numbits ≤ 2 ^ 32) : Canonical numbits bits := by
  obtain ⟨hle, hwhole⟩ := whole_of_assignCanonicalCodes hmax hbits
  have hle32 : ∀ n ∈ numbits, n ≤ 32 := fun n hn ↦ (hle n hn).trans hmax
  obtain ⟨starts, hstarts, hsums⟩ := exists_giveCodes hmax hle hwhole
  cases hbits.symm.trans hstarts
  have hfits : ∀ code ∈ (giveCodes numbits starts).zip numbits, 0 < code.2 →
      code.1 < 2 ^ code.2 := by
    intro code hcode hpos
    have hlen := hle32 _ (of_mem_zip hcode).2
    have hbound : (code.1 + 1) * 2 ^ (32 - code.2) ≤ 2 ^ code.2 * 2 ^ (32 - code.2) :=
      calc (code.1 + 1) * 2 ^ (32 - code.2)
          ≤ (starts code.2 + numbits.count code.2) * 2 ^ (32 - code.2) :=
            Nat.mul_le_mul_right _ (inRoom_giveCodes hcode hpos).2
        _ = kraftAbove 32 numbits (code.2 - 1) := (hsums _ hpos hlen).2
        _ ≤ kraftSum 32 numbits := kraftAbove_le 32 numbits _
        _ ≤ 2 ^ 32 := hsum
        _ = 2 ^ code.2 * 2 ^ (32 - code.2) := by rw [← pow_add, Nat.add_sub_cancel' hlen]
    exact Nat.le_of_mul_le_mul_right hbound (Nat.two_pow_pos _)
  refine ⟨length_giveCodes numbits starts, hfits,
    prefixFree_giveCodes (fun n m hn hnm hm ↦ ?_) hle32 hfits⟩
  rw [(hsums m (hn.trans hnm) hm).2, (hsums n hn (hnm.le.trans hm)).1]
  exact kraftAbove_anti (le_sub_one_of_lt hnm)

/-- **Codes that are too many have one that does not fit**: the first number behind those of its
length. -/
theorem exists_code_of_kraftSum (hmax : maxbits ≤ 32)
    (hbits : assignCanonicalCodes maxbits numbits = .ok bits)
    (hsum : 2 ^ 32 < kraftSum 32 numbits) : ∃ n, 0 < n ∧ (2 ^ n, n) ∈ bits.zip numbits := by
  obtain ⟨hle, hwhole⟩ := whole_of_assignCanonicalCodes hmax hbits
  obtain ⟨starts, hstarts, hsums⟩ := exists_giveCodes hmax hle hwhole
  cases hbits.symm.trans hstarts
  -- the length at which the sum goes over all strings
  obtain ⟨n, hn, hn', hbelow, habove⟩ : ∃ n, 0 < n ∧ n ≤ 32 ∧ kraftAbove 32 numbits n ≤ 2 ^ 32 ∧
      2 ^ 32 < kraftAbove 32 numbits (n - 1) := by
    have hend : kraftAbove 32 numbits 32 ≤ 2 ^ 32 := by
      rw [kraftAbove_of_le fun n hn ↦ (hle n hn).trans hmax]
      exact Nat.zero_le _
    have hex : ∃ n, kraftAbove 32 numbits n ≤ 2 ^ 32 := ⟨32, hend⟩
    have hpos : 0 < Nat.find hex := by
      refine Nat.pos_of_ne_zero fun hzero ↦ ?_
      have hspec := Nat.find_spec hex
      rw [hzero, kraftAbove_zero] at hspec
      exact absurd hspec (Nat.not_le.mpr hsum)
    exact ⟨Nat.find hex, hpos, Nat.find_min' hex hend, Nat.find_spec hex,
      Nat.lt_of_not_le (Nat.find_min hex (sub_lt hpos Nat.one_pos))⟩
  obtain ⟨hfirst, hlast⟩ := hsums n hn hn'
  have hall : 2 ^ n * 2 ^ (32 - n) = 2 ^ 32 := by rw [← pow_add, Nat.add_sub_cancel' hn']
  rw [← hfirst, ← hall] at hbelow
  rw [← hlast, ← hall] at habove
  exact ⟨n, hn, mem_giveCodes hn ⟨Nat.le_of_mul_le_mul_right hbelow (Nat.two_pow_pos _),
    Nat.lt_of_mul_lt_mul_right habove⟩⟩

end RoscoEmulator.Util
