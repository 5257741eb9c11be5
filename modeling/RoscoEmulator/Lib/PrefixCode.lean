import RoscoEmulator.Lib.BitString

/-!
# Prefix codes

A code is a number with its number of bits, and stands for the strings of `W` bits that begin with
it. As numbers, these are an interval: codes with disjoint intervals are not the start of each
other. The share of the strings that the codes take is counted by the Kraft sum of their lengths,
and `kraftAbove` is the part of it that the codes above a length have. A code of no bits is none. -/

namespace RoscoEmulator.PrefixCode

open Nat Function List BitString

/-- No code is the start of another one. -/
def PrefixFree (codes : List (ℕ × ℕ)) : Prop :=
  codes.Pairwise fun a b ↦ 0 < a.2 → 0 < b.2 →
    ¬ field a.2 a.1 <+: field b.2 b.1 ∧ ¬ field b.2 b.1 <+: field a.2 a.1

instance : DecidablePred PrefixFree := fun codes ↦
  inferInstanceAs (Decidable (codes.Pairwise fun a b ↦ 0 < a.2 → 0 < b.2 →
    ¬ field a.2 a.1 <+: field b.2 b.1 ∧ ¬ field b.2 b.1 <+: field a.2 a.1))

/-- A code that begins another one is its first bits. -/
theorem eq_div_of_prefix {n v m u : ℕ} (hv : v < 2 ^ n) (hu : u < 2 ^ m)
    (h : field n v <+: field m u) : n ≤ m ∧ v = u / 2 ^ (m - n) := by
  have hle : n ≤ m := by
    have hlength := h.length_le
    rwa [length_field, length_field] at hlength
  refine ⟨hle, eq_of_testBit_eq fun j ↦ ?_⟩
  rw [testBit_div_two_pow]
  by_cases hj : j < n
  · obtain ⟨s, hs⟩ := h
    have hbit : (field m u).getD (n - 1 - j) false = v.testBit (n - 1 - (n - 1 - j)) := by
      rw [← hs, getD_field_append (by omega)]
    rw [getD_field (by omega), show m - 1 - (n - 1 - j) = j + (m - n) by omega,
      show n - 1 - (n - 1 - j) = j by omega] at hbit
    exact hbit.symm
  · have hzero {x w i : ℕ} (hx : x < 2 ^ w) (hi : w ≤ i) : x.testBit i = false :=
      testBit_lt_two_pow (hx.trans_le (Nat.pow_le_pow_right Nat.two_pos hi))
    rw [hzero hv (Nat.le_of_not_lt hj), hzero hu (by omega)]

/-- The first bits of a code begin it. -/
theorem prefix_of_div {n m : ℕ} (hle : n ≤ m) (u : ℕ) :
    field n (u / 2 ^ (m - n)) <+: field m u := by
  refine List.prefix_iff_eq_take.mpr (ext_getElem ?_ fun i hi hi' ↦ ?_)
  · rw [length_take, length_field, length_field, Nat.min_eq_left hle]
  · rw [length_field] at hi
    rw [getElem_take, ← getD_eq_getElem _ false, ← getD_eq_getElem _ false, getD_field hi,
      getD_field (hi.trans_le hle), testBit_div_two_pow]
    congr 1
    omega

/-- **A code with a disjoint interval is not the start.** -/
theorem not_begins {W n v m u : ℕ} (hn : n ≤ W) (hm : m ≤ W) (hv : v < 2 ^ n) (hu : u < 2 ^ m)
    (hdisjoint : (v + 1) * 2 ^ (W - n) ≤ u * 2 ^ (W - m) ∨
    (u + 1) * 2 ^ (W - m) ≤ v * 2 ^ (W - n)) : ¬ field n v <+: field m u := by
  intro hbegins
  obtain ⟨hle, rfl⟩ := eq_div_of_prefix hv hu hbegins
  have hpow : 2 ^ (W - n) = 2 ^ (m - n) * 2 ^ (W - m) := by
    rw [← pow_add, show m - n + (W - m) = W - n by omega]
  have hpos : 0 < 2 ^ (W - m) := Nat.two_pow_pos _
  have hbelow : u / 2 ^ (m - n) * 2 ^ (m - n) ≤ u := div_mul_le_self _ _
  have habove : u < (u / 2 ^ (m - n) + 1) * 2 ^ (m - n) := by
    rw [Nat.add_mul, Nat.one_mul]
    exact lt_div_mul_add (Nat.two_pow_pos _)
  rw [hpow, ← Nat.mul_assoc, ← Nat.mul_assoc] at hdisjoint
  rcases hdisjoint with h | h
  · exact absurd (Nat.le_of_mul_le_mul_right h hpos) (Nat.not_le.mpr habove)
  · exact absurd (Nat.le_of_mul_le_mul_right h hpos) (Nat.not_le.mpr (lt_succ_of_le hbelow))

/-- A string begins with one code of a prefix code at most. -/
theorem PrefixFree.eq_of_div {codes : List (ℕ × ℕ)} (h : PrefixFree codes) {W s i j : ℕ}
    {a b : ℕ × ℕ} (ha : codes[i]? = some a) (hb : codes[j]? = some b)
    (hpos : 0 < a.2 ∧ 0 < b.2) (hle : a.2 ≤ W ∧ b.2 ≤ W)
    (hadiv : s / 2 ^ (W - a.2) = a.1) (hbdiv : s / 2 ^ (W - b.2) = b.1) : i = j := by
  have hbegins {c d : ℕ × ℕ} (hcd : c.2 ≤ d.2) (hd : d.2 ≤ W) (hc : s / 2 ^ (W - c.2) = c.1)
      (hddiv : s / 2 ^ (W - d.2) = d.1) : field c.2 c.1 <+: field d.2 d.1 := by
    have hfirst : c.1 = d.1 / 2 ^ (d.2 - c.2) := by
      rw [← hc, ← hddiv, Nat.div_div_eq_div_mul, ← pow_add,
        show W - d.2 + (d.2 - c.2) = W - c.2 by omega]
    rw [hfirst]
    exact prefix_of_div hcd d.1
  obtain ⟨hi, rfl⟩ := List.getElem?_eq_some_iff.mp ha
  obtain ⟨hj, rfl⟩ := List.getElem?_eq_some_iff.mp hb
  have hfree := List.pairwise_iff_getElem.mp h
  rcases Nat.lt_trichotomy i j with hlt | heq | hgt
  · obtain ⟨hab, hba⟩ := hfree i j hi hj hlt hpos.1 hpos.2
    rcases Nat.le_total codes[i].2 codes[j].2 with hcmp | hcmp
    · exact absurd (hbegins hcmp hle.2 hadiv hbdiv) hab
    · exact absurd (hbegins hcmp hle.1 hbdiv hadiv) hba
  · exact heq
  · obtain ⟨hba, hab⟩ := hfree j i hj hi hgt hpos.2 hpos.1
    rcases Nat.le_total codes[i].2 codes[j].2 with hcmp | hcmp
    · exact absurd (hbegins hcmp hle.2 hadiv hbdiv) hab
    · exact absurd (hbegins hcmp hle.1 hbdiv hadiv) hba

/-! ## The Kraft sum -/

section KraftSum

variable {W : ℕ} {lengths : List ℕ}

/-- The number of the strings of `W` bits that begin with one of the codes of these lengths. -/
def kraftSum (W : ℕ) (lengths : List ℕ) : ℕ :=
  (lengths.map fun l ↦ if l = 0 then 0 else 2 ^ (W - l)).sum

/-- Those that begin with a code above a length. -/
def kraftAbove (W : ℕ) (lengths : List ℕ) (L : ℕ) : ℕ :=
  (lengths.map fun l ↦ if L < l then 2 ^ (W - l) else 0).sum

theorem kraftAbove_cons (W l : ℕ) (lengths : List ℕ) (L : ℕ) :
    kraftAbove W (l :: lengths) L = (if L < l then 2 ^ (W - l) else 0) + kraftAbove W lengths L :=
  rfl

theorem kraftAbove_zero (W : ℕ) (lengths : List ℕ) :
    kraftAbove W lengths 0 = kraftSum W lengths := by
  refine congrArg sum (map_congr_left fun l _ ↦ ?_)
  rcases Nat.eq_zero_or_pos l with rfl | hl
  · rw [if_neg (Nat.lt_irrefl 0), if_pos rfl]
  · rw [if_pos hl, if_neg hl.ne']

variable {L : ℕ}

/-- Nothing is above the largest length. -/
theorem kraftAbove_of_le (h : ∀ l ∈ lengths, l ≤ L) : kraftAbove W lengths L = 0 := by
  induction lengths with
  | nil => rfl
  | cons l lengths ih =>
    rw [kraftAbove_cons, if_neg (Nat.not_lt.mpr (h l mem_cons_self)),
      ih fun l' hl' ↦ h l' (mem_cons_of_mem _ hl')]

/-- The codes of a length come to those that are longer. -/
theorem kraftAbove_succ (W : ℕ) (lengths : List ℕ) (L : ℕ) : kraftAbove W lengths L =
    kraftAbove W lengths (L + 1) + lengths.count (L + 1) * 2 ^ (W - (L + 1)) := by
  induction lengths with
  | nil =>
    rw [count_nil, Nat.zero_mul]
    rfl
  | cons l lengths ih =>
    rw [kraftAbove_cons, kraftAbove_cons, ih, count_cons]
    rcases Nat.lt_trichotomy l (L + 1) with hlt | rfl | hgt
    · rw [if_neg (by omega), if_neg (by omega), if_neg (by simpa using hlt.ne)]
      ring
    · rw [if_pos (by omega), if_neg (by omega), if_pos (by simp)]
      ring
    · rw [if_pos (by omega), if_pos hgt, if_neg (by simpa using hgt.ne')]
      ring

/-- The codes above a length are some of those above a smaller one. -/
theorem kraftAbove_anti {L' : ℕ} (h : L ≤ L') :
    kraftAbove W lengths L' ≤ kraftAbove W lengths L := by
  induction h with
  | refl => exact Nat.le_refl _
  | @step m _ ih =>
    refine Nat.le_trans ?_ ih
    rw [kraftAbove_succ W lengths m]
    exact Nat.le_add_right _ _

theorem kraftAbove_le (W : ℕ) (lengths : List ℕ) (L : ℕ) :
    kraftAbove W lengths L ≤ kraftSum W lengths :=
  (kraftAbove_anti (Nat.zero_le L)).trans_eq (kraftAbove_zero W lengths)

/-- What the codes up to a length take are intervals of a code of this length. -/
theorem dvd_kraftSum_sub (W : ℕ) (lengths : List ℕ) (hL : L ≤ W) :
    ∃ k, kraftSum W lengths = kraftAbove W lengths L + k * 2 ^ (W - L) := by
  rw [← kraftAbove_zero]
  induction L with
  | zero => exact ⟨0, by rw [Nat.zero_mul, Nat.add_zero]⟩
  | succ L ih =>
    obtain ⟨k, hk⟩ := ih (by omega)
    refine ⟨lengths.count (L + 1) + 2 * k, ?_⟩
    rw [hk, kraftAbove_succ W lengths L, show W - L = W - (L + 1) + 1 by omega, pow_succ]
    ring

/-- If the codes take all strings, those above a length fill the intervals of codes of this
length. -/
theorem dvd_kraftAbove (h : kraftSum W lengths = 2 ^ W) (hL : L ≤ W) :
    2 ^ (W - L) ∣ kraftAbove W lengths L := by
  obtain ⟨k, hk⟩ := dvd_kraftSum_sub W lengths hL
  refine (Nat.dvd_add_left (Dvd.intro_left k rfl)).mp ?_
  rw [← hk, h]
  exact pow_dvd_pow 2 (sub_le W L)

/-- More bits for the strings. -/
theorem kraftSum_add (h : ∀ l ∈ lengths, l ≤ W) (k : ℕ) :
    kraftSum (W + k) lengths = kraftSum W lengths * 2 ^ k := by
  induction lengths with
  | nil => exact (Nat.zero_mul _).symm
  | cons l lengths ih =>
    have hl := h l mem_cons_self
    have hrest := ih fun l' hl' ↦ h l' (mem_cons_of_mem _ hl')
    rw [kraftSum, map_cons, sum_cons, ← kraftSum, hrest, kraftSum, kraftSum, map_cons, sum_cons,
      Nat.add_mul]
    split_ifs
    · rw [Nat.zero_mul]
    · rw [← pow_add, show W + k - l = W - l + k by omega]

end KraftSum

/-! ## Codes in the order of their lengths -/

/-- The longer codes are in front of the shorter ones, with room for the codes of these lengths from
the numbers `next` on. -/
def Room (W : ℕ) (next : ℕ → ℕ) (lengths : List ℕ) : Prop :=
  ∀ n m, 0 < n → n < m → m ≤ W → (next m + lengths.count m) * 2 ^ (W - m) ≤ next n * 2 ^ (W - n)

/-- A code that the numbers from `next` on have room for. -/
def InRoom (next : ℕ → ℕ) (lengths : List ℕ) (code : ℕ × ℕ) : Prop :=
  next code.2 ≤ code.1 ∧ code.1 < next code.2 + lengths.count code.2

section Room

variable {W : ℕ} {next : ℕ → ℕ} {lengths : List ℕ} {n : ℕ}

theorem Room.tail (h : Room W next (n :: lengths)) :
    Room W (update next n (next n + 1)) lengths := by
  intro i m hi him hm
  have hroom := h i m hi him hm
  rw [count_cons] at hroom
  have hm' : (update next n (next n + 1) m + lengths.count m) =
      next m + (lengths.count m + if (n == m) = true then 1 else 0) := by
    by_cases hnm : n = m
    · rw [← hnm, update_self, if_pos (beq_self_eq_true n)]
      omega
    · rw [update_of_ne (Ne.symm hnm), if_neg (by simpa using hnm), Nat.add_zero]
  have hi' : next i ≤ update next n (next n + 1) i := by
    by_cases hni : i = n
    · rw [hni, update_self]
      exact le_succ _
    · rw [update_of_ne hni]
  rw [hm']
  exact hroom.trans (Nat.mul_le_mul_right _ hi')

/-- A code with a number that is still free has another interval than the one that is given away. -/
theorem Room.disjoint (h : Room W next (n :: lengths)) (hn : 0 < n) (hle : n ≤ W) {code : ℕ × ℕ}
    (hpos : 0 < code.2)
    (hcode : code.2 ≤ W) (hin : InRoom (update next n (next n + 1)) lengths code) :
    (next n + 1) * 2 ^ (W - n) ≤ code.1 * 2 ^ (W - code.2) ∨
      (code.1 + 1) * 2 ^ (W - code.2) ≤ next n * 2 ^ (W - n) := by
  obtain ⟨v, m⟩ := code
  obtain ⟨hfirst, hlast⟩ := hin
  rcases Nat.lt_trichotomy m n with hlt | rfl | hgt
  · -- the shorter ones begin behind all of this length
    rw [update_of_ne hlt.ne] at hfirst
    have hroom := h m n hpos hlt hle
    rw [count_cons_self] at hroom
    refine .inl ((Nat.mul_le_mul_right _ ?_).trans (hroom.trans (Nat.mul_le_mul_right _ hfirst)))
    omega
  · rw [update_self] at hfirst
    exact .inl (Nat.mul_le_mul_right _ hfirst)
  · rw [update_of_ne hgt.ne'] at hlast
    have hroom := h n m hn hgt hcode
    rw [count_cons_of_ne hgt.ne] at hroom
    exact .inr ((Nat.mul_le_mul_right _ hlast).trans hroom)

end Room

end RoscoEmulator.PrefixCode
