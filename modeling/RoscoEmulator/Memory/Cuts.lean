import RoscoEmulator.Lib.RangeMap
import RoscoEmulator.Memory.Handlers

/-!
# Cutting the ranges

What `range_cut_before` and `range_cut_after` do to the ranges that `lookup` finds. They walk from
an entry to the first one whose range needs no cut, or to one that is a table, in which they cut and
stop. If the ranges are ordered, and no range in a table covers the block of it, they cut all ranges
on their side of the entry. -/

namespace RoscoEmulator.Memory

open Nat RangeMap

variable {α H : Type*}

/-! ## The two loops -/

/-- What `range_cut_before` does when it comes to the entry `k`. -/
structure CutBefore (cut : α → Option α) (address start k : ℕ) (t t' : Table α) : Prop where
  le : k ≤ start
  others : ∀ i, i < k ∨ start ≤ i → t'.dispatch i = t.dispatch i ∧ t'.range i = t.range i
  cuts : ∀ i, k ≤ i → i < start →
    (cut (t.dispatch i) = none ∧ address < (t.range i).stop ∧ t'.dispatch i = t.dispatch i ∧
      t'.range i = ⟨(t.range i).start, address⟩) ∨
    (i = k ∧ cut (t.dispatch i) = some (t'.dispatch i) ∧ t'.range i = t.range i)
  ends : k = 0 ∨ (cut (t.dispatch (k - 1)) = none ∧ (t.range (k - 1)).stop ≤ address) ∨
    (k < start ∧ cut (t.dispatch k) ≠ none)

theorem exists_cutBefore (cut : α → Option α) (address start : ℕ) (t : Table α) :
    ∃ k, CutBefore cut address start k t (t.rangeCutBefore cut address start) := by
  induction start generalizing t with
  | zero =>
    exact ⟨0, le_rfl, fun _ _ ↦ ⟨rfl, rfl⟩, fun _ _ hi ↦ absurd hi (Nat.not_lt_zero _), Or.inl rfl⟩
  | succ start ih =>
    rw [Table.rangeCutBefore]
    rcases hcut : cut (t.dispatch start) with _ | e
    · split_ifs with hstop
      · refine ⟨start + 1, le_rfl, fun _ _ ↦ ⟨rfl, rfl⟩,
          fun _ hk hi ↦ absurd hi (Nat.not_lt.mpr hk), ?_⟩
        exact Or.inr (Or.inl ⟨hcut, hstop⟩)
      · obtain ⟨k, hle, hothers, hcuts, hends⟩ :=
          ih (t.setRange start { t.range start with stop := address })
        have hself := hothers start (Or.inr le_rfl)
        rw [Table.setRange_self] at hself
        have hrange : ∀ i, i ≠ start →
            (t.setRange start { t.range start with stop := address }).range i = t.range i :=
          fun i hi ↦ t.setRange_of_ne hi _
        refine ⟨k, le_succ_of_le hle, ?_, ?_, ?_⟩
        · intro i hi
          obtain ⟨hdispatch, hi'⟩ := hothers i (by omega)
          rw [hrange i (by omega)] at hi'
          exact ⟨hdispatch, hi'⟩
        · intro i hk hi
          by_cases his : i = start
          · subst his
            exact Or.inl ⟨hcut, Nat.not_le.mp hstop, hself⟩
          · have hi' := hcuts i hk (by omega)
            rwa [hrange i his] at hi'
        · rcases hends with hzero | ⟨hnone, hends⟩ | ⟨hlt, hsome⟩
          · exact Or.inl hzero
          · by_cases hk : k = 0
            · exact Or.inl hk
            · rw [hrange (k - 1) (by omega)] at hends
              exact Or.inr (Or.inl ⟨hnone, hends⟩)
          · exact Or.inr (Or.inr ⟨lt_succ_of_lt hlt, hsome⟩)
    · refine ⟨start, le_succ start, ?_, ?_, Or.inr (Or.inr ⟨lt_succ_self start, by simp [hcut]⟩)⟩
      · intro i hi
        exact ⟨t.setDispatch_of_ne (by omega) e, rfl⟩
      · intro i hk hi
        obtain rfl : i = start := by omega
        exact Or.inr ⟨rfl, hcut.trans (congrArg some (t.setDispatch_self i e).symm), rfl⟩

/-- What `range_cut_after` does when it comes to the entry before `k`. -/
structure CutAfter (cut : α → Option α) (address first last k : ℕ) (t t' : Table α) : Prop where
  ge : first ≤ k
  le : k ≤ last
  others : ∀ i, i < first ∨ k ≤ i → t'.dispatch i = t.dispatch i ∧ t'.range i = t.range i
  cuts : ∀ i, first ≤ i → i < k →
    (cut (t.dispatch i) = none ∧ (t.range i).start < address ∧ t'.dispatch i = t.dispatch i ∧
      t'.range i = ⟨address, (t.range i).stop⟩) ∨
    (i + 1 = k ∧ cut (t.dispatch i) = some (t'.dispatch i) ∧ t'.range i = t.range i)
  ends : k = last ∨ (cut (t.dispatch k) = none ∧ address ≤ (t.range k).start) ∨
    (first < k ∧ cut (t.dispatch (k - 1)) ≠ none)

theorem exists_cutAfter (cut : α → Option α) (address n first : ℕ) (t : Table α) :
    ∃ k, CutAfter cut address first (first + n) k t (t.rangeCutAfterFrom cut address n first) := by
  induction n generalizing first t with
  | zero =>
    exact ⟨first, le_rfl, le_rfl, fun _ _ ↦ ⟨rfl, rfl⟩, fun _ hk hi ↦ absurd hi (Nat.not_lt.mpr hk),
      Or.inl rfl⟩
  | succ n ih =>
    rw [Table.rangeCutAfterFrom]
    rcases hcut : cut (t.dispatch first) with _ | e
    · split_ifs with hstart
      · refine ⟨first,
          le_rfl, by omega, fun _ _ ↦ ⟨rfl, rfl⟩, fun _ hk hi ↦ absurd hi (Nat.not_lt.mpr hk), ?_⟩
        exact Or.inr (Or.inl ⟨hcut, hstart⟩)
      · obtain ⟨k, hge, hle, hothers, hcuts, hends⟩ :=
          ih (first + 1) (t.setRange first { t.range first with start := address })
        have hself := hothers first (Or.inl (lt_succ_self first))
        rw [Table.setRange_self] at hself
        have hrange : ∀ i, i ≠ first →
            (t.setRange first { t.range first with start := address }).range i = t.range i :=
          fun i hi ↦ t.setRange_of_ne hi _
        refine ⟨k, by omega, by omega, ?_, ?_, ?_⟩
        · intro i hi
          obtain ⟨hdispatch, hi'⟩ := hothers i (by omega)
          rw [hrange i (by omega)] at hi'
          exact ⟨hdispatch, hi'⟩
        · intro i hk hi
          by_cases his : i = first
          · subst his
            exact Or.inl ⟨hcut, Nat.not_le.mp hstart, hself⟩
          · have hi' := hcuts i (by omega) hi
            rwa [hrange i his] at hi'
        · rcases hends with hlast | ⟨hnone, hends⟩ | ⟨hlt, hsome⟩
          · exact Or.inl (by omega)
          · rw [hrange k (by omega)] at hends
            exact Or.inr (Or.inl ⟨hnone, hends⟩)
          · exact Or.inr (Or.inr ⟨by omega, hsome⟩)
    · refine ⟨first + 1, le_succ first, by omega, ?_, ?_,
        Or.inr (Or.inr ⟨lt_succ_self first, by simp [hcut]⟩)⟩
      · intro i hi
        exact ⟨t.setDispatch_of_ne (by omega) e, rfl⟩
      · intro i hk hi
        obtain rfl : i = first := by omega
        exact Or.inr ⟨rfl, hcut.trans (congrArg some (t.setDispatch_self i e).symm), rfl⟩

/-! ## The lower level -/

namespace LowDispatch

/-- What `lookup` finds, as a map. -/
def map (highBits unit : ℕ) (t : LowDispatch H) : RangeMap H where
  lo a := (lookup highBits unit a t).1.start
  hi a := (lookup highBits unit a t).1.stop
  handler a := (lookup highBits unit a t).2

variable {highBits unit : ℕ}

section

variable (h : unit ≤ highBits)
include h

theorem lo_map (t : LowDispatch H) (a : ℕ) :
    (map highBits unit t).lo a = (t.range (dispatchEntry highBits unit a)).start := by
  rw [← slot_eq_dispatchEntry h]
  rfl

theorem hi_map (t : LowDispatch H) (a : ℕ) :
    (map highBits unit t).hi a = (t.range (dispatchEntry highBits unit a)).stop := by
  rw [← slot_eq_dispatchEntry h]
  rfl

theorem dispatchEntry_first (block : ℕ) {i : ℕ} (hi : i < count highBits unit) :
    dispatchEntry highBits unit (2 ^ highBits * block + i * 2 ^ unit) = i ∧
      i * 2 ^ unit < 2 ^ highBits := by
  have hpow : 2 ^ highBits = count highBits unit * 2 ^ unit := by
    rw [count, ← Nat.pow_add, Nat.sub_add_cancel h]
  have hlt : i * 2 ^ unit < 2 ^ highBits := by
    rw [hpow]
    exact Nat.mul_lt_mul_of_pos_right hi (Nat.two_pow_pos unit)
  refine ⟨?_, hlt⟩
  rw [dispatchEntry_eq h, mul_add_mod, mod_eq_of_lt hlt,
    Nat.mul_div_cancel i (Nat.two_pow_pos unit)]

/-- The entries below `i` are those of the addresses below the first address of `i`. -/
theorem dispatchEntry_lt_iff (a i : ℕ) :
    dispatchEntry highBits unit a < i ↔ a < 2 ^ highBits * (a / 2 ^ highBits) + i * 2 ^ unit := by
  rw [dispatchEntry_eq h, Nat.div_lt_iff_lt_mul (Nat.two_pow_pos unit)]
  have hdiv := div_add_mod a (2 ^ highBits)
  omega

theorem lo_rangeCutBefore (address start : ℕ) (t : LowDispatch H) (a : ℕ) :
    (map highBits unit (rangeCutBefore address start t)).lo a = (map highBits unit t).lo a := by
  obtain ⟨k, hk⟩ := exists_cutBefore noTable address start t
  rw [lo_map h, lo_map h, rangeCutBefore]
  set i := dispatchEntry highBits unit a
  by_cases hi : k ≤ i ∧ i < start
  · rcases hk.cuts i hi.1 hi.2 with ⟨-, -, -, hrange⟩ | ⟨-, -, hrange⟩ <;> rw [hrange]
  · rw [(hk.others i (by omega)).2]

theorem hi_rangeCutAfter (address first : ℕ) (t : LowDispatch H) (a : ℕ) :
    (map highBits unit (rangeCutAfter highBits unit address first t)).hi a =
      (map highBits unit t).hi a := by
  obtain ⟨k, hk⟩ := exists_cutAfter noTable address (count highBits unit - first) first t
  rw [hi_map h, hi_map h, rangeCutAfter, Table.rangeCutAfter]
  set i := dispatchEntry highBits unit a
  by_cases hi : first ≤ i ∧ i < k
  · rcases hk.cuts i hi.1 hi.2 with ⟨-, -, -, hrange⟩ | ⟨-, -, hrange⟩ <;> rw [hrange]
  · rw [(hk.others i (by omega)).2]

theorem hi_rangeCutBefore {address start : ℕ} {t : LowDispatch H}
    {a : ℕ} (hstart : start ≤ count highBits unit)
    (haddress : 2 ^ highBits * (a / 2 ^ highBits) + start * 2 ^ unit ≤ address + 1)
    (hord : HiOrdered (2 ^ highBits * (a / 2 ^ highBits))
      (2 ^ highBits * (a / 2 ^ highBits) + start * 2 ^ unit) (map highBits unit t).hi) :
    (map highBits unit (rangeCutBefore address start t)).hi a =
      if a < 2 ^ highBits * (a / 2 ^ highBits) + start * 2 ^ unit then
        min ((map highBits unit t).hi a) address
      else (map highBits unit t).hi a := by
  obtain ⟨k, hk⟩ := exists_cutBefore noTable address start t
  have hlt := dispatchEntry_lt_iff h a start
  rw [hi_map h, hi_map h, rangeCutBefore]
  simp only [← hlt]
  by_cases hi : dispatchEntry highBits unit a < start
  · rw [if_pos hi]
    by_cases hki : k ≤ dispatchEntry highBits unit a
    · rcases hk.cuts _ hki hi with ⟨-, hstop, -, hrange⟩ | ⟨-, hsome, -⟩
      · rw [hrange]
        exact (min_eq_right hstop.le).symm
      · simp [noTable] at hsome
    · -- the walk has ended above the entry, at one that needs no cut
      have hk₀ : k ≠ 0 := by omega
      have hends : (t.range (k - 1)).stop ≤ address := by
        rcases hk.ends with hzero | ⟨-, hends⟩ | ⟨-, hsome⟩
        · exact absurd hzero hk₀
        · exact hends
        · simp [noTable] at hsome
      rw [(hk.others _ (Or.inl (Nat.not_le.mp hki))).2]
      have hstop : (t.range (dispatchEntry highBits unit a)).stop ≤ address := by
        by_contra hgt
        have hle := hk.le
        obtain ⟨hentry, hfirst⟩ := dispatchEntry_first h (a / 2 ^ highBits)
          (show k - 1 < count highBits unit by omega)
        set b := 2 ^ highBits * (a / 2 ^ highBits) + (k - 1) * 2 ^ unit with hb
        rcases Nat.lt_or_ge (dispatchEntry highBits unit a) (k - 1) with hlt' | hge
        · have hab : a < b := (dispatchEntry_lt_iff h a (k - 1)).mp hlt'
          have hbstart : (k - 1) * 2 ^ unit < start * 2 ^ unit :=
            Nat.mul_lt_mul_of_pos_right (by omega) (Nat.two_pow_pos unit)
          have hblt : b < 2 ^ highBits * (a / 2 ^ highBits) + start * 2 ^ unit :=
            Nat.add_lt_add_left hbstart _
          have hord := hord a b (mul_div_le a _) hab.le hblt
          rw [hi_map h, hi_map h, hentry] at hord
          omega
        · obtain hsame : dispatchEntry highBits unit a = k - 1 := by omega
          rw [hsame] at hgt
          exact hgt hends
      omega
  · rw [if_neg hi, (hk.others _ (Or.inr (Nat.not_lt.mp hi))).2]

theorem lo_rangeCutAfter {address first : ℕ} {t : LowDispatch H} {a : ℕ}
    (haddress : address ≤ 2 ^ highBits * (a / 2 ^ highBits) + first * 2 ^ unit)
    (hord : LoOrdered (2 ^ highBits * (a / 2 ^ highBits) + first * 2 ^ unit)
      (2 ^ highBits * (a / 2 ^ highBits) + 2 ^ highBits) (map highBits unit t).lo) :
    (map highBits unit (rangeCutAfter highBits unit address first t)).lo a =
      if 2 ^ highBits * (a / 2 ^ highBits) + first * 2 ^ unit ≤ a then
        max ((map highBits unit t).lo a) address
      else (map highBits unit t).lo a := by
  obtain ⟨k, hk⟩ := exists_cutAfter noTable address (count highBits unit - first) first t
  have hlt := dispatchEntry_lt_iff h a first
  have hcount := dispatchEntry_lt_count h a
  have hle : 2 ^ highBits * (a / 2 ^ highBits) + first * 2 ^ unit ≤ a ↔
      first ≤ dispatchEntry highBits unit a := by omega
  rw [lo_map h, lo_map h, rangeCutAfter, Table.rangeCutAfter]
  simp only [hle]
  by_cases hi : first ≤ dispatchEntry highBits unit a
  · rw [if_pos hi]
    by_cases hki : dispatchEntry highBits unit a < k
    · rcases hk.cuts _ hi hki with ⟨-, hstart, -, hrange⟩ | ⟨-, hsome, -⟩
      · rw [hrange]
        exact (max_eq_right hstart.le).symm
      · simp [noTable] at hsome
    · -- the walk has ended below the entry, at one that needs no cut
      have hkge := hk.ge
      have hends : address ≤ (t.range k).start := by
        rcases hk.ends with hlast | ⟨-, hends⟩ | ⟨-, hsome⟩
        · omega
        · exact hends
        · simp [noTable] at hsome
      rw [(hk.others _ (Or.inr (Nat.not_lt.mp hki))).2]
      have hstart : address ≤ (t.range (dispatchEntry highBits unit a)).start := by
        by_contra hgt
        obtain ⟨hentry, hfirst⟩ := dispatchEntry_first h (a / 2 ^ highBits)
          (show k < count highBits unit by omega)
        set b := 2 ^ highBits * (a / 2 ^ highBits) + k * 2 ^ unit with hb
        have hba : b ≤ a := by
          have hnot := (dispatchEntry_lt_iff h a k).not.mp hki
          omega
        have hbfirst : first * 2 ^ unit ≤ k * 2 ^ unit := Nat.mul_le_mul_right _ hkge
        have halt : a < 2 ^ highBits * (a / 2 ^ highBits) + 2 ^ highBits :=
          lt_mul_div_succ a (Nat.two_pow_pos highBits)
        have hord := hord a b (Nat.add_le_add_left hbfirst _) hba halt
        rw [lo_map h, lo_map h, hentry] at hord
        omega
      omega
  · rw [if_neg hi, (hk.others _ (Or.inl (Nat.not_le.mp hi))).2]

end

variable {start stop ostart ostop a : ℕ}

section

variable (h : unit ≤ highBits)
include h

theorem block_add_entry (hblock : start / 2 ^ highBits = a / 2 ^ highBits)
    (hmod : start % 2 ^ unit = 0) :
    2 ^ highBits * (a / 2 ^ highBits) + dispatchEntry highBits unit start * 2 ^ unit = start := by
  have hdvd : 2 ^ unit ∣ start % 2 ^ highBits :=
    dvd_of_mod_eq_zero ((mod_mod_unit h start).trans hmod)
  rw [dispatchEntry_eq h, Nat.div_mul_cancel hdvd, ← hblock, div_add_mod]

theorem block_add_entry_succ (hblock : stop / 2 ^ highBits = a / 2 ^ highBits)
    (hmod : stop % 2 ^ unit = 2 ^ unit - 1) : 2 ^ highBits * (a / 2 ^ highBits) +
    (dispatchEntry highBits unit stop + 1) * 2 ^ unit = stop + 1 := by
  have hmod' : stop % 2 ^ highBits % 2 ^ unit = 2 ^ unit - 1 := (mod_mod_unit h stop).trans hmod
  have hdiv := div_add_mod (stop % 2 ^ highBits) (2 ^ unit)
  have hdiv' := div_add_mod stop (2 ^ highBits)
  rw [dispatchEntry_eq h, Nat.add_mul, Nat.one_mul, ← hblock,
    Nat.mul_comm (stop % 2 ^ highBits / 2 ^ unit)]
  omega

theorem range_populateNomirror (hstart : start / 2 ^ highBits = a / 2 ^ highBits)
    (hstop : stop / 2 ^ highBits = a / 2 ^ highBits) (hstart_mod : start % 2 ^ unit = 0)
    (hstop_mod : stop % 2 ^ unit = 2 ^ unit - 1) (hd : H) (t : LowDispatch H) :
    (populateNomirror highBits unit start stop ostart ostop hd t).range
        (dispatchEntry highBits unit a) =
      if start ≤ a ∧ a ≤ stop then ⟨ostart, ostop⟩
      else (rangeCutAfter highBits unit (offsSucc ostop) (dispatchEntry highBits unit stop + 1)
        (rangeCutBefore (offsPred ostart) (dispatchEntry highBits unit start) t)).range
          (dispatchEntry highBits unit a) := by
  rw [populateNomirror]
  simp only [Table.fill, dispatchEntry_le_iff h hstart hstart_mod,
    le_dispatchEntry_iff h hstop.symm hstop_mod]

/-- The upper ends of the ranges after an installation in the block of the table. -/
theorem hi_populateNomirror (hstart : start / 2 ^ highBits = a / 2 ^ highBits)
    (hstop : stop / 2 ^ highBits = a / 2 ^ highBits) (hstart_mod : start % 2 ^ unit = 0)
    (hstop_mod : stop % 2 ^ unit = 2 ^ unit - 1)
    (hostart : ostart = start ∨ start % 2 ^ highBits = 0)
    (hlt : ostart < 2 ^ 32) (hd : H) {t : LowDispatch H}
    (hord : HiOrdered (2 ^ highBits * (a / 2 ^ highBits)) start (map highBits unit t).hi) :
    (map highBits unit (populateNomirror highBits unit start stop ostart ostop hd t)).hi a =
      if start ≤ a ∧ a ≤ stop then ostop
      else if a < start then min ((map highBits unit t).hi a) (ostart - 1)
      else (map highBits unit t).hi a := by
  have hentry := block_add_entry h hstart hstart_mod
  have hfill :
      (map highBits unit (populateNomirror highBits unit start stop ostart ostop hd t)).hi a =
      if start ≤ a ∧ a ≤ stop then ostop
      else (map highBits unit (rangeCutBefore (offsPred ostart) (dispatchEntry highBits unit start)
        t)).hi a := by
    have hafter := hi_rangeCutAfter h (offsSucc ostop) (dispatchEntry highBits unit stop + 1)
      (rangeCutBefore (offsPred ostart) (dispatchEntry highBits unit start) t) a
    rw [← hafter, hi_map h, hi_map h, range_populateNomirror h hstart hstop hstart_mod hstop_mod]
    split_ifs <;> rfl
  rw [hfill]
  by_cases hfirst : dispatchEntry highBits unit start = 0
  · -- there is nothing below in the block
    rw [hfirst] at hentry ⊢
    have hle := mul_div_le a (2 ^ highBits)
    rw [if_neg (show ¬ a < start by omega)]
    rfl
  · have hostart : ostart = start := by
      rcases hostart with hostart | hzero
      · exact hostart
      · rw [dispatchEntry_eq h, hzero, Nat.zero_div] at hfirst
        exact absurd rfl hfirst
    have hpos : 0 < start := by
      rw [← hentry]
      exact Nat.add_pos_right _ (Nat.mul_pos (Nat.pos_of_ne_zero hfirst) (Nat.two_pow_pos unit))
    have hpred : offsPred ostart = ostart - 1 := by
      rw [offsPred]
      omega
    rw [hi_rangeCutBefore h (dispatchEntry_lt_count h start).le (by rw [hentry, hpred]; omega)
      (by rwa [hentry]), hentry, hpred]

/-- The lower ends of the ranges after an installation in the block of the table. -/
theorem lo_populateNomirror (hstart : start / 2 ^ highBits = a / 2 ^ highBits)
    (hstop : stop / 2 ^ highBits = a / 2 ^ highBits) (hstart_mod : start % 2 ^ unit = 0)
    (hstop_mod : stop % 2 ^ unit = 2 ^ unit - 1)
    (hostop : ostop = stop ∨ stop % 2 ^ highBits = 2 ^ highBits - 1)
    (hlt : ostop < 2 ^ 32) (hhighBits : highBits ≤ 32) (hd : H) {t : LowDispatch H}
    (hord : LoOrdered (stop + 1) (2 ^ highBits * (a / 2 ^ highBits) + 2 ^ highBits)
      (map highBits unit t).lo) :
    (map highBits unit (populateNomirror highBits unit start stop ostart ostop hd t)).lo a =
      if start ≤ a ∧ a ≤ stop then ostart
      else if stop < a then max ((map highBits unit t).lo a) (ostop + 1)
      else (map highBits unit t).lo a := by
  have hentry := block_add_entry_succ h hstop hstop_mod
  have hfill :
      (map highBits unit (populateNomirror highBits unit start stop ostart ostop hd t)).lo a =
      if start ≤ a ∧ a ≤ stop then ostart
      else (map highBits unit (rangeCutAfter highBits unit (offsSucc ostop)
        (dispatchEntry highBits unit stop + 1)
        (rangeCutBefore (offsPred ostart) (dispatchEntry highBits unit start) t))).lo a := by
    rw [lo_map h, lo_map h, range_populateNomirror h hstart hstop hstart_mod hstop_mod]
    split_ifs <;> rfl
  have hblock : a < 2 ^ highBits * (a / 2 ^ highBits) + 2 ^ highBits :=
    lt_mul_div_succ a (Nat.two_pow_pos highBits)
  rw [hfill]
  by_cases hlast : stop % 2 ^ highBits = 2 ^ highBits - 1
  · -- there is nothing above in the block
    have hend : stop + 1 = 2 ^ highBits * (a / 2 ^ highBits) + 2 ^ highBits := by
      have hdiv := div_add_mod stop (2 ^ highBits)
      rw [hstop] at hdiv
      omega
    have hcount : dispatchEntry highBits unit stop + 1 = count highBits unit := by
      have hpow : 2 ^ highBits = count highBits unit * 2 ^ unit := by
        rw [count, ← Nat.pow_add, Nat.sub_add_cancel h]
      have hmul :
          (dispatchEntry highBits unit stop + 1) * 2 ^ unit = count highBits unit * 2 ^ unit := by
        omega
      exact eq_of_mul_eq_mul_right (Nat.two_pow_pos unit) hmul
    have hnone : rangeCutAfter highBits unit (offsSucc ostop) (dispatchEntry highBits unit stop + 1)
        (rangeCutBefore (offsPred ostart) (dispatchEntry highBits unit start) t) =
        rangeCutBefore (offsPred ostart) (dispatchEntry highBits unit start) t := by
      rw [rangeCutAfter, Table.rangeCutAfter, hcount, Nat.sub_self]
      rfl
    rw [hnone, lo_rangeCutBefore h, if_neg (show ¬ stop < a by omega)]
  · have hostop : ostop = stop := hostop.resolve_right hlast
    have hsucc : offsSucc ostop = ostop + 1 := by
      have hne : ostop ≠ 2 ^ 32 - 1 := by
        intro hmax
        have hdvd : 2 ^ highBits ∣ 2 ^ 32 := Nat.pow_dvd_pow 2 hhighBits
        refine hlast ?_
        obtain ⟨c, hc⟩ := hdvd
        have hcpos : 0 < c := by
          rcases c with _ | c
          · simp at hc
          · exact succ_pos c
        have hsplit : stop = 2 ^ highBits - 1 + 2 ^ highBits * (c - 1) := by
          obtain ⟨d, rfl⟩ : ∃ d, c = d + 1 := ⟨c - 1, by omega⟩
          rw [Nat.mul_add] at hc
          rw [Nat.add_sub_cancel]
          omega
        rw [hsplit, add_mul_mod_self_left, mod_eq_of_lt (by omega)]
      rw [offsSucc]
      omega
    have hlo : ∀ b, (map highBits unit (rangeCutBefore (offsPred ostart)
        (dispatchEntry highBits unit start) t)).lo b = (map highBits unit t).lo b :=
      fun b ↦ lo_rangeCutBefore h _ _ t b
    rw [lo_rangeCutAfter h (by rw [hentry, hsucc, hostop]) (by
      rw [hentry]
      exact hord.congr fun b _ _ ↦ hlo b), hentry, hsucc, hlo]
    split_ifs <;> first | rfl | omega

end

end LowDispatch

end RoscoEmulator.Memory
