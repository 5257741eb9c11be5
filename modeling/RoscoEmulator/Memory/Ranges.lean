import RoscoEmulator.Memory.Cuts

/-!
# The ranges of a tree of two levels

The ranges that `lookup` finds in a tree of two levels, and what `range_cut_before`,
`range_cut_after` and the installation of a handler make of them. The tables of the lower level are
the marked blocks: a table is made for a range that covers only a part of its block, so that no
range in it covers the block. -/

namespace RoscoEmulator.Memory

open RangeMap

variable {H : Type*}

namespace HighDispatch

/-- What `lookup` finds, as a map. -/
def map (g : Geometry) (t : HighDispatch H) : RangeMap H where
  lo a := (lookup g a t).1.start
  hi a := (lookup g a t).1.stop
  handler a := (lookup g a t).2

/-- The entry is a table. -/
def IsTable (t : HighDispatch H) (e : ℕ) : Prop := ∃ sub, t.dispatch e = .dispatch sub

variable {g : Geometry}

variable {address start : ℕ} {t : HighDispatch H} {a : ℕ} {sub : LowDispatch H} {h : H}

theorem not_isTable_iff {e : ℕ} : ¬ IsTable t e ↔ ∃ h, t.dispatch e = .handler h := by
  rw [IsTable]
  rcases t.dispatch e with h | sub <;> simp

theorem lookup_of_dispatch (hg : upperBits ≤ g.highBits) (ha : a < 2 ^ g.highBits)
    (hsub : t.dispatch (a / 16384) = .dispatch sub) :
    lookup g a t = LowDispatch.lookup upperBits g.unit a sub := by
  rw [lookup, slot_eq_dispatchEntry hg, dispatchEntry_upper g hg ha, hsub]

theorem lookup_of_handler (hg : upperBits ≤ g.highBits) (ha : a < 2 ^ g.highBits)
    (hh : t.dispatch (a / 16384) = .handler h) : lookup g a t = (t.range (a / 16384), h) := by
  rw [lookup, slot_eq_dispatchEntry hg, dispatchEntry_upper g hg ha, hh]

/-- A lookup reads one entry. -/
theorem lookup_congr {t' : HighDispatch H} (hg : upperBits ≤ g.highBits) (ha : a < 2 ^ g.highBits)
    (h : t'.dispatch (a / 16384) = t.dispatch (a / 16384) ∧
    t'.range (a / 16384) = t.range (a / 16384)) : lookup g a t' = lookup g a t := by
  rcases he : t.dispatch (a / 16384) with cur | sub
  · rw [lookup_of_handler hg ha (h.1.trans he), lookup_of_handler hg ha he, h.2]
  · rw [lookup_of_dispatch hg ha (h.1.trans he), lookup_of_dispatch hg ha he]

theorem count_mul (hg : upperBits ≤ g.highBits) :
    count g.highBits upperBits * 16384 = 2 ^ g.highBits := by
  have hpow : (16384 : ℕ) = 2 ^ upperBits := rfl
  rw [count, hpow, ← Nat.pow_add, Nat.sub_add_cancel hg]

theorem lowCount_mul (g : Geometry) : count upperBits g.unit * 2 ^ g.unit = 16384 := by
  rw [count, ← Nat.pow_add, Nat.sub_add_cancel g.unit_lt.le]
  rfl

/-! ## Cutting -/

theorem cutBeforeIn_eq_none {e : Entry H} :
    cutBeforeIn g address e = none ↔ ∃ h, e = .handler h := by
  rcases e with h | sub <;> simp [cutBeforeIn]

theorem cutAfterIn_eq_none {e : Entry H} : cutAfterIn g address e = none ↔ ∃ h, e = .handler h := by
  rcases e with h | sub <;> simp [cutAfterIn]

theorem cutBeforeIn_eq_some {e e' : Entry H} (h : cutBeforeIn g address e = some e') : ∃ sub,
    e = .dispatch sub ∧
    e' = .dispatch (LowDispatch.rangeCutBefore address (count upperBits g.unit) sub) := by
  rcases e with h' | sub
  · cases h
  · exact ⟨sub, rfl, (Option.some.inj h).symm⟩

theorem cutAfterIn_eq_some {e e' : Entry H} (h : cutAfterIn g address e = some e') : ∃ sub,
    e = .dispatch sub ∧
    e' = .dispatch (LowDispatch.rangeCutAfter upperBits g.unit address 0 sub) := by
  rcases e with h' | sub
  · cases h
  · exact ⟨sub, rfl, (Option.some.inj h).symm⟩

theorem isTable_rangeCutBefore (address start : ℕ) (t : HighDispatch H) (e : ℕ) :
    IsTable (rangeCutBefore g address start t) e ↔ IsTable t e := by
  rw [IsTable, IsTable, rangeCutBefore]
  rcases Table.dispatch_rangeCutBefore (cutBeforeIn g address) address start t e with h | h
  · rw [h]
  · obtain ⟨sub, he, he'⟩ := cutBeforeIn_eq_some h
    simp [he, he']

theorem isTable_rangeCutAfter (address first : ℕ) (t : HighDispatch H) (e : ℕ) :
    IsTable (rangeCutAfter g address first t) e ↔ IsTable t e := by
  rw [IsTable, IsTable, rangeCutAfter, Table.rangeCutAfter]
  rcases Table.dispatch_rangeCutAfterFrom (cutAfterIn g address) address
    (count g.highBits upperBits - first) first t e with h | h
  · rw [h]
  · obtain ⟨sub, he, he'⟩ := cutAfterIn_eq_some h
    simp [he, he']

section

variable (hg : upperBits ≤ g.highBits)
include hg

theorem hi_of_dispatch (ha : a < 2 ^ g.highBits) (hsub : t.dispatch (a / 16384) = .dispatch sub) :
    (map g t).hi a = (LowDispatch.map upperBits g.unit sub).hi a :=
  congrArg (fun r : Range × H ↦ r.1.stop) (lookup_of_dispatch hg ha hsub)

theorem lo_of_dispatch (ha : a < 2 ^ g.highBits) (hsub : t.dispatch (a / 16384) = .dispatch sub) :
    (map g t).lo a = (LowDispatch.map upperBits g.unit sub).lo a :=
  congrArg (fun r : Range × H ↦ r.1.start) (lookup_of_dispatch hg ha hsub)

theorem hi_of_handler (ha : a < 2 ^ g.highBits) (hh : t.dispatch (a / 16384) = .handler h) :
    (map g t).hi a = (t.range (a / 16384)).stop :=
  congrArg (fun r : Range × H ↦ r.1.stop) (lookup_of_handler hg ha hh)

theorem lo_of_handler (ha : a < 2 ^ g.highBits) (hh : t.dispatch (a / 16384) = .handler h) :
    (map g t).lo a = (t.range (a / 16384)).start :=
  congrArg (fun r : Range × H ↦ r.1.start) (lookup_of_handler hg ha hh)

theorem lo_rangeCutBefore (address start : ℕ) (t : HighDispatch H) (ha : a < 2 ^ g.highBits) :
    (map g (rangeCutBefore g address start t)).lo a = (map g t).lo a := by
  obtain ⟨k, hk⟩ := exists_cutBefore (cutBeforeIn g address) address start t
  by_cases hi : k ≤ a / 16384 ∧ a / 16384 < start
  · rcases hk.cuts _ hi.1 hi.2 with ⟨hnone, -, hdispatch, hrange⟩ | ⟨-, hsome, -⟩
    · obtain ⟨h, he⟩ := cutBeforeIn_eq_none.mp hnone
      rw [rangeCutBefore, lo_of_handler hg ha (hdispatch.trans he), lo_of_handler hg ha he, hrange]
    · obtain ⟨sub, he, he'⟩ := cutBeforeIn_eq_some hsome
      rw [rangeCutBefore, lo_of_dispatch hg ha he', lo_of_dispatch hg ha he]
      exact LowDispatch.lo_rangeCutBefore g.unit_lt.le _ _ sub a
  · exact congrArg (·.1.start) (lookup_congr hg ha (hk.others _ (by omega)))

theorem hi_rangeCutAfter (address first : ℕ) (t : HighDispatch H) (ha : a < 2 ^ g.highBits) :
    (map g (rangeCutAfter g address first t)).hi a = (map g t).hi a := by
  obtain ⟨k, hk⟩ := exists_cutAfter (cutAfterIn g address) address
    (count g.highBits upperBits - first) first t
  by_cases hi : first ≤ a / 16384 ∧ a / 16384 < k
  · rcases hk.cuts _ hi.1 hi.2 with ⟨hnone, -, hdispatch, hrange⟩ | ⟨-, hsome, -⟩
    · obtain ⟨h, he⟩ := cutAfterIn_eq_none.mp hnone
      rw [rangeCutAfter, Table.rangeCutAfter, hi_of_handler hg ha (hdispatch.trans he),
        hi_of_handler hg ha he, hrange]
    · obtain ⟨sub, he, he'⟩ := cutAfterIn_eq_some hsome
      rw [rangeCutAfter, Table.rangeCutAfter, hi_of_dispatch hg ha he', hi_of_dispatch hg ha he]
      exact LowDispatch.hi_rangeCutAfter g.unit_lt.le _ _ sub a
  · exact congrArg (·.1.stop) (lookup_congr hg ha (hk.others _ (by omega)))

/-- The entries from `start` on are left alone. -/
theorem lookup_rangeCutBefore_of_le (address : ℕ) (t : HighDispatch H) (ha : a < 2 ^ g.highBits)
    (hstart : start ≤ a / 16384) :
    lookup g a (rangeCutBefore g address start t) = lookup g a t := by
  obtain ⟨k, hk⟩ := exists_cutBefore (cutBeforeIn g address) address start t
  exact lookup_congr hg ha (hk.others _ (Or.inr hstart))

/-- The addresses of a block are in the space if one of them is. -/
theorem block_lt (ha : a < 2 ^ g.highBits) : 16384 * (a / 16384) + 16384 ≤ 2 ^ g.highBits := by
  have hcount := count_mul hg
  omega

/-- `range_cut_before` cuts the ranges in some blocks before the entry, and comes to an end for a
reason. -/
theorem exists_hi_rangeCutBefore (haddress : 16384 * start ≤ address + 1)
    (hord : ∀ e < start, IsTable t e → HiOrdered (16384 * e) (16384 * e + 16384) (map g t).hi) :
    ∃ k ≤ start, (∀ a < 2 ^ g.highBits, (map g (rangeCutBefore g address start t)).hi a =
        if 16384 * k ≤ a ∧ a < 16384 * start then min ((map g t).hi a) address
        else (map g t).hi a) ∧
      (k = 0 ∨ (¬ IsTable t (k - 1) ∧ (t.range (k - 1)).stop ≤ address) ∨
      (k < start ∧ IsTable t k)) := by
  obtain ⟨k, hk⟩ := exists_cutBefore (cutBeforeIn g address) address start t
  refine ⟨k, hk.le, ?_, ?_⟩
  · intro a ha
    by_cases hi : k ≤ a / 16384 ∧ a / 16384 < start
    · rw [if_pos (by omega)]
      rcases hk.cuts _ hi.1 hi.2 with ⟨hnone, hstop, hdispatch, hrange⟩ | ⟨-, hsome, -⟩
      · obtain ⟨h, he⟩ := cutBeforeIn_eq_none.mp hnone
        rw [rangeCutBefore, hi_of_handler hg ha (hdispatch.trans he),
          hi_of_handler hg ha he, hrange]
        exact (min_eq_right hstop.le).symm
      · obtain ⟨sub, he, he'⟩ := cutBeforeIn_eq_some hsome
        have hcount := lowCount_mul g
        have hblock := block_lt hg ha
        have hpow : 2 ^ upperBits * (a / 2 ^ upperBits) = 16384 * (a / 16384) := rfl
        have hord' : HiOrdered (16384 * (a / 16384)) (16384 * (a / 16384) + 16384)
            (LowDispatch.map upperBits g.unit sub).hi := by
          refine (hord (a / 16384) hi.2 ⟨sub, he⟩).congr fun b hb hb' ↦ ?_
          have hba : b / 16384 = a / 16384 := by omega
          exact (hi_of_dispatch hg (by omega) (by rw [hba]; exact he)).symm
        rw [rangeCutBefore, hi_of_dispatch hg ha he', hi_of_dispatch hg ha he,
          LowDispatch.hi_rangeCutBefore g.unit_lt.le le_rfl, hpow, hcount, if_pos (by omega)]
        · rw [hpow, hcount]
          omega
        · rw [hpow, hcount]
          exact hord'
    · rw [if_neg (by omega)]
      exact congrArg (·.1.stop) (lookup_congr hg ha (hk.others _ (by omega)))
  · rcases hk.ends with hzero | ⟨hnone, hends⟩ | ⟨hlt, hsome⟩
    · exact Or.inl hzero
    · exact Or.inr (Or.inl ⟨not_isTable_iff.mpr (cutBeforeIn_eq_none.mp hnone), hends⟩)
    · refine Or.inr (Or.inr ⟨hlt, ?_⟩)
      by_contra htable
      exact hsome (cutBeforeIn_eq_none.mpr (not_isTable_iff.mp htable))

/-- It cuts all ranges before the entry if they are ordered and the ranges in a table do not cover
the block of it. -/
theorem hi_rangeCutBefore (hstart : 16384 * start ≤ 2 ^ g.highBits)
    (haddress : 16384 * start ≤ address + 1) (hlo : ∀ a < 16384 * start, (map g t).lo a ≤ a)
    (hord : HiOrdered 0 (16384 * start) (map g t).hi)
    (hinside : ∀ e < start, IsTable t e → ∀ a, a / 16384 = e →
      ¬ ((map g t).lo a ≤ 16384 * e ∧ 16384 * e + 16383 ≤ (map g t).hi a)) (ha :
      a < 2 ^ g.highBits) :
    (map g (rangeCutBefore g address start t)).hi a =
      if a < 16384 * start then min ((map g t).hi a) address else (map g t).hi a := by
  have hord' : ∀ e < start, IsTable t e →
      HiOrdered (16384 * e) (16384 * e + 16384) (map g t).hi :=
    fun e he _ ↦ hord.mono (Nat.zero_le _) (by omega)
  obtain ⟨k, hk, hhi, hends⟩ := exists_hi_rangeCutBefore hg haddress hord'
  rw [hhi a ha]
  by_cases hka : 16384 * k ≤ a
  · simp only [hka, true_and]
  · rw [if_neg fun hcut ↦ hka hcut.1, if_pos (by omega)]
    have hle : (map g t).hi a ≤ address := by
      by_contra hgt
      rcases hends with hzero | ⟨htable, hstop⟩ | ⟨hlt, htable⟩
      · omega
      · obtain ⟨h, hh⟩ := not_isTable_iff.mp htable
        -- an address of the last block that needs no cut, not before `a`
        have hb : max a (16384 * (k - 1)) / 16384 = k - 1 := by omega
        have hbN : max a (16384 * (k - 1)) < 2 ^ g.highBits := by omega
        have horder := hord a (max a (16384 * (k - 1))) (Nat.zero_le _) (le_max_left _ _) (by omega)
        rw [hi_of_handler hg hbN (by rw [hb]; exact hh), hb] at horder
        omega
      · have horder := hord a (16384 * k) (Nat.zero_le _) (by omega) (by omega)
        have hlo := hlo (16384 * k) (by omega)
        exact hinside k hlt htable (16384 * k) (by omega) ⟨hlo, by omega⟩
    exact (min_eq_left hle).symm

theorem lo_rangeCutAfter {first : ℕ} (haddress : address ≤ 16384 * first)
    (hhi : ∀ a < 2 ^ g.highBits, 16384 * first ≤ a → a ≤ (map g t).hi a)
    (hord : LoOrdered (16384 * first) (2 ^ g.highBits) (map g t).lo)
    (hinside : ∀ e, first ≤ e → IsTable t e → ∀ a < 2 ^ g.highBits, a / 16384 = e →
      ¬ ((map g t).lo a ≤ 16384 * e ∧ 16384 * e + 16383 ≤ (map g t).hi a)) (ha :
      a < 2 ^ g.highBits) :
    (map g (rangeCutAfter g address first t)).lo a =
      if 16384 * first ≤ a then max ((map g t).lo a) address else (map g t).lo a := by
  obtain ⟨k, hk⟩ := exists_cutAfter (cutAfterIn g address) address
    (count g.highBits upperBits - first) first t
  have hcount := count_mul hg
  have hblock := block_lt hg ha
  have hkge := hk.ge
  by_cases hfirst : 16384 * first ≤ a
  · rw [if_pos hfirst]
    by_cases hka : a / 16384 < k
    · rcases hk.cuts _ (by omega) hka with ⟨hnone, hstart, hdispatch, hrange⟩ | ⟨-, hsome, -⟩
      · obtain ⟨h, he⟩ := cutAfterIn_eq_none.mp hnone
        rw [rangeCutAfter, Table.rangeCutAfter, lo_of_handler hg ha (hdispatch.trans he),
          lo_of_handler hg ha he, hrange]
        exact (max_eq_right hstart.le).symm
      · obtain ⟨sub, he, he'⟩ := cutAfterIn_eq_some hsome
        have hpow : 2 ^ upperBits * (a / 2 ^ upperBits) = 16384 * (a / 16384) := rfl
        have hpow' : 2 ^ upperBits = 16384 := rfl
        have hord' : LoOrdered (16384 * (a / 16384)) (16384 * (a / 16384) + 16384)
            (LowDispatch.map upperBits g.unit sub).lo := by
          refine (hord.mono (by omega) hblock : LoOrdered (16384 * (a / 16384)) _ _).congr
            fun b hb hb' ↦ ?_
          have hba : b / 16384 = a / 16384 := by omega
          exact (lo_of_dispatch hg (by omega) (by rw [hba]; exact he)).symm
        rw [rangeCutAfter, Table.rangeCutAfter, lo_of_dispatch hg ha he',
          lo_of_dispatch hg ha he, LowDispatch.lo_rangeCutAfter g.unit_lt.le, hpow, Nat.zero_mul,
          Nat.add_zero, if_pos (by omega)]
        · rw [hpow, Nat.zero_mul]
          omega
        · rw [hpow, Nat.zero_mul, Nat.add_zero, hpow']
          exact hord'
    · have hsame : (map g (rangeCutAfter g address first t)).lo a = (map g t).lo a :=
        congrArg (·.1.start) (lookup_congr hg ha (hk.others _ (by omega)))
      rw [hsame]
      have hle : address ≤ (map g t).lo a := by
        by_contra hgt
        rcases hk.ends with hlast | ⟨hnone, hstart⟩ | ⟨hlt, hsome⟩
        · omega
        · obtain ⟨h, hh⟩ := cutAfterIn_eq_none.mp hnone
          -- an address of the first block that needs no cut, not after `a`
          have hb : min a (16384 * k + 16383) / 16384 = k := by omega
          have hbN : min a (16384 * k + 16383) < 2 ^ g.highBits := by omega
          have horder := hord a (min a (16384 * k + 16383)) (by omega) (min_le_left _ _) ha
          rw [lo_of_handler hg hbN (by rw [hb]; exact hh), hb] at horder
          omega
        · have htable : IsTable t (k - 1) := by
            by_contra htable
            exact hsome (cutAfterIn_eq_none.mpr (not_isTable_iff.mp htable))
          have horder := hord a (16384 * k - 1) (by omega) (by omega) ha
          have hhi := hhi (16384 * k - 1) (by omega) (by omega)
          exact hinside (k - 1) (by omega) htable (16384 * k - 1) (by omega) (by omega)
            ⟨by omega, by omega⟩
      exact (max_eq_left hle).symm
  · rw [if_neg hfirst]
    exact congrArg (·.1.start) (lookup_congr hg ha (hk.others _ (by omega)))

end

end HighDispatch

end RoscoEmulator.Memory
