import RoscoEmulator.Memory.Installs

/-!
# Installing a range

The installation of a range in a tree of two levels. The parts of the range in its first and in its
last entry go into tables if they do not fill the entries, and the entries between are filled. The
table that is made for the last part may cut the ranges of the first part, which were installed
before. -/

namespace RoscoEmulator.Memory

open RangeMap

variable {H : Type*}

namespace HighDispatch

variable {g : Geometry} {t : HighDispatch H} {start stop : ℕ}

/-! ## A range in one entry -/

section One

variable (hg : upperBits ≤ g.highBits) (hm : Sound (2 ^ g.highBits) 16384 (IsTable t) (map g t))
  (hle : start ≤ stop) (hlt : stop < 2 ^ g.highBits)
include hg hm hle hlt

/-- A range that fills an entry. -/
theorem installed_fill (hsame : start / 16384 = stop / 16384) (hstart : start % 16384 = 0)
    (hstop : stop % 16384 = 16383) {hd : H} {t' : HighDispatch H}
    (ht' : t' = (cutAround g start stop t).fill (start / 16384) (start / 16384) (.handler hd)
      ⟨start, stop⟩) (hhandler : ∀ a < 2 ^ g.highBits,
      (map g t').handler a = if start ≤ a ∧ a ≤ stop then hd else (map g t).handler a) :
    Installed (2 ^ g.highBits) start stop hd (map g t) (map g t') := by
  refine Installed.of_eq le_rfl hle (Nat.lt_succ_self stop) hlt hhandler
    (fun a ha ↦ ?_) fun a ha ↦ ?_
  · rw [ht', hi_fill hg _ _ _ hd start stop ha, hi_cutAround hg hm (hle.trans_lt hlt) stop ha]
    split_ifs <;> omega
  · rw [ht', lo_fill hg _ _ _ hd start stop ha, lo_cutAround hg hm hle ha]
    split_ifs <;> omega

/-- The part of a range in its first entry: the ranges before are cut at `p`, and those behind at
`q`. -/
theorem exists_part {last : ℕ} (hsl : start ≤ last) (hblock : start / 16384 = last / 16384)
    (hlast : stop = last ∨ last % 16384 = 16383 ∧ last ≤ stop) (hstart_mod : start % 2 ^ g.unit = 0)
    (hlast_mod : last % 2 ^ g.unit = 2 ^ g.unit - 1) (hd : H) {t' : HighDispatch H}
    (ht' : t' = populateNomirrorSubdispatch g (start / 16384) start last start stop hd
    (cutAround g start stop t)) :
    ∃ p ≤ start, ∃ q, (q = 2 ^ g.highBits ∨ q = 16384 * (start / 16384 + 1)) ∧
      (∀ a < 2 ^ g.highBits, (map g t').hi a = if start ≤ a ∧ a ≤ last then stop
        else if a < p then min ((map g t).hi a) (p - 1)
        else if a < start then min ((map g t).hi a) (start - 1) else (map g t).hi a) ∧
      ∀ a < 2 ^ g.highBits, (map g t').lo a = if start ≤ a ∧ a ≤ last then start
        else if q ≤ a then max ((map g (cutAround g start stop t)).lo a) q else if a / 16384 =
        start / 16384 ∧ last < a then max ((map g (cutAround g start stop t)).lo a) (stop + 1)
        else (map g (cutAround g start stop t)).lo a := by
  have hlt32 : stop < 2 ^ 32 := hlt.trans_le (Nat.pow_le_pow_right Nat.two_pos g.highBits_le)
  have hm₀ := sound_cutAround hg hm hle hlt
  have he : 16384 * (start / 16384) < 2 ^ g.highBits := by omega
  obtain ⟨p, hp, hhi₁⟩ := hi_populateSubdispatch
    (LowDispatch.populateNomirror upperBits g.unit start last start stop hd) hg he hm₀
  obtain ⟨q, hq, hlo₁⟩ := lo_populateSubdispatch
    (LowDispatch.populateNomirror upperBits g.unit start last start stop hd) hg he
    (fun a ha _ ↦ hm₀.le_hi a ha) (hm₀.loOrdered.mono (Nat.zero_le _) le_rfl)
    (fun x _ hx a ha hax ↦ hm₀.inside x hx a ha hax)
  refine ⟨p, by omega, q, hq.imp And.right id, fun a ha ↦ ?_, fun a ha ↦ ?_⟩
  · rw [ht', populateNomirrorSubdispatch, hhi₁ a ha]
    by_cases hae : a / 16384 = start / 16384
    · rw [← hae, hi_part hg ha hae.symm (by omega) hstart_mod hlast_mod (Or.inl rfl)
        (hle.trans_lt hlt32) stop hd (hm₀.hiOrdered.mono (Nat.zero_le _) (by omega)),
        hi_cutAround hg hm (hle.trans_lt hlt) stop ha]
      split_ifs <;> omega
    · rw [if_neg hae, hi_cutAround hg hm (hle.trans_lt hlt) stop ha]
      split_ifs <;> omega
  · rw [ht', populateNomirrorSubdispatch, hlo₁ a ha]
    by_cases hae : a / 16384 = start / 16384
    · rw [← hae, lo_part hg ha hae.symm (by omega) hstart_mod hlast_mod (hlast.imp id And.left)
        hlt32 start hd (hm₀.loOrdered.mono (Nat.zero_le _) (block_lt hg ha))]
      split_ifs <;> omega
    · rw [if_neg hae]
      split_ifs <;> omega

/-- A range in an entry that it does not fill. -/
theorem installed_part (hsame : start / 16384 = stop / 16384) (hstart_mod : start % 2 ^ g.unit = 0)
    (hstop_mod : stop % 2 ^ g.unit = 2 ^ g.unit - 1) {hd : H} {t' : HighDispatch H}
    (ht' : t' = populateNomirrorSubdispatch g (start / 16384) start stop start stop hd
      (cutAround g start stop t)) (hhandler : ∀ a < 2 ^ g.highBits,
      (map g t').handler a = if start ≤ a ∧ a ≤ stop then hd else (map g t).handler a) :
    Installed (2 ^ g.highBits) start stop hd (map g t) (map g t') := by
  obtain ⟨p, hp, q, hq, hhi, hlo⟩ :=
    exists_part hg hm hle hlt hle hsame (Or.inl rfl) hstart_mod hstop_mod hd ht'
  refine Installed.of_eq hp hle (show stop < q by omega) hlt hhandler hhi fun a ha ↦ ?_
  rw [hlo a ha, lo_cutAround hg hm hle ha]
  split_ifs <;> omega

end One

/-! ## A range in several entries -/

/-- The first address after the part of a range in its first entry, if it does not fill the
entry. -/
def afterFirst (start : ℕ) : ℕ :=
  if start % 16384 ≠ 0 then 16384 * (start / 16384 + 1) else start

/-- The tree after the first part of a range was installed, if there is one. -/
def firstPart (g : Geometry) (start stop : ℕ) (hd : H) (t : HighDispatch H) : HighDispatch H :=
  if start % 16384 ≠ 0 then
    populateNomirrorSubdispatch g (start / 16384) start
      (16384 * (start / 16384) + 16383) start stop hd (cutAround g start stop t)
  else cutAround g start stop t

/-- The ranges around a range are cut, and those in the first part of it go to the end of the
range. -/
structure FirstPart (N start stop : ℕ) (m m₁ : RangeMap H) : Prop where
  lo_below : ∀ a < start, m₁.lo a = m.lo a
  hi_below : ∃ p ≤ start, ∀ a < start,
    m₁.hi a = if a < p then min (m.hi a) (p - 1) else min (m.hi a) (start - 1)
  lo_first : ∀ a, start ≤ a → a < afterFirst start → m₁.lo a = start
  hi_first : ∀ a, start ≤ a → a < afterFirst start → m₁.hi a = stop
  lo_rest : ∃ q ≤ afterFirst start, ∀ a, afterFirst start ≤ a → a < N →
    m₁.lo a = if 16384 * (stop / 16384 + 1) ≤ a then max (m.lo a) (stop + 1) else max (m.lo a) q
  hi_rest : ∀ a, afterFirst start ≤ a → a < N → m₁.hi a = m.hi a

/-- The tables before the last entry are still ordered. -/
theorem FirstPart.hiOrdered {N : ℕ} {m m₁ : RangeMap H} (h : FirstPart N start stop m m₁)
    (hm : HiOrdered 0 N m.hi)
    {x : ℕ} (hx : 16384 * x + 16384 ≤ N) : HiOrdered (16384 * x) (16384 * x + 16384) m₁.hi := by
  by_cases hafter : afterFirst start ≤ 16384 * x
  · refine (hm.mono (Nat.zero_le _) hx).congr fun a ha ha' ↦ ?_
    exact h.hi_rest a (hafter.trans ha) (ha'.trans_le hx)
  · have hend : 16384 * x + 16384 ≤ afterFirst start := by
      rw [afterFirst] at hafter ⊢
      split_ifs at hafter ⊢ <;> omega
    obtain ⟨p, hp, hbelow⟩ := h.hi_below
    rintro a b ha hab hb hle
    by_cases has : a < start
    · -- the range ends before the start, and so the other address is before it
      have hcut : m₁.hi a < start ∧ m₁.hi a ≤ m.hi a := by
        rw [hbelow a has]
        split_ifs <;> omega
      have hord := hm a b (Nat.zero_le a) hab (by omega) (hle.trans hcut.2)
      rw [hbelow a has, hbelow b (by omega)]
      rw [hbelow a has] at hle
      split_ifs at hle ⊢ <;> omega
    · rw [h.hi_first a (Nat.not_lt.mp has) (by omega), h.hi_first b (by omega) (by omega)]

theorem isTable_firstPart (hd : H) (x : ℕ) : IsTable (firstPart g start stop hd t) x ↔
    (start % 16384 ≠ 0 ∧ x = start / 16384) ∨ IsTable t x := by
  rw [firstPart]
  split_ifs with hstart
  · rw [populateNomirrorSubdispatch, isTable_populateSubdispatch, isTable_cutAround]
    simp [hstart]
  · rw [isTable_cutAround]
    simp [hstart]

section Several

variable (hg : upperBits ≤ g.highBits) (hlt : stop < 2 ^ g.highBits)
  (hentries : start / 16384 < stop / 16384)
include hg hlt hentries

section

variable (hm : Sound (2 ^ g.highBits) 16384 (IsTable t) (map g t))
include hm

/-- A range that fills its first entry. -/
theorem firstPart_cutAround (hstart : start % 16384 = 0) :
    FirstPart (2 ^ g.highBits) start stop (map g t) (map g (cutAround g start stop t)) := by
  have hle : start ≤ stop := by omega
  have hhi : ∀ a < 2 ^ g.highBits, (map g (cutAround g start stop t)).hi a =
      if a < 16384 * (start / 16384) then min ((map g t).hi a) (start - 1) else (map g t).hi a :=
    fun a ha ↦ hi_cutAround hg hm (hle.trans_lt hlt) stop ha
  have hlo : ∀ a < 2 ^ g.highBits, (map g (cutAround g start stop t)).lo a =
      if 16384 * (stop / 16384 + 1) ≤ a then max ((map g t).lo a) (stop + 1) else (map g t).lo a :=
    fun a ha ↦ lo_cutAround hg hm hle ha
  have hafter : afterFirst start = start := if_neg (not_not.mpr hstart)
  refine ⟨?_, ⟨start, le_rfl, ?_⟩, ?_, ?_, ⟨0, Nat.zero_le _, ?_⟩, ?_⟩
  · intro a ha
    rw [hlo a (by omega), if_neg (by omega)]
  · intro a ha
    rw [hhi a (by omega), if_pos (by omega), if_pos ha]
  · intro a hs ha
    omega
  · intro a hs ha
    omega
  · intro a _ ha
    rw [hlo a ha, Nat.max_zero]
  · intro a hs ha
    rw [hhi a ha, if_neg (by omega)]

/-- A range that begins within an entry. -/
theorem firstPart_populateNomirrorSubdispatch (hstart_mod : start % 2 ^ g.unit = 0)
    (hstart : start % 16384 ≠ 0) (hd : H) : FirstPart (2 ^ g.highBits) start stop (map g t)
      (map g (populateNomirrorSubdispatch g (start / 16384) start
        (16384 * (start / 16384) + 16383) start stop hd (cutAround g start stop t))) := by
  have hle : start ≤ stop := by omega
  have hlast_mod := block_stop_mod g g.unit_lt (start / 16384)
  generalize hlast : 16384 * (start / 16384) + 16383 = last at hlast_mod ⊢
  obtain ⟨p, hp, q, hq, hhi, hlo₀⟩ :=
    exists_part hg hm hle hlt (by omega) (by omega) (Or.inr (by omega)) hstart_mod hlast_mod hd rfl
  have hlo : ∀ a < 2 ^ g.highBits, _ :=
    fun a ha ↦ (hlo₀ a ha).trans (by rw [lo_cutAround hg hm hle ha])
  have hafter : afterFirst start = last + 1 := by
    rw [afterFirst, if_pos hstart]
    omega
  have hq' : q = 2 ^ g.highBits ∨ q = last + 1 := by omega
  refine ⟨?_, ⟨p, hp, ?_⟩, ?_, ?_, ⟨if q = last + 1 then q else 0, ?_, ?_⟩, ?_⟩
  · intro a ha
    rw [hlo a (by omega)]
    split_ifs <;> omega
  · intro a ha
    rw [hhi a (by omega)]
    split_ifs <;> omega
  · intro a hs ha
    rw [hlo a (by omega), if_pos (by omega)]
  · intro a hs ha
    rw [hhi a (by omega), if_pos (by omega)]
  · split_ifs <;> omega
  · intro a hs ha
    rw [hlo a ha]
    split_ifs <;> omega
  · intro a hs ha
    rw [hhi a ha]
    split_ifs <;> omega

theorem firstPart_firstPart (hstart_mod : start % 2 ^ g.unit = 0) (hd : H) :
    FirstPart (2 ^ g.highBits) start stop (map g t) (map g (firstPart g start stop hd t)) := by
  rw [firstPart]
  split_ifs with hstart
  · exact firstPart_populateNomirrorSubdispatch hg hlt hentries hm hstart_mod hstart hd
  · exact firstPart_cutAround hg hlt hentries hm (not_not.mp hstart)

end

variable {t₁ : HighDispatch H}

theorem installed_fill_last (hstop : stop % 16384 = 16383) {hd : H} {t' : HighDispatch H}
    (h : FirstPart (2 ^ g.highBits) start stop (map g t) (map g t₁))
    (ht' : t' = t₁.fill (afterFirst start / 16384) (stop / 16384) (.handler hd) ⟨start, stop⟩)
    (hhandler : ∀ a < 2 ^ g.highBits,
      (map g t').handler a = if start ≤ a ∧ a ≤ stop then hd else (map g t).handler a) :
    Installed (2 ^ g.highBits) start stop hd (map g t) (map g t') := by
  have hafter : start ≤ afterFirst start ∧ afterFirst start ≤ stop ∧
      afterFirst start = 16384 * (afterFirst start / 16384) := by
    rw [afterFirst]
    split_ifs <;> omega
  have hhi : ∀ a < 2 ^ g.highBits, (map g t').hi a =
      if afterFirst start ≤ a ∧ a ≤ stop then stop else (map g t₁).hi a := by
    intro a ha
    rw [ht', hi_fill hg _ _ _ hd start stop ha]
    split_ifs <;> omega
  have hlo : ∀ a < 2 ^ g.highBits, (map g t').lo a =
      if afterFirst start ≤ a ∧ a ≤ stop then start else (map g t₁).lo a := by
    intro a ha
    rw [ht', lo_fill hg _ _ _ hd start stop ha]
    split_ifs <;> omega
  obtain ⟨p, hp, hbelow⟩ := h.hi_below
  obtain ⟨q, hq, habove⟩ := h.lo_rest
  refine ⟨hhandler, ?_, ⟨p, hp, ?_⟩, ?_, ⟨0, 0, by omega, by omega, ?_⟩,
    ⟨stop + 1, by omega, ?_⟩, ?_⟩
  · intro a ha
    rw [hlo a (by omega), if_neg (by omega), h.lo_below a ha]
  · intro a ha
    rw [hhi a (by omega), if_neg (by omega), hbelow a ha]
  · intro a hs ht
    rw [hlo a (by omega)]
    split_ifs with hin
    · rfl
    · exact h.lo_first a hs (by omega)
  · intro a hs ht
    rw [hhi a (by omega), if_neg (Nat.not_lt_zero a)]
    split_ifs with hin
    · rfl
    · exact h.hi_first a hs (by omega)
  · intro a ht ha
    rw [hlo a ha, if_neg (by omega), habove a (by omega) ha, if_pos (by omega), if_pos (by omega)]
  · intro a ht ha
    rw [hhi a ha, if_neg (by omega), h.hi_rest a (by omega) ha]

/-- A range that ends within an entry. -/
theorem installed_part_last (hm : Sound (2 ^ g.highBits) 16384 (IsTable t) (map g t))
    (hstop_mod : stop % 2 ^ g.unit = 2 ^ g.unit - 1) {hd : H} {t' : HighDispatch H}
    (h : FirstPart (2 ^ g.highBits) start stop (map g t) (map g t₁))
    (htable : ∀ x, IsTable t₁ x → x = start / 16384 ∨ IsTable t x) (ht' : t' =
    (populateNomirrorSubdispatch g (stop / 16384) (16384 * (stop / 16384)) stop start stop hd
      t₁).fill (afterFirst start / 16384) (stop / 16384 - 1) (.handler hd) ⟨start, stop⟩)
    (hhandler : ∀ a < 2 ^ g.highBits,
      (map g t').handler a = if start ≤ a ∧ a ≤ stop then hd else (map g t).handler a) :
    Installed (2 ^ g.highBits) start stop hd (map g t) (map g t') := by
  have hafter : start ≤ afterFirst start ∧ afterFirst start ≤ 16384 * (stop / 16384) ∧
      afterFirst start = 16384 * (afterFirst start / 16384) := by
    rw [afterFirst]
    split_ifs <;> omega
  have hlt32 : stop < 2 ^ 32 := hlt.trans_le (Nat.pow_le_pow_right Nat.two_pos g.highBits_le)
  have he : 16384 * (stop / 16384) < 2 ^ g.highBits := by omega
  have hentry := entry_lt hg he
  obtain ⟨p, hp, hbelow⟩ := h.hi_below
  obtain ⟨q, hq, habove⟩ := h.lo_rest
  obtain ⟨k, p', hp', hhi₁⟩ := exists_hi_populateSubdispatch
    (LowDispatch.populateNomirror upperBits g.unit (16384 * (stop / 16384)) stop start stop hd) hg
    he (fun x hx _ ↦ h.hiOrdered hm.hiOrdered (by omega))
  have hord : LoOrdered (16384 * (stop / 16384 + 1)) (2 ^ g.highBits) (map g t₁).lo := by
    refine ((hm.loOrdered.cut (p := 0) (c := stop + 1)).mono (Nat.zero_le _) le_rfl).congr ?_
    intro a ha ha'
    rw [habove a (by omega) ha', if_pos ha, if_pos (Nat.zero_le a)]
  have hord' : LoOrdered (stop + 1) (16384 * (stop / 16384) + 16384) (map g t₁).lo := by
    refine ((hm.loOrdered.cut (p := 0) (c := q)).mono (Nat.zero_le _) (by omega)).congr ?_
    intro a ha ha'
    rw [habove a (by omega) (by omega), if_neg (by omega), if_pos (Nat.zero_le a)]
  have hinside : ∀ x > stop / 16384, IsTable t₁ x → ∀ a < 2 ^ g.highBits, a / 16384 = x →
      ¬ ((map g t₁).lo a ≤ 16384 * x ∧ 16384 * x + 16383 ≤ (map g t₁).hi a) := by
    rintro x hx hx' a ha hax ⟨hlo, hhi⟩
    rw [h.hi_rest a (by omega) ha] at hhi
    rw [habove a (by omega) ha, if_pos (by omega)] at hlo
    exact hm.inside x ((htable x hx').resolve_left (by omega)) a ha hax ⟨by omega, hhi⟩
  obtain ⟨q', hq', hlo₁⟩ := lo_populateSubdispatch
    (LowDispatch.populateNomirror upperBits g.unit (16384 * (stop / 16384)) stop start stop hd) hg
    he (fun a ha ha' ↦ (hm.le_hi a ha).trans (h.hi_rest a (by omega) ha).ge) hord hinside
  have hfirst_mod := block_start_mod g g.unit_lt (stop / 16384)
  have hhi : ∀ a < 2 ^ g.highBits, (map g t').hi a =
      if afterFirst start ≤ a ∧ a ≤ stop then stop
      else if 16384 * k ≤ a ∧ a < p' then min ((map g t₁).hi a) (p' - 1) else (map g t₁).hi a := by
    intro a ha
    rw [ht', hi_fill hg _ _ _ hd start stop ha, populateNomirrorSubdispatch, hhi₁ a ha]
    by_cases hae : a / 16384 = stop / 16384
    · rw [← hae, hi_part hg ha (by omega) hae.symm (hae ▸ hfirst_mod) hstop_mod (Or.inr (by omega))
        (by omega) stop hd fun b c hb hbc hc ↦ absurd (hb.trans hbc) (Nat.not_le.mpr hc)]
      split_ifs <;> omega
    · rw [if_neg hae]
      split_ifs <;> omega
  have hlo : ∀ a < 2 ^ g.highBits, (map g t').lo a =
      if afterFirst start ≤ a ∧ a ≤ stop then start
      else if q' ≤ a then max ((map g t₁).lo a) q'
      else if a / 16384 = stop / 16384 then max ((map g t₁).lo a) (stop + 1)
        else (map g t₁).lo a := by
    intro a ha
    rw [ht', lo_fill hg _ _ _ hd start stop ha, populateNomirrorSubdispatch, hlo₁ a ha]
    by_cases hae : a / 16384 = stop / 16384
    · rw [← hae, lo_part hg ha (by omega) hae.symm (hae ▸ hfirst_mod) hstop_mod (Or.inl rfl)
        hlt32 start hd (hae ▸ hord')]
      split_ifs <;> omega
    · rw [if_neg hae]
      split_ifs <;> omega
  -- the table in the last entry cuts the ranges of the first part if the walk comes that far
  refine ⟨hhandler, ?_, ⟨p, hp, ?_⟩, ?_, ?_, ⟨q', by omega, ?_⟩, ?_⟩
  · intro a ha
    rw [hlo a (by omega), h.lo_below a ha]
    split_ifs <;> omega
  · intro a ha
    have hcut : (map g t₁).hi a < start := by
      rw [hbelow a ha]
      split_ifs <;> omega
    rw [hhi a (by omega), ← hbelow a ha]
    split_ifs <;> omega
  · intro a hs ht
    rw [hlo a (by omega)]
    split_ifs with hin
    · rfl
    · omega
    · omega
    · exact h.lo_first a hs (by omega)
  · by_cases hk : 16384 * k < afterFirst start ∧ start < afterFirst start
    · have hk' : 16384 * k ≤ start := by
        rw [afterFirst] at hk
        split_ifs at hk <;> omega
      refine ⟨if p' = 0 then 0 else afterFirst start, p' - 1, ?_, ?_, ?_⟩
      · split_ifs <;> omega
      · omega
      · intro a hs ht
        rw [hhi a (by omega)]
        split_ifs <;> first | rfl | omega | skip
        · rw [h.hi_first a hs (by omega)]
          omega
        · rw [h.hi_first a hs (by omega)]
    · refine ⟨0, 0, by omega, by omega, ?_⟩
      intro a hs ht
      rw [hhi a (by omega), if_neg (Nat.not_lt_zero a)]
      split_ifs
      · rfl
      · omega
      · exact h.hi_first a hs (by omega)
  · intro a ht ha
    rw [hlo a ha, habove a (by omega) ha]
    split_ifs <;> omega
  · intro a ht ha
    rw [hhi a ha, h.hi_rest a (by omega) ha]
    split_ifs <;> omega

end Several

/-! ## The installation -/

section Installation

variable (hg : upperBits ≤ g.highBits) (hle : start ≤ stop) (hlt : stop < 2 ^ g.highBits)
include hg hle hlt

/-- `populate_nomirror` by the entries that the range meets. -/
theorem populateNomirror_cases (hd : H) (t : HighDispatch H) :
    (start / 16384 = stop / 16384 ∧ start % 16384 = 0 ∧ stop % 16384 = 16383 ∧
      populateNomirror g start stop start stop hd t =
        (cutAround g start stop t).fill (start / 16384) (start / 16384)
        (.handler hd) ⟨start, stop⟩) ∨
    (start / 16384 = stop / 16384 ∧ ¬ (start % 16384 = 0 ∧ stop % 16384 = 16383) ∧
      populateNomirror g start stop start stop hd t =
        populateNomirrorSubdispatch g (start / 16384) start stop start stop hd
          (cutAround g start stop t)) ∨
    (start / 16384 < stop / 16384 ∧ stop % 16384 = 16383 ∧
      populateNomirror g start stop start stop hd t =
        (firstPart g start stop hd t).fill (afterFirst start / 16384) (stop / 16384) (.handler hd)
          ⟨start, stop⟩) ∨
    (start / 16384 < stop / 16384 ∧ stop % 16384 ≠ 16383 ∧
      populateNomirror g start stop start stop hd t =
        (populateNomirrorSubdispatch g (stop / 16384) (16384 * (stop / 16384)) stop start stop hd
          (firstPart g start stop hd t)).fill (afterFirst start / 16384)
          (stop / 16384 - 1) (.handler hd)
            ⟨start, stop⟩) := by
  have hafter : afterFirst start / 16384 =
      if start % 16384 ≠ 0 then start / 16384 + 1 else start / 16384 := by
    rw [afterFirst]
    split_ifs <;> omega
  rw [populateNomirror_eq g hg hle hlt, hafter, firstPart, cutAround]
  dsimp only
  by_cases hsame : start / 16384 = stop / 16384
  · rw [if_pos hsame]
    by_cases hfull : start % 16384 = 0 ∧ stop % 16384 = 16383
    · exact Or.inl ⟨hsame, hfull.1, hfull.2, if_pos hfull⟩
    · exact Or.inr (Or.inl ⟨hsame, hfull, if_neg hfull⟩)
  · have hentries : start / 16384 < stop / 16384 :=
      Nat.lt_of_le_of_ne (Nat.div_le_div_right hle) hsame
    rw [if_neg hsame]
    by_cases hstop : stop % 16384 = 16383
    · refine Or.inr (Or.inr (Or.inl ⟨hentries, hstop, ?_⟩))
      rw [if_neg (not_not.mpr hstop), if_neg (not_not.mpr hstop)]
    · refine Or.inr (Or.inr (Or.inr ⟨hentries, hstop, ?_⟩))
      rw [if_pos hstop, if_pos hstop]

/-- The tables after the installation meet the range and are not covered by it. -/
theorem isTable_populateNomirror {hd : H}
    {x : ℕ} (hx : IsTable (populateNomirror g start stop start stop hd t) x) :
    ¬ (start ≤ 16384 * x ∧ 16384 * x + 16383 ≤ stop) ∧
      (IsTable t x ∨ (start ≤ 16384 * x + 16383 ∧ 16384 * x ≤ stop)) := by
  rcases populateNomirror_cases hg hle hlt hd t with ⟨hsame, hstart, hstop, heq⟩ |
    ⟨hsame, hfull, heq⟩ | ⟨hentries, hstop, heq⟩ | ⟨hentries, hstop, heq⟩
  · rw [heq, isTable_fill, isTable_cutAround] at hx
    exact ⟨by omega, Or.inl hx.2⟩
  · rw [heq, populateNomirrorSubdispatch, isTable_populateSubdispatch, isTable_cutAround] at hx
    refine ⟨by omega, ?_⟩
    rcases hx with hx | hx
    · exact Or.inr (by omega)
    · exact Or.inl hx
  · rw [heq, isTable_fill, isTable_firstPart] at hx
    have hcover : ¬ (start ≤ 16384 * x ∧ 16384 * x + 16383 ≤ stop) := by
      have hfill := hx.1
      rw [afterFirst] at hfill
      split_ifs at hfill <;> omega
    refine ⟨hcover, ?_⟩
    rcases hx.2 with hx' | hx'
    · exact Or.inr (by omega)
    · exact Or.inl hx'
  · rw [heq, isTable_fill, populateNomirrorSubdispatch, isTable_populateSubdispatch,
      isTable_firstPart] at hx
    have hcover : ¬ (start ≤ 16384 * x ∧ 16384 * x + 16383 ≤ stop) := by
      have hfill := hx.1
      rw [afterFirst] at hfill
      split_ifs at hfill <;> omega
    refine ⟨hcover, ?_⟩
    rcases hx.2 with hx' | hx' | hx'
    · exact Or.inr (by omega)
    · exact Or.inr (by omega)
    · exact Or.inl hx'

theorem installed_populateNomirror (hm : Sound (2 ^ g.highBits) 16384 (IsTable t) (map g t))
    (hstart_mod : start % 2 ^ g.unit = 0) (hstop_mod : stop % 2 ^ g.unit = 2 ^ g.unit - 1)
    (hd : H) : Installed (2 ^ g.highBits) start stop hd (map g t)
      (map g (populateNomirror g start stop start stop hd t)) := by
  have hhandler : ∀ a < 2 ^ g.highBits,
      (map g (populateNomirror g start stop start stop hd t)).handler a =
      if start ≤ a ∧ a ≤ stop then hd else (map g t).handler a := by
    intro a ha
    rw [handler_map hg, handler_map hg, read_populateNomirror g hg ha hle hlt hstart_mod hstop_mod]
  rcases populateNomirror_cases hg hle hlt hd t with ⟨hsame, hstart, hstop, heq⟩ |
    ⟨hsame, -, heq⟩ | ⟨hentries, hstop, heq⟩ | ⟨hentries, -, heq⟩
  · exact installed_fill hg hm hle hlt hsame hstart hstop heq hhandler
  · exact installed_part hg hm hle hlt hsame hstart_mod hstop_mod heq hhandler
  · exact installed_fill_last hg hlt hentries hstop
      (firstPart_firstPart hg hlt hentries hm hstart_mod hd) heq hhandler
  · refine installed_part_last hg hlt hentries hm hstop_mod
      (firstPart_firstPart hg hlt hentries hm hstart_mod hd) ?_ heq hhandler
    intro x hx
    rcases (isTable_firstPart hd x).mp hx with ⟨-, hx⟩ | hx
    · exact Or.inl hx
    · exact Or.inr hx

/-- Installing a range keeps the ranges of the tree right. -/
theorem sound_populateNomirror (hm : Sound (2 ^ g.highBits) 16384 (IsTable t) (map g t))
    (hstart_mod : start % 2 ^ g.unit = 0)
    (hstop_mod : stop % 2 ^ g.unit = 2 ^ g.unit - 1) (hd : H) :
    Sound (2 ^ g.highBits) 16384 (IsTable (populateNomirror g start stop start stop hd t))
      (map g (populateNomirror g start stop start stop hd t)) :=
  (installed_populateNomirror hg hle hlt hm hstart_mod hstop_mod hd).sound hm hle hlt (by decide)
    fun _ hx ↦ isTable_populateNomirror hg hle hlt hx

end Installation

end HighDispatch

end RoscoEmulator.Memory
