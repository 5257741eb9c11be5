import Mathlib.Order.Lattice
import Mathlib.Order.Nat

/-!
# Maps with ranges

Each address below `N` has a handler, and a range of addresses around it that is known to have the
same one. The ranges are kept by hand and may be smaller than they could be. When a range of
addresses is given a new handler, the ranges that reach into it have to be cut. To find them one
walks away from the new range and stops at the first address whose range does not reach into it,
which misses none if the ranges are ordered: as far as the range of `a` reaches, the ranges of the
addresses there reach at least as far.

The addresses come in blocks of size `B`, and some blocks are marked. No range of an address in a
marked block covers the block, so that the walk ends there. -/

namespace RoscoEmulator

/-- The range of `a` is from `lo a` to `hi a`, both included. -/
structure RangeMap (H : Type*) where
  lo : ℕ → ℕ
  hi : ℕ → ℕ
  handler : ℕ → H

namespace RangeMap

variable {H : Type*}

/-- The upper ends of the ranges from `p` to `q`, `q` excluded, are ordered. -/
def HiOrdered (p q : ℕ) (hi : ℕ → ℕ) : Prop :=
  ∀ a b, p ≤ a → a ≤ b → b < q → b ≤ hi a → hi a ≤ hi b

/-- The lower ends of the ranges from `p` to `q`, `q` excluded, are ordered. -/
def LoOrdered (p q : ℕ) (lo : ℕ → ℕ) : Prop :=
  ∀ a b, p ≤ b → b ≤ a → a < q → lo a ≤ b → lo b ≤ lo a

variable {N p q : ℕ} {hi lo : ℕ → ℕ} {m m' : RangeMap H}

theorem HiOrdered.mono {p' q' : ℕ} (h : HiOrdered p q hi) (hp : p ≤ p') (hq : q' ≤ q) :
    HiOrdered p' q' hi := fun a b ha hab hb ↦ h a b (hp.trans ha) hab (hb.trans_le hq)

theorem LoOrdered.mono {p' q' : ℕ} (h : LoOrdered p q lo) (hp : p ≤ p') (hq : q' ≤ q) :
    LoOrdered p' q' lo := fun a b hb hba ha ↦ h a b (hp.trans hb) hba (ha.trans_le hq)

theorem HiOrdered.congr {hi' : ℕ → ℕ} (h : HiOrdered p q hi)
    (heq : ∀ a, p ≤ a → a < q → hi' a = hi a) : HiOrdered p q hi' := by
  intro a b ha hab hb hle
  rw [heq a ha (hab.trans_lt hb)] at hle ⊢
  rw [heq b (ha.trans hab) hb]
  exact h a b ha hab hb hle

theorem LoOrdered.congr {lo' : ℕ → ℕ} (h : LoOrdered p q lo)
    (heq : ∀ a, p ≤ a → a < q → lo' a = lo a) : LoOrdered p q lo' := by
  intro a b hb hba ha hle
  rw [heq a (hb.trans hba) ha] at hle ⊢
  rw [heq b hb (hba.trans_lt ha)]
  exact h a b hb hba ha hle

/-- The ranges below `p` may be cut anywhere from `p` on. -/
theorem HiOrdered.cut {c : ℕ} (h : HiOrdered 0 q hi) :
    HiOrdered 0 q fun a ↦ if a < p then min (hi a) c else hi a := by
  intro a b ha hab hb hle
  have hord := h a b ha hab hb
  dsimp only at hle ⊢
  split_ifs at hle ⊢ <;> omega

theorem LoOrdered.cut {c : ℕ} (h : LoOrdered 0 q lo) :
    LoOrdered 0 q fun a ↦ if p ≤ a then max (lo a) c else lo a := by
  intro a b hb hba ha hle
  have hord := h a b hb hba ha
  dsimp only at hle ⊢
  split_ifs at hle ⊢ <;> omega

/-- Ranges that do not cross `p` are ordered if they are on both sides. -/
theorem HiOrdered.append {r : ℕ} (hcross : ∀ a, p ≤ a → a < q → hi a < q) (hleft : HiOrdered p q hi)
    (hright : HiOrdered q r hi) : HiOrdered p r hi := by
  intro a b ha hab hb hle
  by_cases haq : a < q
  · exact hleft a b ha hab (hle.trans_lt (hcross a ha haq)) hle
  · exact hright a b (Nat.not_lt.mp haq) hab hb hle

theorem LoOrdered.append {r : ℕ} (hcross : ∀ a, q ≤ a → a < r → q ≤ lo a) (hleft : LoOrdered p q lo)
    (hright : LoOrdered q r lo) : LoOrdered p r lo := by
  intro a b hb hba ha hle
  by_cases haq : a < q
  · exact hleft a b hb hba haq hle
  · exact hright a b ((hcross a (Nat.not_lt.mp haq) ha).trans hle) hba ha hle

/-- The ranges are right, are ordered, and those in the marked blocks do not cover them. -/
structure Sound (N B : ℕ) (marked : ℕ → Prop) (m : RangeMap H) : Prop where
  lo_le : ∀ a < N, m.lo a ≤ a
  le_hi : ∀ a < N, a ≤ m.hi a
  hi_lt : ∀ a < N, m.hi a < N
  handler : ∀ a < N, ∀ b < N, m.lo a ≤ b → b ≤ m.hi a → m.handler b = m.handler a
  hiOrdered : HiOrdered 0 N m.hi
  loOrdered : LoOrdered 0 N m.lo
  inside : ∀ e, marked e → ∀ a < N, a / B = e → ¬ (m.lo a ≤ B * e ∧ B * e + (B - 1) ≤ m.hi a)

/-- `m'` is `m` after the handler `hd` was installed from `s` to `t`. The ranges around it may have
been cut more than it takes, at a point before, at one after it and at one within it. -/
structure Installed (N s t : ℕ) (hd : H) (m m' : RangeMap H) : Prop where
  handler : ∀ a < N, m'.handler a = if s ≤ a ∧ a ≤ t then hd else m.handler a
  lo_below : ∀ a < s, m'.lo a = m.lo a
  hi_below :
    ∃ p ≤ s, ∀ a < s, m'.hi a = if a < p then min (m.hi a) (p - 1) else min (m.hi a) (s - 1)
  lo_mid : ∀ a, s ≤ a → a ≤ t → m'.lo a = s
  hi_mid : ∃ p c, p ≤ c + 1 ∧ c ≤ t ∧ ∀ a, s ≤ a → a ≤ t → m'.hi a = if a < p then c else t
  lo_above : ∃ p > t, ∀ a, t < a → a < N →
    m'.lo a = if p ≤ a then max (m.lo a) p else max (m.lo a) (t + 1)
  hi_above : ∀ a, t < a → a < N → m'.hi a = m.hi a

namespace Installed

variable {N B s t : ℕ} {hd : H} {m m' : RangeMap H} {marked marked' : ℕ → Prop}

/-- The ranges around the new one are cut at it, and before `p` and from `q` on at these. -/
theorem of_eq {p q : ℕ} (hp : p ≤ s) (hst : s ≤ t) (hq : t < q) (htN : t < N)
    (hhandler : ∀ a < N, m'.handler a = if s ≤ a ∧ a ≤ t then hd else m.handler a)
    (hhi : ∀ a < N, m'.hi a = if s ≤ a ∧ a ≤ t then t else if a < p then min (m.hi a) (p - 1)
      else if a < s then min (m.hi a) (s - 1) else m.hi a)
    (hlo : ∀ a < N, m'.lo a = if s ≤ a ∧ a ≤ t then s else if q ≤ a then max (m.lo a) q
      else if t < a then max (m.lo a) (t + 1) else m.lo a) : Installed N s t hd m m' := by
  refine ⟨hhandler, ?_, ⟨p, hp, ?_⟩, ?_, ⟨0, 0, by omega, by omega, ?_⟩, ⟨q, hq, ?_⟩, ?_⟩
  · intro a ha
    rw [hlo a (by omega)]
    split_ifs <;> omega
  · intro a ha
    rw [hhi a (by omega)]
    split_ifs <;> omega
  · intro a hs ht
    rw [hlo a (by omega), if_pos ⟨hs, ht⟩]
  · intro a hs ht
    rw [hhi a (by omega), if_pos ⟨hs, ht⟩, if_neg (Nat.not_lt_zero a)]
  · intro a ht ha
    rw [hlo a ha]
    split_ifs <;> omega
  · intro a ht ha
    rw [hhi a ha]
    split_ifs <;> omega

variable {a : ℕ}

section

variable (h : Installed N s t hd m m')
include h

theorem hi_below_lt (ha : a < s) : m'.hi a < s ∧ m'.hi a ≤ m.hi a := by
  obtain ⟨p, hp, hhi⟩ := h.hi_below
  rw [hhi a ha]
  split_ifs <;> omega

theorem hi_mid_le (hs : s ≤ a) (ht : a ≤ t) : a ≤ m'.hi a ∧ m'.hi a ≤ t := by
  obtain ⟨p, c, hp, hc, hhi⟩ := h.hi_mid
  rw [hhi a hs ht]
  split_ifs <;> omega

theorem lo_above_lt (ht : t < a) (ha : a < N) : t < m'.lo a ∧ m.lo a ≤ m'.lo a := by
  obtain ⟨p, hp, hlo⟩ := h.lo_above
  rw [hlo a ht ha]
  split_ifs <;> omega

theorem hiOrdered (hst : s ≤ t) (htN : t < N) (hm : HiOrdered 0 N m.hi) : HiOrdered 0 N m'.hi := by
  obtain ⟨p, hp, hbelow⟩ := h.hi_below
  obtain ⟨p', c, hp', hc, hmid⟩ := h.hi_mid
  refine HiOrdered.append (q := s) (fun a _ ha ↦ (h.hi_below_lt ha).1) ?_
    (HiOrdered.append (q := t + 1) ?_ ?_ ?_)
  · have hcut := (hm.cut (p := s) (c := s - 1)).cut (p := p) (c := p - 1)
    refine (hcut.mono le_rfl (hst.trans htN.le)).congr fun a _ ha ↦ ?_
    rw [hbelow a ha]
    split_ifs <;> omega
  · intro a hs ht
    exact Nat.lt_succ_of_le (h.hi_mid_le hs (Nat.le_of_lt_succ ht)).2
  · intro a b hs hab hb hle
    rw [hmid a hs (by omega)] at hle ⊢
    rw [hmid b (by omega) (by omega)]
    split_ifs at hle ⊢ <;> omega
  · exact (hm.mono (Nat.zero_le _) le_rfl).congr fun a ht ha ↦ h.hi_above a ht ha

theorem loOrdered (hst : s ≤ t) (htN : t < N) (hm : LoOrdered 0 N m.lo) : LoOrdered 0 N m'.lo := by
  obtain ⟨p, hp, habove⟩ := h.lo_above
  refine LoOrdered.append (q := t + 1) (fun a ht ha ↦ (h.lo_above_lt ht ha).1)
    (LoOrdered.append (q := s) ?_ ?_ ?_) ?_
  · intro a hs ht
    exact (h.lo_mid a hs (Nat.le_of_lt_succ ht)).ge
  · exact (hm.mono le_rfl (hst.trans htN.le)).congr fun a _ ha ↦ h.lo_below a ha
  · intro a b hs hba hat hle
    rw [h.lo_mid a (by omega) (by omega), h.lo_mid b hs (by omega)]
  · have hcut := (hm.cut (p := t + 1) (c := t + 1)).cut (p := p) (c := p)
    refine (hcut.mono (Nat.zero_le _) le_rfl).congr fun a ht ha ↦ ?_
    rw [habove a ht ha]
    split_ifs <;> omega

/-- **Installing a handler keeps the ranges right.** A block that is marked after it was marked
before or meets the new range, and is not covered by it. -/
theorem sound (hm : Sound N B marked m) (hst : s ≤ t) (htN : t < N) (hB : 0 < B)
    (hmarked : ∀ e, marked' e → ¬ (s ≤ B * e ∧ B * e + (B - 1) ≤ t) ∧
      (marked e ∨ (s ≤ B * e + (B - 1) ∧ B * e ≤ t))) : Sound N B marked' m' := by
  refine ⟨?_, ?_, ?_, ?_, h.hiOrdered hst htN hm.hiOrdered, h.loOrdered hst htN hm.loOrdered, ?_⟩
  · intro a ha
    rcases Nat.lt_or_ge a s with hs | hs
    · rw [h.lo_below a hs]
      exact hm.lo_le a ha
    · rcases Nat.lt_or_ge t a with ht | ht
      · obtain ⟨p, hp, habove⟩ := h.lo_above
        have hlo := hm.lo_le a ha
        rw [habove a ht ha]
        split_ifs <;> omega
      · rwa [h.lo_mid a hs ht]
  · intro a ha
    rcases Nat.lt_or_ge a s with hs | hs
    · obtain ⟨p, hp, hbelow⟩ := h.hi_below
      have hhi := hm.le_hi a ha
      rw [hbelow a hs]
      split_ifs <;> omega
    · rcases Nat.lt_or_ge t a with ht | ht
      · rw [h.hi_above a ht ha]
        exact hm.le_hi a ha
      · exact (h.hi_mid_le hs ht).1
  · intro a ha
    rcases Nat.lt_or_ge a s with hs | hs
    · exact (h.hi_below_lt hs).2.trans_lt (hm.hi_lt a ha)
    · rcases Nat.lt_or_ge t a with ht | ht
      · rw [h.hi_above a ht ha]
        exact hm.hi_lt a ha
      · exact (h.hi_mid_le hs ht).2.trans_lt htN
  · intro a ha b hb hlo hhi
    rw [h.handler a ha, h.handler b hb]
    rcases Nat.lt_or_ge a s with hs | hs
    · obtain ⟨hlt, hle⟩ := h.hi_below_lt hs
      rw [h.lo_below a hs] at hlo
      rw [if_neg (by omega), if_neg (by omega)]
      exact hm.handler a ha b hb hlo (hhi.trans hle)
    · rcases Nat.lt_or_ge t a with ht | ht
      · obtain ⟨hlt, hle⟩ := h.lo_above_lt ht ha
        rw [h.hi_above a ht ha] at hhi
        rw [if_neg (by omega), if_neg (by omega)]
        exact hm.handler a ha b hb (hle.trans hlo) hhi
      · have hmid := h.hi_mid_le hs ht
        rw [h.lo_mid a hs ht] at hlo
        rw [if_pos ⟨hlo, hhi.trans hmid.2⟩, if_pos ⟨hs, ht⟩]
  · rintro e he a ha hae ⟨hlo, hhi⟩
    obtain ⟨hcover, hmeets⟩ := hmarked e he
    have hblock : B * e ≤ a ∧ a ≤ B * e + (B - 1) := by
      have hdiv := Nat.div_add_mod a B
      have hmod := Nat.mod_lt a hB
      rw [hae] at hdiv
      omega
    rcases Nat.lt_or_ge a s with hs | hs
    · obtain ⟨hlt, hle⟩ := h.hi_below_lt hs
      rw [h.lo_below a hs] at hlo
      rcases hmeets with hmark | hmeets
      · exact hm.inside e hmark a ha hae ⟨hlo, hhi.trans hle⟩
      · omega
    · rcases Nat.lt_or_ge t a with ht | ht
      · obtain ⟨hlt, hle⟩ := h.lo_above_lt ht ha
        rw [h.hi_above a ht ha] at hhi
        rcases hmeets with hmark | hmeets
        · exact hm.inside e hmark a ha hae ⟨hle.trans hlo, hhi⟩
        · omega
      · have hmid := h.hi_mid_le hs ht
        rw [h.lo_mid a hs ht] at hlo
        omega

end

end Installed

/-- The ranges that reach into the block from `p` to before `q` are cut. -/
def isolate (p q : ℕ) (m : RangeMap H) : RangeMap H where
  lo a := if q ≤ a then max (m.lo a) q else m.lo a
  hi a := if a < p then min (m.hi a) (p - 1) else m.hi a
  handler := m.handler

theorem Sound.isolate {B : ℕ} {marked : ℕ → Prop} (h : Sound N B marked m) :
    Sound N B marked (m.isolate p q) := by
  have hlo : ∀ a, m.lo a ≤ (m.isolate p q).lo a := by
    intro a
    dsimp only [RangeMap.isolate]
    split_ifs
    · exact le_max_left _ _
    · exact le_rfl
  have hhi : ∀ a, (m.isolate p q).hi a ≤ m.hi a := by
    intro a
    dsimp only [RangeMap.isolate]
    split_ifs
    · exact min_le_left _ _
    · exact le_rfl
  refine ⟨?_, ?_, fun a ha ↦ (hhi a).trans_lt (h.hi_lt a ha), ?_, h.hiOrdered.cut,
    h.loOrdered.cut, ?_⟩
  · intro a ha
    have hle := h.lo_le a ha
    dsimp only [RangeMap.isolate]
    split_ifs <;> omega
  · intro a ha
    have hle := h.le_hi a ha
    dsimp only [RangeMap.isolate]
    split_ifs <;> omega
  · intro a ha b hb hlo' hhi'
    exact h.handler a ha b hb ((hlo a).trans hlo') (hhi'.trans (hhi a))
  · rintro e he a ha hae ⟨hlo', hhi'⟩
    exact h.inside e he a ha hae ⟨(hlo a).trans hlo', hhi'.trans (hhi a)⟩

/-! ## A block of a map -/

/-- The map that is `inner` from `p` to before `q`, and `outer` elsewhere. -/
def splice (p q : ℕ) (inner outer : RangeMap H) : RangeMap H where
  lo a := if p ≤ a ∧ a < q then inner.lo a else outer.lo a
  hi a := if p ≤ a ∧ a < q then inner.hi a else outer.hi a
  handler a := if p ≤ a ∧ a < q then inner.handler a else outer.handler a

/-- Two maps are the same below `N`. -/
structure Agree (N : ℕ) (m m' : RangeMap H) : Prop where
  lo : ∀ a < N, m'.lo a = m.lo a
  hi : ∀ a < N, m'.hi a = m.hi a
  handler : ∀ a < N, m'.handler a = m.handler a

theorem Sound.congr {B : ℕ} {marked marked' : ℕ → Prop} (h : Sound N B marked m) (hm : Agree N m m')
    (hmarked : ∀ e, marked' e → marked e) : Sound N B marked' m' := by
  refine ⟨?_, ?_, ?_, ?_, h.hiOrdered.congr fun a _ ha ↦ hm.hi a ha,
    h.loOrdered.congr fun a _ ha ↦ hm.lo a ha, ?_⟩
  · intro a ha
    rw [hm.lo a ha]
    exact h.lo_le a ha
  · intro a ha
    rw [hm.hi a ha]
    exact h.le_hi a ha
  · intro a ha
    rw [hm.hi a ha]
    exact h.hi_lt a ha
  · intro a ha b hb hlo hhi
    rw [hm.lo a ha] at hlo
    rw [hm.hi a ha] at hhi
    rw [hm.handler a ha, hm.handler b hb]
    exact h.handler a ha b hb hlo hhi
  · intro e he a ha hae
    rw [hm.lo a ha, hm.hi a ha]
    exact h.inside e (hmarked e he) a ha hae

/-- Installing a handler in a block is installing it in the map if no range of an address outside
the block reaches into the new range. -/
theorem installed_splice {s t : ℕ} {hd : H} {inner inner' outer : RangeMap H} (hp : p ≤ s)
    (hst : s ≤ t) (hq : t < q) (hqN : q ≤ N) (hhandler : ∀ a, p ≤ a → a < q → inner'.handler a =
    if s ≤ a ∧ a ≤ t then hd else inner.handler a) (hhi : ∀ a, p ≤ a → a < q → inner'.hi a =
      if s ≤ a ∧ a ≤ t then t else if a < s then min (inner.hi a) (s - 1) else inner.hi a)
    (hlo : ∀ a, p ≤ a → a < q → inner'.lo a =
      if s ≤ a ∧ a ≤ t then s else if t < a then max (inner.lo a) (t + 1) else inner.lo a)
    (hbelow : ∀ a < p, outer.hi a < s) (habove : ∀ a, q ≤ a → a < N → t < outer.lo a) :
    Installed N s t hd (splice p q inner outer) (splice p q inner' outer) := by
  refine Installed.of_eq (Nat.zero_le s) hst (Nat.lt_succ_self t) (by omega) ?_ ?_ ?_
  all_goals
    intro a ha
    dsimp only [splice]
    by_cases hin : p ≤ a ∧ a < q
  · rw [if_pos hin, if_pos hin, hhandler a hin.1 hin.2]
  · rw [if_neg hin, if_neg hin, if_neg (by omega)]
  · rw [if_pos hin, if_pos hin, hhi a hin.1 hin.2]
    split_ifs <;> omega
  · have hout := hbelow a
    rw [if_neg hin, if_neg hin]
    split_ifs <;> omega
  · rw [if_pos hin, if_pos hin, hlo a hin.1 hin.2]
    split_ifs <;> omega
  · have hout := habove a
    rw [if_neg hin, if_neg hin]
    split_ifs <;> omega

/-- A range of `m'` is within one of `m`, or it is from `p` to before `q`. -/
def Within (N p q : ℕ) (m m' : RangeMap H) : Prop :=
  ∀ a < N, (m.lo a ≤ m'.lo a ∧ m'.hi a ≤ m.hi a) ∨ (p ≤ m'.lo a ∧ m'.hi a < q)

theorem Within.trans {m'' : RangeMap H} (h : Within N p q m m') (h' : Within N p q m' m'') :
    Within N p q m m'' := by
  intro a ha
  rcases h' a ha with ⟨hlo', hhi'⟩ | hin'
  · rcases h a ha with ⟨hlo, hhi⟩ | ⟨hlo, hhi⟩
    · exact Or.inl ⟨hlo.trans hlo', hhi'.trans hhi⟩
    · exact Or.inr ⟨hlo.trans hlo', hhi'.trans_lt hhi⟩
  · exact Or.inr hin'

theorem Installed.within {s t : ℕ} {hd : H} (h : Installed N s t hd m m') (hp : p ≤ s)
    (hq : t < q) : Within N p q m m' := by
  intro a ha
  rcases Nat.lt_or_ge a s with hs | hs
  · exact Or.inl ⟨(h.lo_below a hs).ge, (h.hi_below_lt hs).2⟩
  · rcases Nat.lt_or_ge t a with ht | ht
    · exact Or.inl ⟨(h.lo_above_lt ht ha).2, (h.hi_above a ht ha).le⟩
    · rw [h.lo_mid a hs ht]
      exact Or.inr ⟨hp, (h.hi_mid_le hs ht).2.trans_lt hq⟩

end RangeMap

end RoscoEmulator
