import RoscoEmulator.Lib.GuardedRun
import RoscoEmulator.Memory.Mirrors

/-!
# The range that `lookup` finds

An access cache keeps the range and the handler that `lookup` finds and sends later accesses in the
range to the handler, without the dispatch. So the range has to contain the address, and all
addresses in it must reach the handler. `populate_nomirror` cuts the ranges around the new one
first, in the root table; `populate_mirror` leaves that to the tables below if there is a mirror in
the bits of these, and where such a table is there already, ranges outside its block are not cut. -/

namespace RoscoEmulator.Memory

open List RangeMap Submask

variable {H : Type*}

/-- Some address is in both. -/
def Range.Meets (r : Range) (s u : ℕ) : Prop := r.start ≤ u ∧ s ≤ r.stop

namespace HighDispatch

/-- A range that is kept outside the entry `e`, in the table or in one below, reaches into the range
from `s` to `u`. -/
def ReachedFromOutside (g : Geometry) (t : HighDispatch H) (e s u : ℕ) : Prop :=
  ∃ x < count g.highBits upperBits, x ≠ e ∧
    match t.dispatch x with
    | .handler _ => (t.range x).Meets s u
    | .dispatch sub => ∃ i < count upperBits g.unit, (sub.range i).Meets s u

theorem free_of_not_reachedFromOutside {g : Geometry}
    (hg : upperBits ≤ g.highBits) {t : HighDispatch H}
    {e s u : ℕ} (h : IsTable t e → ¬ ReachedFromOutside g t e s u) : Free g t e s u := by
  rintro htable a ha hae ⟨hlo, hhi⟩
  refine h htable ⟨a / 16384, ?_, hae, ?_⟩
  · rw [← dispatchEntry_upper g hg ha]
    exact dispatchEntry_lt_count hg a
  · rcases he : t.dispatch (a / 16384) with cur | sub
    · rw [lo_of_handler hg ha he] at hlo
      rw [hi_of_handler hg ha he] at hhi
      exact ⟨hlo, hhi⟩
    · rw [lo_of_dispatch hg ha he, LowDispatch.lo_map g.unit_lt.le] at hlo
      rw [hi_of_dispatch hg ha he, LowDispatch.hi_map g.unit_lt.le] at hhi
      exact ⟨dispatchEntry upperBits g.unit a, dispatchEntry_lt_count g.unit_lt.le a, hlo, hhi⟩

end HighDispatch

/-! ## A space of one table -/

namespace LowDispatch

variable {g : Geometry} {t : LowDispatch H} {start stop : ℕ}

theorem sound_populateNomirror (hle : start ≤ stop) (hlt : stop < 2 ^ g.highBits)
    (hstart_mod : start % 2 ^ g.unit = 0) (hstop_mod : stop % 2 ^ g.unit = 2 ^ g.unit - 1)
    (hm : Sound (2 ^ g.highBits) 16384 (fun _ ↦ False) (map g.highBits g.unit t)) (hd : H) :
    Sound (2 ^ g.highBits) 16384 (fun _ ↦ False)
      (map g.highBits g.unit (populateNomirror g.highBits g.unit start stop start stop hd t)) := by
  have hzero : ∀ a < 2 ^ g.highBits, a / 2 ^ g.highBits = 0 := fun a ha ↦ Nat.div_eq_of_lt ha
  have hlt32 : 2 ^ g.highBits ≤ 2 ^ 32 := Nat.pow_le_pow_right Nat.two_pos g.highBits_le
  have hinstalled : Installed (2 ^ g.highBits) start stop hd
      (splice 0 (2 ^ g.highBits) (map g.highBits g.unit t) (map g.highBits g.unit t))
      (splice 0 (2 ^ g.highBits)
        (map g.highBits g.unit (populateNomirror g.highBits g.unit start stop start stop hd t))
        (map g.highBits g.unit t)) := by
    refine installed_splice (Nat.zero_le start) hle hlt le_rfl ?_ ?_ ?_
      (fun a ha ↦ absurd ha (Nat.not_lt_zero a))
      fun a ha ha' ↦ absurd ha' (Nat.not_lt.mpr ha)
    · intro a _ ha
      rw [handler_map g.unit_le, handler_map g.unit_le]
      exact read_populateNomirror g.unit_le
        ((hzero start (hle.trans_lt hlt)).trans (hzero a ha).symm)
        ((hzero stop hlt).trans (hzero a ha).symm) hstart_mod hstop_mod start stop hd t
    · intro a _ ha
      refine hi_populateNomirror g.unit_le
        ((hzero start (hle.trans_lt hlt)).trans (hzero a ha).symm)
        ((hzero stop hlt).trans (hzero a ha).symm) hstart_mod hstop_mod (Or.inl rfl)
        (by omega) hd ?_
      exact hm.hiOrdered.mono (Nat.zero_le _) (by omega)
    · intro a _ ha
      refine lo_populateNomirror g.unit_le ((hzero start (hle.trans_lt hlt)).trans
        (hzero a ha).symm) ((hzero stop hlt).trans (hzero a ha).symm) hstart_mod hstop_mod
        (Or.inl rfl) (by omega) g.highBits_le hd ?_
      rw [hzero a ha]
      exact hm.loOrdered.mono (Nat.zero_le _) (by omega)
  have hwhole : ∀ m : RangeMap H,
      Agree (2 ^ g.highBits) m (splice 0 (2 ^ g.highBits) m (map g.highBits g.unit t)) := fun m ↦
    ⟨fun a ha ↦ if_pos ⟨Nat.zero_le a, ha⟩, fun a ha ↦ if_pos ⟨Nat.zero_le a, ha⟩,
      fun a ha ↦ if_pos ⟨Nat.zero_le a, ha⟩⟩
  have hsound := hinstalled.sound (hm.congr (hwhole _) fun _ hx ↦ hx) hle hlt (by decide)
    (fun _ hx ↦ False.elim hx : ∀ e, False → _)
  refine hsound.congr ⟨?_, ?_, ?_⟩ fun _ hx ↦ hx
  · exact fun a ha ↦ ((hwhole _).lo a ha).symm
  · exact fun a ha ↦ ((hwhole _).hi a ha).symm
  · exact fun a ha ↦ ((hwhole _).handler a ha).symm

theorem sound_populateMirror_root {mirror : ℕ} (h : Aligned g start stop mirror)
    (hm : Sound (2 ^ g.highBits) 16384 (fun _ ↦ False) (map g.highBits g.unit t)) (hd : H) :
    Sound (2 ^ g.highBits) 16384 (fun _ ↦ False)
      (map g.highBits g.unit
      (populateMirror g.highBits g.unit start stop start stop mirror hd t)) := by
  have hoffsets : ∀ o ∈ mirrorOffsets (mirror &&& highMask g.highBits g.unit),
      IsSubmask o mirror := by
    intro o ho
    rw [h.and_highMask] at ho
    exact (mem_mirrorOffsets h.mirror_lt_offs).mp ho
  rw [populateMirror]
  generalize mirrorOffsets (mirror &&& highMask g.highBits g.unit) = offsets at hoffsets
  induction offsets generalizing t with
  | nil => exact hm
  | cons o offsets ih =>
    obtain ⟨hle, hlt, hstart_mod, hstop_mod⟩ := h.or_offset (hoffsets o mem_cons_self)
    exact ih (sound_populateNomirror hle hlt hstart_mod hstop_mod hm hd)
      fun o' ho' ↦ hoffsets o' (mem_cons_of_mem o ho')

end LowDispatch

/-! ## The root -/

namespace Root

variable {g : Geometry}

/-- The range that `lookup` finds contains the address, and all addresses in it reach the handler
that it finds. -/
def LookupRight (g : Geometry) (r : Root H) : Prop :=
  ∀ a < 2 ^ g.highBits, (r.lookup g a).1.start ≤ a ∧ a ≤ (r.lookup g a).1.stop ∧
    ∀ b, (r.lookup g a).1.start ≤ b → b ≤ (r.lookup g a).1.stop → r.read g b = (r.lookup g a).2

/-- No mirror of a range is installed in a table while a range that is kept outside the block of the
table reaches into the mirror. -/
def Clear (g : Geometry) (r : Root H) (i : Installation H) : Prop :=
  match r, i with
  | .high t, .populateMirror start stop mirror _ =>
      mirror &&& lowMask upperBits ≠ 0 →
        ∀ offset ∈ mirrorOffsets (mirror &&& highMask g.highBits upperBits),
        ∀ o ∈ mirrorOffsets ((mirror &&& lowMask upperBits) &&& highMask upperBits g.unit),
          HighDispatch.IsTable t ((start >>> upperBits) ||| (offset >>> upperBits)) →
            ¬ HighDispatch.ReachedFromOutside g t ((start >>> upperBits) ||| (offset >>> upperBits))
              (start ||| offset ||| o) (stop ||| offset ||| o)
  | _, _ => True

/-- The ranges of a tree are right and ordered. -/
def RangesSound (g : Geometry) : Root H → Prop
  | .low t => Sound (2 ^ g.highBits) 16384 (fun _ ↦ False) (LowDispatch.map g.highBits g.unit t)
  | .high t => upperBits ≤ g.highBits ∧
      Sound (2 ^ g.highBits) 16384 (HighDispatch.IsTable t) (HighDispatch.map g t)

theorem sound_const {N B : ℕ} {marked : ℕ → Prop} {m : RangeMap H} (hlo : ∀ a < N, m.lo a = 0)
    (hhi : ∀ a < N, m.hi a = N - 1) {h : H} (hhandler : ∀ a < N, m.handler a = h)
    (hmarked : ∀ e, ¬ marked e) : Sound N B marked m := by
  refine ⟨?_, ?_, ?_, ?_, ?_, ?_, fun e he ↦ absurd he (hmarked e)⟩
  · intro a ha
    rw [hlo a ha]
    exact Nat.zero_le a
  · intro a ha
    rw [hhi a ha]
    omega
  · intro a ha
    rw [hhi a ha]
    omega
  · intro a ha b hb _ _
    rw [hhandler a ha, hhandler b hb]
  · intro a b _ hab hb _
    rw [hhi a (hab.trans_lt hb), hhi b hb]
  · intro a b _ hba ha _
    rw [hlo a ha, hlo b (hba.trans_lt ha)]

theorem rangesSound_create (g : Geometry) (unmap : H) : (create g unmap).RangesSound g := by
  rw [create]
  split_ifs with hg
  · refine ⟨hg.le, ?_⟩
    have hlookup : ∀ a < 2 ^ g.highBits, HighDispatch.lookup g a
        ⟨fun _ ↦ .handler unmap, fun _ ↦ ⟨0, 2 ^ g.highBits - 1⟩⟩ =
        (⟨0, 2 ^ g.highBits - 1⟩, unmap) :=
      fun a ha ↦ HighDispatch.lookup_of_handler hg.le ha rfl
    refine sound_const (h := unmap) ?_ ?_ ?_ ?_
    · exact fun a ha ↦ congrArg (fun r : Range × H ↦ r.1.start) (hlookup a ha)
    · exact fun a ha ↦ congrArg (fun r : Range × H ↦ r.1.stop) (hlookup a ha)
    · exact fun a ha ↦ congrArg Prod.snd (hlookup a ha)
    · rintro e ⟨sub, hsub⟩
      simp at hsub
  · exact sound_const (h := unmap) (fun _ _ ↦ rfl) (fun _ _ ↦ rfl) (fun _ _ ↦ rfl) fun _ ↦ not_false

theorem RangesSound.install {r : Root H} (hr : r.RangesSound g) {i : Installation H}
    (hi : i.Valid g) (hclear : r.Clear g i) : (r.install g i).RangesSound g := by
  rcases r with t | t <;> rcases i with ⟨start, stop, hd⟩ | ⟨start, stop, mirror, hd⟩
  · have hi : Aligned g start stop 0 := hi
    exact LowDispatch.sound_populateNomirror hi.le hi.lt hi.start_mod hi.stop_mod hr hd
  · exact LowDispatch.sound_populateMirror_root hi hr hd
  · have hi : Aligned g start stop 0 := hi
    exact ⟨hr.1,
      HighDispatch.sound_populateNomirror hr.1 hi.le hi.lt hr.2 hi.start_mod hi.stop_mod hd⟩
  · refine ⟨hr.1, HighDispatch.sound_populateMirror hi hr.1 ?_ hr.2 hd⟩
    intro hlow offset hoffset o ho
    exact HighDispatch.free_of_not_reachedFromOutside hr.1 (hclear hlow offset hoffset o ho)

theorem RangesSound.lookupRight {r : Root H} (hr : r.RangesSound g) : r.LookupRight g := by
  rcases r with t | t
  · have hr : Sound _ _ _ _ := hr
    refine fun a ha ↦ ⟨hr.lo_le a ha, hr.le_hi a ha, fun b hlo hhi ↦ ?_⟩
    have hhandler := hr.handler a ha b (hhi.trans_lt (hr.hi_lt a ha)) hlo hhi
    rwa [LowDispatch.handler_map g.unit_le] at hhandler
  · obtain ⟨hg, hr⟩ := hr
    refine fun a ha ↦ ⟨hr.lo_le a ha, hr.le_hi a ha, fun b hlo hhi ↦ ?_⟩
    have hhandler := hr.handler a ha b (hhi.trans_lt (hr.hi_lt a ha)) hlo hhi
    rwa [HighDispatch.handler_map hg] at hhandler

/-- **Lookup ranges.** From a tree that is unmapped everywhere, `lookup` finds right ranges in every
state of a run in which each mirror is clear of the ranges outside its table. -/
theorem always_lookupRight (unmap : H) {is : List (Installation H)} (his : ∀ i ∈ is, i.Valid g)
    (hclear : Run.Meets (install g) (Clear g) (create g unmap) is) :
    Run.Always (install g) (LookupRight g) (create g unmap) is := by
  suffices hsound : Run.Always (install g) (RangesSound g) (create g unmap) is from
    hsound.imp fun _ hr ↦ hr.lookupRight
  have hcreate := rangesSound_create g unmap
  generalize create g unmap = r at hcreate hclear
  induction is generalizing r with
  | nil => exact hcreate
  | cons i is ih =>
    obtain ⟨hi, hrest⟩ := hclear
    refine ⟨hcreate, ih (fun j hj ↦ his j (mem_cons_of_mem i hj)) _ ?_ hrest⟩
    exact hcreate.install (his i mem_cons_self) hi

/-- The mirrored range, and then the range around it. -/
def mirroredUnder : List (Installation ℕ) := mirroredOver.reverse

theorem always_lookupRight_mirroredUnder :
    Run.Always (install wideSpace) (LookupRight wideSpace) (create wideSpace 0) mirroredUnder := by
  refine always_lookupRight 0 (fun i hi ↦ valid_mirroredOver i (List.mem_reverse.mp hi))
    ⟨?_, trivial, trivial⟩
  -- the tree has no table yet
  rintro - offset - o - ⟨sub, hsub⟩
  simp at hsub

/-- A space of 16 bits with 8-bit data. -/
def byteSpace : Geometry := ⟨16, 0, by decide, by decide, by decide⟩

/-- A range over a block boundary, between two others, and a mirrored range in the second block. -/
def overBoundary : List (Installation ℕ) :=
  [.populateNomirror 0x4000 0x7fef 3, .populateNomirror 0x8010 0xbfff 4,
    .populateNomirror 0x7ff0 0x800f 1, .populateMirror 0x8000 0x8001 0x4 2]

theorem valid_overBoundary : ∀ i ∈ overBoundary, i.Valid byteSpace := by
  have hnomirror : ∀ start stop, start ≤ stop → stop < 2 ^ 16 → Aligned byteSpace start stop 0 :=
    fun start stop hle hlt ↦ ⟨hle, hlt, Nat.mod_one start, Nat.mod_one stop, by decide, by simp⟩
  intro i hi
  simp only [overBoundary, mem_cons, not_mem_nil, or_false] at hi
  rcases hi with rfl | rfl | rfl | rfl
  · exact hnomirror 0x4000 0x7fef (by decide) (by decide)
  · exact hnomirror 0x8010 0xbfff (by decide) (by decide)
  · exact hnomirror 0x7ff0 0x800f (by decide) (by decide)
  · refine ⟨by decide, by decide, by decide, by decide, by decide, ?_⟩
    intro i hi a hstart hstop
    have hbit : Nat.testBit (2 ^ 2) i = true := hi
    rw [Nat.testBit_two_pow, decide_eq_true_eq] at hbit
    subst hbit
    rw [Nat.testBit_eq_decide_div_mod_eq, Nat.testBit_eq_decide_div_mod_eq, decide_eq_decide]
    omega

/-- The table of the second block is there when the mirrors are installed in it: the range of the
address before the boundary still goes over them. -/
theorem not_always_lookupRight_overBoundary : (∀ i ∈ overBoundary, i.Valid byteSpace) ∧
    ¬ Run.Always (install byteSpace) (LookupRight byteSpace) (create byteSpace 0) overBoundary := by
  refine ⟨valid_overBoundary, fun halways ↦ ?_⟩
  obtain ⟨-, -, hread⟩ := halways.last 0x7ff0 (by decide)
  have hlookup :
      (Run.run (install byteSpace) (create byteSpace 0) overBoundary).lookup byteSpace 0x7ff0 =
      (⟨0x7ff0, 0x800f⟩, 1) := by decide +kernel
  have hmirror :
      (Run.run (install byteSpace) (create byteSpace 0) overBoundary).read byteSpace 0x8000 =
      2 := by decide +kernel
  rw [hlookup] at hread
  have hsame := hread 0x8000 (by decide) (by decide)
  rw [hmirror] at hsame
  exact absurd hsame (by decide)

end Root

end RoscoEmulator.Memory
