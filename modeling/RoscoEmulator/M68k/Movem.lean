import RoscoEmulator.Lib.Pokes
import RoscoEmulator.M68k.ExceptionReturn
import RoscoEmulator.M68k.Registers
import Mathlib.Data.List.FinRange

/-!
# MOVEM

The long forms that save registers below an address or at it, and the one that loads them again. The
loop over the sixteen bits of the list is a loop over the registers that it names. The predecrement
form has the list the other way round, and goes down: it stores the same row of bytes from its
end. -/

namespace RoscoEmulator.M68k

open Option Core

namespace Processor

/-! ## The instructions -/

/-- The store of a register below an address, the low word first. -/
def storeDown (acc : BitVec 32 × Processor) (i : Fin 16) : Option (BitVec 32 × Processor) := do
  let ea := acc.1 - 4#32
  let s ← acc.2.write16 (ea + 2#32) ((acc.2.da i).extractLsb' 0 16)
  let s ← s.write16 ea ((s.da i).extractLsb' 16 16)
  some (ea, s)

/-- `movem.l list,-(An)`. The list begins with A7. -/
def movemStorePd (registerList : BitVec 16) (s : Processor) : Option Processor := do
  let (ea, s') ← (List.finRange 16).foldlM
    (fun acc i ↦ if registerList.getLsbD i.val then storeDown acc i.rev else some acc)
    (s.da s.ay, s)
  some (s'.setDa s.ay ea)

def storeUp (acc : BitVec 32 × Processor) (i : Fin 16) : Option (BitVec 32 × Processor) := do
  let s ← acc.2.write32 acc.1 (acc.2.da i)
  some (acc.1 + 4#32, s)

/-- `movem.l list,(An)`. -/
def movemStoreAi (registerList : BitVec 16) (s : Processor) : Option Processor := do
  let (_, s') ← (List.finRange 16).foldlM
    (fun acc i ↦ if registerList.getLsbD i.val then storeUp acc i else some acc) (s.da s.ay, s)
  some s'

def loadUp (acc : BitVec 32 × Processor) (i : Fin 16) : Option (BitVec 32 × Processor) := do
  let (value, s) ← acc.2.read32 acc.1
  some (acc.1 + 4#32, s.setDa i value)

/-- `movem.l (An)+,list`. -/
def movemLoadPi (registerList : BitVec 16) (s : Processor) : Option Processor := do
  let (ea, s') ← (List.finRange 16).foldlM
    (fun acc i ↦ if registerList.getLsbD i.val then loadUp acc i else some acc) (s.da s.ay, s)
  some (s'.setDa s.ay ea)

/-! ## The registers of a list -/

/-- The registers that a list names, D0 first. -/
def listed (registerList : BitVec 16) : List (Fin 16) :=
  (List.finRange 16).filter fun i ↦ registerList.getLsbD i.val

theorem mem_listed {registerList : BitVec 16} {i : Fin 16} :
    i ∈ listed registerList ↔ registerList.getLsbD i.val = true := by
  rw [listed, List.mem_filter]
  exact and_iff_right (List.mem_finRange i)

variable (registerList : BitVec 16)

theorem length_listed_le : (listed registerList).length ≤ 16 :=
  (List.length_filter_le _ _).trans_eq (List.length_finRange)

theorem listed_reverse : (listed registerList).reverse =
    ((List.finRange 16).filter fun i ↦ registerList.reverse.getLsbD i.val).map Fin.rev := by
  rw [listed, ← List.filter_reverse, List.finRange_reverse, List.filter_map]
  congr 2
  funext i
  rw [Function.comp_apply, BitVec.getLsbD_reverse, BitVec.getMsbD, decide_eq_true i.isLt,
    Bool.true_and, Fin.val_rev, Nat.sub_sub, Nat.add_comm 1]

theorem foldlM_listed {α : Type} (f : α → Fin 16 → Option α) (acc : α) : (List.finRange 16).foldlM
    (fun acc i ↦ if registerList.getLsbD i.val then f acc i else some acc) acc =
      (listed registerList).foldlM f acc := List.foldlM_filter.symm

/-- The loop over a list that is the other way round goes from the last register to the first. -/
theorem foldlM_listed_reverse {α : Type} (f : α → Fin 16 → Option α) (acc : α) :
    (List.finRange 16).foldlM
        (fun acc i ↦ if registerList.reverse.getLsbD i.val then f acc i.rev else some acc) acc =
      (listed registerList).reverse.foldlM f acc := by
  rw [listed_reverse, List.foldlM_map]
  exact List.foldlM_filter.symm

/-! ## Rows of bytes -/

/-- The places of a row of bytes on the bus. -/
def place (t : CpuType) (base : BitVec 32) (k : ℕ) : ℕ :=
  (base + BitVec.ofNat 32 k).toNat % 2 ^ t.addressBits

/-- The bytes of a double word, the highest first. -/
def bytes (value : BitVec 32) : List (BitVec 8) :=
  [value.extractLsb' 24 8, value.extractLsb' 16 8, value.extractLsb' 8 8, value.extractLsb' 0 8]

/-- The bytes of registers. -/
def image (s : Processor) (registers : List (Fin 16)) : List (BitVec 8) :=
  registers.flatMap fun i ↦ bytes (s.da i)

/-- A processor with the same registers on the same bus, with another memory. -/
structure Stores (s s' : Processor) (memory : ℕ → BitVec 8) : Prop where
  da : s'.da = s.da
  cpuType : s'.cpuType = s.cpuType
  memory : s'.memory = memory

variable {s s' : Processor} {base : BitVec 32} {k : ℕ} {registers : List (Fin 16)}

theorem apart_place (t : CpuType) (base : BitVec 32) : Apart (place t base) (2 ^ 24) := by
  intro i hi j hj heq
  rw [place, place, BitVec.toNat_add, BitVec.toNat_add, BitVec.toNat_ofNat,
    BitVec.toNat_ofNat] at heq
  rcases addressBits_eq t with h | h <;> rw [h] at heq <;> omega

theorem location_place (s : Core) (base : BitVec 32) (k j : ℕ) :
    s.location (base + BitVec.ofNat 32 k + BitVec.ofNat 32 j) = place s.cpuType base (k + j) := by
  rw [BitVec.add_assoc, ← BitVec.ofNat_add]
  rfl

theorem image_cons (s : Processor) (i : Fin 16) (registers : List (Fin 16)) :
    s.image (i :: registers) = bytes (s.da i) ++ s.image registers := List.flatMap_cons

@[simp] theorem length_image (s : Processor) (registers : List (Fin 16)) :
    (s.image registers).length = 4 * registers.length := by
  induction registers with
  | nil => rfl
  | cons i registers ih =>
    rw [image_cons, List.length_append, ih, List.length_cons]
    change 4 + _ = _
    omega

theorem image_congr (h : s'.da = s.da) (registers : List (Fin 16)) :
    s'.image registers = s.image registers := by
  rw [image, image, h]

theorem memory_store32 (s : Core) (base : BitVec 32) (k : ℕ) (value : BitVec 32) :
    (s.store32 (base + BitVec.ofNat 32 k) value).memory =
      pokes (place s.cpuType base) k (bytes value) s.memory := by
  have h1 := location_place s base k 1
  have h2 := location_place s base k 2
  have h3 := location_place s base k 3
  simp only [store32, poke, location, bytes, pokes] at h1 h2 h3 ⊢
  rw [h1, h2, h3]
  rfl

theorem memory_store16 (s : Core) (base : BitVec 32) (k : ℕ) (value : BitVec 16) :
    (s.store16 (base + BitVec.ofNat 32 k) value).memory =
      pokes (place s.cpuType base) k [value.extractLsb' 8 8, value.extractLsb' 0 8] s.memory := by
  have h1 := location_place s base k 1
  simp only [store16, poke, location, pokes] at h1 ⊢
  rw [h1]
  rfl

theorem bytes_eq_append (value : BitVec 32) : bytes value =
    [(value.extractLsb' 16 16).extractLsb' 8 8, (value.extractLsb' 16 16).extractLsb' 0 8] ++
      [(value.extractLsb' 0 16).extractLsb' 8 8, (value.extractLsb' 0 16).extractLsb' 0 8] := by
  have hsub : ∀ i j, j + 8 ≤ 16 →
      (value.extractLsb' i 16).extractLsb' j 8 = value.extractLsb' (i + j) 8 := by
    intro i j hj
    refine BitVec.eq_of_getLsbD_eq fun b hb ↦ ?_
    simp only [BitVec.getLsbD_extractLsb', hb, decide_true, Bool.true_and,
      show j + b < 16 by omega, Nat.add_assoc]
  rw [hsub 16 8 (by decide), hsub 16 0 (by decide), hsub 0 8 (by decide), hsub 0 0 (by decide)]
  rfl

/-! ## Stores and loads -/

theorem even_add {a : BitVec 32} (ha : a.toNat % 2 = 0) (hk : k % 2 = 0) :
    (a + BitVec.ofNat 32 k).toNat % 2 = 0 := by
  rw [BitVec.toNat_add, BitVec.toNat_ofNat]
  omega

theorem a7_store32 (s : Core) (address value : BitVec 32) :
    (s.store32 address value).a7 = s.a7 := by
  have hpoke : ∀ (s : Core) a data, (s.poke a data).a7 = s.a7 := fun _ _ _ ↦ rfl
  rw [store32, hpoke, hpoke, hpoke, hpoke]

theorem cpuType_store32 (s : Core) (address value : BitVec 32) :
    (s.store32 address value).cpuType = s.cpuType := by
  have hpoke : ∀ (s : Core) a data, (s.poke a data).cpuType = s.cpuType := fun _ _ _ ↦ rfl
  rw [store32, hpoke, hpoke, hpoke, hpoke]

theorem exists_write32 (heven : base.toNat % 2 = 0) (hk : k % 2 = 0) (value : BitVec 32)
    (s : Processor) : ∃ s', s.write32 (base + BitVec.ofNat 32 k) value = some s' ∧
      Stores s s' (pokes (place s.cpuType base) k (bytes value) s.memory) := by
  have herror := addressError_of_even (even_add heven hk) s.toCore
  refine ⟨s.withCore ((s.access 0#16 szLong).store32 (base + BitVec.ofNat 32 k) value), ?_,
    da_withCore (a7_store32 _ _ _), cpuType_store32 _ _ _,
    memory_store32 (s.access 0#16 szLong) base k value⟩
  rw [write32, Core.write32, herror, if_neg Bool.false_ne_true]
  rfl

theorem exists_write16 (heven : base.toNat % 2 = 0) (hk : k % 2 = 0) (value : BitVec 16)
    (s : Processor) : ∃ s', s.write16 (base + BitVec.ofNat 32 k) value = some s' ∧ Stores s s'
      (pokes (place s.cpuType base) k [value.extractLsb' 8 8, value.extractLsb' 0 8] s.memory) := by
  have herror := addressError_of_even (even_add heven hk) s.toCore
  refine ⟨s.withCore ((s.access 0#16 szWord).store16 (base + BitVec.ofNat 32 k) value), ?_,
    da_withCore rfl,
    rfl, memory_store16 (s.access 0#16 szWord) base k value⟩
  rw [write16, Core.write16, herror, if_neg Bool.false_ne_true]
  rfl

theorem exists_read32 (heven : base.toNat % 2 = 0) (hk : k % 2 = 0) {value : BitVec 32}
    (s : Processor)
    (hbytes : ∀ j (hj : j < 4), s.memory (place s.cpuType base (k + j)) = (bytes value)[j]) :
    ∃ s', s.read32 (base + BitVec.ofNat 32 k) = some (value, s') ∧ Stores s s' s.memory := by
  have herror := addressError_of_even (even_add heven hk) s.toCore
  have hbyte : ∀ j (hj : j < 4),
      s.byte (base + BitVec.ofNat 32 k + BitVec.ofNat 32 j) = (bytes value)[j] := by
    intro j hj
    rw [Core.byte, location_place, hbytes j hj]
  have h0 := hbyte 0 (by decide)
  rw [BitVec.add_zero] at h0
  refine ⟨s.withCore (s.access 1#16 szLong), ?_, da_withCore rfl, rfl, rfl⟩
  rw [read32, Core.read32, herror, if_neg Bool.false_ne_true, h0, hbyte 1 (by decide),
    hbyte 2 (by decide), hbyte 3 (by decide)]
  exact congrArg (fun v ↦ some (v, s.withCore (s.access 1#16 szLong))) (dword_append value)

theorem exists_storeUp (heven : base.toNat % 2 = 0) (hk : k % 2 = 0) (i : Fin 16) (s : Processor) :
    ∃ s', storeUp (base + BitVec.ofNat 32 k, s) i = some (base + BitVec.ofNat 32 (k + 4), s') ∧
      Stores s s' (pokes (place s.cpuType base) k (bytes (s.da i)) s.memory) := by
  obtain ⟨s', hwrite, hstores⟩ := exists_write32 heven hk (s.da i) s
  refine ⟨s', ?_, hstores⟩
  rw [storeUp, hwrite, BitVec.ofNat_add, ← BitVec.add_assoc]
  rfl

theorem exists_storeDown (heven : base.toNat % 2 = 0)
    (hk : k % 2 = 0) (hroom : k + 4 ≤ 2 ^ 24) (i : Fin 16) (s : Processor) :
    ∃ s', storeDown (base + BitVec.ofNat 32 (k + 4), s) i = some (base + BitVec.ofNat 32 k, s') ∧
      Stores s s' (pokes (place s.cpuType base) k (bytes (s.da i)) s.memory) := by
  obtain ⟨t, hlow, htda, httype, htmemory⟩ :=
    exists_write16 (k := k + 2) heven (by omega) ((s.da i).extractLsb' 0 16) s
  obtain ⟨s', hhigh, hda, htype, hmemory⟩ := exists_write16 heven hk ((s.da i).extractLsb' 16 16) t
  have hback : base + BitVec.ofNat 32 (k + 4) - 4#32 = base + BitVec.ofNat 32 k := by
    rw [BitVec.ofNat_add, ← BitVec.add_assoc, BitVec.add_sub_cancel]
  have hup : base + BitVec.ofNat 32 k + 2#32 = base + BitVec.ofNat 32 (k + 2) := by
    rw [BitVec.ofNat_add, BitVec.add_assoc]
  refine ⟨s', ?_, hda.trans htda, htype.trans httype, ?_⟩
  · rw [storeDown, hback, hup, hlow, bind_eq_bind, bind_some, htda, hhigh]
    rfl
  · rw [hmemory, htmemory, httype, bytes_eq_append]
    exact (apart_place s.cpuType base).pokes_append' hroom s.memory

/-! ## Whole rows -/

section

variable (heven : base.toNat % 2 = 0) (hk : k % 2 = 0) (registers : List (Fin 16))
include heven hk

theorem exists_foldlM_storeUp (s : Processor) :
    ∃ s', registers.foldlM storeUp (base + BitVec.ofNat 32 k, s) =
        some (base + BitVec.ofNat 32 (k + 4 * registers.length), s') ∧
      Stores s s' (pokes (place s.cpuType base) k (s.image registers) s.memory) := by
  induction registers generalizing k s with
  | nil => exact ⟨s, rfl, rfl, rfl, rfl⟩
  | cons i registers ih =>
    obtain ⟨t, hstore, hda, htype, hmemory⟩ := exists_storeUp heven hk i s
    obtain ⟨s', hrest, hda', htype', hmemory'⟩ := ih (k := k + 4) (by omega) t
    refine ⟨s', ?_, hda'.trans hda, htype'.trans htype, ?_⟩
    · rw [List.foldlM_cons, hstore, bind_eq_bind, bind_some, hrest, List.length_cons,
        show k + 4 + 4 * registers.length = k + 4 * (registers.length + 1) by omega]
    · rw [hmemory', hmemory, htype, image_congr hda, image_cons, pokes_append]
      rfl

/-- From the last register down, by induction on the row above the lowest register. -/
theorem exists_foldlM_storeDown (hroom : k + 4 * registers.length ≤ 2 ^ 24) (s : Processor) : ∃ s',
    registers.reverse.foldlM storeDown (base + BitVec.ofNat 32 (k + 4 * registers.length), s) =
        some (base + BitVec.ofNat 32 k, s') ∧
      Stores s s' (pokes (place s.cpuType base) k (s.image registers) s.memory) := by
  induction registers generalizing k with
  | nil => exact ⟨s, rfl, rfl, rfl, rfl⟩
  | cons i registers ih =>
    rw [List.length_cons] at hroom
    obtain ⟨t, hrest, hda, htype, hmemory⟩ := ih (k := k + 4) (by omega) (by omega)
    obtain ⟨s', hstore, hda', htype', hmemory'⟩ := exists_storeDown heven hk (by omega) i t
    refine ⟨s', ?_, hda'.trans hda, htype'.trans htype, ?_⟩
    · rw [List.reverse_cons, List.foldlM_append, List.length_cons,
        show k + 4 * (registers.length + 1) = k + 4 + 4 * registers.length by omega, hrest,
        bind_eq_bind, bind_some, List.foldlM_cons, hstore]
      rfl
    · rw [hmemory', hmemory, htype, hda, image_cons]
      refine (apart_place s.cpuType base).pokes_append' ?_ s.memory
      rw [length_image]
      change k + 4 + _ ≤ _
      omega

theorem exists_foldlM_loadUp (values : Fin 16 → BitVec 32) (s : Processor)
    (hbytes : ∀ j (hj : j < (registers.flatMap fun i ↦ bytes (values i)).length),
      s.memory (place s.cpuType base (k + j)) = (registers.flatMap fun i ↦ bytes (values i))[j]) :
    ∃ s', registers.foldlM loadUp (base + BitVec.ofNat 32 k, s) =
        some (base + BitVec.ofNat 32 (k + 4 * registers.length), s') ∧
      s'.memory = s.memory ∧ ∀ i, s'.da i = if i ∈ registers then values i else s.da i := by
  induction registers generalizing k s with
  | nil => exact ⟨s, rfl, rfl, fun i ↦ (if_neg List.not_mem_nil).symm⟩
  | cons r registers ih =>
    rw [List.flatMap_cons] at hbytes
    obtain ⟨t, hread, hda, htype, hmemory⟩ := @exists_read32 _ _ heven hk (values r) s fun j hj ↦ by
      rw [hbytes j (by rw [List.length_append]; exact Nat.lt_add_right _ hj)]
      exact List.getElem_append_left hj
    obtain ⟨s', hrest, hmemory', hda'⟩ :=
      ih (k := k + 4) (by omega) (t.setDa r (values r)) fun j hj ↦ by
      have hnext := hbytes (4 + j) (by rw [List.length_append]; exact Nat.add_lt_add_left hj 4)
      rw [List.getElem_append_right (Nat.le_add_right 4 j), ← Nat.add_assoc] at hnext
      rw [memory_setDa, cpuType_setDa, hmemory, htype, hnext]
      congr 1
      exact Nat.add_sub_cancel_left 4 j
    refine ⟨s', ?_, ?_, fun i ↦ ?_⟩
    · have hload : loadUp (base + BitVec.ofNat 32 k, s) r =
          some (base + BitVec.ofNat 32 (k + 4), t.setDa r (values r)) := by
        rw [loadUp, hread, BitVec.ofNat_add, ← BitVec.add_assoc]
        rfl
      rw [List.foldlM_cons, hload, bind_eq_bind, bind_some, hrest, List.length_cons,
        show k + 4 + 4 * registers.length = k + 4 * (registers.length + 1) by omega]
    · rw [hmemory', memory_setDa, hmemory]
    · rw [hda', da_setDa, hda]
      by_cases hi : i ∈ registers
      · rw [if_pos hi, if_pos (List.mem_cons_of_mem r hi)]
      · rw [if_neg hi]
        by_cases hr : i = r
        · rw [if_pos hr, if_pos (hr ▸ List.mem_cons_self), hr]
        · rw [if_neg hr, if_neg fun hmem ↦ (List.mem_cons.mp hmem).elim hr hi]

end

/-! ## Saving and restoring -/

/-- The base register once the registers of a list are saved below it. -/
def savedBase (registerList : BitVec 16) (s : Processor) : BitVec 32 :=
  s.da s.ay - BitVec.ofNat 32 (4 * (listed registerList).length)

/-- The memory with the registers of a list below the base register. -/
def savedMemory (registerList : BitVec 16) (s : Processor) : ℕ → BitVec 8 :=
  pokes (place s.cpuType (s.savedBase registerList)) 0 (s.image (listed registerList)) s.memory

section Saving

variable {registerList : BitVec 16} (heven : (s.da s.ay).toNat % 2 = 0)
include heven

theorem savedBase_even : (s.savedBase registerList).toNat % 2 = 0 := sub_even heven (by omega)

omit heven in
theorem savedBase_add : s.savedBase registerList +
    BitVec.ofNat 32 (0 + 4 * (listed registerList).length) = s.da s.ay := by
  rw [Nat.zero_add]
  exact BitVec.sub_add_cancel _ _

theorem exists_movemStorePd : ∃ saved, s.movemStorePd registerList.reverse = some saved ∧
    Stores (s.setDa s.ay (s.savedBase registerList)) saved (s.savedMemory registerList) := by
  have hlength := length_listed_le registerList
  obtain ⟨t, hloop, hda, htype, hmemory⟩ :=
    exists_foldlM_storeDown (k := 0) (savedBase_even heven) rfl (listed registerList) (by omega) s
  rw [savedBase_add, BitVec.add_zero] at hloop
  refine ⟨t.setDa s.ay (s.savedBase registerList), ?_, ?_, ?_, ?_⟩
  · rw [movemStorePd, foldlM_listed_reverse, hloop]
    rfl
  · funext i
    rw [da_setDa, da_setDa, hda]
  · rw [cpuType_setDa, cpuType_setDa, htype]
  · rw [memory_setDa, hmemory, savedMemory]

/-- The form without a decrement stores the same row, unless it stores the base register. -/
theorem exists_movemStoreAi (hbase : registerList.getLsbD s.ay.val = false) :
    ∃ t, (s.setDa s.ay (s.savedBase registerList)).movemStoreAi registerList = some t ∧
      t.memory = s.savedMemory registerList := by
  obtain ⟨t, hloop, -, -, hmemory⟩ := exists_foldlM_storeUp (k := 0) (savedBase_even heven) rfl
    (listed registerList) (s.setDa s.ay (s.savedBase registerList))
  rw [BitVec.add_zero] at hloop
  refine ⟨t, ?_, ?_⟩
  · rw [movemStoreAi, foldlM_listed, ay_setDa, da_setDa_self, hloop]
    rfl
  · have himage : (s.setDa s.ay (s.savedBase registerList)).image (listed registerList) =
        s.image (listed registerList) := by
      refine List.flatMap_congr fun i hi ↦ ?_
      rw [da_setDa_of_ne]
      rintro rfl
      exact Bool.false_ne_true (hbase.symm.trans (mem_listed.mp hi))
    rw [hmemory, cpuType_setDa, memory_setDa, himage, savedMemory]

theorem exists_movemLoadPi {changed : Processor} (hay : changed.ay = s.ay)
    (htype : changed.cpuType = s.cpuType) (hmemory : changed.memory = s.savedMemory registerList)
    (hda : changed.da s.ay = s.savedBase registerList) : ∃ restored,
    changed.movemLoadPi registerList = some restored ∧ restored.memory = changed.memory ∧
      ∀ i,
      restored.da i = if registerList.getLsbD i.val ∨ i = s.ay then s.da i else changed.da i := by
  have hlength := length_listed_le registerList
  obtain ⟨t, hloop, htmemory, htda⟩ := exists_foldlM_loadUp (k := 0) (savedBase_even heven) rfl
    (listed registerList) s.da changed fun j hj ↦ by
      have hroom : 0 + (s.image (listed registerList)).length ≤ 2 ^ 24 := by
        rw [length_image]
        omega
      rw [hmemory, htype]
      exact (apart_place s.cpuType _).pokes_place hj hroom s.memory
  rw [savedBase_add, BitVec.add_zero] at hloop
  refine ⟨t.setDa s.ay (s.da s.ay), ?_, ?_, fun i ↦ ?_⟩
  · rw [movemLoadPi, foldlM_listed, hay, hda, hloop]
    rfl
  · rw [memory_setDa, htmemory]
  · rw [da_setDa, htda]
    by_cases hi : i = s.ay
    · rw [if_pos hi, if_pos (.inr hi), hi]
    · rw [if_neg hi]
      refine if_congr ?_ rfl rfl
      rw [mem_listed, or_iff_left hi]

end Saving

/-- **MOVEM.** The registers of a list that does not name An are saved below An and loaded again
from there, whatever the listed registers are in between: An and every other register are as before.
The memory is the one that the form without a decrement writes at the decremented address. -/
theorem movem_restores (registerList : BitVec 16) (s : Processor)
    (hbase : registerList.getLsbD s.ay.val = false) (heven : (s.da s.ay).toNat % 2 = 0) :
    ∃ saved, s.movemStorePd registerList.reverse = some saved ∧
      saved.da s.ay = s.da s.ay - BitVec.ofNat 32 (4 * (listed registerList).length) ∧ (∃ t,
      (s.setDa s.ay (saved.da s.ay)).movemStoreAi registerList = some t ∧ t.memory = saved.memory) ∧
      ∀ changed : Processor, changed.memory = saved.memory → changed.cpuType = saved.cpuType →
        changed.ay = s.ay →
        (∀ i : Fin 16, registerList.getLsbD i.val = false → changed.da i = saved.da i) → ∃ restored,
        changed.movemLoadPi registerList = some restored ∧ restored.memory = saved.memory ∧
          ∀ i, restored.da i = s.da i := by
  obtain ⟨saved, hstore, hda, htype, hmemory⟩ := @exists_movemStorePd s registerList heven
  rw [cpuType_setDa] at htype
  have hdecremented : saved.da s.ay = s.savedBase registerList := by rw [hda, da_setDa_self]
  refine ⟨saved, hstore, hdecremented, ?_, fun changed hcmemory hctype hcay hcda ↦ ?_⟩
  · rw [hdecremented, hmemory]
    exact exists_movemStoreAi heven hbase
  · have hchanged : changed.da s.ay = s.savedBase registerList := by
      rw [hcda _ hbase, hdecremented]
    obtain ⟨restored, hload, hrmemory, hrda⟩ :=
      exists_movemLoadPi heven hcay (hctype.trans htype) (hcmemory.trans hmemory) hchanged
    refine ⟨restored, hload, hrmemory.trans hcmemory, fun i ↦ ?_⟩
    rw [hrda]
    split_ifs with hi
    · rfl
    · rw [not_or, Bool.not_eq_true] at hi
      rw [hcda i hi.1, hda, da_setDa_of_ne hi.2]

/-- D0, D2 and A7 below A2, with other values in D0 and D2 in between. -/
theorem movem_restores_a2 :
    let s : Processor := { Core.idle .cpu000 false with
      ir := 0x48e2#16
      dar := fun i ↦ if i = 10 then 0x1000#32 else BitVec.ofNat 32 (0x1111 * i) }
    ∃ saved restored, s.movemStorePd (0x8005#16).reverse = some saved ∧
      ((saved.setDa 0 0xdead#32).setDa 2 0xbeef#32).movemLoadPi 0x8005#16 = some restored ∧
        ∀ i, restored.da i = s.da i := by
  intro s
  obtain ⟨saved, hstore, -, -, hload⟩ := movem_restores 0x8005#16 s (by decide) (by decide)
  have hay : saved.ay = s.ay := by
    have hsome : (s.movemStorePd (0x8005#16).reverse).map ay = some s.ay := by decide +kernel
    rw [hstore] at hsome
    exact Option.some.inj hsome
  obtain ⟨restored, hrestored, -, hda⟩ :=
    hload ((saved.setDa 0 0xdead#32).setDa 2 0xbeef#32) rfl rfl hay fun i hi ↦ by
    rw [da_setDa_of_ne, da_setDa_of_ne]
    · rintro rfl
      exact absurd hi (by decide)
    · rintro rfl
      exact absurd hi (by decide)
  exact ⟨saved, restored, hstore, hrestored, hda⟩

end Processor

end RoscoEmulator.M68k
