import Mathlib.Data.Nat.Notation
import Mathlib.Logic.Function.Basic
import Mathlib.Tactic.SplitIfs

/-!
# The instruction cache of the 68020

`m68ki_ic_readimm16` and `m68ki_ic_clear`, around a machine that is otherwise left open: the cache
sees a control register, the supervisor flag and two kinds of reads.

A save state holds the rest of the machine but not the cache. `init_cpu_common` saves none of its
three arrays, and `device_post_load` does not clear them, so a machine that loads a state goes on
with the lines that it happens to have. The words that it runs are those of the machine that was
saved, for every program and every memory, exactly if the two caches agree: every address has the
same line in both, or in neither. -/

namespace RoscoEmulator.M68k

open Function BitVec

/-- `m_ic_address`, `m_ic_data` and `m_ic_valid`. -/
@[ext] structure InstructionCache where
  address : Fin 128 → BitVec 32
  data : Fin 128 → BitVec 32
  valid : Fin 128 → Bool

namespace InstructionCache

/-- The cache of a new machine. -/
def new : InstructionCache := ⟨fun _ ↦ 0, fun _ ↦ 0, fun _ ↦ false⟩

/-- The tag of an address, with the supervisor flag. -/
def tag (address : BitVec 32) (s : Bool) : BitVec 32 :=
  address >>> 8 ||| if s then 0x1000000#32 else 0#32

/-- The line of an address, one of 64. -/
def idx (address : BitVec 32) : Fin 128 := Fin.ofNat 128 (address >>> 2 &&& 0x3f#32).toNat

/-- The half of a line that an address names. -/
def half (address data : BitVec 32) : BitVec 32 :=
  if address &&& 2#32 ≠ 0#32 then data &&& 0xffff#32 else data >>> 16

variable (c : InstructionCache)

/-- `m68ki_ic_clear`. The lines stay valid, with a tag that no address has. -/
def clear : InstructionCache := { c with address := fun _ ↦ ~~~ 0#32 }

/-- What is in the line of an address, if the line is valid and the tags match. -/
def lookup (address : BitVec 32) (s : Bool) : Option (BitVec 32) :=
  if c.valid (idx address) ∧ c.address (idx address) = tag address s
    then some (c.data (idx address)) else none

/-- A line is filled. -/
def fill (address : BitVec 32) (s : Bool) (data : BitVec 32) : InstructionCache where
  address := update c.address (idx address) (tag address s)
  data := update c.data (idx address) data
  valid := update c.valid (idx address) true

/-- Two caches have the same line for every address, or none. -/
def Agree (c c' : InstructionCache) : Prop := ∀ address s, c.lookup address s = c'.lookup address s

end InstructionCache

/-! ## The machine around the cache -/

/-- What the machine does next, with the state behind it. -/
inductive Action (σ : Type)
  /-- A word comes through the cache. -/
  | readimm16 (address : BitVec 32) (next : BitVec 32 → σ → σ)
  /-- The cache is cleared: a write to `CACR` with one of the bits for that, or a reset. -/
  | clear (next : σ)
  | other (next : σ)

/-- A machine but for its instruction cache. Its state is what a save state holds: the registers,
the memory, the devices. -/
structure Cpu (σ : Type) where
  cpuType : BitVec 32
  cacr : σ → BitVec 32
  sFlag : σ → Bool
  /-- `m_read32`. -/
  read32 : BitVec 32 → σ → BitVec 32 × σ
  /-- `m_readimm16`. -/
  readimm16 : BitVec 32 → σ → BitVec 32 × σ
  /-- `m_mmu_tmp_buserror_occurred`, which is clear between instructions. -/
  buserrorOccurred : σ → Bool
  action : σ → Action σ

/-- A machine with its instruction cache. -/
structure Machine (σ : Type) where
  rest : σ
  cache : InstructionCache

namespace Cpu

open InstructionCache

variable {σ : Type} (cpu : Cpu σ)

/-- The CPU is an EC020 or a 68020. -/
def HasCache : Prop := cpu.cpuType &&& (0x08#32 ||| 0x10#32) ≠ 0#32

instance : Decidable cpu.HasCache := inferInstanceAs (Decidable (_ ≠ _))

/-- A word that does not come through the cache. -/
def uncached (address : BitVec 32) (m : Machine σ) : BitVec 32 × Machine σ :=
  ((cpu.readimm16 address m.rest).1, { m with rest := (cpu.readimm16 address m.rest).2 })

/-- The part of `m68ki_ic_readimm16` for a line that is not there. -/
def miss (address : BitVec 32) (m : Machine σ) : BitVec 32 × Machine σ :=
  if cpu.cacr m.rest &&& 0x02#32 ≠ 0#32 then cpu.uncached address m
  else
    let s := cpu.sFlag m.rest
    let (data, rest) := cpu.read32 (address &&& ~~~ 3#32) m.rest
    if ¬ cpu.buserrorOccurred rest then (half address data, ⟨rest, m.cache.fill address s data⟩)
    else cpu.uncached address { m with rest := rest }

/-- `m68ki_ic_readimm16`. -/
def icReadimm16 (address : BitVec 32) (m : Machine σ) : BitVec 32 × Machine σ :=
  if cpu.cacr m.rest &&& 0x01#32 ≠ 0#32 ∧ cpu.HasCache then
    match m.cache.lookup address (cpu.sFlag m.rest) with
    | some data => (half address data, m)
    | none => cpu.miss address m
  else cpu.uncached address m

/-- One step, and the word that it takes through the cache, if it takes one. -/
def step (m : Machine σ) : Option (BitVec 32) × Machine σ :=
  match cpu.action m.rest with
  | .readimm16 address next =>
      let (word, m') := cpu.icReadimm16 address m
      (some word, { m' with rest := next word m'.rest })
  | .clear next => (none, ⟨next, m.cache.clear⟩)
  | .other next => (none, ⟨next, m.cache⟩)

/-- The machine after `n` steps. -/
def run : ℕ → Machine σ → Machine σ
  | 0, m => m
  | n + 1, m => run n (cpu.step m).2

/-- The instruction stream of `n` steps. -/
def words : ℕ → Machine σ → List (BitVec 32)
  | 0, _ => []
  | n + 1, m => (cpu.step m).1.toList ++ words n (cpu.step m).2

/-- A state saved in one machine is loaded into another. -/
def load (saved target : Machine σ) : Machine σ := { target with rest := saved.rest }

/-- The machine that loads the state goes on with the words of the machine that was saved. -/
def Survives (saved target : Machine σ) : Prop :=
  ∀ n, cpu.words n (load saved target) = cpu.words n saved

end Cpu

/-! ## Lines -/

namespace InstructionCache

variable {c c' : InstructionCache} {address other data : BitVec 32} {s t : Bool}

theorem tag_ne_cleared : ~~~ 0#32 ≠ tag address s := by
  intro h
  have hbit := congrArg (getLsbD · 31) h
  cases s <;> simp [tag] at hbit

theorem lookup_clear : c.clear.lookup address s = none := if_neg fun h ↦ tag_ne_cleared h.2

theorem lookup_fill : (c.fill address s data).lookup other t =
    if idx other = idx address then if tag address s = tag other t then some data else none
    else c.lookup other t := by
  rw [lookup, fill]
  by_cases hidx : idx other = idx address
  · simp only [hidx, update_self, true_and, if_true]
  · simp only [update_of_ne hidx, lookup, if_neg hidx]

theorem Agree.clear (c c' : InstructionCache) : c.clear.Agree c'.clear := fun _ _ ↦ by
  rw [lookup_clear, lookup_clear]

theorem Agree.fill (h : c.Agree c') (address : BitVec 32) (s : Bool) (data : BitVec 32) :
    (c.fill address s data).Agree (c'.fill address s data) := fun other t ↦ by
  rw [lookup_fill, lookup_fill, h other t]

end InstructionCache

/-! ## Machines with caches that agree -/

namespace Cpu

open InstructionCache

variable {σ : Type} (cpu : Cpu σ)

/-- Two machines that differ only in lines that no address finds. -/
structure Like (m m' : Machine σ) : Prop where
  rest : m.rest = m'.rest
  cache : m.cache.Agree m'.cache

variable {cpu} {m m' : Machine σ}

variable (cpu) in
theorem Like.uncached (h : Like m m') (address : BitVec 32) :
    (cpu.uncached address m).1 = (cpu.uncached address m').1 ∧
      Like (cpu.uncached address m).2 (cpu.uncached address m').2 := by
  rw [Cpu.uncached, Cpu.uncached, h.rest]
  exact ⟨rfl, rfl, h.cache⟩

variable (cpu) in
theorem Like.miss (h : Like m m') (address : BitVec 32) :
    (cpu.miss address m).1 = (cpu.miss address m').1 ∧
      Like (cpu.miss address m).2 (cpu.miss address m').2 := by
  rw [Cpu.miss, Cpu.miss, h.rest]
  by_cases hfrozen : cpu.cacr m'.rest &&& 0x02#32 ≠ 0#32
  · rw [if_pos hfrozen, if_pos hfrozen]
    exact h.uncached cpu address
  rw [if_neg hfrozen, if_neg hfrozen]
  obtain ⟨⟨data, rest⟩, hread⟩ : ∃ r, cpu.read32 (address &&& ~~~ 3#32) m'.rest = r := ⟨_, rfl⟩
  simp only [hread]
  have hlike : Like { m with rest := rest } { m' with rest := rest } := ⟨rfl, h.cache⟩
  split_ifs
  · exact hlike.uncached cpu address
  · exact ⟨rfl, rfl, h.cache.fill address _ _⟩

variable (cpu) in
theorem Like.icReadimm16 (h : Like m m') (address : BitVec 32) :
    (cpu.icReadimm16 address m).1 = (cpu.icReadimm16 address m').1 ∧
      Like (cpu.icReadimm16 address m).2 (cpu.icReadimm16 address m').2 := by
  rw [Cpu.icReadimm16, Cpu.icReadimm16, h.rest, h.cache]
  split_ifs
  · split
    · exact ⟨rfl, h⟩
    · exact h.miss cpu address
  · exact h.uncached cpu address

variable (cpu) in
theorem Like.step (h : Like m m') :
    (cpu.step m).1 = (cpu.step m').1 ∧ Like (cpu.step m).2 (cpu.step m').2 := by
  rw [Cpu.step, Cpu.step, h.rest]
  cases cpu.action m'.rest with
  | readimm16 address next =>
    obtain ⟨hword, hlike⟩ := h.icReadimm16 cpu address
    dsimp only
    rw [hword, hlike.rest]
    exact ⟨rfl, rfl, hlike.cache⟩
  | clear next => exact ⟨rfl, rfl, .clear _ _⟩
  | other next => exact ⟨rfl, rfl, h.cache⟩

/-- So is the instruction stream, by induction over its steps. -/
theorem Like.words (h : Like m m') (n : ℕ) : cpu.words n m = cpu.words n m' := by
  induction n generalizing m m' with
  | zero => rfl
  | succ n ih =>
    obtain ⟨hword, hlike⟩ := h.step cpu
    rw [Cpu.words, Cpu.words, hword, ih hlike]

theorem survives_of_agree {saved target : Machine σ} (h : saved.cache.Agree target.cache) :
    cpu.Survives saved target := by
  have hlike : Like (load saved target) saved := ⟨rfl, fun address s ↦ (h address s).symm⟩
  exact hlike.words

/-! ## Machines with caches that do not agree -/

/-- A machine that takes one word after another from one address, with some word in memory. -/
def fetching (address memory : BitVec 32) (s : Bool) : Cpu Unit where
  cpuType := 0x08#32
  cacr _ := 0x01#32
  sFlag _ := s
  read32 _ _ := (memory, ())
  readimm16 _ _ := (half address memory, ())
  buserrorOccurred _ := false
  action _ := .readimm16 address fun _ _ ↦ ()

theorem hasCache_fetching (address memory : BitVec 32) (s : Bool) :
    (fetching address memory s).HasCache :=
  show 0x08#32 &&& (0x08#32 ||| 0x10#32) ≠ 0#32 by decide

theorem words_fetching (address memory : BitVec 32) (s : Bool) (c : InstructionCache) :
    (fetching address memory s).words 1 ⟨(), c⟩ =
      [half address ((c.lookup address s).getD memory)] := by
  have hmiss : ((fetching address memory s).miss address ⟨(), c⟩).1 = half address memory := by
    have hfrozen : ¬ (fetching address memory s).cacr () &&& 0x02#32 ≠ 0#32 :=
      show ¬ 0x01#32 &&& 0x02#32 ≠ 0#32 by decide
    exact congrArg Prod.fst (if_neg hfrozen)
  have hword : ((fetching address memory s).icReadimm16 address ⟨(), c⟩).1 =
      half address ((c.lookup address s).getD memory) := by
    rw [icReadimm16,
      if_pos ⟨show 0x01#32 &&& 0x01#32 ≠ 0#32 by decide, hasCache_fetching address memory s⟩]
    show (match c.lookup address s with | some data => _ | none => _ : BitVec 32 × Machine Unit).1 =
        _
    cases c.lookup address s with
    | some data => rfl
    | none => exact hmiss
  rw [words, words, List.append_nil]
  show [((fetching address memory s).icReadimm16 address ⟨(), c⟩).1] = _
  rw [hword]

/-- The two halves of a line are found together. -/
theorem lookup_xor_two (c : InstructionCache) (address : BitVec 32) (s : Bool) :
    c.lookup (address ^^^ 2#32) s = c.lookup address s := by
  have htag : tag (address ^^^ 2#32) s = tag address s := by
    rw [tag, tag, ushiftRight_xor_distrib, show 2#32 >>> 8 = 0#32 from rfl, xor_zero]
  have hidx : idx (address ^^^ 2#32) = idx address := by
    rw [idx, idx, ushiftRight_xor_distrib, show 2#32 >>> 2 = 0#32 from rfl, xor_zero]
  rw [lookup, lookup, htag, hidx]

theorem half_eq (address data : BitVec 32) :
    half address data = if address.getLsbD 1 then data &&& 0xffff#32 else data >>> 16 := by
  have htwo : 2#32 = twoPow 32 1 := rfl
  rw [half, htwo, and_twoPow]
  have hne : twoPow 32 1 ≠ 0#32 := by decide
  cases address.getLsbD 1 <;> simp [hne]

/-- The halves of a line make it up. -/
theorem eq_of_half_eq {address data data' : BitVec 32} (h : half address data = half address data')
    (h' : half (address ^^^ 2#32) data = half (address ^^^ 2#32) data') : data = data' := by
  have hboth : data &&& 0xffff#32 = data' &&& 0xffff#32 ∧ data >>> 16 = data' >>> 16 := by
    have hbit : (address ^^^ 2#32).getLsbD 1 = !address.getLsbD 1 := by simp
    rw [half_eq, half_eq] at h h'
    rw [hbit] at h'
    cases hset : address.getLsbD 1 with
    | true =>
      rw [hset] at h h'
      exact ⟨h, h'⟩
    | false =>
      rw [hset] at h h'
      exact ⟨h', h⟩
  obtain ⟨hlow, hhigh⟩ := hboth
  have hlow' := congrArg BitVec.toNat hlow
  have hhigh' := congrArg BitVec.toNat hhigh
  simp only [toNat_and, toNat_ushiftRight, toNat_ofNat, Nat.shiftRight_eq_div_pow] at hlow' hhigh'
  rw [show 0xffff % 2 ^ 32 = 2 ^ 16 - 1 from rfl, Nat.and_two_pow_sub_one_eq_mod,
    Nat.and_two_pow_sub_one_eq_mod] at hlow'
  exact eq_of_toNat_eq (by omega)

/-- A word and the one with all bits changed differ in both halves. -/
theorem half_not_ne (address data : BitVec 32) : half address (~~~ data) ≠ half address data := by
  intro h
  rw [half_eq, half_eq] at h
  split_ifs at h
  · have hbit := congrArg (getLsbD · 0) h
    simp at hbit
  · have hbit := congrArg (getLsbD · 0) h
    simp at hbit

/-- **Save states.** The words that a machine runs after it has loaded a state are those of the
machine that was saved, whatever the machine, its program and its memory, exactly if the two caches
agree. -/
theorem survives_iff_agree (c c' : InstructionCache) : (∀ (σ : Type) (cpu : Cpu σ), cpu.HasCache →
    ∀ rest rest' : σ, cpu.Survives ⟨rest, c⟩ ⟨rest', c'⟩) ↔
      c.Agree c' := by
  constructor
  · intro hsurvives
    have hword : ∀ address s memory, half address ((c'.lookup address s).getD memory) =
        half address ((c.lookup address s).getD memory) := by
      intro address s memory
      have hwords := hsurvives Unit _ (hasCache_fetching address memory s) () () 1
      rw [load, words_fetching, words_fetching] at hwords
      exact List.head_eq_of_cons_eq hwords
    intro address s
    have hother := hword (address ^^^ 2#32) s
    rw [lookup_xor_two, lookup_xor_two] at hother
    cases hline : c.lookup address s with
    | none =>
      cases hline' : c'.lookup address s with
      | none => rfl
      | some data =>
        have hmiss := hword address s (~~~ data)
        rw [hline, hline'] at hmiss
        exact absurd hmiss.symm (half_not_ne address data)
    | some data =>
      cases hline' : c'.lookup address s with
      | none =>
        have hmiss := hword address s (~~~ data)
        rw [hline, hline'] at hmiss
        exact absurd hmiss (half_not_ne address data)
      | some data' =>
        have hhit := hword address s 0
        have hhit' := hother 0
        rw [hline, hline', Option.getD_some, Option.getD_some] at hhit hhit'
        rw [eq_of_half_eq hhit hhit']
  · exact fun h σ cpu _ rest rest' ↦ survives_of_agree h

/-- A machine that runs a word, clears its cache, finds another word in its memory and runs that.
Its state is the number of steps so far. -/
def overwriting : Cpu ℕ where
  cpuType := 0x08#32
  cacr _ := 0x01#32
  sFlag _ := true
  read32 _ n := (if n < 2 then 0x11112222#32 else 0x33334444#32, n)
  readimm16 _ n := (if n < 2 then 0x1111#32 else 0x3333#32, n)
  buserrorOccurred _ := false
  action n := if n = 1 then .clear 2 else .readimm16 0 fun _ n ↦ n + 1

/-- The state of the machine before its first step, loaded behind the third: the machine runs the
second word again, and not the first. -/
theorem not_survives_overwriting :
    overwriting.HasCache ∧ (∀ n, overwriting.cacr n &&& 0x01#32 ≠ 0#32) ∧
      overwriting.words 1 ⟨0, .new⟩ = [0x1111#32] ∧
      overwriting.words 1 (load ⟨0, .new⟩ (overwriting.run 3 ⟨0, .new⟩)) = [0x3333#32] ∧
      ¬ overwriting.Survives ⟨0, .new⟩ (overwriting.run 3 ⟨0, .new⟩) := by
  have hsaved : overwriting.words 1 ⟨0, .new⟩ = [0x1111#32] := by decide +kernel
  have hloaded :
      overwriting.words 1 (load ⟨0, .new⟩ (overwriting.run 3 ⟨0, .new⟩)) = [0x3333#32] := by
    decide +kernel
  refine ⟨by decide, fun _ ↦ show 0x01#32 &&& 0x01#32 ≠ 0#32 by decide, hsaved, hloaded, fun h ↦ ?_⟩
  have hsame := h 1
  rw [hsaved, hloaded] at hsame
  exact absurd hsame (by decide)

end Cpu

end RoscoEmulator.M68k
