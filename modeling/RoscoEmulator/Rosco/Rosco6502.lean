import Mathlib.Data.List.Basic

/-!
# The memory of the rosco_6502

The machine has 16 KB of low RAM, a window of 32 KB on one of 16 RAM banks, and a window of 8 KB on
one of 4 ROM banks. One register selects both banks. It is written through the first two bytes of
the low RAM, and the writes reach the RAM as well.

The model has the registers and bank entries as the driver keeps them. What the memory is for is
said by the history of the writes and resets alone: which byte the register holds, and what each
byte of low RAM and of each bank was last written with. A saved state is a point of the history to
come back to. -/

namespace RoscoEmulator.Rosco6502

open Function

abbrev Byte : Type := BitVec 8

/-! ## The source -/

def ramBanks : ℕ := 16
def romBanks : ℕ := 4
def ramBankSize : ℕ := 0x8000
def romBankSize : ℕ := 0x2000

/-- `memory_bank`: its entries and the one that its window shows. -/
structure MemoryBank where
  entries : ℕ
  curentry : ℕ
deriving DecidableEq, Repr

/-- `memory_bank::set_entry`; an entry that is not there is a fatal error. -/
def MemoryBank.setEntry (bank : MemoryBank) (entrynum : ℕ) : Option MemoryBank :=
  if entrynum < bank.entries then some { bank with curentry := entrynum } else none

/-- What a save state holds: `m_lowram` and the current entries by the memory system, `m_bankram`
and `m_bank_set` by `machine_start`. -/
structure Saved where
  lowram : ℕ → Byte
  bankram : ℕ → Byte
  bankSet : Byte
  rambank : MemoryBank
  rombank : MemoryBank

structure Machine extends Saved where
  rom : ℕ → Byte
  slots : ℕ → Option Saved

/-- What `mem_map` puts at an address, with the offset that its handler sees. A later entry of the
map lies over an earlier one. -/
inductive Region
  | lowRam (offset : ℕ)
  | bankRegister (offset : ℕ)
  | ramBank (offset : ℕ)
  | duart (offset : ℕ)
  | romBank (offset : ℕ)
  | unmapped
deriving DecidableEq, Repr

/-- `mem_map`. -/
def memMap (address : BitVec 16) : Region :=
  if 0xe000 ≤ address.toNat then .romBank (address.toNat - 0xe000)
  else if 0xc000 ≤ address.toNat ∧ address.toNat ≤ 0xc00f then .duart (address.toNat - 0xc000)
  else if 0x4000 ≤ address.toNat ∧ address.toNat ≤ 0xbfff then .ramBank (address.toNat - 0x4000)
  else if address.toNat ≤ 0x0001 then .bankRegister address.toNat
  else if address.toNat ≤ 0x3fff then .lowRam address.toNat
  else .unmapped

namespace Machine

variable (m : Machine)

/-- `bank_r`. -/
def bankR (offset : ℕ) : Byte := m.lowram offset

/-- `update_banks`. -/
def updateBanks : Option Machine := do
  let rambank ← m.rambank.setEntry (m.bankSet &&& 0x0f#8).toNat
  let rombank ← m.rombank.setEntry ((m.bankSet >>> 4) &&& 0x03#8).toNat
  some { m with rambank := rambank, rombank := rombank }

/-- `bank_w`. -/
def bankW (offset : ℕ) (data : Byte) : Option Machine :=
  updateBanks { m with lowram := update m.lowram offset data, bankSet := data }

/-- A read of the CPU, if it does not go to the DUART. -/
def read (address : BitVec 16) : Option Byte :=
  match memMap address with
  | .lowRam offset => some (m.lowram offset)
  | .bankRegister offset => some (m.bankR offset)
  | .ramBank offset => some (m.bankram (m.rambank.curentry * ramBankSize + offset))
  | .duart _ => none
  | .romBank offset => some (m.rom (m.rombank.curentry * romBankSize + offset))
  | .unmapped => some 0

/-- A write of the CPU. -/
def write (address : BitVec 16) (data : Byte) : Option Machine :=
  match memMap address with
  | .lowRam offset => some { m with lowram := update m.lowram offset data }
  | .bankRegister offset => m.bankW offset data
  | .ramBank offset =>
      some { m with
        bankram := update m.bankram (m.rambank.curentry * ramBankSize + offset) data }
  | .duart _ => some m
  | .romBank _ => some m
  | .unmapped => some m

/-- `machine_start` with RAM and ROM as they are at power on. -/
def start (lowram bankram rom : ℕ → Byte) : Machine where
  lowram := lowram
  bankram := bankram
  bankSet := 0
  rambank := { entries := ramBanks, curentry := 0 }
  rombank := { entries := romBanks, curentry := 0 }
  rom := rom
  slots := fun _ ↦ none

/-- `machine_reset`. -/
def reset : Option Machine := updateBanks { m with bankSet := 0 }

end Machine

/-- What happens to the machine. -/
inductive Event
  | read (address : BitVec 16)
  | write (address : BitVec 16) (data : Byte)
  | reset
  | save (slot : ℕ)
  | load (slot : ℕ)
deriving DecidableEq, Repr

/-- One event. Loading from a slot that nothing was saved in does nothing. -/
def Machine.step (m : Machine) : Event → Option Machine
  | .read _ => some m
  | .write address data => m.write address data
  | .reset => m.reset
  | .save slot => some { m with slots := update m.slots slot (some m.toSaved) }
  | .load slot =>
      match m.slots slot with
      | some saved => some { m with toSaved := saved }
      | none => some m

/-- A run from power on: `machine_start`, `machine_reset`, and the events. -/
def Machine.run (m : Machine) (es : List Event) : Option Machine := do
  let m ← m.reset
  es.foldlM Machine.step m

/-! ## The history -/

/-- What counts in a history. -/
inductive Access
  | write (address : BitVec 16) (data : Byte)
  | reset
deriving DecidableEq, Repr

/-- The last byte written to `$0000` or `$0001` since the last reset; the newest access comes
first. -/
def bankByte : List Access → Byte
  | [] => 0
  | .reset :: _ => 0
  | .write address data :: past => if address.toNat ≤ 0x0001 then data else bankByte past

/-- The RAM bank of a history. -/
def ramBankOf (past : List Access) : ℕ := (bankByte past &&& 0x0f#8).toNat

/-- The ROM bank of a history. -/
def romBankOf (past : List Access) : ℕ := ((bankByte past >>> 4) &&& 0x03#8).toNat

/-- What a byte of low RAM was last written with. -/
def lowByte (initial : ℕ → Byte) : List Access → ℕ → Byte
  | [], a => initial a
  | .reset :: past, a => lowByte initial past a
  | .write address data :: past, a =>
      if address.toNat = a then data else lowByte initial past a

/-- What byte `offset` of a RAM bank was last written with: a write to the window counts for the
bank that the window showed. -/
def bankedByte (initial : ℕ → Byte) : List Access → ℕ → ℕ → Byte
  | [], bank, offset => initial (bank * ramBankSize + offset)
  | .reset :: past, bank, offset => bankedByte initial past bank offset
  | .write address data :: past, bank, offset =>
      if address.toNat = 0x4000 + offset ∧ ramBankOf past = bank then data
      else bankedByte initial past bank offset

/-- A history and the histories that were saved. -/
structure Journal where
  past : List Access
  slots : ℕ → Option (List Access)

def Journal.step (j : Journal) : Event → Journal
  | .read _ => j
  | .write address data => { j with past := .write address data :: j.past }
  | .reset => { j with past := .reset :: j.past }
  | .save slot => { j with slots := update j.slots slot (some j.past) }
  | .load slot =>
      match j.slots slot with
      | some past => { j with past := past }
      | none => j

/-- The history that a run from power on leads to. -/
def history (es : List Event) : List Access := (es.foldl Journal.step ⟨[], fun _ ↦ none⟩).past

/-- What a read returns after a history, if it does not go to the DUART. -/
def expected (lowram bankram rom : ℕ → Byte) (past : List Access) (address : BitVec 16) :
    Option Byte :=
  if address.toNat ≤ 0x3fff then some (lowByte lowram past address.toNat)
  else if address.toNat ≤ 0xbfff then
    some (bankedByte bankram past (ramBankOf past) (address.toNat - 0x4000))
  else if address.toNat ≤ 0xc00f then none
  else if address.toNat ≤ 0xdfff then some 0
  else some (rom (romBankOf past * romBankSize + (address.toNat - 0xe000)))

/-! ## The memory agrees with its history -/

theorem memMap_cases (address : BitVec 16) :
    (address.toNat ≤ 1 ∧ memMap address = .bankRegister address.toNat) ∨
    (2 ≤ address.toNat ∧ address.toNat ≤ 0x3fff ∧ memMap address = .lowRam address.toNat) ∨
    (0x4000 ≤ address.toNat ∧ address.toNat ≤ 0xbfff ∧
      memMap address = .ramBank (address.toNat - 0x4000)) ∨
    (0xc000 ≤ address.toNat ∧ address.toNat ≤ 0xc00f ∧
      memMap address = .duart (address.toNat - 0xc000)) ∨
    (0xc010 ≤ address.toNat ∧ address.toNat ≤ 0xdfff ∧ memMap address = .unmapped) ∨
    (0xe000 ≤ address.toNat ∧ memMap address = .romBank (address.toNat - 0xe000)) := by
  simp only [memMap]
  split_ifs <;> simp <;> omega

theorem ramBankOf_lt (past : List Access) : ramBankOf past < ramBanks := by
  rw [ramBankOf, BitVec.toNat_and]
  exact Nat.lt_of_le_of_lt Nat.and_le_right (by decide)

theorem romBankOf_lt (past : List Access) : romBankOf past < romBanks := by
  rw [romBankOf, BitVec.toNat_and]
  exact Nat.lt_of_le_of_lt Nat.and_le_right (by decide)

section

variable {lowram bankram : ℕ → Byte} {past : List Access}

/-- Registers, bank entries and RAM are what the history says. -/
structure Agrees (lowram bankram : ℕ → Byte) (past : List Access) (s : Saved) : Prop where
  bankSet : s.bankSet = bankByte past
  rambank : s.rambank = ⟨ramBanks, ramBankOf past⟩
  rombank : s.rombank = ⟨romBanks, romBankOf past⟩
  low : ∀ a ≤ 0x3fff, s.lowram a = lowByte lowram past a
  banked : ∀ bank < ramBanks, ∀ offset < ramBankSize,
    s.bankram (bank * ramBankSize + offset) = bankedByte bankram past bank offset

/-- `update_banks` never fails, and shows the banks of the register. -/
theorem updateBanks_eq {m : Machine} {new : List Access} (hset : m.bankSet = bankByte new)
    (hram : m.rambank.entries = ramBanks) (hrom : m.rombank.entries = romBanks) :
    m.updateBanks = some { m with
      rambank := ⟨ramBanks, ramBankOf new⟩, rombank := ⟨romBanks, romBankOf new⟩ } := by
  have h1 : m.rambank.setEntry (m.bankSet &&& 0x0f#8).toNat = some ⟨ramBanks, ramBankOf new⟩ := by
    rw [MemoryBank.setEntry, hram, hset]
    exact if_pos (ramBankOf_lt new)
  have h2 : m.rombank.setEntry ((m.bankSet >>> 4) &&& 0x03#8).toNat =
      some ⟨romBanks, romBankOf new⟩ := by
    rw [MemoryBank.setEntry, hrom, hset]
    exact if_pos (romBankOf_lt new)
  rw [Machine.updateBanks, h1, h2]
  rfl

theorem Agrees.reset {m : Machine} (h : Agrees lowram bankram past m.toSaved) :
    ∃ s, m.reset = some { m with toSaved := s } ∧ Agrees lowram bankram (.reset :: past) s := by
  refine ⟨_, @updateBanks_eq _ (.reset :: past) rfl (by rw [h.rambank])
    (by rw [h.rombank]), ?_⟩
  exact ⟨rfl, rfl, rfl, h.low, h.banked⟩

/-- The RAM after a write, and what it says about the history. -/
theorem Agrees.write {m : Machine} (h : Agrees lowram bankram past m.toSaved) (address : BitVec 16)
    (data : Byte) : ∃ s, m.write address data = some { m with toSaved := s } ∧
      Agrees lowram bankram (.write address data :: past) s ∧
      (address.toNat ≤ 0x3fff → s.lowram = update m.lowram address.toNat data ∧
        s.bankram = m.bankram) ∧
      (0x4000 ≤ address.toNat → address.toNat ≤ 0xbfff → s.lowram = m.lowram ∧
        s.bankram = update m.bankram
          (ramBankOf past * ramBankSize + (address.toNat - 0x4000)) data) ∧
      (0xc000 ≤ address.toNat → s = m.toSaved) := by
  have hlow : ∀ a, a ≤ 0x3fff → address.toNat ≤ 0x3fff →
      update m.lowram address.toNat data a =
        lowByte lowram (.write address data :: past) a := by
    intro a ha haddress
    rw [update_apply, lowByte, h.low a ha]
    simp only [eq_comm]
  have hlow' : ∀ a, a ≤ 0x3fff → 0x4000 ≤ address.toNat →
      m.lowram a = lowByte lowram (.write address data :: past) a := by
    intro a ha haddress
    rw [lowByte, if_neg (by omega), h.low a ha]
  have hbanked : ∀ bank < ramBanks, ∀ offset < ramBankSize,
      ¬ (0x4000 ≤ address.toNat ∧ address.toNat ≤ 0xbfff) →
      m.bankram (bank * ramBankSize + offset) =
        bankedByte bankram (.write address data :: past) bank offset := by
    intro bank hbank offset hoffset haddress
    rw [ramBankSize] at hoffset
    rw [bankedByte, if_neg (by omega), h.banked bank hbank offset hoffset]
  have hregs : 2 ≤ address.toNat → m.bankSet = bankByte (.write address data :: past) ∧
      m.rambank = ⟨ramBanks, ramBankOf (.write address data :: past)⟩ ∧
      m.rombank = ⟨romBanks, romBankOf (.write address data :: past)⟩ := by
    intro ha
    rw [ramBankOf, romBankOf, bankByte, if_neg (by omega)]
    exact ⟨h.bankSet, h.rambank, h.rombank⟩
  -- what a write outside the RAM leaves alone
  have hstay : 0xc000 ≤ address.toNat →
      Agrees lowram bankram (.write address data :: past) m.toSaved :=
    fun ha ↦ ⟨(hregs (by omega)).1, (hregs (by omega)).2.1, (hregs (by omega)).2.2,
      fun a h' ↦ hlow' a h' (by omega),
      fun bank hb offset ho ↦ hbanked bank hb offset ho (by omega)⟩
  rcases memMap_cases address with ⟨ha, hmap⟩ | ⟨ha, ha', hmap⟩ | ⟨ha, ha', hmap⟩ | ⟨ha, ha',
    hmap⟩ | ⟨ha, ha', hmap⟩ | ⟨ha, hmap⟩
  · -- the bank register
    have hset : bankByte (.write address data :: past) = data := by rw [bankByte, if_pos ha]
    refine ⟨{ m.toSaved with
        lowram := update m.lowram address.toNat data
        bankSet := data
        rambank := ⟨ramBanks, ramBankOf (.write address data :: past)⟩
        rombank := ⟨romBanks, romBankOf (.write address data :: past)⟩ }, ?_, ⟨hset.symm, rfl, rfl,
      fun a h' ↦ hlow a h' (by omega), fun bank hb offset ho ↦
        hbanked bank hb offset ho (by omega)⟩,
      fun _ ↦ ⟨rfl, rfl⟩, fun h' ↦ by omega, fun h' ↦ by omega⟩
    rw [Machine.write, hmap]
    exact updateBanks_eq hset.symm (congrArg MemoryBank.entries h.rambank)
      (congrArg MemoryBank.entries h.rombank)
  · -- low RAM
    refine ⟨{ m.toSaved with lowram := update m.lowram address.toNat data }, ?_,
      ⟨(hregs ha).1, (hregs ha).2.1, (hregs ha).2.2, fun a h' ↦ hlow a h' (by omega),
        fun bank hb offset ho ↦ hbanked bank hb offset ho (by omega)⟩,
      fun _ ↦ ⟨rfl, rfl⟩, fun h' ↦ by omega, fun h' ↦ by omega⟩
    rw [Machine.write, hmap]
  · -- the window on the RAM banks
    have hcur : m.rambank.curentry = ramBankOf past := congrArg MemoryBank.curentry h.rambank
    obtain ⟨hset, hram, hrom⟩ := hregs (by omega)
    refine ⟨{ m.toSaved with
        bankram := update m.bankram
          (ramBankOf past * ramBankSize + (address.toNat - 0x4000)) data }, ?_,
      ⟨hset, hram, hrom, fun a h' ↦ hlow' a h' ha, ?_⟩, fun h' ↦ by omega, fun _ _ ↦ ⟨rfl, rfl⟩,
      fun h' ↦ by omega⟩
    · rw [Machine.write, hmap, ← hcur]
    · intro bank hbank offset hoffset
      -- two places of the bank RAM are the same only for one bank and one offset
      have hplace : bank * ramBankSize + offset =
          ramBankOf past * ramBankSize + (address.toNat - 0x4000) ↔
          address.toNat = 0x4000 + offset ∧ ramBankOf past = bank := by
        rw [ramBankSize] at hoffset ⊢
        omega
      dsimp only
      rw [bankedByte, ← h.banked bank hbank offset hoffset]
      by_cases hwritten : address.toNat = 0x4000 + offset ∧ ramBankOf past = bank
      · rw [if_pos hwritten, hplace.mpr hwritten, update_self]
      · rw [if_neg hwritten, update_of_ne (mt hplace.mp hwritten)]
  · exact ⟨m.toSaved, by rw [Machine.write, hmap], hstay ha, fun h' ↦ by omega, fun _ h' ↦ by omega,
      fun _ ↦ rfl⟩
  · exact ⟨m.toSaved, by rw [Machine.write, hmap], hstay (by omega), fun h' ↦ by omega,
      fun _ h' ↦ by omega, fun _ ↦ rfl⟩
  · exact ⟨m.toSaved, by rw [Machine.write, hmap], hstay (by omega), fun h' ↦ by omega,
      fun _ h' ↦ by omega, fun _ ↦ rfl⟩

/-- The machine and its saved states agree with a journal. -/
structure Follows (lowram bankram rom : ℕ → Byte) (j : Journal) (m : Machine) : Prop where
  now : Agrees lowram bankram j.past m.toSaved
  rom : m.rom = rom
  saved : ∀ slot, (m.slots slot = none ∧ j.slots slot = none) ∨
    ∃ s past, m.slots slot = some s ∧ j.slots slot = some past ∧ Agrees lowram bankram past s

variable {rom : ℕ → Byte} {j : Journal} {m : Machine}

theorem Follows.step (h : Follows lowram bankram rom j m) (e : Event) :
    ∃ m', m.step e = some m' ∧ Follows lowram bankram rom (j.step e) m' := by
  cases e with
  | read address => exact ⟨m, rfl, h⟩
  | write address data =>
    obtain ⟨s, hwrite, hs, -⟩ := h.now.write address data
    exact ⟨_, hwrite, hs, h.rom, h.saved⟩
  | reset =>
    obtain ⟨s, hreset, hs⟩ := h.now.reset
    exact ⟨_, hreset, hs, h.rom, h.saved⟩
  | save slot =>
    refine ⟨_, rfl, h.now, h.rom, fun slot' ↦ ?_⟩
    by_cases hslot : slot' = slot
    · subst hslot
      exact Or.inr ⟨m.toSaved, j.past, update_self .., update_self .., h.now⟩
    · simp only [Journal.step, update_of_ne hslot]
      exact h.saved slot'
  | load slot =>
    simp only [Machine.step, Journal.step]
    rcases h.saved slot with ⟨hm, hj⟩ | ⟨s, past, hm, hj, hs⟩
    · rw [hm, hj]
      exact ⟨m, rfl, h⟩
    · rw [hm, hj]
      exact ⟨_, rfl, hs, h.rom, h.saved⟩

theorem Follows.run (h : Follows lowram bankram rom j m) (es : List Event) :
    ∃ m', es.foldlM Machine.step m = some m' ∧
      Follows lowram bankram rom (es.foldl Journal.step j) m' := by
  induction es generalizing j m with
  | nil => exact ⟨m, rfl, h⟩
  | cons e es ih =>
    obtain ⟨m', hstep, hm'⟩ := h.step e
    obtain ⟨m'', hrun, hm''⟩ := ih hm'
    refine ⟨m'', ?_, hm''⟩
    rw [List.foldlM_cons, hstep]
    exact hrun

theorem follows_start (lowram bankram rom : ℕ → Byte) :
    ∃ m, (Machine.start lowram bankram rom).reset = some m ∧
      Follows lowram bankram rom ⟨[], fun _ ↦ none⟩ m := by
  have hstart : Agrees lowram bankram [] (Machine.start lowram bankram rom).toSaved :=
    ⟨rfl, rfl, rfl, fun _ _ ↦ rfl, fun _ _ _ _ ↦ rfl⟩
  obtain ⟨s, hreset, hs⟩ := hstart.reset
  -- a reset at the start of the history makes no difference
  exact ⟨_, hreset, ⟨hs.bankSet, hs.rambank, hs.rombank, hs.low, hs.banked⟩, rfl,
    fun _ ↦ Or.inl ⟨rfl, rfl⟩⟩

theorem Follows.read (h : Follows lowram bankram rom j m) (address : BitVec 16) :
    m.read address = expected lowram bankram rom j.past address := by
  have hram : m.rambank.curentry = ramBankOf j.past := congrArg MemoryBank.curentry h.now.rambank
  have hrom : m.rombank.curentry = romBankOf j.past := congrArg MemoryBank.curentry h.now.rombank
  rw [expected]
  rcases memMap_cases address with ⟨ha, hmap⟩ | ⟨ha, ha', hmap⟩ | ⟨ha, ha', hmap⟩ | ⟨ha, ha',
    hmap⟩ | ⟨ha, ha', hmap⟩ | ⟨ha, hmap⟩
  · rw [if_pos (by omega), ← h.now.low _ (by omega), Machine.read, hmap]
    rfl
  · rw [if_pos (by omega), ← h.now.low _ (by omega), Machine.read, hmap]
  · rw [if_neg (by omega), if_pos (by omega),
      ← h.now.banked _ (ramBankOf_lt _) _ (by rw [ramBankSize]; omega), Machine.read, hmap, ← hram]
  · rw [if_neg (by omega), if_neg (by omega), if_pos (by omega), Machine.read, hmap]
  · rw [if_neg (by omega), if_neg (by omega), if_neg (by omega), if_pos (by omega), Machine.read,
      hmap]
  · rw [if_neg (by omega), if_neg (by omega), if_neg (by omega), if_neg (by omega), Machine.read,
      hmap, ← hrom, ← h.rom]

end

/-- **The memory of the rosco_6502.** After every run of accesses, resets, saves and loads, reads
return what the history says: low RAM as it was last written, the window on the RAM banks the bank
of the register, and the window on the ROM banks likewise; and the next write changes one byte of
low RAM or one byte of the bank that the window shows, or nothing. -/
theorem memory_refines_history (lowram bankram rom : ℕ → Byte) (es : List Event) :
    ∃ m, (Machine.start lowram bankram rom).run es = some m ∧
      (∀ address, m.read address = expected lowram bankram rom (history es) address) ∧
      ∀ address data, ∃ m', m.write address data = some m' ∧ m'.rom = m.rom ∧
        (address.toNat ≤ 0x3fff →
          m'.lowram = update m.lowram address.toNat data ∧ m'.bankram = m.bankram) ∧
        (0x4000 ≤ address.toNat → address.toNat ≤ 0xbfff → m'.lowram = m.lowram ∧
          m'.bankram = update m.bankram
            (ramBankOf (history es) * ramBankSize + (address.toNat - 0x4000)) data) ∧
        (0xc000 ≤ address.toNat → m' = m) := by
  obtain ⟨m₀, hreset, h₀⟩ := follows_start lowram bankram rom
  obtain ⟨m, hrun, hm⟩ := h₀.run es
  refine ⟨m, by rw [Machine.run, hreset]; exact hrun, hm.read, fun address data ↦ ?_⟩
  obtain ⟨s, hwrite, -, hlow, hbanked, hother⟩ := hm.now.write address data
  exact ⟨_, hwrite, rfl, hlow, hbanked, fun ha ↦ by rw [hother ha]⟩

end RoscoEmulator.Rosco6502
