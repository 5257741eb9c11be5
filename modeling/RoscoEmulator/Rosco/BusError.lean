import Mathlib
import RoscoEmulator.Rosco.Bootvect

/-!
# Bus errors of the rosco m68k

Accesses that no device answers are to end in a bus error that names the address and the direction
of the access. The driver installs its handlers for them over ranges of the map. A handler gets the
offset of the access in its range, and adds to it a constant that is not the start of any of the
ranges; besides, it passes `0` for a read and `1` for a write, where `set_buserror_details` has it
the other way. The core of the 68000 uses neither: it is only told to end the access, and reports
what its own registers hold when the exception starts. These are those of the access, but for the
read of `tas`, which goes on to its write before the exception. The last 512 bytes of the 24-bit map
have no handler, and within 16 cycles of a bus error there is no other. -/

namespace RoscoEmulator.BusError

open Bootvect

/-! ## The map -/

/-- What answers at an address. -/
inductive Handler
  | ram | rom | duart | ata | bootvect
  | unmappedRam | unmappedExp
deriving DecidableEq, Repr

/-- An entry of the map. -/
structure Entry where
  start : ℕ
  last : ℕ
  handler : Handler
deriving DecidableEq, Repr

/-- `delegated_mem_map`. -/
def delegatedMemMap : Cpu → List Entry
  | .m68000 | .m68010 => [⟨0x000000, 0x000007, .bootvect⟩]
  | .m68020 => [⟨0x000000, 0x000007, .bootvect⟩, ⟨0x01000000, 0xffffffff, .unmappedRam⟩]
  | .m68030 => [⟨0x000000, 0x000007, .bootvect⟩, ⟨0x01000000, 0xfffffdff, .unmappedRam⟩]

/-- `mem_map`. -/
def memMap (cpu : Cpu) : List Entry :=
  [⟨0x000000, 0x0fffff, .ram⟩,
    ⟨0xe00000, 0xefffff, .rom⟩,
    ⟨0xf00000, 0xf0001f, .duart⟩,
    ⟨0xf80040, 0xf8004f, .ata⟩,
    ⟨0xf80050, 0xf8005f, .ata⟩,
    ⟨0x100000, 0xdfffff, .unmappedRam⟩,
    ⟨0xf00020, 0xf8003f, .unmappedExp⟩,
    ⟨0xf80060, 0xfffdff, .unmappedExp⟩] ++ delegatedMemMap cpu

/-- The entry that an address reaches: the last one that covers it. -/
def entryAt (cpu : Cpu) (address : ℕ) : Option Entry :=
  (memMap cpu).reverse.find? fun e ↦ e.start ≤ address ∧ address ≤ e.last

/-! ## Accesses -/

/-- The number of address bits. -/
def addressBits : Cpu → ℕ
  | .m68000 | .m68010 => 24
  | .m68020 | .m68030 => 32

/-- `SSW_DATA`. -/
def sswData : BitVec 16 := 0x01

/-- `SSW_S`. -/
def sswS : BitVec 16 := 0x04

/-- `SR_S`. -/
def srS : BitVec 16 := 0x2000

/-- An access of the CPU to a byte or to an aligned word. `ssw` is what the 68000 describes it by,
where bit 4 is `SSW_R`, and `tas` says that it is the read of that instruction. -/
structure Access (cpu : Cpu) where
  address : BitVec 32
  word : Bool
  read : Bool
  tas : Bool
  ssw : BitVec 16
  aligned : word = true → address.getLsbD 0 = false
  tas_read : tas = true → read = true ∧ word = false
  getLsbD_ssw : ssw.getLsbD 4 = read

variable {cpu : Cpu}

namespace Access

/-- Where on the bus an access goes. -/
def place (a : Access cpu) : ℕ := a.address.toNat % 2 ^ addressBits cpu

/-- The write of `tas` to the byte of an access. -/
def tasWrite (a : Access cpu) : Access cpu where
  address := a.address
  word := false
  read := false
  tas := false
  ssw := sswData
  aligned := Bool.noConfusion
  tas_read := Bool.noConfusion
  getLsbD_ssw := rfl

end Access

/-- The address and the direction of a bus error. -/
structure Report where
  address : BitVec 32
  rw : Bool
deriving DecidableEq, Repr

/-- `set_bus_error`: what `signal_bus_error` is called with, if it is, and `m_bus_error` after
it. -/
def setBusError (busError : Bool) (address : BitVec 32) (rw : Bool) : Option Report × Bool :=
  if busError then (none, busError) else (some ⟨address, rw⟩, true)

/-- `unmapped_ram_r` and `unmapped_ram_w`. -/
def unmappedRam (busError read : Bool) (offset : BitVec 32) : Option Report × Bool :=
  if read then setBusError busError (offset <<< 1) false
  else setBusError busError (offset <<< 1) true

/-- `unmapped_exp_r` and `unmapped_exp_w`. -/
def unmappedExp (busError read : Bool) (offset : BitVec 32) : Option Report × Bool :=
  if read then setBusError busError ((offset <<< 1) + 0xf00000) false
  else setBusError busError ((offset <<< 1) + 0xf00000) true

/-- The offset that a 16-bit handler of an entry gets, `(offset - m_address_base) >> 1`. -/
def Entry.offset (e : Entry) (address : ℕ) : BitVec 32 := BitVec.ofNat 32 ((address - e.start) / 2)

/-- An access through the map. -/
def perform (busError : Bool) (a : Access cpu) : Option Report × Bool :=
  match entryAt cpu a.place with
  | none => (none, busError)
  | some e =>
      match e.handler with
      | .unmappedRam => unmappedRam busError a.read (e.offset a.place)
      | .unmappedExp => unmappedExp busError a.read (e.offset a.place)
      | .ram | .rom | .duart | .ata | .bootvect => (none, busError)

/-! ## The core of the 68000 -/

/-- The post-run actions. -/
inductive PostRun
  | none | berr
deriving DecidableEq, Repr

/-- `S_BUS_ERROR`. -/
def sBusError : ℕ := 1

/-- The registers of `m68000_device` that a bus error comes through. The bus unit has the address of
its access in `m_aob` and the kind in `m_base_ssw`. -/
structure Core where
  aob : BitVec 32
  at' : BitVec 32
  baseSsw : BitVec 16
  ssw : BitVec 16
  sr : BitVec 16
  icount : ℤ
  postRun : PostRun
  postRunCycles : ℤ
  instState : ℕ
  instSubstate : ℕ
deriving DecidableEq, Repr

namespace Core

/-- `abort_access`. -/
def abortAccess (reason : PostRun) (c : Core) : Core :=
  { c with postRun := reason, postRunCycles := c.icount, icount := 0 }

/-- `trigger_bus_error`. -/
def triggerBusError : Core → Core := abortAccess .berr

/-- `do_post_run`. -/
def doPostRun (c : Core) : Core :=
  let c := { c with icount := c.postRunCycles, postRunCycles := 0 }
  let c :=
    match c.postRun with
    | .berr => { c with instState := sBusError, instSubstate := 0, icount := c.icount - 10 }
    | .none => c
  { c with postRun := .none }

/-- The first step of `state_bus_error`, which keeps what the frame of the exception is to say. -/
def bser1 (c : Core) : Core :=
  { c with
    ssw := c.baseSsw ||| if c.sr &&& srS = 0 then 0 else sswS
    at' := c.aob
    icount := c.icount - 2 }

/-- The bus cycle of an access, with `m_bus_error` after it. Its handler calls
`signal_bus_error`. -/
def cycle (busError : Bool) (a : Access cpu) (c : Core) : Core × Bool :=
  let c := { c with aob := a.address, baseSsw := a.ssw }
  let c := if (perform busError a).1.isSome then c.triggerBusError else c
  ({ c with icount := c.icount - 4 }, (perform busError a).2)

/-- The step of an instruction that makes an access. All return to `execute_run` where no cycle is
left, but for the read of `tas`, which does so only if the access is to be done again. -/
def access (busError : Bool) (a : Access cpu) (c : Core) : Core :=
  if a.tas then
    let (c, busError) := c.cycle busError a
    (cycle busError a.tasWrite { c with icount := c.icount - 2 }).1
  else (c.cycle busError a).1

/-- What `execute_run` does where no cycle is left: the exception, if there is one, at its first
step. -/
def exception (c : Core) : Option Core :=
  if c.icount ≤ 0 ∧ c.postRun ≠ .none then some c.doPostRun.bser1 else none

/-- No action is left over from an earlier access. -/
def Resting (c : Core) : Prop := c.postRun = .none

end Core

/-- The bus error that an access ends in. The Musashi cores are told by `set_buserror_details`, the
frame of the 68000 has the address in `m_at` and the direction in `m_ssw`. -/
def report (busError : Bool) (c : { c : Core // c.Resting }) :
    {cpu : Cpu} → Access cpu → Option Report
  | .m68000, a => (c.val.access busError a).exception.map fun c ↦ ⟨c.at', c.ssw.getLsbD 4⟩
  | .m68010, a | .m68020, a | .m68030, a => (perform busError a).1

/-! ## Fidelity -/

/-- The board decodes the address: there is RAM, ROM, the DUART or the ATA interface. -/
def Decoded (address : ℕ) : Prop :=
  address ≤ 0x0fffff ∨ (0xe00000 ≤ address ∧ address ≤ 0xefffff) ∨
    (0xf00000 ≤ address ∧ address ≤ 0xf0001f) ∨ (0xf80040 ≤ address ∧ address ≤ 0xf8005f)

instance decidableDecoded (address : ℕ) : Decidable (Decoded address) :=
  inferInstanceAs (Decidable (_ ∨ _))

/-- An access ends in a bus error exactly if nothing decodes it, and the bus error names it: the
address of the access, and `rw = 1` for a read. -/
def Faithful (busError : Bool) (c : { c : Core // c.Resting }) (a : Access cpu) : Prop :=
  (Decoded a.place → report busError c a = none) ∧
    (¬ Decoded a.place → report busError c a = some ⟨a.address, a.read⟩)

/-- An address has one of the handlers that raise a bus error. -/
def Unmapped (cpu : Cpu) (address : ℕ) : Prop :=
  ∃ e, entryAt cpu address = some e ∧ (e.handler = .unmappedRam ∨ e.handler = .unmappedExp)

variable (busError : Bool) {address : ℕ} {e : Entry}

theorem entryAt_spec (h : entryAt cpu address = some e) :
    e ∈ memMap cpu ∧ e.start ≤ address ∧ address ≤ e.last := by
  refine ⟨List.mem_reverse.mp (List.mem_of_find?_eq_some h), ?_⟩
  simpa using List.find?_some h

theorem exists_entryAt (he : e ∈ memMap cpu) (hcovers : e.start ≤ address ∧ address ≤ e.last) :
    ∃ e', entryAt cpu address = some e' := by
  rw [← Option.isSome_iff_exists, entryAt, List.find?_isSome]
  exact ⟨e, List.mem_reverse.mpr he, by simpa using hcovers⟩

/-- The entries that raise a bus error: where they start, and where not beyond. -/
theorem mem_memMap_unmapped (he : e ∈ memMap cpu) :
    (e.handler = .unmappedRam ∧ ((e.start = 0x100000 ∧ e.last = 0xdfffff) ∨ e.start = 0x1000000)) ∨
    (e.handler = .unmappedExp ∧ ((e.start = 0xf00020 ∧ e.last = 0xf8003f) ∨
      (e.start = 0xf80060 ∧ e.last = 0xfffdff))) ∨
    ((e.handler ≠ .unmappedRam ∧ e.handler ≠ .unmappedExp) ∧
      ∀ address, e.start ≤ address → address ≤ e.last → Decoded address) := by
  have hdecoded : ∀ {start last : ℕ}, (last ≤ 0x0fffff ∨ (0xe00000 ≤ start ∧ last ≤ 0xefffff) ∨
      (0xf00000 ≤ start ∧ last ≤ 0xf0001f) ∨ (0xf80040 ≤ start ∧ last ≤ 0xf8005f)) →
      ∀ address, start ≤ address → address ≤ last → Decoded address := by
    intro start last h address h1 h2
    rw [Decoded]
    omega
  cases cpu <;>
    simp only [memMap, delegatedMemMap, List.cons_append, List.nil_append, List.mem_cons,
      List.not_mem_nil, or_false] at he <;>
    rcases he with rfl | rfl | rfl | rfl | rfl | rfl | rfl | rfl | he <;>
    first
    | exact Or.inr (Or.inr ⟨⟨by decide, by decide⟩, hdecoded (by decide)⟩)
    | exact Or.inl ⟨rfl, by decide⟩
    | exact Or.inr (Or.inl ⟨rfl, by decide⟩)
    | (rcases he with rfl | rfl
       · exact Or.inr (Or.inr ⟨⟨by decide, by decide⟩, hdecoded (by decide)⟩)
       · exact Or.inl ⟨rfl, by decide⟩)
    | (subst he
       exact Or.inr (Or.inr ⟨⟨by decide, by decide⟩, hdecoded (by decide)⟩))

/-- Below the end of the expansion space every address has an entry. -/
theorem exists_mem_memMap (cpu : Cpu) (h : address ≤ 0xfffdff) :
    ∃ e ∈ memMap cpu, e.start ≤ address ∧ address ≤ e.last := by
  have hcases : address ≤ 0x0fffff ∨ (0x100000 ≤ address ∧ address ≤ 0xdfffff) ∨
      (0xe00000 ≤ address ∧ address ≤ 0xefffff) ∨ (0xf00000 ≤ address ∧ address ≤ 0xf0001f) ∨
      (0xf00020 ≤ address ∧ address ≤ 0xf8003f) ∨ (0xf80040 ≤ address ∧ address ≤ 0xf8004f) ∨
      (0xf80050 ≤ address ∧ address ≤ 0xf8005f) ∨ (0xf80060 ≤ address ∧ address ≤ 0xfffdff) := by
    omega
  rcases hcases with h | h | h | h | h | h | h | h
  · exact ⟨⟨0x000000, 0x0fffff, .ram⟩, by simp [memMap], Nat.zero_le _, h⟩
  · exact ⟨⟨0x100000, 0xdfffff, .unmappedRam⟩, by simp [memMap], h⟩
  · exact ⟨⟨0xe00000, 0xefffff, .rom⟩, by simp [memMap], h⟩
  · exact ⟨⟨0xf00000, 0xf0001f, .duart⟩, by simp [memMap], h⟩
  · exact ⟨⟨0xf00020, 0xf8003f, .unmappedExp⟩, by simp [memMap], h⟩
  · exact ⟨⟨0xf80040, 0xf8004f, .ata⟩, by simp [memMap], h⟩
  · exact ⟨⟨0xf80050, 0xf8005f, .ata⟩, by simp [memMap], h⟩
  · exact ⟨⟨0xf80060, 0xfffdff, .unmappedExp⟩, by simp [memMap], h⟩

/-- What something decodes has no such handler. -/
theorem not_decoded_of_unmapped (h : Unmapped cpu address) : ¬ Decoded address := by
  obtain ⟨e, hentry, hhandler⟩ := h
  obtain ⟨he, hstart, hlast⟩ := entryAt_spec hentry
  rw [Decoded]
  rcases mem_memMap_unmapped he with ⟨-, hram⟩ | ⟨-, hexp⟩ | ⟨⟨hram, hexp⟩, -⟩
  · omega
  · omega
  · exact absurd hhandler (not_or.mpr ⟨hram, hexp⟩)

/-- In the 24 bits of the 68000 the handlers end before the last 512 bytes, and below them nothing
is left out. -/
theorem unmapped_m68000_iff (hlt : address < 2 ^ 24) (h : ¬ Decoded address) :
    Unmapped .m68000 address ↔ address ≤ 0xfffdff := by
  constructor
  · rintro ⟨e, hentry, hhandler⟩
    obtain ⟨he, hstart, hlast⟩ := entryAt_spec hentry
    rcases mem_memMap_unmapped he with ⟨-, hram⟩ | ⟨-, hexp⟩ | ⟨-, hdecoded⟩
    · omega
    · omega
    · exact absurd (hdecoded address hstart hlast) h
  · intro hle
    obtain ⟨e, he, hcovers⟩ := exists_mem_memMap .m68000 hle
    obtain ⟨e', hentry⟩ := exists_entryAt he hcovers
    obtain ⟨he', hstart, hlast⟩ := entryAt_spec hentry
    refine ⟨e', hentry, ?_⟩
    rcases mem_memMap_unmapped he' with ⟨hram, -⟩ | ⟨hexp, -⟩ | ⟨-, hdecoded⟩
    · exact Or.inl hram
    · exact Or.inr hexp
    · exact absurd (hdecoded address hstart hlast) h

/-- Where there is no such handler nothing happens. -/
theorem perform_of_not_unmapped {a : Access cpu} (h : ¬ Unmapped cpu a.place) :
    perform busError a = (none, busError) := by
  rw [perform]
  cases hentry : entryAt cpu a.place with
  | none => rfl
  | some e =>
    have hhandler : ¬ (e.handler = .unmappedRam ∨ e.handler = .unmappedExp) :=
      fun hhandler ↦ h ⟨e, hentry, hhandler⟩
    obtain ⟨hram, hexp⟩ := not_or.mp hhandler
    dsimp only
    cases hkind : e.handler with
    | unmappedRam => exact absurd hkind hram
    | unmappedExp => exact absurd hkind hexp
    | ram | rom | duart | ata | bootvect => rfl

/-- Both handlers pass the direction the other way round. -/
theorem perform_of_unmapped {a : Access cpu} (h : Unmapped cpu a.place) :
    ∃ address : BitVec 32, perform busError a = setBusError busError address !a.read := by
  obtain ⟨e, hentry, hram | hexp⟩ := h
  · rw [perform, hentry]
    dsimp only
    rw [hram]
    refine ⟨e.offset a.place <<< 1, ?_⟩
    cases hread : a.read <;> rfl
  · rw [perform, hentry]
    dsimp only
    rw [hexp]
    refine ⟨(e.offset a.place <<< 1) + 0xf00000, ?_⟩
    cases hread : a.read <;> rfl

/-- No bus error follows another one at once. -/
theorem perform_true (a : Access cpu) : perform true a = (none, true) := by
  by_cases h : Unmapped cpu a.place
  · obtain ⟨address, hperform⟩ := perform_of_unmapped true h
    exact hperform
  · exact perform_of_not_unmapped true h

theorem perform_false (a : Access cpu) (h : Unmapped cpu a.place) :
    ∃ address : BitVec 32, perform false a = (some ⟨address, !a.read⟩, true) :=
  perform_of_unmapped false h

/-! ## The exception of the 68000 -/

namespace Core

variable {c : Core} {a : Access cpu}

theorem cycle_of_none (h : perform busError a = (none, busError)) (c : Core) :
    c.cycle busError a =
      ({ c with aob := a.address, baseSsw := a.ssw, icount := c.icount - 4 }, busError) := by
  rw [cycle, h]
  rfl

/-- A bus error leaves no cycle, so that the instruction is left, and the exception finds what the
bus unit had last. -/
theorem cycle_of_some {r : Report} (h : perform busError a = (some r, true)) (c : Core) :
    c.cycle busError a =
      ({ c with
          aob := a.address
          baseSsw := a.ssw
          postRun := .berr
          postRunCycles := c.icount
          icount := -4 }, true) := by
  rw [cycle, h]
  rfl

theorem exception_of_resting (h : c.Resting) : c.exception = none :=
  if_neg fun hraised ↦ hraised.2 h

theorem exception_of_berr (hicount : c.icount ≤ 0) (h : c.postRun = .berr) :
    c.exception = some c.doPostRun.bser1 := by
  refine if_pos ⟨hicount, ?_⟩
  rw [h]
  exact PostRun.noConfusion

theorem at_doPostRun_bser1 (c : Core) : c.doPostRun.bser1.at' = c.aob := by
  rw [doPostRun]
  cases c.postRun <;> rfl

/-- The function code does not touch the bit of the direction. -/
theorem getLsbD_ssw_doPostRun_bser1 (c : Core) :
    c.doPostRun.bser1.ssw.getLsbD 4 = c.baseSsw.getLsbD 4 := by
  have hssw : ∃ supervisor : Bool,
      c.doPostRun.bser1.ssw = c.baseSsw ||| if supervisor then 0 else sswS := by
    refine ⟨decide (c.sr &&& srS = 0), ?_⟩
    rw [doPostRun]
    cases c.postRun <;> simp only [bser1, decide_eq_true_eq]
  obtain ⟨supervisor, hssw⟩ := hssw
  rw [hssw, BitVec.getLsbD_or]
  cases supervisor
  · exact Bool.or_false _
  · exact Bool.or_false _

/-- The exception leaves no action over. -/
theorem resting_doPostRun (c : Core) : c.doPostRun.bser1.Resting := by
  rw [doPostRun]
  cases c.postRun <;> rfl

/-- Where `set_bus_error` does nothing the instruction goes on. -/
theorem exception_access_of_quiet (hc : c.Resting)
    (hquiet : ∀ a' : Access cpu, a'.place = a.place → perform busError a' = (none, busError)) :
    (c.access busError a).exception = none := by
  rw [access]
  split_ifs
  · rw [cycle_of_none busError (hquiet a rfl)]
    dsimp only
    rw [cycle_of_none busError (hquiet a.tasWrite rfl)]
    exact exception_of_resting hc
  · rw [cycle_of_none busError (hquiet a rfl)]
    exact exception_of_resting hc

/-- The exception reports the access, but for the read of `tas`: the write behind it raises nothing
more, and leaves its own direction. -/
theorem exception_access_of_unmapped (c : Core) (h : Unmapped cpu a.place) :
    ∃ c', (c.access false a).exception = some c' ∧
      c'.at' = a.address ∧ c'.ssw.getLsbD 4 = (a.read && !a.tas) := by
  obtain ⟨address, hperform⟩ := perform_false a h
  cases htas : a.tas with
  | true =>
    have haccess : c.access false a =
        { c with
          aob := a.address
          baseSsw := sswData
          postRun := .berr
          postRunCycles := c.icount
          icount := -10 } := by
      rw [access, if_pos htas, cycle_of_some false hperform]
      dsimp only
      rw [cycle_of_none true (perform_true a.tasWrite)]
      rfl
    rw [haccess, exception_of_berr (show (-10 : ℤ) ≤ 0 by decide) rfl]
    refine ⟨_, rfl, at_doPostRun_bser1 _, ?_⟩
    rw [getLsbD_ssw_doPostRun_bser1, Bool.not_true, Bool.and_false]
    exact a.tasWrite.getLsbD_ssw
  | false =>
    have hfalse : ¬ a.tas = true := by rw [htas]; exact Bool.false_ne_true
    rw [access, if_neg hfalse, cycle_of_some false hperform,
      exception_of_berr (show (-4 : ℤ) ≤ 0 by decide) rfl]
    refine ⟨_, rfl, at_doPostRun_bser1 _, ?_⟩
    rw [getLsbD_ssw_doPostRun_bser1, Bool.not_false, Bool.and_true]
    exact a.getLsbD_ssw

end Core

variable (c : { c : Core // c.Resting })

/-- An address without handler raises nothing. -/
theorem report_of_not_unmapped {a : Access cpu} (h : ¬ Unmapped cpu a.place) :
    report busError c a = none := by
  have hquiet : ∀ a' : Access cpu, a'.place = a.place → perform busError a' = (none, busError) :=
    fun a' hplace ↦ perform_of_not_unmapped busError (hplace ▸ h)
  cases cpu with
  | m68000 =>
    rw [report, Core.exception_access_of_quiet busError c.property hquiet]
    rfl
  | m68010 | m68020 | m68030 => rw [report, hquiet a rfl]

/-- The 68000 reports the access itself, once in 16 cycles, and the read of `tas` as a write. -/
theorem report_m68000 {a : Access .m68000} (h : Unmapped .m68000 a.place) :
    report busError c a = if busError then none else some ⟨a.address, a.read && !a.tas⟩ := by
  rw [report]
  cases busError with
  | true =>
    rw [Core.exception_access_of_quiet true c.property fun a' _ ↦ perform_true a']
    rfl
  | false =>
    obtain ⟨c', hexception, hat, hssw⟩ := Core.exception_access_of_unmapped c.val h
    rw [hexception, Option.map_some, hat, hssw]
    rfl

/-- The Musashi cores are told the opposite direction, if they are told anything. -/
theorem report_musashi_ne (hcpu : cpu ≠ .m68000) {a : Access cpu} (h : Unmapped cpu a.place) :
    report busError c a ≠ some ⟨a.address, a.read⟩ := by
  have hperform : report busError c a = (perform busError a).1 := by
    cases cpu with
    | m68000 => exact absurd rfl hcpu
    | m68010 | m68020 | m68030 => rfl
  rw [hperform]
  intro hreport
  cases busError with
  | true =>
    rw [perform_true] at hreport
    cases hreport
  | false =>
    obtain ⟨address, hfalse⟩ := perform_false a h
    rw [hfalse] at hreport
    exact Bool.not_ne_self a.read (congrArg Report.rw (Option.some.inj hreport))

/-- The board's bus errors are faithful where something decodes the address, and on the 68000 where
one of the handlers is installed, no bus error was raised in the last 16 cycles and the access is
not the read of `tas`. -/
theorem faithful_iff (busError : Bool) (c : { c : Core // c.Resting }) (a : Access cpu) :
    Faithful busError c a ↔ Decoded a.place ∨
      (cpu = .m68000 ∧ a.place ≤ 0xfffdff ∧ busError = false ∧ a.tas = false) := by
  by_cases h : Decoded a.place
  · have hnone : report busError c a = none :=
      report_of_not_unmapped busError c fun hunmapped ↦ not_decoded_of_unmapped hunmapped h
    exact iff_of_true ⟨fun _ ↦ hnone, fun hnot ↦ absurd h hnot⟩ (Or.inl h)
  have hfaithful : Faithful busError c a ↔ report busError c a = some ⟨a.address, a.read⟩ :=
    ⟨fun hf ↦ hf.2 h, fun hreport ↦ ⟨fun hdecoded ↦ absurd hdecoded h, fun _ ↦ hreport⟩⟩
  rw [hfaithful, or_iff_right h]
  by_cases hcpu : cpu = .m68000
  · subst hcpu
    have hle : Unmapped .m68000 a.place ↔ a.place ≤ 0xfffdff :=
      unmapped_m68000_iff (Nat.mod_lt _ (by decide)) h
    rw [← hle]
    by_cases hunmapped : Unmapped .m68000 a.place
    · rw [report_m68000 busError c hunmapped]
      cases busError with
      | true =>
        exact iff_of_false (Option.some_ne_none _).symm fun hholds ↦ Bool.noConfusion hholds.2.2.1
      | false =>
        have hrw : (a.read && !a.tas) = a.read ↔ a.tas = false := by
          cases htas : a.tas with
          | true => rw [(a.tas_read htas).1]; decide
          | false => rw [Bool.not_false, Bool.and_true]; exact iff_of_true rfl rfl
        rw [if_neg Bool.false_ne_true, Option.some.injEq, Report.mk.injEq, hrw]
        exact ⟨fun htas ↦ ⟨rfl, hunmapped, rfl, htas.2⟩, fun hholds ↦ ⟨rfl, hholds.2.2.2⟩⟩
    · rw [report_of_not_unmapped busError c hunmapped]
      exact iff_of_false (Option.some_ne_none _).symm fun hholds ↦ hunmapped hholds.2.1
  · refine iff_of_false ?_ fun hholds ↦ hcpu hholds.1
    by_cases hunmapped : Unmapped cpu a.place
    · exact report_musashi_ne busError c hcpu hunmapped
    · rw [report_of_not_unmapped busError c hunmapped]
      exact (Option.some_ne_none _).symm

/-- A read of a byte in the data space. -/
def dataRead (cpu : Cpu) (address : BitVec 32) (tas : Bool) : Access cpu where
  address := address
  word := false
  read := true
  tas := tas
  ssw := 0x11
  aligned := Bool.noConfusion
  tas_read _ := ⟨rfl, rfl⟩
  getLsbD_ssw := rfl

/-- A read of `0x100000` on the 68010 is reported as a write to address `0`. On the 68000 one of
`0xfffe00` is not reported, and that of `tas` at `0x100000` is reported as a write. -/
theorem not_faithful_unmapped :
    ¬ (∀ (cpu : Cpu) (busError : Bool) (c : { c : Core // c.Resting }) (a : Access cpu),
      Faithful busError c a) ∧
    ∀ c : { c : Core // c.Resting },
      report false c (dataRead .m68010 0x100000 false) = some ⟨0, false⟩ ∧
      report false c (dataRead .m68000 0xfffe00 false) = none ∧
      report false c (dataRead .m68000 0x100000 true) = some ⟨0x100000, false⟩ := by
  have hreported : ∀ c : { c : Core // c.Resting },
      report false c (dataRead .m68010 0x100000 false) = some ⟨0, false⟩ := by
    intro c
    rw [report]
    decide +kernel
  refine ⟨fun hall ↦ ?_, fun c ↦ ⟨hreported c, ?_, ?_⟩⟩
  · let c : { c : Core // c.Resting } := ⟨⟨0, 0, 0, 0, srS, 100, .none, 0, 8, 0⟩, rfl⟩
    have hfaithful := (hall .m68010 false c (dataRead .m68010 0x100000 false)).2 (by decide)
    rw [hreported c] at hfaithful
    exact absurd hfaithful (by decide)
  · exact report_of_not_unmapped false c fun h ↦
      absurd ((unmapped_m68000_iff (by decide) (by decide)).mp h) (by decide)
  · exact report_m68000 false c ((unmapped_m68000_iff (by decide) (by decide)).mpr (by decide))

end RoscoEmulator.BusError
