import Mathlib

/-!
# The PMMU of the 68030

The registers, the address translation cache, and the translation of an address: transparent
translation, a lookup in the cache, and the walk through the tables in memory. The memory is plain.
The walk reads and writes double words at addresses that are multiples of four, so it is given as
double words; the bytes of an address are in the double word at that address rounded down, the first
one on top. -/

namespace RoscoEmulator.M68k

open Function

def cpuType030 : BitVec 32 := 0x40#32

/-- `CPU_TYPE_IS_030_PLUS`. -/
def is030Plus (cpuType : BitVec 32) : Prop :=
  cpuType &&& (0x40#32 ||| 0x20#32 ||| 0x200#32 ||| 0x80#32 ||| 0x100#32) ≠ 0#32

instance (cpuType : BitVec 32) : Decidable (is030Plus cpuType) :=
  inferInstanceAs (Decidable (_ ≠ _))

/-! ## Fields of the status register -/

def srBusError : BitVec 16 := 0x8000#16

def srSupervisorOnly : BitVec 16 := 0x2000#16

def srWriteProtect : BitVec 16 := 0x0800#16

def srInvalid : BitVec 16 := 0x0400#16

def srModified : BitVec 16 := 0x0200#16

def srTransparent : BitVec 16 := 0x0040#16

/-! ## Descriptors -/

/-- The types of a descriptor, `M68K_MMU_DF_DT`. -/
inductive DescriptorType | invalid | page | table4byte | table8byte
deriving DecidableEq

namespace DescriptorType

/-- The type of a descriptor, in its low bits. -/
def ofEntry (entry : BitVec 32) : DescriptorType :=
  match (entry &&& 0x00000003#32).toNat with
  | 0 => .invalid
  | 1 => .page
  | 2 => .table4byte
  | _ => .table8byte

/-- A descriptor that leads to other descriptors. -/
def IsTable (type : DescriptorType) : Prop := type = .table4byte ∨ type = .table8byte

instance (type : DescriptorType) : Decidable type.IsTable := inferInstanceAs (Decidable (_ ∨ _))

end DescriptorType

def dfWp : BitVec 32 := 0x00000004#32

def dfUsed : BitVec 32 := 0x00000008#32

def dfModified : BitVec 32 := 0x00000010#32

def dfSupervisor : BitVec 32 := 0x00000100#32

def dfAddrMask : BitVec 32 := 0xfffffff0#32

def dfIndAddrMask : BitVec 32 := 0xfffffffc#32

/-! ## The address translation cache -/

def atcBuserror : BitVec 32 := 0x08000000#32

def atcWritePr : BitVec 32 := 0x02000000#32

def atcModified : BitVec 32 := 0x01000000#32

def atcValid : BitVec 32 := 0x08000000#32

/-! ## The translation control register -/

def tcEnable : BitVec 32 := 0x80000000#32

def tcSre : BitVec 32 := 0x02000000#32

def tcFcl : BitVec 32 := 0x01000000#32

/-- The page size field. -/
def pageSize (tc : BitVec 32) : ℕ := (tc >>> 20 &&& 0xf#32).toNat

/-- The initial shift field. -/
def initialShift (tc : BitVec 32) : ℕ := (tc >>> 16 &&& 0xf#32).toNat

/-- A table index field, by the position of its low bit. -/
def tableIndex (tc : BitVec 32) (shift : ℕ) : ℕ := (tc >>> shift &&& 0xf#32).toNat

/-- The four table index fields. -/
def tableIndices (tc : BitVec 32) : List ℕ := [12, 8, 4, 0].map (tableIndex tc)

/-- The fields of a translation control register fit: the page size is not one of the reserved ones,
and the page size, the initial shift and the table index fields up to the first zero one make up an
address. -/
def TcValid (tc : BitVec 32) : Prop :=
  8 ≤ pageSize tc ∧ pageSize tc + initialShift tc + ((tableIndices tc).takeWhile (· ≠ 0)).sum = 32

instance (tc : BitVec 32) : Decidable (TcValid tc) := inferInstanceAs (Decidable (_ ∧ _))

/-- A memory, in double words. -/
abbrev Memory := BitVec 32 → BitVec 32

/-- The registers of the PMMU, its cache and the memory. -/
structure Pmmu where
  cpuType : BitVec 32
  enabled : Bool
  emmuEnabled : Bool
  canInstructionRestart : Bool
  tc : BitVec 32
  srpLimit : BitVec 32
  srpAptr : BitVec 32
  crpLimit : BitVec 32
  crpAptr : BitVec 32
  tt0 : BitVec 32
  tt1 : BitVec 32
  sr : BitVec 16
  atcTag : Fin 22 → BitVec 32
  atcData : Fin 22 → BitVec 32
  atcRr : ℕ
  tmpSr : BitVec 16
  tmpFc : BitVec 16
  lastLogicalAddr : BitVec 32
  /-- `m_mmu_tmp_buserror_occurred`. -/
  buserrorOccurred : BitVec 16
  /-- `m_mmu_tmp_buserror_address`. -/
  buserrorAddress : BitVec 32
  program : Memory

namespace Pmmu

/-- `pmmu_set_buserror`. -/
def setBuserror (addrIn : BitVec 32) (m : Pmmu) : Pmmu :=
  let m := { m with buserrorOccurred := m.buserrorOccurred + 1 }
  if m.buserrorOccurred = 1#16 then { m with buserrorAddress := addrIn } else m

/-- The tag of an address and a function code. -/
def tagOf (tc addr : BitVec 32) (fc : BitVec 8) : BitVec 32 :=
  let ps := pageSize tc
  atcValid ||| (fc.setWidth 32 &&& 7#32) <<< 24 ||| (addr >>> ps) <<< (ps - 8)

/-- The first entry of the cache that has a property. -/
def findEntry (p : Fin 22 → Bool) : Option (Fin 22) := (List.finRange 22).find? p

/-- The data of a new entry of the cache. -/
def entryData (tc : BitVec 32) (sr : BitVec 16) (physical : BitVec 32) (rw : Bool) : BitVec 32 :=
  let ps := pageSize tc
  let data := (physical >>> ps) <<< (ps - 8)
  let data := if sr &&& (srBusError ||| srInvalid ||| srSupervisorOnly) ≠ 0#16 then data |||
    atcBuserror else data
  let data := if sr &&& srWriteProtect ≠ 0#16 then data ||| atcWritePr else data
  if ¬ rw ∧ sr &&& srWriteProtect = 0#16 then data ||| atcModified else data

/-- A new entry in the cache: at the entry with the tag, or at a free one, or at the next one in
turn. -/
def putEntry (tag data : BitVec 32) (m : Pmmu) : Pmmu :=
  match findEntry fun i ↦ m.atcTag i == tag with
  | some i => { m with atcData := update m.atcData i data }
  | none =>
      let (found, m) := match findEntry fun i ↦ m.atcTag i &&& atcValid == 0#32 with
        | some i => (i, m)
        | none =>
          (Fin.ofNat 22 m.atcRr, { m with atcRr := if m.atcRr + 1 ≥ 22 then 0 else m.atcRr + 1 })
      { m with
        atcTag := update m.atcTag found tag
        atcData := update m.atcData found data }

/-- `pmmu_atc_add`. -/
def atcAdd (logical physical : BitVec 32) (fc : BitVec 8) (rw : Bool) (m : Pmmu) : Pmmu :=
  m.putEntry (tagOf m.tc logical fc) (entryData m.tc m.tmpSr physical rw)

/-- `pmmu_atc_flush`. -/
def atcFlush (m : Pmmu) : Pmmu := { m with atcTag := fun _ ↦ 0, atcRr := 0 }

/-- The status of an entry of the cache. -/
def entrySr (data : BitVec 32) : BitVec 16 :=
  (if data &&& atcModified ≠ 0#32 then srModified else 0#16) |||
    (if data &&& atcWritePr ≠ 0#32 then srWriteProtect else 0#16) |||
    if data &&& atcBuserror ≠ 0#32 then srBusError ||| srInvalid else 0#16

/-- The loop of `pmmu_atc_lookup<false>`, over the entries that are left. An entry that a write
finds without its modified bit is dropped. -/
def atcLookupIn (addrIn : BitVec 32) (fc : BitVec 8) (rw : Bool) :
    List (Fin 22) → Pmmu → Option (BitVec 32) × Pmmu
  | [], m => (none, m)
  | i :: is, m =>
      let ps := pageSize m.tc
      if m.atcTag i ≠ tagOf m.tc addrIn fc then atcLookupIn addrIn fc rw is m
      else
        let data := m.atcData i
        if ¬ rw ∧ data &&& atcModified = 0#32 then
          atcLookupIn addrIn fc rw is { m with atcTag := update m.atcTag i 0 }
        else (some (data <<< 8 ||| addrIn &&& ~~~ (BitVec.allOnes 32 <<< ps)),
          { m with tmpSr := entrySr data })

/-- `pmmu_atc_lookup<false>`. -/
def atcLookup (addrIn : BitVec 32) (fc : BitVec 8) (rw : Bool) (m : Pmmu) :
    Option (BitVec 32) × Pmmu :=
  atcLookupIn addrIn fc rw (List.finRange 22) m

/-- `pmmu_match_tt`, without the status. -/
def matchTt (addrIn : BitVec 32) (fc : BitVec 8) (tt : BitVec 32) (rw : Bool) : Bool :=
  let addressBase := tt &&& 0xff000000#32
  let addressMask := (tt <<< 8 &&& 0xff000000#32) ^^^ 0xff000000#32
  let fcmask := ~~~ tt &&& 7#32
  let fcbits := tt >>> 4 &&& 7#32
  let rwmask := ~~~ tt &&& 0x100#32 != 0#32
  let rwbit := tt &&& 0x200#32 != 0#32
  tt &&& 0x8000#32 != 0#32 && addrIn &&& addressMask == addressBase &&& addressMask &&
    fc.setWidth 32 &&& fcmask == fcbits &&& fcmask && (rw && rwmask) == (rwbit && rwmask)

end Pmmu

/-! ## The walk through the tables -/

/-- `update_descriptor`. -/
def updateDescriptor (tptr : BitVec 32) (type : DescriptorType) (entry : BitVec 32) (rw : Bool)
    (program : Memory) : Memory :=
  if type = .page ∧ ¬ rw ∧ entry &&& dfModified = 0#32 ∧ entry &&& dfWp = 0#32 then
    update program tptr (entry ||| dfUsed ||| dfModified)
  else if type ≠ .invalid ∧ entry &&& dfUsed = 0#32 then update program tptr (entry ||| dfUsed)
  else program

/-- `update_sr`. -/
def updateSr (long : Bool) (type : DescriptorType) (entry : BitVec 32) (fc : BitVec 8)
    (sr : BitVec 16) : BitVec 16 :=
  let sr := if type = .page ∧ entry &&& dfModified ≠ 0#32 then sr ||| srModified else sr
  if type = .invalid then sr
  else
    let sr := if entry &&& dfWp ≠ 0#32 then sr ||| srWriteProtect else sr
    if long ∧ fc &&& 4#8 = 0#8 ∧ entry &&& dfSupervisor ≠ 0#32 then sr ||| srSupervisorOnly else sr

/-- The variables of the loop of `pmmu_walk_tables`. -/
structure Walk where
  level : ℕ
  bitpos : ℤ
  pageshift : ℕ
  addrIn : BitVec 32
  type : DescriptorType
  table : BitVec 32
  addrOut : BitVec 32
  resolved : Bool
  sr : BitVec 16
  program : Memory

namespace Walk

/-- The index fields, without those behind the first zero field. -/
def indexFields (tc : BitVec 32) : BitVec 32 :=
  let bits := tc &&& 0xffff#32
  if bits >>> 12 &&& 0xf#32 = 0#32 then bits &&& ~~~ 0xffff#32
  else if bits >>> 8 &&& 0xf#32 = 0#32 then bits &&& ~~~ 0xfff#32
  else if bits >>> 4 &&& 0xf#32 = 0#32 then bits &&& ~~~ 0xff#32
  else if bits &&& 0xf#32 = 0#32 then bits &&& ~~~ 0xf#32
  else bits

/-- The width of the next index field. -/
def indexbits (bits : BitVec 32) (bitpos : ℤ) : ℕ :=
  if bitpos ≥ 0 then (bits >>> bitpos.toNat &&& 0xf#32).toNat else 0

/-- A table descriptor at this level is an indirect one. -/
def indirect (bits : BitVec 32) (bitpos : ℤ) : Bool :=
  indexbits bits bitpos != 0 && (bitpos ≤ 0 || bits &&& ((1#32 <<< bitpos.toNat) - 1#32) == 0#32)

/-- A descriptor is fetched from a table, or from where an indirect descriptor is. -/
def fetch (long ptest : Bool) (fc : BitVec 8) (rw indirect : Bool) (index : BitVec 32)
    (w : Walk) : Walk :=
  let addrOut := w.table + index <<< if long then 3 else 2
  let tblEntry := w.program addrOut
  let tblEntry2 := w.program (addrOut + 4#32)
  let type := DescriptorType.ofEntry tblEntry
  let (level, addrOut, tblEntry, tblEntry2, type) :=
    if indirect ∧ type.IsTable then
      let addrOut := (if long then tblEntry2 else tblEntry) &&& dfIndAddrMask
      let tblEntry := w.program addrOut
      let tblEntry2 := w.program (addrOut + 4#32)
      (w.level + 2, addrOut, tblEntry, tblEntry2, DescriptorType.ofEntry tblEntry)
    else (w.level + 1, addrOut, tblEntry, tblEntry2, type)
  { w with
    level, addrOut, type
    table := (if long then tblEntry2 else tblEntry) &&& dfAddrMask
    sr := updateSr long type tblEntry fc w.sr
    program := if ptest then w.program else updateDescriptor addrOut type tblEntry rw w.program }

/-- The end of the body: the walk stops at an error, or the index is shifted out of the address. -/
def check (ptest : Bool) (fc : BitVec 8) (rw : Bool) (indexbits : ℕ) (w : Walk) : Walk :=
  if w.sr &&& srBusError ≠ 0#16 then { w with resolved := true }
  else if ¬ ptest ∧ ¬ rw ∧ w.sr &&& srWriteProtect ≠ 0#16 then { w with resolved := true }
  else if ¬ ptest ∧ fc &&& 4#8 = 0#8 ∧ w.sr &&& srSupervisorOnly ≠ 0#16
    then { w with resolved := true }
  else { w with addrIn := w.addrIn <<< indexbits, pageshift := w.pageshift + indexbits }

/-- The body of the loop. -/
def step (ptest : Bool) (tc : BitVec 32) (fc : BitVec 8) (rw : Bool) (w : Walk) : Walk :=
  let bits := indexFields tc
  let indexbits := indexbits bits w.bitpos
  let index :=
    if w.bitpos = 16 then fc.setWidth 32 else if indexbits ≠ 0 then w.addrIn >>> (32 - indexbits)
    else 0#32
  let indirect := indirect bits w.bitpos
  let w := { w with bitpos := w.bitpos - 4 }
  let w := match w.type with
    | .invalid => { w with sr := srInvalid, resolved := true }
    | .page =>
        if ptest then { w with resolved := true }
        else
          let table := w.table &&& BitVec.allOnes 32 <<< pageSize tc
          { w with table, addrOut := table + w.addrIn >>> w.pageshift, resolved := true }
    | .table4byte => w.fetch false ptest fc rw indirect index
    | .table8byte => w.fetch true ptest fc rw indirect index
  w.check ptest fc rw indexbits

/-- The loop goes on. -/
def Continues (limit : ℕ) (w : Walk) : Prop := w.level < limit ∧ w.resolved = false

instance (limit : ℕ) (w : Walk) : Decidable (w.Continues limit) :=
  inferInstanceAs (Decidable (_ ∧ _))

/-- The loop, for at most `fuel` rounds. -/
def loop (ptest : Bool) (tc : BitVec 32) (fc : BitVec 8) (rw : Bool) (limit : ℕ) : ℕ → Walk → Walk
  | 0, w => w
  | fuel + 1, w =>
      let w := w.step ptest tc fc rw
      if w.Continues limit then loop ptest tc fc rw limit fuel w else w

/-- Before the first round. -/
def start (tc addrIn : BitVec 32) (type : DescriptorType) (table : BitVec 32) (sr : BitVec 16)
    (program : Memory) : Walk where
  level := 0
  bitpos := if tc &&& tcFcl ≠ 0#32 then 16 else 12
  pageshift := initialShift tc
  addrIn := addrIn <<< initialShift tc
  type := type
  table := table
  addrOut := 0
  resolved := false
  sr := sr
  program := program

/-- `pmmu_walk_tables`. Every round that is not the last one takes a level, so there are at most
`limit` of them, and one. -/
def tables (ptest : Bool) (tc addrIn : BitVec 32) (type : DescriptorType) (table : BitVec 32)
    (fc : BitVec 8) (limit : ℕ) (rw : Bool) (sr : BitVec 16) (program : Memory) : Walk :=
  let w := loop ptest tc fc rw limit (limit + 1) (start tc addrIn type table sr program)
  let sr := if ¬ w.resolved ∧ ¬ ptest then w.sr ||| srInvalid else w.sr
  { w with sr := sr &&& 0xfff0#16 ||| BitVec.ofNat 16 w.level }

end Walk

namespace Pmmu

/-- The root pointer: the supervisor root pointer if it is enabled and the access is one of the
supervisor. -/
def root (fc : BitVec 8) (m : Pmmu) : DescriptorType × BitVec 32 :=
  if m.tc &&& tcSre ≠ 0#32 ∧ fc &&& 4#8 ≠ 0#8 then (.ofEntry m.srpLimit, m.srpAptr &&& dfAddrMask)
  else (.ofEntry m.crpLimit, m.crpAptr &&& dfAddrMask)

/-- The access is not one that the status allows. -/
def Faults (rw : Bool) (sr : BitVec 16) : Prop :=
  sr &&& (srInvalid ||| srSupervisorOnly) ≠ 0#16 ∨ sr &&& srWriteProtect ≠ 0#16 ∧ ¬ rw

instance (rw : Bool) (sr : BitVec 16) : Decidable (Faults rw sr) :=
  inferInstanceAs (Decidable (_ ∨ _))

/-- The part of `pmmu_translate_addr_with_fc<false, pload>` for an address that is not in the
cache. -/
def translateMiss (pload : Bool) (addrIn : BitVec 32) (fc : BitVec 8) (rw : Bool) (m : Pmmu) :
    BitVec 32 × Pmmu :=
  let (type, table) := m.root fc
  let w := Walk.tables false m.tc addrIn type table fc 7 rw m.tmpSr m.program
  let m := { m with tmpSr := w.sr, program := w.program }
  let m := if Faults rw w.sr ∧ ¬ pload then m.setBuserror addrIn else m
  (w.addrOut, m.atcAdd addrIn w.addrOut fc (rw && type != .page))

/-- `pmmu_translate_addr_with_fc<false, pload>`. -/
def translate (pload : Bool) (addrIn : BitVec 32) (fc : BitVec 8) (rw : Bool) (m : Pmmu) :
    BitVec 32 × Pmmu :=
  let m := { m with tmpSr := 0, lastLogicalAddr := addrIn }
  if matchTt addrIn fc m.tt0 rw then (addrIn, { m with tmpSr := srTransparent })
  else if matchTt addrIn fc m.tt1 rw then (addrIn, { m with tmpSr := srTransparent })
  else if fc = 7#8 then (addrIn, m)
  else if pload then m.translateMiss pload addrIn fc rw
  else
    match m.atcLookup addrIn fc rw with
    | (some addrOut, m) =>
        if m.tmpSr &&& srBusError ≠ 0#16 ∨ ¬ rw ∧ m.tmpSr &&& srWriteProtect ≠ 0#16 then
          (addrOut, m.setBuserror addrIn)
        else (addrOut, m)
    | (none, m) => m.translateMiss pload addrIn fc rw

/-- `pmmu_translate_addr` of a 68030. -/
def translateAddr (addrIn : BitVec 32) (rw : Bool) (m : Pmmu) : BitVec 32 × Pmmu :=
  m.translate false addrIn (m.tmpFc.setWidth 8) rw

/-! ## The registers under a translation -/

/-- The registers that a translation depends on, but for the memory and the cache. -/
structure Registers where
  enabled : Bool
  tc : BitVec 32
  srpLimit : BitVec 32
  srpAptr : BitVec 32
  crpLimit : BitVec 32
  crpAptr : BitVec 32
  tt0 : BitVec 32
  tt1 : BitVec 32
  tmpFc : BitVec 16

def registers (m : Pmmu) : Registers :=
  ⟨m.enabled, m.tc, m.srpLimit, m.srpAptr, m.crpLimit, m.crpAptr, m.tt0, m.tt1, m.tmpFc⟩

theorem registers_setBuserror (addrIn : BitVec 32) (m : Pmmu) :
    (m.setBuserror addrIn).registers = m.registers := by
  rw [setBuserror]
  split <;> rfl

theorem registers_atcAdd (logical physical : BitVec 32) (fc : BitVec 8) (rw : Bool) (m : Pmmu) :
    (m.atcAdd logical physical fc rw).registers = m.registers := by
  rw [atcAdd, putEntry]
  dsimp only
  split
  · rfl
  · split <;> rfl

theorem registers_atcLookupIn (addrIn : BitVec 32) (fc : BitVec 8) (rw : Bool) (is : List (Fin 22))
    (m : Pmmu) : (atcLookupIn addrIn fc rw is m).2.registers = m.registers := by
  induction is generalizing m with
  | nil => rfl
  | cons i is ih =>
    rw [atcLookupIn]
    split
    · exact ih m
    · dsimp only
      split
      · exact ih _
      · rfl

theorem registers_translateMiss (pload : Bool) (addrIn : BitVec 32) (fc : BitVec 8) (rw : Bool)
    (m : Pmmu) : (m.translateMiss pload addrIn fc rw).2.registers = m.registers := by
  rw [translateMiss]
  rw [registers_atcAdd]
  split
  · exact registers_setBuserror _ _
  · rfl

theorem registers_translate (pload : Bool) (addrIn : BitVec 32) (fc : BitVec 8) (rw : Bool)
    (m : Pmmu) : (m.translate pload addrIn fc rw).2.registers = m.registers := by
  rw [translate]
  split
  · rfl
  split
  · rfl
  split
  · rfl
  split
  · exact registers_translateMiss _ _ _ _ _
  have hlookup := registers_atcLookupIn addrIn fc rw (List.finRange 22)
    { m with tmpSr := 0, lastLogicalAddr := addrIn }
  rw [atcLookup]
  generalize atcLookupIn addrIn fc rw _ _ = r at hlookup
  obtain ⟨_ | addrOut, m'⟩ := r
  · exact (registers_translateMiss _ _ _ _ _).trans hlookup
  · dsimp only
    split
    · exact (registers_setBuserror _ _).trans hlookup
    · exact hlookup

end Pmmu

end RoscoEmulator.M68k
