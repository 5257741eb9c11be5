import RoscoEmulator.M68k.IndexFields

/-!
# The translation tables

The tables as the registers and the memory describe them: a tree with a level for every index, whose
table descriptors say which format the descriptors of the next level have, and whose page
descriptors may stand at any level. At the last level a table descriptor is an indirect one, and its
type says which format the descriptor has that it leads to. `pmmu_walk_tables` computes this
translation as long as an indirect descriptor has the type of the table that it is in. For the other
ones it reads the descriptor that they lead to in the format of the table. -/

namespace RoscoEmulator.M68k

/-- The format of the descriptors that a table descriptor leads to is the long one. -/
def DescriptorType.long (type : DescriptorType) : Bool := type = .table8byte

/-- A descriptor of the short format, or of the long one with its address in the second double
word. -/
structure Descriptor where
  long : Bool
  location : BitVec 32
  entry : BitVec 32
  address : BitVec 32

namespace Descriptor

def read (program : Memory) (long : Bool) (location : BitVec 32) : Descriptor where
  long := long
  location := location
  entry := program location
  address := program (if long then location + 4#32 else location)

def type (d : Descriptor) : DescriptorType := .ofEntry d.entry

/-- Where the descriptor leads to. -/
def table (d : Descriptor) : BitVec 32 := d.address &&& dfAddrMask

/-- The descriptor does not allow the access. -/
def Violates (fc : BitVec 8) (rw : Bool) (d : Descriptor) : Prop :=
  d.type ≠ .invalid ∧ (rw = false ∧ d.entry &&& dfWp ≠ 0#32 ∨
    d.long = true ∧ fc &&& 4#8 = 0#8 ∧ d.entry &&& dfSupervisor ≠ 0#32)

instance (fc : BitVec 8) (rw : Bool) (d : Descriptor) : Decidable (d.Violates fc rw) :=
  inferInstanceAs (Decidable (_ ∧ _))

/-- The memory after the walk has come by. -/
def mark (rw : Bool) (program : Memory) (d : Descriptor) : Memory :=
  updateDescriptor d.location d.type d.entry rw program

/-- The descriptor in a table. -/
def inTable (program : Memory) (type : DescriptorType) (table index : BitVec 32) : Descriptor :=
  read program type.long (table + index <<< if type.long then 3 else 2)

/-- The descriptor that an indirect descriptor leads to, in some format. -/
def follow (program : Memory) (long : Bool) (d : Descriptor) : Descriptor :=
  read program long (d.address &&& dfIndAddrMask)

end Descriptor

/-- Where a search through the tables ends. -/
inductive Found
  /-- A page, with the number of address bits that are left. -/
  | page (base : BitVec 32) (bits : ℕ)
  | invalid
  | violation
  /-- A table descriptor behind the last level. -/
  | chain (type : DescriptorType) (table : BitVec 32) (program : Memory)

section Search

variable (tc : BitVec 32) (fc : BitVec 8) (rw : Bool) (address : BitVec 32)

/-- The descriptor at a level of the tables: the one in the table, or the one that it leads to if it
is a table descriptor and the level is the last one. -/
def descriptorAt (fs : List Field) (type : DescriptorType) (table : BitVec 32)
    (program : Memory) : Descriptor :=
  let d := Descriptor.inTable program type table (Walk.headIndex fc address (bitsLeft tc fs) fs)
  if fs.length = 1 ∧ d.type.IsTable then d.follow program d.type.long else d

/-- The search through the tables, from a descriptor on. -/
def search : List Field → DescriptorType → BitVec 32 → Memory → Found
  | [], type, table, program =>
      match type with
      | .invalid => .invalid
      | .page => .page table (pageSize tc)
      | _ => .chain type table program
  | f :: fs, type, table, program =>
      match type with
      | .invalid => .invalid
      | .page => .page table (bitsLeft tc (f :: fs))
      | _ =>
          let d := descriptorAt tc fc address (f :: fs) type table program
          if d.Violates fc rw then .violation else search fs d.type d.table (d.mark rw program)

/-- Every indirect descriptor of the search has the type of the table that it is in. -/
def IndirectsMatch : List Field → DescriptorType → BitVec 32 → Memory → Prop
  | [], _, _, _ => True
  | f :: fs, type, table, program =>
      let d := Descriptor.inTable program type table
        (Walk.headIndex fc address (bitsLeft tc (f :: fs)) (f :: fs))
      let d' := descriptorAt tc fc address (f :: fs) type table program
      type.IsTable → (fs = [] → d.type.IsTable → d.type = type) ∧
        (¬ d'.Violates fc rw → IndirectsMatch fs d'.type d'.table (d'.mark rw program))

/-- A chain of table descriptors goes on for some more of them, without an index. -/
def GoesOn : ℕ → DescriptorType → BitVec 32 → Memory → Prop
  | 0, type, _, _ => type.IsTable
  | n + 1, type, table, program =>
      let d := Descriptor.inTable program type table 0
      type.IsTable ∧ ¬ d.Violates fc rw ∧ GoesOn n d.type d.table (d.mark rw program)

/-- A walk gives what the search has found: the address in the page if it ends in a page, and else a
status that does not allow the access. -/
def Walk.Gives (w : Walk) : Found → Prop
  | .page base bits =>
      w.addrOut = (base &&& BitVec.allOnes 32 <<< pageSize tc) +
        BitVec.ofNat 32 (address.toNat % 2 ^ bits) ∧ ¬ Pmmu.Faults rw w.sr
  | .invalid => w.sr &&& srInvalid ≠ 0#16
  | .violation => Pmmu.Faults rw w.sr
  | .chain type table program =>
    (∀ n, GoesOn fc rw n type table program) → w.sr &&& srInvalid ≠ 0#16

end Search

/-! ## The status -/

section Status

variable {sr : BitVec 16} {fc : BitVec 8} {rw : Bool}

theorem and_flag_ne {n : ℕ} {flag : BitVec n} {k : ℕ} (hflag : flag = BitVec.twoPow n k)
    (hne : flag ≠ 0#n) (sr : BitVec n) : sr &&& flag ≠ 0#n ↔ sr.getLsbD k = true := by
  rw [hflag] at hne ⊢
  rw [BitVec.and_twoPow]
  cases sr.getLsbD k <;> simp [hne]

theorem and_srBusError_ne (sr : BitVec 16) : sr &&& srBusError ≠ 0#16 ↔ sr.getLsbD 15 = true :=
  and_flag_ne (show srBusError = BitVec.twoPow 16 15 from rfl) (by decide) sr

theorem and_srSupervisorOnly_ne (sr : BitVec 16) :
    sr &&& srSupervisorOnly ≠ 0#16 ↔ sr.getLsbD 13 = true :=
  and_flag_ne (show srSupervisorOnly = BitVec.twoPow 16 13 from rfl) (by decide) sr

theorem and_srWriteProtect_ne (sr : BitVec 16) :
    sr &&& srWriteProtect ≠ 0#16 ↔ sr.getLsbD 11 = true :=
  and_flag_ne (show srWriteProtect = BitVec.twoPow 16 11 from rfl) (by decide) sr

theorem and_srInvalid_ne (sr : BitVec 16) : sr &&& srInvalid ≠ 0#16 ↔ sr.getLsbD 10 = true :=
  and_flag_ne (show srInvalid = BitVec.twoPow 16 10 from rfl) (by decide) sr

theorem faults_iff (rw : Bool) (sr : BitVec 16) : Pmmu.Faults rw sr ↔
    sr.getLsbD 10 = true ∨ sr.getLsbD 13 = true ∨ sr.getLsbD 11 = true ∧ rw = false := by
  have hor : sr &&& (srInvalid ||| srSupervisorOnly) = 0#16 ↔
      sr &&& srInvalid = 0#16 ∧ sr &&& srSupervisorOnly = 0#16 := by
    rw [BitVec.and_or_distrib_left, BitVec.or_eq_zero_iff]
  rw [Pmmu.Faults, Ne, hor, not_and_or, ← Ne, ← Ne, and_srInvalid_ne, and_srSupervisorOnly_ne,
    and_srWriteProtect_ne, Bool.not_eq_true, or_assoc]

/-- The status of a walk that has met nothing that does not allow the access. -/
structure Clean (rw : Bool) (sr : BitVec 16) : Prop where
  busError : sr.getLsbD 15 = false
  supervisorOnly : sr.getLsbD 13 = false
  invalid : sr.getLsbD 10 = false
  writeProtect : rw = false → sr.getLsbD 11 = false

theorem Clean.not_faults (h : Clean rw sr) : ¬ Pmmu.Faults rw sr := by
  rw [faults_iff, h.invalid, h.supervisorOnly]
  rintro (hbit | hbit | ⟨hbit, hrw⟩)
  · cases hbit
  · cases hbit
  · rw [h.writeProtect hrw] at hbit
    cases hbit

theorem getLsbD_ite_or (c : Prop) [Decidable c] (sr flag : BitVec 16) (k : ℕ) :
    (if c then sr ||| flag else sr).getLsbD k = (sr.getLsbD k || (decide c && flag.getLsbD k)) := by
  by_cases hc : c
  · rw [if_pos hc, BitVec.getLsbD_or, decide_eq_true hc, Bool.true_and]
  · rw [if_neg hc, decide_eq_false hc, Bool.false_and, Bool.or_false]

theorem getLsbD_updateSr (long : Bool) (type : DescriptorType) (entry : BitVec 32) (fc : BitVec 8)
    (sr : BitVec 16) : (updateSr long type entry fc sr).getLsbD 15 = sr.getLsbD 15 ∧
      (updateSr long type entry fc sr).getLsbD 10 = sr.getLsbD 10 ∧
      ((updateSr long type entry fc sr).getLsbD 13 = true ↔ sr.getLsbD 13 = true ∨
        type ≠ .invalid ∧ long = true ∧ fc &&& 4#8 = 0#8 ∧ entry &&& dfSupervisor ≠ 0#32) ∧
      ((updateSr long type entry fc sr).getLsbD 11 = true ↔ sr.getLsbD 11 = true ∨
        type ≠ .invalid ∧ entry &&& dfWp ≠ 0#32) := by
  have hmodified : srModified.getLsbD 15 = false ∧ srModified.getLsbD 13 = false ∧
      srModified.getLsbD 11 = false ∧ srModified.getLsbD 10 = false := by decide
  have hprotect : srWriteProtect.getLsbD 15 = false ∧ srWriteProtect.getLsbD 13 = false ∧
      srWriteProtect.getLsbD 11 = true ∧ srWriteProtect.getLsbD 10 = false := by decide
  have hsupervisor : srSupervisorOnly.getLsbD 15 = false ∧ srSupervisorOnly.getLsbD 13 = true ∧
      srSupervisorOnly.getLsbD 11 = false ∧ srSupervisorOnly.getLsbD 10 = false := by decide
  rw [updateSr]
  by_cases hinvalid : type = .invalid
  · rw [if_pos hinvalid]
    simp only [getLsbD_ite_or, hmodified, Bool.and_false, Bool.or_false, hinvalid, ne_eq, not_true,
      false_and, or_false, and_self]
  · rw [if_neg hinvalid]
    simp only [getLsbD_ite_or, hmodified, hprotect, hsupervisor, Bool.and_false, Bool.or_false,
      Bool.and_true,
      Bool.or_eq_true, decide_eq_true_iff, ne_eq, hinvalid, not_false_iff, true_and, and_self]

end Status

/-! ## A round of the walk -/

namespace Walk

variable {tc : BitVec 32} {fc : BitVec 8} {rw : Bool} {address : BitVec 32}
    {fs : List Field} {w : Walk}

/-- The descriptor that the walk fetches. -/
def fetched (program : Memory) (long indirect : Bool) (table index : BitVec 32) : Descriptor :=
  let d := Descriptor.read program long (table + index <<< if long then 3 else 2)
  if indirect ∧ d.type.IsTable then d.follow program long else d

theorem long_fetched (program : Memory) (long indirect : Bool) (table index : BitVec 32) :
    (fetched program long indirect table index).long = long := by
  rw [fetched]
  by_cases hindirect : indirect = true ∧
      (Descriptor.read program long (table + index <<< if long then 3 else 2)).type.IsTable
  · rw [if_pos hindirect]
    rfl
  · rw [if_neg hindirect]
    rfl

theorem fetch_eq (long ptest : Bool) (fc : BitVec 8) (rw indirect : Bool)
    (index : BitVec 32) (w : Walk) :
    ∃ level, w.level + 1 ≤ level ∧ level ≤ w.level + (if indirect then 2 else 1) ∧
      w.fetch long ptest fc rw indirect index =
        let d := fetched w.program long indirect w.table index
        { w with
          level
          addrOut := d.location
          type := d.type
          table := d.table
          sr := updateSr long d.type d.entry fc w.sr
          program := if ptest then w.program else d.mark rw w.program } := by
  rw [fetch, fetched]
  by_cases hindirect : indirect = true ∧
      (DescriptorType.ofEntry (w.program (w.table + index <<< if long then 3 else 2))).IsTable
  · rw [if_pos hindirect]
    refine ⟨w.level + 2, by omega, by rw [if_pos hindirect.1], ?_⟩
    rw [if_pos (show indirect = true ∧
      (Descriptor.read w.program long _).type.IsTable from hindirect)]
    cases long <;> rfl
  · rw [if_neg hindirect]
    refine ⟨w.level + 1, by omega, by split <;> omega, ?_⟩
    rw [if_neg
      (show ¬ (indirect = true ∧ (Descriptor.read w.program long _).type.IsTable) from hindirect)]
    cases long <;> rfl

/-- The walk is at some level: the levels behind are gone, and their bits are shifted out of the
address. -/
structure At (tc address : BitVec 32) (fs : List Field) (w : Walk) : Prop where
  position : positionAt tc w.bitpos fs
  bits : bitsLeft tc fs ≤ 32
  pageshift : w.pageshift = 32 - bitsLeft tc fs
  addrIn : w.addrIn = address <<< (32 - bitsLeft tc fs)
  resolved : w.resolved = false

theorem headWidth_le (fs : List Field) : headWidth fs ≤ bitsLeft tc fs := by
  cases fs with
  | nil => exact Nat.zero_le _
  | cons f fs =>
    rw [bitsLeft, List.map_cons, List.sum_cons]
    show f.width ≤ _
    omega

variable (tc) in
theorem bitsLeft_tail (fs : List Field) : bitsLeft tc fs = headWidth fs + bitsLeft tc fs.tail := by
  cases fs with
  | nil => exact (Nat.zero_add _).symm
  | cons f fs =>
    rw [bitsLeft, List.map_cons, List.sum_cons]
    show _ = f.width + (pageSize tc + (fs.map Field.width).sum)
    omega

/-- A round with a table descriptor fetches another one. -/
theorem step_of_isTable (h : At tc address fs w) (hfields : fields tc ≠ []) (htype : w.type.IsTable)
    (ptest : Bool) (fc : BitVec 8) (rw : Bool) :
    w.step ptest tc fc rw =
      (fetch w.type.long ptest fc rw (decide (fs.length = 1))
      (headIndex fc address (bitsLeft tc fs) fs)
        { w with bitpos := w.bitpos - 4 }).check ptest fc rw (headWidth fs) := by
  have hindex := h.position.index fc address (headWidth_le fs) h.bits
  have hindirect : indirect (indexFields tc) w.bitpos = decide (fs.length = 1) := by
    rw [Bool.eq_iff_iff, h.position.indirect hfields, decide_eq_true_iff]
  rw [step]
  rw [h.addrIn, hindex, hindirect, h.position.indexbits]
  rcases htype with htype | htype
  · rw [htype]
    rfl
  · rw [htype]
    rfl

/-- The end of a round, after a status that does not stop the walk and after one that does. -/
theorem check_of_clean (hclean : Clean rw w.sr) (fc : BitVec 8) (width : ℕ) :
    w.check false fc rw width =
      { w with addrIn := w.addrIn <<< width, pageshift := w.pageshift + width } := by
  have hbus : ¬ w.sr &&& srBusError ≠ 0#16 := by rw [and_srBusError_ne, hclean.busError]; decide
  have hprotect : ¬ (¬ false = true ∧ ¬ rw = true ∧ w.sr &&& srWriteProtect ≠ 0#16) := by
    rintro ⟨-, hrw, hbit⟩
    rw [and_srWriteProtect_ne, hclean.writeProtect (Bool.not_eq_true _ ▸ hrw)] at hbit
    cases hbit
  have hsupervisor : ¬ (¬ false = true ∧ fc &&& 4#8 = 0#8 ∧ w.sr &&& srSupervisorOnly ≠ 0#16) := by
    rintro ⟨-, -, hbit⟩
    rw [and_srSupervisorOnly_ne, hclean.supervisorOnly] at hbit
    cases hbit
  rw [check, if_neg hbus, if_neg hprotect, if_neg hsupervisor]

theorem check_of_violates
    (hbits : rw = false ∧ w.sr.getLsbD 11 = true ∨ fc &&& 4#8 = 0#8 ∧ w.sr.getLsbD 13 = true)
    (width : ℕ) : w.check false fc rw width = { w with resolved := true } := by
  rw [check]
  by_cases hbus : w.sr &&& srBusError ≠ 0#16
  · rw [if_pos hbus]
  rw [if_neg hbus]
  by_cases hprotect : ¬ false = true ∧ ¬ rw = true ∧ w.sr &&& srWriteProtect ≠ 0#16
  · rw [if_pos hprotect]
  rw [if_neg hprotect, if_pos]
  rcases hbits with ⟨hrw, hbit⟩ | ⟨hfc, hbit⟩
  · exact absurd ⟨by decide, by rw [hrw]; decide, (and_srWriteProtect_ne w.sr).mpr hbit⟩ hprotect
  · exact ⟨by decide, hfc, (and_srSupervisorOnly_ne w.sr).mpr hbit⟩

/-- The status after a descriptor: either the descriptor does not allow the access, or the walk goes
on. -/
theorem clean_updateSr (hclean : Clean rw w.sr) (d : Descriptor) (hviolates : ¬ d.Violates fc rw) :
    Clean rw (updateSr d.long d.type d.entry fc w.sr) := by
  obtain ⟨hbus, hinvalid, hsupervisor, hprotect⟩ := getLsbD_updateSr d.long d.type d.entry fc w.sr
  refine ⟨hbus.trans hclean.busError, ?_, hinvalid.trans hclean.invalid, fun hrw ↦ ?_⟩
  · rw [Bool.eq_false_iff, Ne, hsupervisor, hclean.supervisorOnly]
    rintro (hbit | ⟨htype, hlong, hfc, hbit⟩)
    · cases hbit
    · exact hviolates ⟨htype, .inr ⟨hlong, hfc, hbit⟩⟩
  · rw [Bool.eq_false_iff, Ne, hprotect, hclean.writeProtect hrw]
    rintro (hbit | ⟨htype, hbit⟩)
    · cases hbit
    · exact hviolates ⟨htype, .inl ⟨hrw, hbit⟩⟩

theorem bits_of_violates (d : Descriptor) (hviolates : d.Violates fc rw) (sr : BitVec 16) :
    rw = false ∧ (updateSr d.long d.type d.entry fc sr).getLsbD 11 = true ∨
      fc &&& 4#8 = 0#8 ∧ (updateSr d.long d.type d.entry fc sr).getLsbD 13 = true := by
  obtain ⟨-, -, hsupervisor, hprotect⟩ := getLsbD_updateSr d.long d.type d.entry fc sr
  obtain ⟨htype, ⟨hrw, hbit⟩ | ⟨hlong, hfc, hbit⟩⟩ := hviolates
  · exact .inl ⟨hrw, hprotect.mpr (.inr ⟨htype, hbit⟩)⟩
  · exact .inr ⟨hfc, hsupervisor.mpr (.inr ⟨htype, hlong, hfc, hbit⟩)⟩

/-- A round with a table descriptor, on the way to a page. -/
theorem step_descends (h : At tc address fs w) (hfields : fields tc ≠ []) (hclean : Clean rw w.sr)
    (htype : w.type.IsTable) {d : Descriptor}
    (hd : d = fetched w.program w.type.long (decide (fs.length = 1)) w.table
      (headIndex fc address (bitsLeft tc fs) fs)) (hviolates : ¬ d.Violates fc rw) :
    At tc address fs.tail (w.step false tc fc rw) ∧ Clean rw (w.step false tc fc rw).sr ∧
      (w.step false tc fc rw).type = d.type ∧ (w.step false tc fc rw).table = d.table ∧
      (w.step false tc fc rw).program = d.mark rw w.program ∧
      (w.step false tc fc rw).level ≤ w.level + if fs.length = 1 then 2 else 1 := by
  have hlong : d.long = w.type.long := hd ▸ long_fetched _ _ _ _ _
  obtain ⟨level, -, hlevel, hfetch⟩ := fetch_eq w.type.long false fc rw (decide (fs.length = 1))
    (headIndex fc address (bitsLeft tc fs) fs) { w with bitpos := w.bitpos - 4 }
  rw [step_of_isTable h hfields htype, hfetch]
  rw [← hd, ← hlong]
  have hclean' := clean_updateSr hclean d hviolates
  rw [check_of_clean hclean']
  have hbits := bitsLeft_tail tc fs
  have hle := h.bits
  refine ⟨⟨h.position.next, by omega, ?_, ?_, h.resolved⟩, hclean', rfl, rfl, rfl, ?_⟩
  · show w.pageshift + headWidth fs = _
    rw [h.pageshift]
    omega
  · show w.addrIn <<< headWidth fs = _
    rw [h.addrIn, ← BitVec.shiftLeft_add]
    congr 1
    omega
  · simpa using hlevel

/-- A round whose descriptor does not allow the access is the last one. -/
theorem step_violates (h : At tc address fs w) (hfields : fields tc ≠ []) (htype : w.type.IsTable)
    {d : Descriptor} (hd : d = fetched w.program w.type.long (decide (fs.length = 1)) w.table
      (headIndex fc address (bitsLeft tc fs) fs)) (hviolates : d.Violates fc rw) :
    (w.step false tc fc rw).resolved = true ∧ Pmmu.Faults rw (w.step false tc fc rw).sr := by
  have hlong : d.long = w.type.long := hd ▸ long_fetched _ _ _ _ _
  obtain ⟨level, -, -, hfetch⟩ := fetch_eq w.type.long false fc rw (decide (fs.length = 1))
    (headIndex fc address (bitsLeft tc fs) fs) { w with bitpos := w.bitpos - 4 }
  rw [step_of_isTable h hfields htype, hfetch]
  rw [← hd, ← hlong]
  have hbits := bits_of_violates d hviolates w.sr
  have hcheck : ∀ w' : Walk, w'.sr = updateSr d.long d.type d.entry fc w.sr →
      w'.check false fc rw (headWidth fs) = { w' with resolved := true } := fun w' hsr ↦
    check_of_violates (hsr ▸ hbits) _
  rw [hcheck _ rfl]
  refine ⟨rfl, (faults_iff _ _).mpr ?_⟩
  rcases hbits with ⟨hrw, hbit⟩ | ⟨-, hbit⟩
  · exact .inr (.inr ⟨hbit, hrw⟩)
  · exact .inr (.inl hbit)

variable (fc) in
/-- A round with a page descriptor is the last one. -/
theorem step_page (h : At tc address fs w) (hclean : Clean rw w.sr) (htype : w.type = .page) :
    (w.step false tc fc rw).resolved = true ∧ (w.step false tc fc rw).sr = w.sr ∧
      (w.step false tc fc rw).program = w.program ∧ (w.step false tc fc rw).level = w.level ∧
      (w.step false tc fc rw).addrOut = (w.table &&& BitVec.allOnes 32 <<< pageSize tc) +
        BitVec.ofNat 32 (address.toNat % 2 ^ bitsLeft tc fs) := by
  have hcheck : ∀ (w' : Walk) (width : ℕ), w'.sr = w.sr → w'.check false fc rw width =
      { w' with addrIn := w'.addrIn <<< width, pageshift := w'.pageshift + width } :=
      fun w' width hsr ↦
    check_of_clean (hsr ▸ hclean) fc width
  rw [step]
  rw [htype]
  dsimp only
  rw [if_neg (by decide), hcheck, h.addrIn, h.pageshift, shiftLeft_ushiftRight_self address h.bits]
  · exact ⟨rfl, rfl, rfl, rfl, rfl⟩
  · rfl

variable (tc fc rw) in
theorem step_invalid (htype : w.type = .invalid) :
    (w.step false tc fc rw).resolved = true ∧ (w.step false tc fc rw).sr = srInvalid ∧
      (w.step false tc fc rw).program = w.program ∧ (w.step false tc fc rw).level = w.level := by
  rw [step]
  rw [htype]
  dsimp only
  rw [check, if_neg (show ¬ srInvalid &&& srBusError ≠ 0#16 by decide),
    if_neg (fun h ↦ absurd h.2.2 (show ¬ srInvalid &&& srWriteProtect ≠ 0#16 by decide)),
    if_neg (fun h ↦ absurd h.2.2 (show ¬ srInvalid &&& srSupervisorOnly ≠ 0#16 by decide))]
  exact ⟨rfl, rfl, rfl, rfl⟩

/-! ## The loop -/

variable (ptest : Bool) {limit fuel : ℕ}

theorem loop_of_not_continues {ptest : Bool} (hstop : ¬ (w.step ptest tc fc rw).Continues limit) :
    loop ptest tc fc rw limit (fuel + 1) w = w.step ptest tc fc rw := by
  rw [loop, if_neg hstop]

theorem loop_of_continues {ptest : Bool} (hnext : (w.step ptest tc fc rw).Continues limit) :
    loop ptest tc fc rw limit (fuel + 1) w =
      loop ptest tc fc rw limit fuel (w.step ptest tc fc rw) := by
  rw [loop, if_pos hnext]

theorem not_continues_of_resolved (h : w.resolved = true) : ¬ w.Continues limit := fun hnext ↦ by
  rw [hnext.2] at h
  cases h

/-- What the loop leaves, before the level is put into the status. -/
def Leaves (tc : BitVec 32) (fc : BitVec 8) (rw : Bool) (address : BitVec 32)
    (w : Walk) : Found → Prop
  | .page base bits =>
      w.resolved = true ∧ Clean rw w.sr ∧ w.addrOut = (base &&& BitVec.allOnes 32 <<< pageSize tc) +
        BitVec.ofNat 32 (address.toNat % 2 ^ bits)
  | .invalid => w.resolved = true ∧ w.sr = srInvalid
  | .violation => w.resolved = true ∧ Pmmu.Faults rw w.sr
  | .chain type table program => (∀ n, GoesOn fc rw n type table program) → w.resolved = false

/-- The loop does not get to the end of a chain that has none, by induction over its rounds. -/
theorem loop_goesOn (hfields : fields tc ≠ []) (h : At tc address [] w) (hclean : Clean rw w.sr)
    (hgoes : ∀ n, GoesOn fc rw n w.type w.table w.program) :
    (loop false tc fc rw limit fuel w).resolved = false := by
  induction fuel generalizing w with
  | zero => exact h.resolved
  | succ fuel ih =>
    have htype : w.type.IsTable := hgoes 0
    have hd : Descriptor.inTable w.program w.type w.table 0 =
        fetched w.program w.type.long (decide (([] : List Field).length = 1)) w.table
          (headIndex fc address (bitsLeft tc []) []) := by
      rw [fetched, if_neg (by simp)]
      rfl
    obtain ⟨hat, hclean', htype', htable', hprogram', -⟩ :=
      step_descends h hfields hclean htype hd (hgoes 1).2.1
    have hgoes' : ∀ n, GoesOn fc rw n (w.step false tc fc rw).type (w.step false tc fc rw).table
        (w.step false tc fc rw).program := by
      intro n
      rw [htype', htable', hprogram']
      exact (hgoes (n + 1)).2.2
    rw [loop]
    split
    · exact ih hat hclean' hgoes'
    · exact hat.resolved

variable (tc fc address fs) in
/-- The walk fetches the descriptor that the tables have at a level, if it is no indirect descriptor
of another type than that of its table. -/
theorem fetched_eq_descriptorAt (type : DescriptorType) (table : BitVec 32) (program : Memory)
    (hmatch : fs.length = 1 →
      (Descriptor.inTable program type table
      (headIndex fc address (bitsLeft tc fs) fs)).type.IsTable →
      (Descriptor.inTable program type table (headIndex fc address (bitsLeft tc fs) fs)).type =
      type) :
    descriptorAt tc fc address fs type table program =
      fetched program type.long (decide (fs.length = 1)) table
      (headIndex fc address (bitsLeft tc fs) fs) := by
  rw [descriptorAt, fetched]
  simp only [decide_eq_true_iff]
  by_cases hindirect : fs.length = 1 ∧
      (Descriptor.inTable program type table
      (headIndex fc address (bitsLeft tc fs) fs)).type.IsTable
  · rw [if_pos hindirect, if_pos (show fs.length = 1 ∧ (Descriptor.read program type.long
      _).type.IsTable from hindirect), hmatch hindirect.1 hindirect.2]
    rfl
  · rw [if_neg hindirect, if_neg
      (show ¬ (fs.length = 1 ∧ (Descriptor.read program type.long _).type.IsTable) from hindirect)]
    rfl

theorem loop_invalid (htype : w.type = .invalid) (fuel : ℕ) :
    Leaves tc fc rw address (loop false tc fc rw 7 (fuel + 1) w) .invalid := by
  obtain ⟨hresolved, hsr, -⟩ := step_invalid tc fc rw htype
  rw [loop_of_not_continues (not_continues_of_resolved hresolved)]
  exact ⟨hresolved, hsr⟩

theorem loop_page (h : At tc address fs w) (hclean : Clean rw w.sr) (htype : w.type = .page)
    (fuel : ℕ) : Leaves tc fc rw address (loop false tc fc rw 7 (fuel + 1) w)
    (.page w.table (bitsLeft tc fs)) := by
  obtain ⟨hresolved, hsr, -, -, haddr⟩ := step_page fc h hclean htype
  rw [loop_of_not_continues (not_continues_of_resolved hresolved)]
  exact ⟨hresolved, hsr.symm ▸ hclean, haddr⟩

theorem search_of_isTable {type : DescriptorType} (htype : type.IsTable) (f : Field)
    (table : BitVec 32) (program : Memory) :
    search tc fc rw address (f :: fs) type table program =
      let d := descriptorAt tc fc address (f :: fs) type table program
      if d.Violates fc rw then .violation
        else search tc fc rw address fs d.type d.table (d.mark rw program) := by
  rcases htype with htype | htype
  · rw [htype]
    rfl
  · rw [htype]
    rfl

/-- The loop computes what the search finds. The induction is on the levels that are left. -/
theorem loop_leaves (hfields : fields tc ≠ []) (h : At tc address fs w) (hclean : Clean rw w.sr)
    (hmatch : IndirectsMatch tc fc rw address fs w.type w.table w.program)
    (hlevel : w.level + fs.length + min 1 fs.length ≤ 6) (hfuel : fs.length ≤ fuel) :
    Leaves tc fc rw address (loop false tc fc rw 7 (fuel + 1) w)
      (search tc fc rw address fs w.type w.table w.program) := by
  induction fs generalizing fuel w with
  | nil =>
    cases htype : w.type with
    | invalid => exact loop_invalid htype fuel
    | page => exact loop_page h hclean htype fuel
    | table4byte => exact fun hgoes ↦ loop_goesOn hfields h hclean (htype ▸ hgoes)
    | table8byte => exact fun hgoes ↦ loop_goesOn hfields h hclean (htype ▸ hgoes)
  | cons f fs ih =>
    have htable : w.type.IsTable → Leaves tc fc rw address (loop false tc fc rw 7 (fuel + 1) w)
        (search tc fc rw address (f :: fs) w.type w.table w.program) := by
      intro htype
      rw [search_of_isTable htype]
      obtain ⟨hindirect, hrest⟩ := hmatch htype
      have hd :=
        fetched_eq_descriptorAt tc fc address (f :: fs) w.type w.table w.program fun hlength ↦
        hindirect (List.length_eq_zero_iff.mp (Nat.succ.inj hlength))
      generalize descriptorAt tc fc address (f :: fs) w.type w.table w.program = d at hd hrest ⊢
      by_cases hviolates : d.Violates fc rw
      · obtain ⟨hresolved, hfaults⟩ := step_violates h hfields htype hd hviolates
        rw [if_pos hviolates, loop_of_not_continues (not_continues_of_resolved hresolved)]
        exact ⟨hresolved, hfaults⟩
      · obtain ⟨hat, hclean', htype', htable', hprogram', hlevel'⟩ :=
          step_descends h hfields hclean htype hd hviolates
        rw [List.length_cons] at hlevel hfuel hlevel'
        have hnext : fs.length + min 1 fs.length + (w.step false tc fc rw).level ≤ 6 := by
          split at hlevel' <;> omega
        obtain ⟨n, hn⟩ : ∃ n, fuel = n + 1 := ⟨fuel - 1, by omega⟩
        rw [if_neg hviolates, loop_of_continues ⟨by omega, hat.resolved⟩,
          hn, ← htype', ← htable', ← hprogram']
        exact ih hat hclean' (by rw [htype', htable', hprogram']; exact hrest hviolates)
          (by omega) (by omega)
    cases htype : w.type with
    | invalid => exact loop_invalid htype fuel
    | page => exact loop_page h hclean htype fuel
    | table4byte =>
      rw [← htype]
      exact htable (.inl htype)
    | table8byte =>
      rw [← htype]
      exact htable (.inr htype)

/-! ## The end of the walk -/

theorem level_check (fc : BitVec 8) (rw : Bool) (width : ℕ) (w : Walk) :
    (w.check ptest fc rw width).level = w.level := by
  rw [check]
  split_ifs <;> rfl

theorem resolved_check (fc : BitVec 8) (rw : Bool) (width : ℕ) (h : w.resolved = true) :
    (w.check ptest fc rw width).resolved = true := by
  rw [check]
  split_ifs
  · rfl
  · rfl
  · rfl
  · exact h

section

variable (tc : BitVec 32) (fc : BitVec 8) (rw : Bool)

/-- A round takes a level or is the last one. -/
theorem level_step (w : Walk) :
    ((w.step ptest tc fc rw).resolved = true ∨ w.level + 1 ≤ (w.step ptest tc fc rw).level) ∧
      (w.step ptest tc fc rw).level ≤ w.level + 2 := by
  have hfetch : ∀ long indirect index,
      w.level + 1 ≤
      (fetch long ptest fc rw indirect index { w with bitpos := w.bitpos - 4 }).level ∧
        (fetch long ptest fc rw indirect index { w with bitpos := w.bitpos - 4 }).level ≤
        w.level + 2 := by
    intro long indirect index
    obtain ⟨level, hlow, hhigh, heq⟩ :=
      fetch_eq long ptest fc rw indirect index { w with bitpos := w.bitpos - 4 }
    rw [heq]
    refine ⟨hlow, hhigh.trans ?_⟩
    dsimp only
    split <;> omega
  rw [step]
  rw [level_check]
  cases htype : w.type with
  | invalid => exact ⟨.inl (resolved_check _ _ _ _ rfl), Nat.le_add_right _ 2⟩
  | page =>
    refine ⟨.inl (resolved_check _ _ _ _ ?_), ?_⟩
    · dsimp only
      split <;> rfl
    · dsimp only
      split <;> exact Nat.le_add_right _ 2
  | table4byte => exact ⟨.inr (hfetch _ _ _).1, (hfetch _ _ _).2⟩
  | table8byte => exact ⟨.inr (hfetch _ _ _).1, (hfetch _ _ _).2⟩

/-- The loop ends by its own condition: there are no more rounds than levels. -/
theorem not_continues_loop (hfuel : limit ≤ w.level + fuel) (hpos : 0 < fuel) :
    ¬ (loop ptest tc fc rw limit fuel w).Continues limit := by
  induction fuel generalizing w with
  | zero => exact absurd hpos (Nat.lt_irrefl 0)
  | succ fuel ih =>
    rw [loop]
    by_cases hnext : (w.step ptest tc fc rw).Continues limit
    · rw [if_pos hnext]
      obtain ⟨hresolved | hlevel, -⟩ := level_step ptest tc fc rw w
      · rw [hnext.2] at hresolved
        cases hresolved
      · have hlt := hnext.1
        exact ih (by omega) (by omega)
    · rw [if_neg hnext]
      exact hnext

theorem level_loop_le (hlevel : w.level < limit) :
    (loop ptest tc fc rw limit fuel w).level ≤ limit + 1 := by
  induction fuel generalizing w with
  | zero => exact Nat.le_succ_of_le (Nat.le_of_lt hlevel)
  | succ fuel ih =>
    have hstep := (level_step ptest tc fc rw w).2
    rw [loop]
    split
    · next hnext => exact ih hnext.1
    · omega

end

theorem length_levels_le (tc : BitVec 32) : (levels tc).length ≤ 5 := by
  have hfields : (fields tc).length ≤ 4 := (List.takeWhile_sublist _).length_le
  rw [levels, List.length_append, List.length_map]
  split
  · show 1 + _ ≤ 5
    omega
  · show 0 + _ ≤ 5
    omega

theorem at_start (hvalid : TcValid tc) (type : DescriptorType) (table : BitVec 32) (sr : BitVec 16)
    (program : Memory) : At tc address (levels tc) (start tc address type table sr program) := by
  have hbits := hvalid.bitsLeft_levels
  refine ⟨positionAt_start tc, by omega, ?_, ?_, rfl⟩
  · show initialShift tc = _
    omega
  · show address <<< initialShift tc = _
    congr 1
    omega

/-- The level in the low bits of the status does not touch the flags. -/
theorem getLsbD_level (sr : BitVec 16) {level k : ℕ} (hlevel : level < 16) (hk : 4 ≤ k)
    (hk' : k < 16) : (sr &&& 0xfff0#16 ||| BitVec.ofNat 16 level).getLsbD k = sr.getLsbD k := by
  have hmask : (0xfff0#16).getLsbD k = true := by
    have hmem : k ∈ (List.range 16).filter (4 ≤ ·) := by simp [hk, hk']
    exact (show ∀ k ∈ (List.range 16).filter (4 ≤ ·), (0xfff0#16).getLsbD k = true by decide) k hmem
  have hzero : level.testBit k = false :=
    Nat.testBit_lt_two_pow
      (Nat.lt_of_lt_of_le hlevel (show 2 ^ 4 ≤ 2 ^ k from Nat.pow_le_pow_right (by decide) hk))
  rw [BitVec.getLsbD_or, BitVec.getLsbD_and, hmask, BitVec.getLsbD_ofNat, hzero, Bool.and_false,
    Bool.or_false, Bool.and_true]

theorem gives_of_leaves {sr : BitVec 16} {type : DescriptorType} {table : BitVec 32}
    {program : Memory} {found : Found} (h : Leaves tc fc rw address
      (loop false tc fc rw 7 8 (start tc address type table sr program)) found) :
    (tables false tc address type table fc 7 rw sr program).Gives tc fc rw address found := by
  have hlevel : (loop false tc fc rw 7 8 (start tc address type table sr program)).level ≤ 8 :=
    level_loop_le false tc fc rw (show 0 < 7 by decide)
  rw [tables]
  generalize loop false tc fc rw 7 (7 + 1) (start tc address type table sr program) =
    w at h hlevel ⊢
  have hbit : ∀ (sr : BitVec 16) (k : ℕ), 4 ≤ k → k < 16 →
      (sr &&& 0xfff0#16 ||| BitVec.ofNat 16 w.level).getLsbD k = sr.getLsbD k := fun sr k hk hk' ↦
    getLsbD_level sr (by omega) hk hk'
  have hfaults : ∀ sr : BitVec 16,
      Pmmu.Faults rw (sr &&& 0xfff0#16 ||| BitVec.ofNat 16 w.level) ↔ Pmmu.Faults rw sr := by
    intro sr
    rw [faults_iff, faults_iff, hbit _ 10 (by decide) (by decide),
      hbit _ 13 (by decide) (by decide), hbit _ 11 (by decide) (by decide)]
  have hresolved : w.resolved = true →
      (if ¬ w.resolved = true ∧ ¬ false = true then w.sr ||| srInvalid else w.sr) =
      w.sr := fun hw ↦ if_neg fun hnot ↦ hnot.1 hw
  cases found with
  | page base bits =>
    obtain ⟨hw, hclean, haddr⟩ := h
    refine ⟨haddr, ?_⟩
    rw [hfaults, hresolved hw]
    exact hclean.not_faults
  | invalid =>
    obtain ⟨hw, hsr⟩ := h
    show _ &&& srInvalid ≠ 0#16
    dsimp only
    rw [and_srInvalid_ne, hbit _ 10 (by decide) (by decide), hresolved hw, hsr]
    decide
  | violation =>
    obtain ⟨hw, hsr⟩ := h
    show Pmmu.Faults rw _
    rw [hfaults, hresolved hw]
    exact hsr
  | chain type table program =>
    intro hgoes
    have hw := h hgoes
    dsimp only
    rw [and_srInvalid_ne, hbit _ 10 (by decide) (by decide), if_pos ⟨by rw [hw]; decide, by decide⟩,
      BitVec.getLsbD_or, show srInvalid.getLsbD 10 = true by decide, Bool.or_true]

end Walk

/-- **The table walk.** With a register whose fields fit, for every root pointer and every memory
whose indirect descriptors have the type of the table that they are in, the walk gives what the
search through the tables finds. Its loop ends by its own condition, for every limit. -/
theorem tables_gives_search (tc address : BitVec 32) (fc : BitVec 8) (rw : Bool)
    (type : DescriptorType) (table : BitVec 32) (program : Memory) (hvalid : TcValid tc)
    (hmatch : IndirectsMatch tc fc rw address (levels tc) type table program) :
    (Walk.tables false tc address type table fc 7 rw 0 program).Gives tc fc rw address
        (search tc fc rw address (levels tc) type table program) ∧
      ∀ (ptest : Bool) (limit : ℕ) (sr : BitVec 16), ¬ (Walk.loop ptest tc fc rw limit (limit + 1)
        (Walk.start tc address type table sr program)).Continues limit := by
  have hlength := Walk.length_levels_le tc
  have hclean : Clean rw 0#16 := ⟨rfl, rfl, rfl, fun _ ↦ rfl⟩
  refine ⟨Walk.gives_of_leaves (Walk.loop_leaves hvalid.fields_ne_nil
    (Walk.at_start hvalid type table 0 program) hclean hmatch ?_ ?_), fun ptest limit sr ↦ ?_⟩
  · show 0 + _ + _ ≤ 6
    omega
  · omega
  · exact Walk.not_continues_loop ptest tc fc rw (by omega) (Nat.succ_pos limit)

/-- A register for one table with 4096 entries and pages of 4096 bytes. -/
def oneTable : BitVec 32 := 0x80c8c000#32

/-- A table of the short format at 0x1000, whose first entry is a descriptor; the long descriptor of
a page at 0x2000. -/
def twoFormats (first : BitVec 32) : Memory := fun location ↦
  if location = 0x1000#32 then first else if location = 0x2000#32 then 1#32
  else if location = 0x2004#32 then 0x5000#32 else 0#32

/-- A page descriptor in the table. -/
theorem tables_gives_search_page : (Walk.tables false oneTable 0x123#32 .table4byte 0x1000#32 1#8 7
    true 0 (twoFormats 0x5001#32)).Gives oneTable 1#8 true 0x123#32
        (search oneTable 1#8 true 0x123#32 (levels oneTable) .table4byte 0x1000#32
          (twoFormats 0x5001#32)) ∧
      ∀ (ptest : Bool) (limit : ℕ) (sr : BitVec 16),
        ¬ (Walk.loop ptest oneTable 1#8 true limit (limit + 1)
          (Walk.start oneTable 0x123#32 .table4byte 0x1000#32 sr
            (twoFormats 0x5001#32))).Continues limit := by
  refine tables_gives_search oneTable 0x123#32 1#8 true .table4byte 0x1000#32 (twoFormats 0x5001#32)
    (by decide +kernel) fun _ ↦ ⟨fun _ htable ↦ ?_, fun _ ↦ trivial⟩
  exact absurd htable (by decide +kernel)

/-- An indirect descriptor that says that it leads to a long one. The tables have a page at 0x5000,
and the walk gives the address zero. -/
theorem not_tables_gives_search_indirect :
    TcValid oneTable ∧
      search oneTable 1#8 true 0#32 (levels oneTable) .table4byte 0x1000#32 (twoFormats 0x2003#32) =
        .page 0x5000#32 12 ∧
      (Walk.tables false oneTable 0#32 .table4byte 0x1000#32 1#8 7 true 0
      (twoFormats 0x2003#32)).addrOut = 0#32 ∧ ¬ (Walk.tables false oneTable 0#32 .table4byte
      0x1000#32 1#8 7 true 0 (twoFormats 0x2003#32)).Gives oneTable
        1#8 true 0#32 (search oneTable 1#8 true 0#32 (levels oneTable) .table4byte 0x1000#32
        (twoFormats 0x2003#32)) := by
  have hfound : search oneTable 1#8 true 0#32 (levels oneTable) .table4byte 0x1000#32
      (twoFormats 0x2003#32) = .page 0x5000#32 12 := by rfl
  have haddr : (Walk.tables false oneTable 0#32 .table4byte 0x1000#32 1#8 7 true 0
      (twoFormats 0x2003#32)).addrOut = 0#32 := by decide +kernel
  refine ⟨by decide +kernel, hfound, haddr, fun h ↦ ?_⟩
  rw [hfound] at h
  have hgives := h.1
  rw [haddr] at hgives
  exact absurd hgives (by decide +kernel)

end RoscoEmulator.M68k
