import RoscoEmulator.M68k.Rte

/-!
# RTE undoes an exception

Every exception by its entry, and what it leaves on the stacks. RTE on the frame of an exception
brings back the status register and every stack pointer, and goes on at the stacked address. The one
exception that it does not undo is the bus error of a restarted instruction on a 68EC020, which
pushes the frame of the 68000. -/

namespace RoscoEmulator.M68k

open BitVec

/-- The ways into an exception. -/
inductive Entry
  | trap (vector : BitVec 8)
  | trapN (n : BitVec 4)
  | trace
  | privilegeViolation
  | illegal
  | aLine
  | fLine
  | formatError
  | busError
  /-- The bus error of an instruction that is to be restarted. -/
  | restartBusError
  | interrupt (level : BitVec 3)
deriving DecidableEq, Repr

namespace Core

/-- The entry of an exception. -/
def enter (iack : BitVec 3 → BitVec 8) : Entry → Core → Option Core
  | .trap vector, s => s.exceptionTrap (vector.setWidth 32)
  | .trapN n, s => s.exceptionTrapN (32#32 + n.setWidth 32)
  | .trace, s => s.exceptionTrace
  | .privilegeViolation, s => s.exceptionPrivilegeViolation
  | .illegal, s => s.exceptionIllegal
  | .aLine, s => s.exception1010
  | .fLine, s => s.exception1111
  | .formatError, s => s.exceptionFormatError
  | .busError, s => s.causeBusError
  | .restartBusError, s => s.restartBusError
  | .interrupt level, s => s.exceptionInterrupt iack level

/-- The exception is taken: a bus error while a frame is written halts, and a halted processor takes
no interrupt. -/
def Taken (e : Entry) (s : Core) : Prop :=
  match e with
  | .busError => s.runMode ≠ .berrAerrResetWsf
  | .interrupt _ => s.stopped &&& ~~~1#32 = 0#32
  | _ => True

/-- The address that an exception stacks. -/
def returnAddress (e : Entry) (s : Core) : BitVec 32 :=
  match e with
  | .trap _ | .trapN _ | .trace | .formatError | .interrupt _ => s.pc
  | _ => s.ppc

/-! ## One frame -/

/-- One frame of so many bytes on the stack of the supervisor. -/
structure Stacked (s s' : Core) (pc : BitVec 32) (format : BitVec 16) (n : ℕ) : Prop where
  cpuType : s'.cpuType = s.cpuType
  sFlag : s'.sFlag = true
  mFlag : s'.mFlag = s.mFlag
  a7 : s'.a7 = s.stack (bank true s.mFlag) - BitVec.ofNat 32 n
  others : ∀ i, bank true s.mFlag ≠ i → s'.stack i = s.stack i
  header : Header s' s'.a7 s.getSr pc format

section Stacked

variable {s s' : Core} {pc : BitVec 32} {format : BitVec 16} {n : ℕ}

theorem a7_setSFlag (s : Core) : (s.setSFlag true).a7 = s.stack (bank true s.mFlag) := by
  rw [← stack_setSFlag s (bank true s.mFlag) true]
  exact (stack_bank (s.setSFlag true)).symm

theorem jumpVector_eq {vector : BitVec 32} (h : s.jumpVector vector = some s') :
    ∃ pc, s' = { s.access 1#16 szLong with pc := pc } := by
  rw [jumpVector, read32] at h
  split_ifs at h
  · cases h
  · exact ⟨_, (Option.some.inj h).symm⟩

theorem raise_stacked {vector : BitVec 32} {prepare : Core → Core}
    {frame : Core → BitVec 16 → List Push} {rest : List Push} (hprepare : ∀ t, ∃ runMode instrMode,
    prepare t = { t with runMode := runMode, instrMode := instrMode })
    (heven : (s.stack (bank true s.mFlag)).toNat % 2 = 0)
    (hframe : frame (prepare s.initException.2) s.getSr = rest ++ header format pc s.getSr)
    (h : s.raise vector prepare frame = some s') : Stacked s s' pc format (frameSize rest + 8) := by
  obtain ⟨runMode, instrMode, ht⟩ := hprepare s.initException.2
  have ha7 : (prepare s.initException.2).a7 = s.stack (bank true s.mFlag) := by
    rw [ht]
    exact a7_setSFlag ({ s with t1Flag := false, t0Flag := false, tracing := false } : Core)
  obtain ⟨u, hpush, hpushed, hheader⟩ :=
    exists_pushAll_append_header (s := prepare s.initException.2)
      (ha7 ▸ heven) rest format pc s.getSr
  rw [raise_eq, hframe, hpush, Option.bind_some] at h
  obtain ⟨pc', rfl⟩ := jumpVector_eq h
  have hsFlag : (prepare s.initException.2).sFlag = true := by rw [ht]; rfl
  have hmFlag : (prepare s.initException.2).mFlag = s.mFlag := by rw [ht]; rfl
  refine ⟨?_, hpushed.sFlag.trans hsFlag, hpushed.mFlag.trans hmFlag, ?_, fun i hi ↦ ?_,
    hheader.congr fun _ _ ↦ rfl⟩
  · refine hpushed.cpuType.trans ?_
    rw [ht]
    rfl
  · rw [← ha7]
    exact hpushed.a7
  · refine (hpushed.stack (by rwa [hsFlag, hmFlag])).trans ?_
    rw [ht]
    exact stack_setSFlag
      ({ s with t1Flag := false, t0Flag := false, tracing := false } : Core) i true

/-- What keeps a frame where it is: the registers that no frame is made of. -/
theorem Stacked.congr {t : Core} (h : Stacked s s' pc format n) (hcpu : t.cpuType = s'.cpuType)
    (hs : t.sFlag = s'.sFlag) (hm : t.mFlag = s'.mFlag) (ha7 : t.a7 = s'.a7)
    (hstack : ∀ i, t.stack i = s'.stack i)
    (hbyte : ∀ a, t.byte a = s'.byte a) : Stacked s t pc format n :=
  ⟨hcpu.trans h.cpuType, hs.trans h.sFlag, hm.trans h.mFlag, ha7.trans h.a7, fun i hi ↦
    (hstack i).trans (h.others i hi), ha7 ▸ h.header.congr fun _ _ ↦ hbyte _⟩

end Stacked

/-! ## The exceptions -/

section Entries

variable {iack : BitVec 3 → BitVec 8} {s s' : Core}

/-- The states that a processor can be in: the bits of the status register that the model lacks are
zero, and the stack pointers are even. -/
structure Valid (s : Core) : Prop where
  cpuType : s.cpuType.is010Plus
  sr : s.getSr &&& s.cpuType.srMask = s.getSr
  even : ∀ i ∈ [0, 4, 6], (s.stack i).toNat % 2 = 0

theorem bank_mem (sFlag mFlag : Bool) : bank sFlag mFlag ∈ [0, 4, 6] := by
  revert sFlag mFlag
  decide

variable {t : CpuType} {vector pc : BitVec 32}

theorem is000_of_is010Plus (h : t.is010Plus) : t.is000 = false := by
  cases t <;> first | rfl | cases h

theorem is070_of_is010Plus (h : t.is010Plus) : t.is070 = false := by
  cases t <;> first | rfl | cases h

theorem is010Less_eq (h : t.is010Plus) : t.is010Less = t.is010 := by
  cases t <;> first | rfl | cases h

/-- A frame that RTE of a model knows, with what it is to pull. -/
def IsFrame (t : CpuType) (frame : List Push) (pc : BitVec 32) (sr : BitVec 16) : Prop :=
  ∃ rest format, frame = rest ++ header format pc sr ∧
    Known t (format >>> 12).toNat (frameSize rest + 8)

theorem toNat_format (hvector : vector.toNat < 256) {k : ℕ} (hk : k < 16) :
    ((BitVec.ofNat 32 (k * 4096) ||| vector <<< 2).setWidth 16 >>> 12 : BitVec 16).toNat = k := by
  have hall : ∀ vector : BitVec 8, ∀ k < 16,
      ((BitVec.ofNat 32 (k * 4096) ||| vector.setWidth 32 <<< 2).setWidth 16 >>> 12 :
      BitVec 16).toNat = k := by
    decide +kernel
  have hset : vector = (vector.setWidth 8).setWidth 32 := by
    refine eq_of_toNat_eq ?_
    rw [toNat_setWidth, toNat_setWidth]
    omega
  rw [hset]
  exact hall _ k hk

section Frames

variable {t : CpuType} {vector pc faultAddress : BitVec 32} {sr : BitVec 16}

theorem isFrame_0000 (hcpu : s.cpuType.is010Plus) (hvector : vector.toNat < 256) :
    IsFrame s.cpuType (s.stackFrame0000 pc sr vector) pc sr := by
  have hformat := toNat_format hvector (k := 0) (by decide)
  rw [zero_or] at hformat
  refine ⟨[], _, if_neg ?_, ?_⟩
  · rw [is000_of_is010Plus hcpu]
    exact Bool.false_ne_true
  · rw [hformat, Known]
    split_ifs
    · exact .inl ⟨rfl, rfl⟩
    · exact .inl ⟨rfl, rfl⟩

theorem isFrame_0010 (h010 : s.cpuType.is010 = false) (hvector : vector.toNat < 256) :
    IsFrame s.cpuType (s.stackFrame0010 sr vector) s.pc sr := by
  refine ⟨[.push32 s.ppc], _, rfl, ?_⟩
  rw [toNat_format hvector (k := 2) (by decide), Known, h010, if_neg Bool.false_ne_true]
  exact .inr (.inl ⟨rfl, rfl⟩)

theorem isFrame_1000 (h010 : s.cpuType.is010 = true) (hvector : vector.toNat < 256) :
    IsFrame s.cpuType (s.stackFrame1000 pc sr vector faultAddress) pc sr := by
  refine ⟨[.fakePush32, .fakePush32, .fakePush32, .fakePush32, .fakePush32, .fakePush32,
    .fakePush32, .fakePush32, .push16 0#16, .fakePush16, .push16 0#16, .fakePush16, .push16 0#16,
    .fakePush16, .push32 faultAddress,
    .push16 (s.mmuTmpBuserrorFc ||| s.mmuTmpBuserrorRw <<< 8)], _, rfl, ?_⟩
  rw [toNat_format hvector (k := 8) (by decide), Known, h010, if_pos rfl]
  exact .inr ⟨rfl, by simp [frameSize, Push.size]⟩

section

variable (h010 : s.cpuType.is010 = false) (hvector : vector.toNat < 256)
include h010 hvector

theorem isFrame_1010 : IsFrame s.cpuType (s.stackFrame1010 sr vector pc faultAddress) pc sr := by
  refine ⟨[.push16 0#16, .push16 0#16, .push32 0#32, .push16 0#16, .push16 0#16, .push32
    faultAddress, .push16 0#16, .push16 0#16, .push16 s.specialStatus, .push16 0#16], _, rfl, ?_⟩
  rw [toNat_format hvector (k := 10) (by decide), Known, h010, if_neg Bool.false_ne_true]
  exact .inr (.inr (.inr (.inl ⟨rfl, by simp [frameSize, Push.size]⟩)))

theorem isFrame_1011 : IsFrame s.cpuType (s.stackFrame1011 sr vector pc faultAddress) pc sr := by
  refine ⟨[.push32 0#32, .push32 0#32, .push32 0#32, .push32 0#32, .push32 0#32, .push32
    0#32, .push32 0#32,
    .push32 0#32, .push32 0#32, .push16 0#16, .push32 0#32, .push16 0#16, .push32 0#32, .push32
    0#32, .push32 0#32,
    .push32 0#32, .push32 0#32, .push32 0#32, .push16 0#16, .push16 0#16, .push32
    faultAddress, .push16 0#16, .push16 0#16, .push16 s.specialStatus, .push16 0#16], _, rfl, ?_⟩
  rw [toNat_format hvector (k := 11) (by decide), Known, h010, if_neg Bool.false_ne_true]
  exact .inr (.inr (.inr (.inr ⟨rfl, by simp [frameSize, Push.size]⟩)))

theorem isFrame_0111 (inMmu : Bool) :
    IsFrame s.cpuType (s.stackFrame0111 sr vector pc faultAddress inMmu) pc sr := by
  refine ⟨[.push32 0#32, .push32 0#32, .push32 0#32, .push32 0#32, .push32 0#32, .push32
    0#32, .push32 0#32, .push32 0#32, .push32 0#32, .push32 faultAddress, .push32 0#32, .push16
    0#16, .push16 ((if inMmu then 0x400#16 else 0#16) ||| s.mmuTmpBuserrorFc |||
    s.mmuTmpBuserrorRw <<< 8), .push32 faultAddress], _, rfl, ?_⟩
  rw [toNat_format hvector (k := 7) (by decide), Known, h010, if_neg Bool.false_ne_true]
  exact .inr (.inr (.inl ⟨rfl, by simp [frameSize, Push.size]⟩))

end

end Frames

/-- One frame that RTE knows, with the address that it is to go on at. -/
def StackedOne (s s' : Core) (pc : BitVec 32) : Prop :=
  ∃ (format : BitVec 16) (n : ℕ), Known s.cpuType (format >>> 12).toNat n ∧ Stacked s s' pc format n

theorem raise_stackedOne (hs : Valid s) {prepare : Core → Core}
    {frame : Core → BitVec 16 → List Push} (hprepare : ∀ t, ∃ runMode instrMode,
    prepare t = { t with runMode := runMode, instrMode := instrMode })
    (hframe : IsFrame s.cpuType (frame (prepare s.initException.2) s.getSr) pc s.getSr)
    (h : s.raise vector prepare frame = some s') : StackedOne s s' pc := by
  obtain ⟨rest, format, hrest, hknown⟩ := hframe
  exact ⟨format, _, hknown, raise_stacked hprepare (hs.even _ (bank_mem _ _)) hrest h⟩

theorem prepare_id (t : Core) :
    ∃ runMode instrMode, id t = { t with runMode := runMode, instrMode := instrMode } :=
  ⟨t.runMode, t.instrMode, rfl⟩

theorem prepare_instructionNo (t : Core) : ∃ runMode instrMode,
    t.instructionNo = { t with runMode := runMode, instrMode := instrMode } := by
  rw [instructionNo]
  split_ifs
  · exact ⟨t.runMode, 8#32, rfl⟩
  · exact ⟨t.runMode, t.instrMode, rfl⟩

theorem stacked_trap (hs : Valid s) (hvector : vector.toNat < 256)
    (h : s.exceptionTrap vector = some s') : StackedOne s s' s.pc := by
  refine raise_stackedOne hs prepare_id ?_ h
  have hless : s.initException.2.cpuType.is010Less = s.cpuType.is010 := is010Less_eq hs.cpuType
  cases h010 : s.cpuType.is010 with
  | true =>
    rw [id_eq, hless, h010, if_pos rfl]
    exact isFrame_0000 (s := s.initException.2) hs.cpuType hvector
  | false =>
    rw [id_eq, hless, h010, if_neg Bool.false_ne_true]
    exact isFrame_0010 (s := s.initException.2) h010 hvector

theorem instructionNo_eq (hs : Valid s) : s.initException.2.instructionNo = s.initException.2 :=
  if_neg (Bool.eq_false_iff.mp (is000_of_is010Plus hs.cpuType))

/-- The exceptions that push a frame of format 0. -/
theorem raise_0000 (hs : Valid s) (hvector : vector.toNat < 256) {prepare : Core → Core}
    {pc : Core → BitVec 32} (hprepare : prepare s.initException.2 = s.initException.2)
    (h : s.raise vector prepare (fun s sr ↦ s.stackFrame0000 (pc s) sr vector) = some s') :
    StackedOne s s' (pc s.initException.2) := by
  have hid : s.raise vector id (fun s sr ↦ s.stackFrame0000 (pc s) sr vector) = some s' := by
    rw [raise_eq] at h ⊢
    rwa [hprepare] at h
  refine raise_stackedOne hs prepare_id ?_ hid
  exact isFrame_0000 (s := s.initException.2) hs.cpuType hvector

theorem StackedOne.congr {t : Core} (h : StackedOne s s' pc) (hcpu : t.cpuType = s'.cpuType)
    (hs : t.sFlag = s'.sFlag)
    (hm : t.mFlag = s'.mFlag) (ha7 : t.a7 = s'.a7) (hstack : ∀ i, t.stack i = s'.stack i)
    (hbyte : ∀ a, t.byte a = s'.byte a) : StackedOne s t pc := by
  obtain ⟨format, n, hknown, hstacked⟩ := h
  exact ⟨format, n, hknown, hstacked.congr hcpu hs hm ha7 hstack hbyte⟩

theorem stacked_trace (hs : Valid s) (h : s.exceptionTrace = some s') : StackedOne s s' s.pc := by
  obtain ⟨u, hu, rfl⟩ := Option.map_eq_some_iff.mp h
  have hstacked : StackedOne s u s.pc := by
    refine raise_stackedOne hs (fun t ↦ ?_) ?_ hu
    · split_ifs
      · exact prepare_instructionNo t
      · exact prepare_id t
    · have hless : s.initException.2.cpuType.is010Less = s.cpuType.is010 := is010Less_eq hs.cpuType
      rw [instructionNo_eq hs, ite_self]
      cases h010 : s.cpuType.is010 with
      | true =>
        rw [hless, h010, if_pos rfl]
        exact isFrame_0000 (s := s.initException.2) hs.cpuType (by decide)
      | false =>
        rw [hless, h010, if_neg Bool.false_ne_true]
        exact isFrame_0010 (s := s.initException.2) h010 (by decide)
  exact hstacked.congr rfl rfl rfl rfl (fun _ ↦ rfl) fun _ ↦ rfl

theorem isFrame_busFault (h010 : s.cpuType.is010 = false) (sr : BitVec 16) : IsFrame s.cpuType
    (if s.mmuTmpBuserrorAddress = s.ppc then s.stackFrame1010 sr 2#32 s.ppc s.mmuTmpBuserrorAddress
      else s.stackFrame1011 sr 2#32 s.ppc s.mmuTmpBuserrorAddress) s.ppc sr := by
  split_ifs
  · exact isFrame_1010 h010 (by decide)
  · exact isFrame_1011 h010 (by decide)

theorem prepare_setRunMode (runMode : RunMode) (t : Core) : ∃ runMode' instrMode,
    t.setRunMode runMode = { t with runMode := runMode', instrMode := instrMode } :=
  ⟨runMode, t.instrMode, rfl⟩

theorem stacked_causeBusError (hs : Valid s) (hmode : s.runMode ≠ .berrAerrResetWsf)
    (h : s.causeBusError = some s') : StackedOne s s' s.ppc := by
  rw [causeBusError, if_neg (show s.saveBuserror.runMode ≠ _ from hmode)] at h
  obtain ⟨u, hu, rfl⟩ := Option.map_eq_some_iff.mp h
  let t := s.saveBuserror.initException.2.setRunMode .berrAerrResetWsf
  have h000 : t.cpuType.is000 = false := is000_of_is010Plus hs.cpuType
  have h070 : t.cpuType.is070 = false := is070_of_is010Plus hs.cpuType
  have hframe : IsFrame s.cpuType (t.busErrorFrame s.getSr) s.ppc s.getSr := by
    rw [busErrorFrame, if_neg (Bool.eq_false_iff.mp h000)]
    cases h010 : t.cpuType.is010 with
    | true =>
      rw [if_pos rfl]
      exact isFrame_1000 (s := t) h010 (by decide)
    | false =>
      rw [if_neg Bool.false_ne_true, if_neg (Bool.eq_false_iff.mp h070)]
      exact isFrame_busFault (s := t) h010 s.getSr
  have hsave : Valid s.saveBuserror := ⟨hs.cpuType, hs.sr, hs.even⟩
  obtain ⟨format, n, hknown, hstacked⟩ : StackedOne s.saveBuserror u s.ppc :=
    raise_stackedOne hsave (prepare_setRunMode _) hframe hu
  exact ⟨format, n, hknown, hstacked.cpuType, hstacked.sFlag, hstacked.mFlag, hstacked.a7,
    hstacked.others, hstacked.header.congr fun _ _ ↦ rfl⟩

theorem is020Plus_eq (h : t.is010Plus) (ht : t ≠ .ec020) : t.is020Plus = !t.is010 := by
  cases t <;> first | rfl | exact absurd rfl ht | cases h

theorem stacked_restartBusError (hs : Valid s) (hcpu : s.cpuType ≠ .ec020)
    (h : s.restartBusError = some s') : StackedOne s s' s.ppc := by
  refine raise_stackedOne hs (prepare_setRunMode _) ?_ h
  let t := s.initException.2.setRunMode .berrAerrReset
  have h020 : t.cpuType.is020Plus = !t.cpuType.is010 := is020Plus_eq hs.cpuType hcpu
  rw [restartBusErrorFrame, h020]
  cases h010 : t.cpuType.is010 with
  | true =>
    rw [Bool.not_true, if_pos Bool.false_ne_true, if_pos rfl]
    exact isFrame_1000 (s := t) h010 (by decide)
  | false =>
    rw [Bool.not_false, if_neg (not_not.mpr rfl)]
    cases t.cpuType.is040Plus with
    | true =>
      rw [if_neg (not_not.mpr rfl)]
      exact isFrame_0111 (s := t) h010 (by decide) true
    | false =>
      rw [if_pos Bool.false_ne_true]
      exact isFrame_busFault (s := t) h010 s.getSr

/-! ## Interrupts -/

/-- The throwaway frame on the interrupt stack and the frame on the master stack, each of eight
bytes. The second is what it was when pushed where the first is elsewhere. -/
structure StackedTwo (s s' : Core) (pc : BitVec 32) (format throwaway : BitVec 16) : Prop where
  cpuType : s'.cpuType = s.cpuType
  sFlag : s'.sFlag = true
  mFlag : s'.mFlag = false
  user : s'.stack 0 = s.stack 0
  interrupt : s'.stack 4 = s.stack 4 - 8#32
  master : s'.stack 6 = s.stack 6 - 8#32
  header : Header s' (s'.stack 4) (s.getSr ||| 0x2000#16) pc throwaway
  masterHeader : (∀ i < 8, ∀ j < 8, s.location (s'.stack 4 + BitVec.ofNat 32 i) ≠
    s.location (s'.stack 6 + BitVec.ofNat 32 j)) → Header s' (s'.stack 6) s.getSr pc format

theorem fetchHandler_eq (h : s.fetchHandler vector = some (pc, s')) :
    s' = s.access 1#16 szLong := by
  obtain ⟨⟨pc', t⟩, ht, hs'⟩ := Option.bind_eq_some_iff.mp h
  have hread : ∀ {a : BitVec 32} {u v : Core} {x : BitVec 32}, u.read32 a = some (x, v) →
      v = u.access 1#16 szLong := by
    intro a u v x hv
    rw [read32] at hv
    split_ifs at hv
    exact (congrArg Prod.snd (Option.some.inj hv)).symm
  rw [hread ht] at hs'
  dsimp only at hs'
  split_ifs at hs'
  · exact hread hs'
  · exact (congrArg Prod.snd (Option.some.inj hs')).symm

theorem toNat_format_throwaway (hvector : vector.toNat < 256) :
    ((0x1000#32 ||| vector <<< 2).setWidth 16 >>> 12 : BitVec 16).toNat = 1 :=
  toNat_format hvector (k := 1) (by decide)

theorem toNat_format_zero (hvector : vector.toNat < 256) :
    ((vector <<< 2).setWidth 16 >>> 12 : BitVec 16).toNat = 0 := by
  have hformat := toNat_format hvector (k := 0) (by decide)
  rwa [zero_or] at hformat

theorem stackInterrupt_eq {t : Core} {sr : BitVec 16}
    {vector : BitVec 32} (h000 : t.cpuType.is000 = false) (heven : t.a7.toNat % 2 = 0) :
    ∃ u, Pushed t u 8 ∧ Header u u.a7 sr t.pc ((vector <<< 2).setWidth 16) ∧
      ((t.mFlag && t.cpuType.isEc020Plus) = false → t.stackInterrupt sr vector = some u) ∧
      ((t.mFlag && t.cpuType.isEc020Plus) = true → t.sFlag = true → (t.stack 4).toNat % 2 = 0 →
        ∃ v, t.stackInterrupt sr vector = some v ∧ Pushed (u.setSmFlag true false) v 8 ∧
          Header v v.a7 (sr ||| 0x2000#16) t.pc ((0x1000#32 ||| vector <<< 2).setWidth 16)) := by
  obtain ⟨u, hpush, hpushed, hheader⟩ :=
    exists_pushAll_header heven ((vector <<< 2).setWidth 16) t.pc sr
  have hframe : t.stackFrame0000 t.pc sr vector = header ((vector <<< 2).setWidth 16) t.pc sr :=
    if_neg (Bool.eq_false_iff.mp h000)
  refine ⟨u, hpushed, hheader, fun hone ↦ ?_, fun htwo hs h4 ↦ ?_⟩
  · rw [stackInterrupt, hframe, hpush]
    refine (Option.bind_some _ _).trans (if_neg ?_)
    rw [hpushed.mFlag, hpushed.cpuType, hone]
    exact Bool.false_ne_true
  · have hsFlag : u.sFlag = true := hpushed.sFlag.trans hs
    have hmFlag : u.mFlag = true := by
      rw [Bool.and_eq_true] at htwo
      exact hpushed.mFlag.trans htwo.1
    have h4u : u.stack 4 = t.stack 4 := by
      refine hpushed.stack ?_
      rw [hs, ← hpushed.mFlag, hmFlag]
      decide
    have ha7 : (u.setSmFlag true false).a7 = t.stack 4 := by
      have hbank : (u.setSmFlag true false).stack (bank true false) =
          (u.setSmFlag true false).a7 := stack_bank _
      rw [← hbank, stack_setSmFlag]
      exact h4u
    obtain ⟨v, hpushv, hpushedv, hheaderv⟩ := exists_pushAll_header (s := u.setSmFlag true false)
      (ha7 ▸ h4) ((0x1000#32 ||| vector <<< 2).setWidth 16) t.pc (sr ||| 0x2000#16)
    have hpc : u.pc = t.pc := by
      obtain ⟨_, _, _, heq⟩ := hpushed.eq
      rw [heq]
    refine ⟨v, ?_, hpushedv, hheaderv⟩
    rw [stackInterrupt, hframe, hpush]
    refine (Option.bind_some _ _).trans ((if_pos ?_).trans ?_)
    · rw [hpushed.mFlag, hpushed.cpuType, htwo]
    · rw [hsFlag]
      show pushAll (stackFrame0001 u.pc _ _) _ = _
      rw [hpc]
      exact hpushv

theorem isEc020Plus_of_master :
    t.is010Plus → t.srMask.getLsbD 12 = true → t.isEc020Plus = true := by
  cases t <;> decide

/-- Only a model with a master stack is in it. -/
theorem isEc020Plus_of_mFlag (hs : Valid s) (hm : s.mFlag = true) :
    s.cpuType.isEc020Plus = true := by
  have hbit := congrArg (fun v ↦ v.getLsbD 12) hs.sr
  simp only [getLsbD_and, getLsbD_getSr_master, hm, Bool.true_and] at hbit
  exact isEc020Plus_of_master hs.cpuType hbit

/-- The state in which an interrupt begins to stack. -/
structure Interrupting (s t : Core) : Prop where
  cpuType : t.cpuType = s.cpuType
  sFlag : t.sFlag = true
  mFlag : t.mFlag = s.mFlag
  pc : t.pc = s.pc
  stack : ∀ i, t.stack i = s.stack i

theorem exceptionInterrupt_eq (h000 : s.cpuType.is000 = false) {level : BitVec 3}
    (hstopped : s.stopped &&& ~~~1#32 = 0#32)
    (h : s.exceptionInterrupt iack level = some s') : ∃ t v pc, Interrupting s t ∧
      (s.endStop.initException.2.setIntMask level).fetchHandler ((iack level).setWidth 32) = some
      (pc, t) ∧ t.stackInterrupt s.getSr ((iack level).setWidth 32) = some v ∧ s' = v.setPc pc := by
  have hno : s.instructionNo = s := if_neg (Bool.eq_false_iff.mp h000)
  rw [exceptionInterrupt, hno,
    if_neg (show ¬ s.endStop.stopped ≠ 0#32 from not_not.mpr hstopped)] at h
  obtain ⟨⟨pc, t⟩, ht, hrest⟩ := Option.bind_eq_some_iff.mp h
  obtain ⟨v, hv, hs'⟩ := Option.bind_eq_some_iff.mp hrest
  have htEq := fetchHandler_eq ht
  subst htEq
  refine ⟨(s.endStop.initException.2.setIntMask level).access 1#16 szLong, v, pc,
    ⟨rfl, rfl, rfl, rfl, fun i ↦ ?_⟩, ht, hv, (Option.some.inj hs').symm⟩
  exact stack_setSFlag
    ({ s.endStop with t1Flag := false, t0Flag := false, tracing := false } : Core) i true

theorem stacked_interrupt (hs : Valid s)
    {level : BitVec 3} (hstopped : s.stopped &&& ~~~1#32 = 0#32)
    (h : s.exceptionInterrupt iack level = some s') : StackedOne s s' s.pc ∨
      s.mFlag = true ∧ ∃ format throwaway : BitVec 16, (format >>> 12).toNat = 0 ∧
      (throwaway >>> 12).toNat = 1 ∧
        StackedTwo s s' s.pc format throwaway := by
  obtain ⟨t, v, pc, ht, -, hv, rfl⟩ :=
    exceptionInterrupt_eq (is000_of_is010Plus hs.cpuType) hstopped h
  have hvector : ((iack level).setWidth 32).toNat < 256 := by
    rw [toNat_setWidth]
    omega
  have hactive : t.a7 = s.stack (bank true s.mFlag) := by
    rw [← ht.stack, ← stack_bank t, ht.sFlag, ht.mFlag]
  obtain ⟨u, hpushed, hheader, hone, htwo⟩ :=
    @stackInterrupt_eq t s.getSr ((iack level).setWidth 32)
    (ht.cpuType ▸ is000_of_is010Plus hs.cpuType) (hactive ▸ hs.even _ (bank_mem _ _))
  cases hm : s.mFlag with
  | false =>
    have hcond : (t.mFlag && t.cpuType.isEc020Plus) = false := by rw [ht.mFlag, hm, Bool.false_and]
    obtain rfl := Option.some.inj ((hone hcond).symm.trans hv)
    have hend :
        Header (u.setPc pc) u.a7 s.getSr s.pc (((iack level).setWidth 32 <<< 2).setWidth 16) := by
      rw [← ht.pc]
      exact hheader.congr fun _ _ ↦ rfl
    refine .inl ⟨_, 8, ?_, hpushed.cpuType.trans ht.cpuType, hpushed.sFlag.trans ht.sFlag,
      hpushed.mFlag.trans ht.mFlag, ?_, fun i hi ↦ ?_, hend⟩
    · rw [toNat_format_zero hvector, Known]
      split_ifs
      · exact .inl ⟨rfl, rfl⟩
      · exact .inl ⟨rfl, rfl⟩
    · rw [← hactive]
      exact hpushed.a7
    · refine (hpushed.stack ?_).trans (ht.stack i)
      rwa [ht.sFlag, ht.mFlag]
  | true =>
    have hcond : (t.mFlag && t.cpuType.isEc020Plus) = true := by
      rw [ht.mFlag, hm, Bool.true_and, ht.cpuType]
      exact isEc020Plus_of_mFlag hs hm
    obtain ⟨v', hv', hpushedv, hheaderv⟩ := htwo hcond ht.sFlag (ht.stack 4 ▸ hs.even 4 (by decide))
    obtain rfl := Option.some.inj (hv'.symm.trans hv)
    have hbank : bank t.sFlag t.mFlag = 6 := by
      rw [ht.sFlag, ht.mFlag, hm]
      rfl
    have hbanku : bank u.sFlag u.mFlag = 6 := by rw [hpushed.sFlag, hpushed.mFlag, hbank]
    have hbankv : bank v'.sFlag v'.mFlag = 4 := by
      rw [hpushedv.sFlag, hpushedv.mFlag]
      exact (by decide : bank true false = 4)
    have hinterrupt : v'.stack 4 = v'.a7 := hbankv ▸ stack_bank v'
    have hmaster : v'.stack 6 = u.a7 := by
      rw [hpushedv.stack (by decide : bank true false ≠ 6), stack_setSmFlag]
      exact hbanku ▸ stack_bank u
    have ha7 : (u.setSmFlag true false).a7 = s.stack 4 := by
      have hswitch : (u.setSmFlag true false).stack (bank true false) =
          (u.setSmFlag true false).a7 := stack_bank _
      rw [← hswitch, stack_setSmFlag]
      exact (hpushed.stack (by rw [hbank]; decide)).trans (ht.stack 4)
    refine .inr ⟨rfl, _, _, toNat_format_zero hvector, toNat_format_throwaway hvector,
      hpushedv.cpuType.trans (hpushed.cpuType.trans ht.cpuType), hpushedv.sFlag, hpushedv.mFlag,
      ?_, ?_, ?_, ?_,
      fun hapart ↦ ?_⟩
    · refine (hpushedv.stack (by decide : bank true false ≠ 0)).trans ?_
      rw [stack_setSmFlag, hpushed.stack (by rw [hbank]; decide), ht.stack]
    · refine hinterrupt.trans ?_
      rw [hpushedv.a7, ha7]
    · refine hmaster.trans ?_
      rw [hpushed.a7, hactive, hm]
      rfl
    · rw [show (v'.setPc pc).stack 4 = v'.a7 from hinterrupt, ← ht.pc]
      exact hheaderv.congr fun _ _ ↦ rfl
    · rw [show (v'.setPc pc).stack 4 = v'.a7 from hinterrupt,
        show (v'.setPc pc).stack 6 = u.a7 from hmaster] at hapart
      rw [show (v'.setPc pc).stack 6 = u.a7 from hmaster, ← ht.pc]
      have hcpu : u.cpuType = s.cpuType := hpushed.cpuType.trans ht.cpuType
      refine hheader.congr fun k hk ↦ ?_
      have hlocation : ∀ a, u.location a = s.location a := fun a ↦ by rw [location, location, hcpu]
      have hlocationv : ∀ a, v'.location a = u.location a := fun a ↦ by
        rw [location, location, hpushedv.cpuType]
        rfl
      show v'.memory (v'.location _) = u.memory (u.location _)
      rw [hlocationv]
      refine hpushedv.frame _ fun i hi ↦ ?_
      show u.location _ ≠ _
      rw [hlocation, hlocation, ← hpushedv.a7]
      exact hapart i hi k hk

end Entries

/-! ## RTE after an exception -/

/-- The frames on the interrupt stack and on the master stack are apart. -/
def AreasDisjoint (s s' : Core) : Prop :=
  ∀ i < (s.stack 4 - s'.stack 4).toNat, ∀ j < (s.stack 6 - s'.stack 6).toNat,
    s.location (s'.stack 4 + BitVec.ofNat 32 i) ≠ s.location (s'.stack 6 + BitVec.ofNat 32 j)

/-- A state in which RTE finds what an exception left: its mode, its stack pointers and its frames.
No interrupt is pending above the mask that is to be restored. -/
structure AtRte (s s₁ s' : Core) : Prop where
  cpuType : s'.cpuType = s₁.cpuType
  sFlag : s'.sFlag = s₁.sFlag
  mFlag : s'.mFlag = s₁.mFlag
  stack : ∀ i ∈ [0, 4, 6], s'.stack i = s₁.stack i
  frame : ∀ i ∈ [4, 6], ∀ k < (s.stack i - s₁.stack i).toNat,
    s'.byte (s₁.stack i + BitVec.ofNat 32 k) = s₁.byte (s₁.stack i + BitVec.ofNat 32 k)
  nmiPending : s'.nmiPending = false
  intLevel : ¬ s.intMask < s'.intLevel

/-- RTE undoes an exception: on what it left, RTE restores the status register and the stack
pointers, and goes on at the stacked address. -/
def RteUndoes (iack : BitVec 3 → BitVec 8) (e : Entry) (s : Core) : Prop :=
  ∀ s₁, s.enter iack e = some s₁ → AreasDisjoint s s₁ → ∀ s', AtRte s s₁ s' →
    ∃ fuel s₂, s'.rte iack fuel = some s₂ ∧ s₂.getSr = s.getSr ∧
      (∀ i ∈ [0, 4, 6], s₂.stack i = s.stack i) ∧ s₂.pc = s.returnAddress e

section Undo

variable {iack : BitVec 3 → BitVec 8} {s s₁ s' : Core} {pc : BitVec 32}

theorem Known.size {t : CpuType} {format n : ℕ} (h : Known t format n) :
    8 ≤ n ∧ n ≤ 92 ∧ n % 2 = 0 := by
  rw [Known] at h
  split_ifs at h <;> omega

theorem sub_sub_self (a : BitVec 32) {n : ℕ} (hn : n < 2 ^ 32) :
    (a - (a - BitVec.ofNat 32 n)).toNat = n := by
  rw [toNat_sub, toNat_sub, toNat_ofNat]
  omega

theorem AtRte.a7 (h : AtRte s s₁ s') : s'.a7 = s₁.a7 := by
  rw [← stack_bank s', h.stack _ (bank_mem _ _), h.sFlag, h.mFlag, stack_bank]

theorem AtRte.header (h : AtRte s s₁ s') {i : ℕ} (hi : i ∈ [4, 6]) {sr format : BitVec 16}
    (hsize : 8 ≤ (s.stack i - s₁.stack i).toNat) (hheader : Header s₁ (s₁.stack i) sr pc format) :
    Header s' (s₁.stack i) sr pc format :=
  hheader.congr fun k hk ↦ h.frame i hi k (hk.trans_le hsize)

theorem undo_stackedOne (hs : Valid s) (h : StackedOne s s₁ pc) (hrte : AtRte s s₁ s') : ∃ fuel s₂,
    s'.rte iack fuel = some s₂ ∧ s₂.getSr = s.getSr ∧ (∀ i ∈ [0, 4, 6], s₂.stack i = s.stack i) ∧
      s₂.pc = pc := by
  obtain ⟨format, n, hknown, hstacked⟩ := h
  obtain ⟨hlow, hhigh, heven⟩ := hknown.size
  have hbank : bank true s.mFlag ∈ [4, 6] := by
    cases s.mFlag <;> decide
  have hactive : s₁.stack (bank true s.mFlag) = s₁.a7 := by
    rw [← hstacked.sFlag, ← hstacked.mFlag, stack_bank]
  have hsize : (s.stack (bank true s.mFlag) - s₁.stack (bank true s.mFlag)).toNat = n := by
    rw [hactive, hstacked.a7, sub_sub_self _ (by omega)]
  have hcpu : s'.cpuType = s.cpuType := hrte.cpuType.trans hstacked.cpuType
  have hheader : Header s' s'.a7 s.getSr pc format := by
    rw [hrte.a7, ← hactive]
    exact hrte.header hbank (hsize ▸ hlow) (hactive ▸ hstacked.header)
  have heven' : s'.a7.toNat % 2 = 0 := by
    rw [hrte.a7, hstacked.a7]
    exact sub_even (hs.even _ (bank_mem _ _)) heven
  have hlevel : ¬ (s.getSr &&& s'.cpuType.srMask).extractLsb' 8 3 < s'.intLevel := by
    rw [hcpu, hs.sr, extract_getSr_intMask]
    exact hrte.intLevel
  obtain ⟨s₂, hs₂, hret⟩ : ∃ s₂, s'.rte iack 1 = some s₂ ∧ Returned s' s₂ s.getSr pc n :=
    rte_eq heven' hheader hrte.nmiPending hlevel (hcpu ▸ hknown) (hcpu ▸ hs.cpuType)
      (hrte.sFlag.trans hstacked.sFlag) 0
  refine ⟨_, s₂, hs₂, ?_, fun i hi ↦ ?_, hret.pc⟩
  · rw [hret.sr, hcpu, hs.sr]
  · rw [hret.stack, hrte.sFlag, hrte.mFlag, hstacked.sFlag, hstacked.mFlag]
    by_cases hi' : bank true s.mFlag = i
    · rw [if_pos hi', hrte.a7, hstacked.a7, BitVec.sub_add_cancel, hi']
    · rw [if_neg hi', hrte.stack i hi, hstacked.others i hi']

theorem isEc020Plus_eq {t : CpuType} : t.isEc020Plus = true →
    t.is010 = false ∧ t.srMask.getLsbD 13 = true ∧ t.srMask.getLsbD 12 = true := by
  cases t <;> decide

theorem undo_stackedTwo (hs : Valid s) (hm : s.mFlag = true) {format throwaway : BitVec 16}
    (hformat : (format >>> 12).toNat = 0) (hthrowaway : (throwaway >>> 12).toNat = 1)
    (h : StackedTwo s s₁ pc format throwaway) (hapart : AreasDisjoint s s₁) (hrte : AtRte s s₁ s') :
    ∃ fuel s₂, s'.rte iack fuel = some s₂ ∧ s₂.getSr = s.getSr ∧
      (∀ i ∈ [0, 4, 6], s₂.stack i = s.stack i) ∧
      s₂.pc = pc := by
  have hcpu : s'.cpuType = s.cpuType := hrte.cpuType.trans h.cpuType
  obtain ⟨h010, h13, h12⟩ := isEc020Plus_eq (isEc020Plus_of_mFlag hs hm)
  have hactive : s₁.stack 4 = s₁.a7 := by
    rw [← stack_bank s₁, h.sFlag, h.mFlag]
    rfl
  have hsize4 : (s.stack 4 - s₁.stack 4).toNat = 8 := by
    rw [h.interrupt, sub_sub_self _ (by decide)]
  have hsize6 : (s.stack 6 - s₁.stack 6).toNat = 8 := by rw [h.master, sub_sub_self _ (by decide)]
  have hheader : Header s' s'.a7 (s.getSr ||| 0x2000#16) pc throwaway := by
    rw [hrte.a7, ← hactive]
    exact hrte.header (by decide) hsize4.ge h.header
  have hmaster : Header s' (s'.stack 6) s.getSr pc format := by
    rw [hrte.stack 6 (by decide)]
    refine hrte.header (by decide) hsize6.ge (h.masterHeader fun i hi j hj ↦ ?_)
    exact hapart i (hsize4 ▸ hi) j (hsize6 ▸ hj)
  have heven4 : s'.a7.toNat % 2 = 0 := by
    rw [hrte.a7, ← hactive, h.interrupt]
    exact sub_even (n := 8) (hs.even 4 (by decide)) rfl
  have heven6 : (s'.stack 6).toNat % 2 = 0 := by
    rw [hrte.stack 6 (by decide), h.master]
    exact sub_even (n := 8) (hs.even 6 (by decide)) rfl
  have hsr : ((s.getSr ||| 0x2000#16) &&& s'.cpuType.srMask).getLsbD 13 = true ∧
      ((s.getSr ||| 0x2000#16) &&& s'.cpuType.srMask).getLsbD 12 = true := by
    rw [hcpu, getLsbD_and, getLsbD_and, h13, h12, getLsbD_or, getLsbD_or,
      getLsbD_getSr_master, hm]
    exact ⟨by rw [show (0x2000#16).getLsbD 13 = true from rfl, Bool.or_true, Bool.and_true], rfl⟩
  have hlevel : ¬ (s.getSr &&& s'.cpuType.srMask).extractLsb' 8 3 < s'.intLevel := by
    rw [hcpu, hs.sr, extract_getSr_intMask]
    exact hrte.intLevel
  obtain ⟨s₂, hs₂, hsr₂, hpc₂, h0, h4, h6⟩ := @rte_throwaway iack s' _ _ _ _ _ _ (hcpu ▸ hs.cpuType)
    (hcpu ▸ h010) (hrte.sFlag.trans h.sFlag) (hrte.mFlag.trans h.mFlag) heven4 hheader hthrowaway
    hsr heven6 hmaster hformat hrte.nmiPending hlevel 0
  refine ⟨_, s₂, hs₂, ?_, fun i hi ↦ ?_, hpc₂⟩
  · rw [hsr₂, hcpu, hs.sr]
  · have hcases : i = 0 ∨ i = 4 ∨ i = 6 := by simpa using hi
    rcases hcases with rfl | rfl | rfl
    · rw [h0, hrte.stack 0 (by decide), h.user]
    · rw [h4, hrte.a7, ← hactive, h.interrupt, BitVec.sub_add_cancel]
    · rw [h6, hrte.stack 6 (by decide), h.master, BitVec.sub_add_cancel]

theorem rteUndoes_of_ne (hs : Valid s) {e : Entry} (he : s.Taken e)
    (hne : ¬ (s.cpuType = .ec020 ∧ e = .restartBusError)) : RteUndoes iack e s := by
  intro s₁ h hapart s' hrte
  cases e with
  | trap vector =>
    refine undo_stackedOne hs (stacked_trap hs ?_ h) hrte
    rw [toNat_setWidth]
    omega
  | trapN n =>
    refine undo_stackedOne hs (raise_0000 hs ?_ rfl h) hrte
    rw [toNat_add, toNat_setWidth, toNat_ofNat]
    omega
  | trace => exact undo_stackedOne hs (stacked_trace hs h) hrte
  | privilegeViolation =>
    exact undo_stackedOne hs (raise_0000 hs (by decide) (instructionNo_eq hs) h) hrte
  | illegal => exact undo_stackedOne hs (raise_0000 hs (by decide) (instructionNo_eq hs) h) hrte
  | aLine => exact undo_stackedOne hs (raise_0000 hs (by decide) rfl h) hrte
  | fLine => exact undo_stackedOne hs (raise_0000 hs (by decide) rfl h) hrte
  | formatError => exact undo_stackedOne hs (raise_0000 hs (by decide) rfl h) hrte
  | busError => exact undo_stackedOne hs (stacked_causeBusError hs he h) hrte
  | restartBusError =>
    exact undo_stackedOne hs (stacked_restartBusError hs (fun hcpu ↦ hne ⟨hcpu, rfl⟩) h) hrte
  | interrupt level =>
    rcases stacked_interrupt hs he h with hone | ⟨hm, format, throwaway, hformat, hthrowaway, htwo⟩
    · exact undo_stackedOne hs hone hrte
    · exact undo_stackedTwo hs hm hformat hthrowaway htwo hapart hrte

end Undo

/-! ## The frame of the 68000 on a 68EC020 -/

section Sum

variable {iack : BitVec 3 → BitVec 8} {s s' s'' : Core} {n : ℕ}

/-- The sum of the stack pointers. -/
def stackSum (s : Core) : BitVec 32 := s.stack 0 + s.stack 4 + s.stack 6

/-- A change of the stacks by double words, on one model. -/
structure ByDwords (s s' : Core) : Prop where
  cpuType : s'.cpuType = s.cpuType
  sum : ∃ k, s'.stackSum = s.stackSum + 4#32 * k

theorem ByDwords.of_stack (hcpu : s'.cpuType = s.cpuType) (h : ∀ i, s'.stack i = s.stack i) :
    ByDwords s s' := by
  refine ⟨hcpu, 0#32, ?_⟩
  rw [stackSum, stackSum, h, h, h, mul_zero, BitVec.add_zero]

theorem ByDwords.trans (h : ByDwords s s') (h' : ByDwords s' s'') : ByDwords s s'' := by
  obtain ⟨k, hk⟩ := h.sum
  obtain ⟨k', hk'⟩ := h'.sum
  refine ⟨h'.cpuType.trans h.cpuType, k + k', ?_⟩
  rw [hk', hk, BitVec.mul_add, BitVec.add_assoc]

/-- A move of the active stack pointer moves the sum. -/
theorem stackSum_setA7 (s : Core) (d : BitVec 32) :
    (s.setA7 (s.a7 + d)).stackSum = s.stackSum + d := by
  have hbank := bank_mem s.sFlag s.mFlag
  have hactive := stack_bank s
  have hcases : bank s.sFlag s.mFlag = 0 ∨ bank s.sFlag s.mFlag = 4 ∨ bank s.sFlag s.mFlag = 6 := by
    simpa using hbank
  rw [stackSum, stackSum, stack_setA7, stack_setA7, stack_setA7]
  rcases hcases with h | h | h
  all_goals
    rw [h] at hactive ⊢
    rw [← hactive]
  · rw [if_pos rfl, if_neg (by decide), if_neg (by decide)]
    ac_rfl
  · rw [if_neg (by decide), if_pos rfl, if_neg (by decide)]
    ac_rfl
  · rw [if_neg (by decide), if_neg (by decide), if_pos rfl]
    ac_rfl

theorem Pushed.stackSum (h : Pushed s s' n) : s'.stackSum = s.stackSum + -BitVec.ofNat 32 n := by
  have hstack : ∀ i, s'.stack i = (s.setA7 (s.a7 + -BitVec.ofNat 32 n)).stack i := by
    intro i
    obtain ⟨_, _, _, heq⟩ := h.eq
    rw [heq, ← BitVec.sub_eq_add_neg]
    rfl
  rw [← stackSum_setA7, Core.stackSum, hstack, hstack, hstack]
  rfl

theorem ofNat_dwords (hn : n % 4 = 0) : BitVec.ofNat 32 n = 4#32 * BitVec.ofNat 32 (n / 4) := by
  rw [← ofNat_mul, Nat.mul_div_cancel' (Nat.dvd_of_mod_eq_zero hn)]

theorem Pushed.byDwords (h : Pushed s s' n) (hn : n % 4 = 0) : ByDwords s s' := by
  refine ⟨h.cpuType, -BitVec.ofNat 32 (n / 4), ?_⟩
  rw [h.stackSum, ofNat_dwords hn, BitVec.mul_neg]

/-- The exceptions push frames of whole double words. -/
theorem raise_byDwords {vector : BitVec 32} {prepare : Core → Core}
    {frame : Core → BitVec 16 → List Push} (hprepare : ∀ t, ∃ runMode instrMode,
    prepare t = { t with runMode := runMode, instrMode := instrMode })
    (hframe : frameSize (frame (prepare s.initException.2) s.getSr) % 4 = 0)
    (h : s.raise vector prepare frame = some s') : ByDwords s s' := by
  rw [raise_eq] at h
  obtain ⟨t, ht, hs'⟩ := Option.bind_eq_some_iff.mp h
  obtain ⟨pc, rfl⟩ := jumpVector_eq hs'
  obtain ⟨runMode, instrMode, heq⟩ := hprepare s.initException.2
  have hstart : ByDwords s (prepare s.initException.2) := by
    rw [heq]
    exact .of_stack rfl
      (stack_setSFlag ({ s with t1Flag := false, t0Flag := false, tracing := false } : Core) · true)
  exact (hstart.trans ((pushed_of_pushAll ht).byDwords hframe)).trans (.of_stack rfl fun _ ↦ rfl)

theorem frameSize_header (format : BitVec 16) (pc : BitVec 32) (sr : BitVec 16) :
    frameSize (header format pc sr) % 4 = 0 := by
  have hsize : frameSize (header format pc sr) = 8 := rfl
  rw [hsize]

theorem stackInterrupt_byDwords {sr : BitVec 16} {vector : BitVec 32}
    (h000 : s.cpuType.is000 = false)
    (h : s.stackInterrupt sr vector = some s') : ByDwords s s' := by
  obtain ⟨t, ht, hrest⟩ := Option.bind_eq_some_iff.mp h
  rw [stackFrame0000, h000, if_neg Bool.false_ne_true] at ht
  have hfirst : ByDwords s t := (pushed_of_pushAll ht).byDwords (frameSize_header _ _ _)
  split_ifs at hrest
  · have hswitch :
        ByDwords t (t.setSmFlag t.sFlag false) := .of_stack rfl (stack_setSmFlag t · t.sFlag false)
    exact (hfirst.trans hswitch).trans ((pushed_of_pushAll hrest).byDwords (frameSize_header _ _ _))
  · obtain rfl := Option.some.inj hrest
    exact hfirst

theorem exceptionInterrupt_byDwords {level : BitVec 3} (h000 : s.cpuType.is000 = false)
    (h : s.exceptionInterrupt iack level = some s') : ByDwords s s' := by
  by_cases hstopped : s.stopped &&& ~~~1#32 = 0#32
  · obtain ⟨t, v, pc, ht, -, hv, rfl⟩ := exceptionInterrupt_eq h000 hstopped h
    have hstack := stackInterrupt_byDwords (ht.cpuType ▸ h000) hv
    exact ((ByDwords.of_stack ht.cpuType ht.stack).trans hstack).trans (.of_stack rfl fun _ ↦ rfl)
  · have hno : s.instructionNo = s := if_neg (Bool.eq_false_iff.mp h000)
    rw [exceptionInterrupt, hno, if_pos (show s.endStop.stopped ≠ 0#32 from hstopped)] at h
    obtain rfl := Option.some.inj h
    exact .of_stack rfl fun _ ↦ rfl

theorem setSr_byDwords {sr : BitVec 16} (h000 : s.cpuType.is000 = false)
    (h : s.setSr iack sr = some s') : ByDwords s s' := by
  have hset : ByDwords s (s.setSrNoint sr) := .of_stack rfl (stack_setSrNoint s sr)
  refine hset.trans ?_
  rw [setSr, checkInterrupts] at h
  split_ifs at h
  · have hnmi : ByDwords (s.setSrNoint sr) { s.setSrNoint sr with
        nmiPending := false } := .of_stack rfl fun _ ↦ rfl
    exact hnmi.trans (exceptionInterrupt_byDwords h000 h)
  · exact exceptionInterrupt_byDwords h000 h
  · obtain rfl := Option.some.inj h
    exact .of_stack rfl fun _ ↦ rfl

theorem pull16_eq_some {value : BitVec 16} (h : s.pull16 = some (value, s')) :
    s' = (s.setA7 (s.a7 + 2#32)).access 1#16 szWord := by
  rw [pull16, read16] at h
  split_ifs at h
  exact (congrArg Prod.snd (Option.some.inj h)).symm

theorem pull32_eq_some {value : BitVec 32} (h : s.pull32 = some (value, s')) :
    s' = (s.setA7 (s.a7 + 4#32)).access 1#16 szLong := by
  rw [pull32, read32] at h
  split_ifs at h
  exact (congrArg Prod.snd (Option.some.inj h)).symm

/-- A move of the stack pointer by whole double words. -/
theorem byDwords_setA7 (s : Core) (hn : n % 4 = 0) :
    ByDwords s (s.setA7 (s.a7 + BitVec.ofNat 32 n)) := by
  refine ⟨rfl, BitVec.ofNat 32 (n / 4), ?_⟩
  rw [stackSum_setA7, ofNat_dwords hn]

theorem returnFrom_byDwords {sizes : List ℕ} (hsizes : (6 + sizes.sum) % 4 = 0)
    (h000 : s.cpuType.is000 = false) (h : s.returnFrom iack sizes = some s') : ByDwords s s' := by
  obtain ⟨⟨sr, t⟩, ht, h₁⟩ := Option.bind_eq_some_iff.mp h
  obtain ⟨⟨pc, u⟩, hu, h₂⟩ := Option.bind_eq_some_iff.mp h₁
  obtain ⟨v, hv, h₃⟩ := Option.bind_eq_some_iff.mp h₂
  obtain rfl := Option.some.inj h₃
  have htEq := pull16_eq_some ht
  have huEq := pull32_eq_some hu
  subst htEq huEq
  have hpulled : ByDwords s (({ (((s.setA7 (s.a7 + 2#32)).access 1#16 szWord).setA7
      (s.a7 + 2#32 + 4#32)).access 1#16 szLong |>.fakePull sizes with pc := pc } : Core)) := by
    refine (byDwords_setA7 s hsizes).trans (.of_stack rfl fun i ↦ ?_)
    rw [← foldl_pulls]
    rfl
  exact (hpulled.trans (setSr_byDwords h000 hv)).trans (.of_stack rfl fun _ ↦ rfl)

theorem exceptionFormatError_byDwords (h000 : s.cpuType.is000 = false)
    (h : s.exceptionFormatError = some s') : ByDwords s s' := by
  refine raise_byDwords prepare_id ?_ h
  rw [id_eq, stackFrame0000, show s.initException.2.cpuType.is000 = false from h000,
    if_neg Bool.false_ne_true]
  exact frameSize_header _ _ _

theorem rteLoop_byDwords {fuel : ℕ} (h000 : s.cpuType.is000 = false)
    (h : s.rteLoop iack fuel = some s') : ByDwords s s' := by
  induction fuel generalizing s with
  | zero => cases h
  | succ fuel ih =>
    obtain ⟨⟨formatWord, t⟩, ht, hrest⟩ := Option.bind_eq_some_iff.mp h
    have htEq : t = s.access 1#16 szWord := by
      rw [read16] at ht
      split_ifs at ht
      exact (congrArg Prod.snd (Option.some.inj ht)).symm
    have hstart : ByDwords s t := htEq ▸ .of_stack rfl fun _ ↦ rfl
    have h000t : t.cpuType.is000 = false := hstart.cpuType ▸ h000
    refine hstart.trans ?_
    dsimp only at hrest
    split at hrest
    · exact returnFrom_byDwords rfl h000t hrest
    · obtain ⟨⟨sr, u⟩, hu, hloop⟩ := Option.bind_eq_some_iff.mp hrest
      have huEq := pull16_eq_some hu
      subst huEq
      have hpulled : ByDwords t
          ((((t.setA7 (t.a7 + 2#32)).access 1#16 szWord).fakePull [4, 2]).setSrNoint sr) := by
        refine (byDwords_setA7 t (n := 8) rfl).trans (.of_stack rfl fun i ↦ ?_)
        rw [stack_setSrNoint]
        show (t.setA7 (t.a7 + 2#32 + 4#32 + 2#32)).stack i = (t.setA7 (t.a7 + 8#32)).stack i
        rw [BitVec.add_assoc, BitVec.add_assoc]
        rfl
      exact hpulled.trans (ih (hpulled.cpuType ▸ h000t) hloop)
    · exact returnFrom_byDwords rfl h000t hrest
    · exact returnFrom_byDwords rfl h000t hrest
    · exact returnFrom_byDwords rfl h000t hrest
    · exact returnFrom_byDwords rfl h000t hrest
    · have hmode :
          ByDwords t { t with instrMode := 0#32, runMode := .normal } := .of_stack rfl fun _ ↦ rfl
      exact hmode.trans (exceptionFormatError_byDwords h000t hrest)

theorem rte020_byDwords {fuel : ℕ} (h000 : s.cpuType.is000 = false)
    (h : s.rte020 iack fuel = some s') : ByDwords s s' := by
  rw [rte020] at h
  split_ifs at h
  · have htrace : ByDwords s s.traceT0 := .of_stack rfl fun _ ↦ rfl
    exact htrace.trans (rteLoop_byDwords h000 h)
  · refine raise_byDwords prepare_instructionNo ?_ h
    have hno : s.initException.2.instructionNo = s.initException.2 :=
      if_neg (Bool.eq_false_iff.mp h000)
    rw [hno, stackFrame0000, show s.initException.2.cpuType.is000 = false from h000,
      if_neg Bool.false_ne_true]
    exact frameSize_header _ _ _

theorem restartBusError_ec020 (hs : Valid s) (hcpu : s.cpuType = .ec020) :
    ∃ s₁, s.restartBusError = some s₁ ∧ s₁.cpuType = .ec020 ∧ s₁.stackSum = s.stackSum + -14#32 ∧
      ∀ i, bank true s.mFlag ≠ i → s₁.stack i = s.stack i := by
  let t := s.initException.2.setRunMode .berrAerrReset
  have htcpu : t.cpuType = .ec020 := hcpu
  have hframe : t.restartBusErrorFrame s.getSr = t.stackFrameBuserr s.getSr := by
    rw [restartBusErrorFrame, htcpu]
    rfl
  have hstack : ∀ i, t.stack i = s.stack i := fun i ↦
    stack_setSFlag ({ s with t1Flag := false, t0Flag := false, tracing := false } : Core) i true
  have ha7 : t.a7 = s.stack (bank true s.mFlag) := by
    rw [← hstack]
    exact (stack_bank t).symm
  obtain ⟨u, hu, hpushed⟩ :=
    exists_pushAll (s := t) (ha7 ▸ hs.even _ (bank_mem _ _)) (t.stackFrameBuserr s.getSr)
  have hsize : frameSize (t.stackFrameBuserr s.getSr) = 14 := rfl
  rw [hsize] at hpushed
  have hucpu : u.cpuType = .ec020 := hpushed.cpuType.trans htcpu
  have hvector : ∃ pc, u.jumpVector 2#32 = some ((u.access 1#16 szLong).setPc pc) := by
    refine ⟨_, congrArg (Option.bind · _) (if_neg ?_)⟩
    rw [addressError, hucpu]
    exact Bool.false_ne_true
  obtain ⟨pc, hpc⟩ := hvector
  refine ⟨(u.access 1#16 szLong).setPc pc, ?_, hucpu, ?_, fun i hi ↦ ?_⟩
  · rw [restartBusError, raise_eq, hframe, hu, Option.bind_some, hpc]
  · refine hpushed.stackSum.trans ?_
    rw [stackSum, stackSum, hstack, hstack, hstack]
  · exact (hpushed.stack hi).trans (hstack i)

/-- What RTE makes of that frame moves the stacks by double words, and so never back. -/
theorem not_rteUndoes_ec020 (hs : Valid s) (hcpu : s.cpuType = .ec020) :
    ¬ RteUndoes iack .restartBusError s := by
  intro hundo
  obtain ⟨s₁, h₁, hcpu₁, hsum₁, hothers⟩ := restartBusError_ec020 hs hcpu
  have hapart : AreasDisjoint s s₁ := by
    intro i hi j hj
    cases hm : s.mFlag with
    | false =>
      rw [hothers 6 (by rw [hm]; decide), BitVec.sub_self] at hj
      exact absurd hj (Nat.not_lt_zero j)
    | true =>
      rw [hothers 4 (by rw [hm]; decide), BitVec.sub_self] at hi
      exact absurd hi (Nat.not_lt_zero i)
  let s' : Core := { s₁ with nmiPending := false, intLevel := 0#3 }
  have hrte : AtRte s s₁ s' :=
    ⟨rfl, rfl, rfl, fun _ _ ↦ rfl, fun _ _ _ _ ↦ rfl, rfl, BitVec.not_lt_zero⟩
  obtain ⟨fuel, s₂, hs₂, -, hrestored, -⟩ := hundo s₁ h₁ hapart s' hrte
  have hs'cpu : s'.cpuType = .ec020 := hcpu₁
  rw [rte_eq_rte020 (by rw [hs'cpu]; rfl) (by rw [hs'cpu]; rfl)] at hs₂
  obtain ⟨k, hk⟩ := (rte020_byDwords (by rw [hs'cpu]; rfl) hs₂).sum
  have hback : s₂.stackSum = s.stackSum := by
    rw [stackSum, stackSum, hrestored 0 (by decide), hrestored 4 (by decide),
      hrestored 6 (by decide)]
  rw [hback, show s'.stackSum = s₁.stackSum from rfl, hsum₁] at hk
  have hnat := congrArg BitVec.toNat hk
  rw [toNat_add, toNat_add, toNat_mul] at hnat
  have hneg : (-14#32).toNat = 2 ^ 32 - 14 := rfl
  have hfour : (4#32).toNat = 4 := rfl
  rw [hneg, hfour] at hnat
  omega

end Sum

/-! ## The result -/

section Result

/-- RTE undoes an exception if and only if it is not the bus error of a restarted instruction on a
68EC020. -/
theorem rteUndoes_iff (iack : BitVec 3 → BitVec 8) (e : Entry) (s : Core) (hs : Valid s)
    (he : s.Taken e) : RteUndoes iack e s ↔ ¬ (s.cpuType = .ec020 ∧ e = .restartBusError) := by
  constructor
  · rintro hundo ⟨hcpu, rfl⟩
    exact not_rteUndoes_ec020 hs hcpu hundo
  · exact rteUndoes_of_ne hs he

/-- A processor in supervisor mode over cleared memory, with its stacks apart. -/
def idle (cpuType : CpuType) (mFlag : Bool) : Core where
  cpuType := cpuType
  a7 := if mFlag then 0x3000#32 else 0x2000#32
  sp i := BitVec.ofNat 32 (if i = 0 then 0x1000 else if i = 4 then 0x2000 else 0x3000)
  t1Flag := false
  t0Flag := false
  sFlag := true
  mFlag := mFlag
  intMask := 2#3
  xFlag := 0#32
  nFlag := 0x80#32
  notZFlag := 1#32
  vFlag := 0#32
  cFlag := 0x100#32
  pc := 0x402#32
  ppc := 0x400#32
  vbr := 0#32
  ir := 0#16
  aerrAddress := 0#32
  aerrWriteMode := 0#32
  aerrFc := 0#32
  instrMode := 0#32
  mmuTmpFc := 5#16
  mmuTmpRw := 1#16
  mmuTmpSz := szWord
  mmuTmpBuserrorAddress := 0#32
  mmuTmpBuserrorFc := 0#16
  mmuTmpBuserrorRw := 0#16
  mmuTmpBuserrorSz := 0#16
  runMode := .normal
  tracing := false
  stopped := 0#32
  nmiPending := false
  intLevel := 3#3
  memory _ := 0#8

/-- An interrupt with the master stack in use, through the throwaway frame. -/
theorem rteUndoes_idle_interrupt :
    ((idle .cpu030 true).enter (fun _ ↦ 64#8) (.interrupt 3#3)).isSome = true ∧
      RteUndoes (fun _ ↦ 64#8) (.interrupt 3#3) (idle .cpu030 true) := by
  have hvalid : Valid (idle .cpu030 true) := ⟨rfl, by decide, by decide⟩
  refine ⟨by decide +kernel, (rteUndoes_iff _ _ _ hvalid ?_).mpr ?_⟩
  · exact rfl
  · rintro ⟨h, -⟩
    cases h

/-- The 68EC020 breaks it. -/
theorem not_rteUndoes_idle : ¬ ∀ (iack : BitVec 3 → BitVec 8) (e : Entry) (s : Core), Valid s →
    s.Taken e → RteUndoes iack e s := by
  intro h
  have hvalid : Valid (idle .ec020 false) := ⟨rfl, by decide, by decide⟩
  exact not_rteUndoes_ec020 hvalid rfl (h (fun _ ↦ 0#8) .restartBusError _ hvalid trivial)

end Result

end Core

end RoscoEmulator.M68k
