import RoscoEmulator.M68k.Exceptions

/-!
# RTE

The return from an exception, for each of the models, and what it does with the frames that the
exceptions push: RTE pulls what an exception pushed, on the same stack, and with it the status
register. -/

namespace RoscoEmulator.M68k

open BitVec Option

namespace Core

/-! ## Pulls -/

/-- `m68ki_pull_16`. -/
def pull16 (s : Core) : Option (BitVec 16 × Core) :=
  (s.setA7 (s.a7 + 2#32)).read16 (s.a7 + 2#32 - 2#32)

/-- `m68ki_pull_32`. -/
def pull32 (s : Core) : Option (BitVec 32 × Core) :=
  (s.setA7 (s.a7 + 4#32)).read32 (s.a7 + 4#32 - 4#32)

/-- `m68ki_fake_pull_16` and `m68ki_fake_pull_32`, by their sizes. -/
def fakePull (sizes : List ℕ) (s : Core) : Core :=
  s.setA7 (sizes.foldl (fun a n ↦ a + BitVec.ofNat 32 n) s.a7)

variable (iack : BitVec 3 → BitVec 8)

/-- `m68ki_check_interrupts`. -/
def checkInterrupts (s : Core) : Option Core :=
  if s.nmiPending then ({ s with nmiPending := false } : Core).exceptionInterrupt iack 7#3
  else if s.intMask < s.intLevel then s.exceptionInterrupt iack s.intLevel
  else some s

/-- `m68ki_set_sr`. -/
def setSr (value : BitVec 16) (s : Core) : Option Core := (s.setSrNoint value).checkInterrupts iack

/-- What the frames share: the status register and the program counter are pulled and set, the rest
of the frame is skipped. -/
def returnFrom (sizes : List ℕ) (s : Core) : Option Core := do
  let (sr, s) ← s.pull16
  let (pc, s) ← s.pull32
  let s := s.fakePull sizes
  let s ← ({ s with pc := pc } : Core).setSr iack sr
  some { s with instrMode := 0#32, runMode := .normal }

def traceT0 (s : Core) : Core := { s with tracing := s.tracing || s.t0Flag }

/-- What RTE does with a frame that it does not know. -/
def returnFormatError (s : Core) : Option Core :=
  ({ s with instrMode := 0#32, runMode := .normal } : Core).exceptionFormatError

/-- RTE of the 68000. -/
def rte000 (s : Core) : Option Core :=
  if s.sFlag then s.traceT0.returnFrom iack [] else s.exceptionPrivilegeViolation

/-- RTE of the 68010. -/
def rte010 (s : Core) : Option Core :=
  if s.sFlag then do
    let s := s.traceT0
    let (formatWord, s) ← s.read16 (s.a7 + 6#32)
    match (formatWord >>> 12).toNat with
    | 0 => s.returnFrom iack [2]
    | 8 =>
      -- the special status word, the fault address, the buffers and the undocumented data
      s.returnFrom iack [2, 2, 4, 4, 4, 4, 4, 4, 4, 4, 4, 4, 4, 4]
    | _ => s.returnFormatError
  else s.exceptionPrivilegeViolation

/-- The loop of RTE from the 68020 on, which goes on after a throwaway frame. -/
def rteLoop : ℕ → Core → Option Core
  | 0, _ => none
  | fuel + 1, s => do
    let (formatWord, s) ← s.read16 (s.a7 + 6#32)
    match (formatWord >>> 12).toNat with
    | 0 => s.returnFrom iack [2]
    | 1 =>
      let (sr, s) ← s.pull16
      rteLoop fuel ((s.fakePull [4, 2]).setSrNoint sr)
    | 2 => s.returnFrom iack [2, 4]
    | 7 => s.returnFrom iack [2, 4, 2, 2, 2, 2, 4, 4, 4, 4, 4, 4, 4, 4, 4, 4]
    | 10 => s.returnFrom iack [2, 2, 2, 2, 2, 4, 4, 4, 4]
    | 11 =>
      s.returnFrom iack [2, 2, 2, 2, 2, 4, 4, 4, 4, 4, 4, 4, 4, 4, 2, 2, 4, 4, 4, 4, 4, 4, 4, 4, 4]
    | _ => s.returnFormatError

/-- RTE from the 68020 on. -/
def rte020 (fuel : ℕ) (s : Core) : Option Core :=
  if s.sFlag then s.traceT0.rteLoop iack fuel else s.exceptionPrivilegeViolation

/-- RTE, by the handler that the model has for it. -/
def rte (fuel : ℕ) (s : Core) : Option Core :=
  match s.cpuType with
  | .cpu000 | .cpu008 => s.rte000 iack
  | .cpu010 | .scc070 => s.rte010 iack
  | _ => s.rte020 iack fuel

/-! ## The return from one frame -/

section Return

variable {s : Core} {iack} {sr : BitVec 16} {pc : BitVec 32} {format : BitVec 16} {a : BitVec 32}

theorem Header.congr {t : Core} (h : Header s a sr pc format) (hbyte : ∀ k < 8,
    t.byte (a + BitVec.ofNat 32 k) = s.byte (a + BitVec.ofNat 32 k)) : Header t a sr pc format := by
  have h0 := hbyte 0 (by decide)
  have hnear (i k : ℕ) (hk : i + k < 8) :
      t.byte (a + BitVec.ofNat 32 i + BitVec.ofNat 32 k) =
        s.byte (a + BitVec.ofNat 32 i + BitVec.ofNat 32 k) := by
    rw [BitVec.add_assoc, ← ofNat_add]
    exact hbyte (i + k) hk
  rw [BitVec.add_zero] at h0
  refine ⟨?_, ?_, ?_⟩
  · rw [h0, hbyte 1 (by decide), h.sr]
  · rw [hbyte 2 (by decide), hnear 2 1 (by decide), hnear 2 2 (by decide),
      hnear 2 3 (by decide), h.pc]
  · rw [hbyte 6 (by decide), hnear 6 1 (by decide), h.format]

theorem stack_setA7 (s : Core) (i : ℕ) :
    (s.setA7 a).stack i = if bank s.sFlag s.mFlag = i then a else s.stack i := by
  show (if bank s.sFlag s.mFlag = i then a else s.sp i) = _
  rw [stack]
  by_cases h : bank s.sFlag s.mFlag = i
  · rw [if_pos h, if_pos h]
  · rw [if_neg h, if_neg h, if_neg h]

theorem foldl_sizes (sizes : List ℕ) (a : BitVec 32) :
    sizes.foldl (fun a n ↦ a + BitVec.ofNat 32 n) a = a + BitVec.ofNat 32 sizes.sum := by
  induction sizes generalizing a with
  | nil => exact (BitVec.add_zero a).symm
  | cons n sizes ih => rw [List.foldl_cons, ih, List.sum_cons, ofNat_add, BitVec.add_assoc]

theorem foldl_pulls (sizes : List ℕ) (a : BitVec 32) : sizes.foldl (fun a n ↦ a + BitVec.ofNat 32 n)
    (a + 2#32 + 4#32) = a + BitVec.ofNat 32 (6 + sizes.sum) := by
  rw [foldl_sizes, BitVec.add_assoc a 2#32 4#32, BitVec.add_assoc, ofNat_add]
  rfl

variable {n : ℕ}

theorem add_even (h : a.toNat % 2 = 0) (hn : n % 2 = 0) :
    (a + BitVec.ofNat 32 n).toNat % 2 = 0 := by
  rw [toNat_add, toNat_ofNat]
  omega

theorem read16_eq (heven : a.toNat % 2 = 0) (s : Core) :
    s.read16 a = some (s.byte a ++ s.byte (a + 1#32), s.access 1#16 szWord) := by
  rw [read16, addressError_of_even heven]
  rfl

theorem read32_eq (heven : a.toNat % 2 = 0) (s : Core) : s.read32 a = some (s.byte a ++
    s.byte (a + 1#32) ++ s.byte (a + 2#32) ++ s.byte (a + 3#32), s.access 1#16 szLong) := by
  rw [read32, addressError_of_even heven]
  rfl

theorem pull16_eq (heven : s.a7.toNat % 2 = 0) (h : Header s s.a7 sr pc format) :
    s.pull16 = some (sr, (s.setA7 (s.a7 + 2#32)).access 1#16 szWord) := by
  rw [pull16, BitVec.add_sub_cancel, read16_eq heven]
  exact congrArg (fun x ↦ some (x, _)) h.sr

theorem checkInterrupts_eq (hnmi : s.nmiPending = false) (hlevel : ¬ s.intMask < s.intLevel) :
    s.checkInterrupts iack = some s := by
  rw [checkInterrupts, hnmi, if_neg Bool.false_ne_true, if_neg hlevel]

/-- A return with so many bytes pulled. -/
structure Returned (s s' : Core) (sr : BitVec 16) (pc : BitVec 32) (n : ℕ) : Prop where
  sr : s'.getSr = sr &&& s.cpuType.srMask
  pc : s'.pc = pc
  stack : ∀ i, s'.stack i = if bank s.sFlag s.mFlag = i then s.a7 + BitVec.ofNat 32 n else s.stack i

theorem rte_eq_rte010 (h : s.cpuType.is010 = true) (fuel : ℕ) :
    s.rte iack fuel = s.rte010 iack := by
  rw [rte, eq_of_beq h]

theorem rte_eq_rte020 (hcpu : s.cpuType.is010Plus) (h : s.cpuType.is010 = false) (fuel : ℕ) :
    s.rte iack fuel = s.rte020 iack fuel := by
  rw [rte]
  split
  case h_1 ht | h_2 ht | h_4 ht =>
    rw [ht] at hcpu
    cases hcpu
  case h_3 ht =>
    rw [ht] at h
    cases h
  case h_5 => rfl

/-- The frames that RTE of a model knows, by the format and the size. -/
def Known (t : CpuType) (format n : ℕ) : Prop :=
  if t.is010 then format = 0 ∧ n = 8 ∨ format = 8 ∧ n = 58
  else format = 0 ∧ n = 8 ∨ format = 2 ∧ n = 12 ∨ format = 7 ∧ n = 60 ∨ format = 10 ∧ n = 32 ∨
    format = 11 ∧ n = 92

section

variable (heven : s.a7.toNat % 2 = 0) (h : Header s s.a7 sr pc format) (hnmi : s.nmiPending = false)
    (hlevel : ¬ (sr &&& s.cpuType.srMask).extractLsb' 8 3 < s.intLevel)

include heven h hnmi hlevel

/-- A return pulls the frame and sets what its end holds. -/
theorem returnFrom_eq (sizes : List ℕ) :
    ∃ s', s.returnFrom iack sizes = some s' ∧ Returned s s' sr pc (6 + sizes.sum) := by
  have hpull : ∀ t : Core, t.a7 = s.a7 + 2#32 → (∀ b, t.byte b = s.byte b) →
      t.pull32 = some (pc, (t.setA7 (t.a7 + 4#32)).access 1#16 szLong) := by
    intro t ht hbyte
    rw [pull32, BitVec.add_sub_cancel, ht, read32_eq (add_even (n := 2) heven rfl)]
    refine congrArg (fun x ↦ some (x, _)) (Eq.trans ?_ h.pc)
    rw [← hbyte, ← hbyte, ← hbyte, ← hbyte]
    rfl
  let pulled :=
    ((((s.setA7 (s.a7 + 2#32)).access 1#16 szWord).setA7 (s.a7 + 2#32 + 4#32)).access 1#16
      szLong).fakePull sizes
  let u : Core := { pulled with pc := pc }
  have hcheck : u.setSr iack sr = some (u.setSrNoint sr) := checkInterrupts_eq hnmi hlevel
  have hreturn : s.returnFrom iack sizes =
      some { u.setSrNoint sr with instrMode := 0#32, runMode := .normal } := by
    have hpc := hpull ((s.setA7 (s.a7 + 2#32)).access 1#16 szWord) rfl fun _ ↦ rfl
    rw [returnFrom, pull16_eq heven h, bind_eq_bind, bind_some]
    dsimp only
    rw [hpc, bind_eq_bind, bind_some]
    exact congrArg (fun x : Option Core ↦ x.bind fun s ↦
      some { s with instrMode := 0#32, runMode := .normal }) hcheck
  refine ⟨_, hreturn, getSr_setSrNoint u sr, rfl, fun i ↦ ?_⟩
  rw [← foldl_pulls]
  exact (stack_setSrNoint u sr i).trans (stack_setA7 s i)

variable (hknown : Known s.cpuType (format >>> 12).toNat n)

include hknown

theorem rteLoop_eq (h010 : s.cpuType.is010 = false) (fuel : ℕ) :
    ∃ s', s.rteLoop iack (fuel + 1) = some s' ∧ Returned s s' sr pc n := by
  have hreturn : ∀ sizes : List ℕ, ∃ s', (s.access 1#16 szWord).returnFrom iack sizes = some s' ∧
      Returned s s' sr pc (6 + sizes.sum) := by
    intro sizes
    obtain ⟨s', hs', hret⟩ :=
      returnFrom_eq (s := s.access 1#16 szWord) heven (h.congr fun _ _ ↦ rfl) hnmi hlevel sizes
    exact ⟨s', hs', hret.sr, hret.pc, hret.stack⟩
  rw [Known, h010, if_neg Bool.false_ne_true] at hknown
  rw [rteLoop, read16_eq (add_even (n := 6) heven rfl), h.format, bind_eq_bind, bind_some]
  dsimp only
  rcases hknown with
    ⟨hformat, rfl⟩ | ⟨hformat, rfl⟩ | ⟨hformat, rfl⟩ | ⟨hformat, rfl⟩ | ⟨hformat, rfl⟩
  all_goals
    rw [hformat]
    exact hreturn _

theorem rte010_eq (h010 : s.cpuType.is010 = true) (hs : s.sFlag = true) :
    ∃ s', s.rte010 iack = some s' ∧ Returned s s' sr pc n := by
  have hreturn : ∀ sizes : List ℕ, ∃ s', (s.traceT0.access 1#16 szWord).returnFrom iack sizes =
      some s' ∧ Returned s s' sr pc (6 + sizes.sum) := by
    intro sizes
    obtain ⟨s', hs', hret⟩ :=
      returnFrom_eq (s := s.traceT0.access 1#16 szWord) heven
        (h.congr fun _ _ ↦ rfl) hnmi hlevel sizes
    exact ⟨s', hs', hret.sr, hret.pc, hret.stack⟩
  have hread := read16_eq (add_even (n := 6) heven rfl) s.traceT0
  rw [(h.congr (t := s.traceT0) fun _ _ ↦ rfl).format] at hread
  rw [Known, h010, if_pos rfl] at hknown
  rw [rte010, if_pos hs]
  show ∃ s', (s.traceT0.read16 (s.a7 + 6#32)).bind _ = _ ∧ _
  rw [hread, bind_some]
  dsimp only
  rcases hknown with ⟨hformat, rfl⟩ | ⟨hformat, rfl⟩
  all_goals
    rw [hformat]
    exact hreturn _

theorem rte_eq (hcpu : s.cpuType.is010Plus) (hs : s.sFlag = true) (fuel : ℕ) :
    ∃ s', s.rte iack (fuel + 1) = some s' ∧ Returned s s' sr pc n := by
  cases h010 : s.cpuType.is010 with
  | true =>
    rw [rte_eq_rte010 h010]
    exact rte010_eq heven h hnmi hlevel hknown h010 hs
  | false =>
    rw [rte_eq_rte020 hcpu h010, rte020, if_pos hs]
    obtain ⟨s', hs', hret⟩ :=
      rteLoop_eq (s := s.traceT0) heven (h.congr fun _ _ ↦ rfl) hnmi hlevel hknown h010 fuel
    exact ⟨s', hs', hret.sr, hret.pc, hret.stack⟩

end

/-- RTE pulls a throwaway frame, changes to the master stack and returns from the frame there. -/
theorem rte_throwaway {sr' : BitVec 16} {pc' : BitVec 32} {throwaway : BitVec 16}
    (hcpu : s.cpuType.is010Plus) (h010 : s.cpuType.is010 = false) (hs : s.sFlag = true)
    (hm : s.mFlag = false) (heven : s.a7.toNat % 2 = 0) (h : Header s s.a7 sr pc throwaway)
    (hthrowaway : (throwaway >>> 12).toNat = 1) (hsr : (sr &&& s.cpuType.srMask).getLsbD 13 = true ∧
    (sr &&& s.cpuType.srMask).getLsbD 12 = true)
    (heven' : (s.stack 6).toNat % 2 = 0) (h' : Header s (s.stack 6) sr' pc' format)
    (hformat : (format >>> 12).toNat = 0) (hnmi : s.nmiPending = false)
    (hlevel : ¬ (sr' &&& s.cpuType.srMask).extractLsb' 8 3 < s.intLevel) (fuel : ℕ) :
    ∃ s', s.rte iack (fuel + 2) = some s' ∧ s'.getSr = sr' &&& s.cpuType.srMask ∧ s'.pc = pc' ∧
      s'.stack 0 = s.stack 0 ∧ s'.stack 4 = s.a7 + 8#32 ∧ s'.stack 6 = s.stack 6 + 8#32 := by
  let t := (s.traceT0.access 1#16 szWord)
  have htHeader : Header t t.a7 sr pc throwaway := h.congr fun _ _ ↦ rfl
  let v := ((t.setA7 (t.a7 + 2#32)).access 1#16 szWord).fakePull [4, 2]
  let u := v.setSrNoint sr
  have hread : s.traceT0.read16 (s.traceT0.a7 + 6#32) = some (throwaway, t) := by
    refine (read16_eq (add_even (n := 6) heven rfl) s.traceT0).trans ?_
    exact congrArg (fun x ↦ some (x, t)) (h.congr (t := s.traceT0) fun _ _ ↦ rfl).format
  have hloop : s.rte iack (fuel + 2) = u.rteLoop iack (fuel + 1) := by
    rw [rte_eq_rte020 hcpu h010, rte020, if_pos hs, rteLoop, hread, bind_eq_bind, bind_some]
    dsimp only
    rw [hthrowaway]
    exact congrArg (fun x : Option (BitVec 16 × Core) ↦ x.bind fun p ↦
      rteLoop iack (fuel + 1) ((p.2.fakePull [4, 2]).setSrNoint p.1))
        (pull16_eq (s := t) heven htHeader)
  have hbank : bank s.sFlag s.mFlag = 4 := by
    rw [hs, hm]
    rfl
  have hstack : ∀ i, u.stack i = if 4 = i then s.a7 + 8#32 else s.stack i := by
    intro i
    rw [stack_setSrNoint, ← hbank]
    refine (stack_setA7 ((t.setA7 (t.a7 + 2#32)).access 1#16 szWord) i).trans ?_
    rw [foldl_sizes]
    show (if bank s.sFlag s.mFlag = i then s.a7 + 2#32 +
        6#32 else (t.setA7 (t.a7 + 2#32)).stack i) = _
    rw [stack_setA7, BitVec.add_assoc]
    show (if bank s.sFlag s.mFlag = i then _ else if bank s.sFlag s.mFlag = i then _
        else s.stack i) = _
    by_cases hi : bank s.sFlag s.mFlag = i
    · rw [if_pos hi, if_pos hi]
      rfl
    · rw [if_neg hi, if_neg hi, if_neg hi]
  have hbanku : bank u.sFlag u.mFlag = 6 := by
    show bank ((sr &&& s.cpuType.srMask).getLsbD 13) ((sr &&& s.cpuType.srMask).getLsbD 12) = 6
    rw [hsr.1, hsr.2]
    rfl
  have ha7 : u.a7 = s.stack 6 := by
    rw [← stack_bank, hbanku, hstack]
    rfl
  have hheader : Header u u.a7 sr' pc' format := by
    rw [ha7]
    exact h'.congr fun _ _ ↦ rfl
  have hknown : Known u.cpuType (format >>> 12).toNat 8 := by
    rw [hformat, Known]
    split_ifs
    · exact .inl ⟨rfl, rfl⟩
    · exact .inl ⟨rfl, rfl⟩
  obtain ⟨s', hs', hret⟩ := rteLoop_eq (s := u) (ha7 ▸ heven') hheader hnmi hlevel hknown h010 fuel
  refine ⟨s', hloop.trans hs', hret.sr, hret.pc, ?_, ?_, ?_⟩
  · rw [hret.stack, hbanku, hstack]
    rfl
  · rw [hret.stack, hbanku, hstack]
    rfl
  · rw [hret.stack, hbanku, ha7]
    rfl

end Return

end Core

end RoscoEmulator.M68k
