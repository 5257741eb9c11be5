import RoscoEmulator.Lib.GuardedRun
import RoscoEmulator.M68k.Pmmu

/-!
# Enabling the PMMU

`PMOVE` to the translation control register enables the translation if the register has its enable
bit and fields that fit, and disables it if the bit is clear. A value with the bit that does not fit
is rejected: the bit is cleared in the register and the CPU takes the configuration exception. The
flag of the translation is left alone then. So it stays set if it was, next to a register without
the bit whose fields do not fit. -/

namespace RoscoEmulator.M68k

/-- What the effective address of a `PMOVE` reads. -/
structure Operand where
  word : BitVec 16
  long : BitVec 32
  quad : BitVec 64

/-- What becomes of a `PMOVE` outside of the PMMU. -/
inductive Effect
  | none
  /-- `m68ki_exception_1111`. -/
  | exception1111
  /-- `EXCEPTION_MMU_CONFIGURATION`. -/
  | mmuConfiguration
  | writeEa16 (value : BitVec 16)
  | writeEa32 (value : BitVec 32)
  | writeEa64 (value : BitVec 64)
deriving DecidableEq

namespace Pmmu

/-- The loop over the table index fields in `m68851_pmove_put`, from the field at `shift` on. -/
def addFields (tc : BitVec 32) : ℕ → List ℕ → ℕ
  | bits, [] => bits
  | bits, shift :: shifts =>
      let ti := tableIndex tc shift
      if ti = 0 then bits else addFields tc (bits + ti) shifts

/-- A flush after a move to a register, if the flush-disable bit is clear. -/
def flushUnlessFd (modes : BitVec 16) (m : Pmmu) : Pmmu :=
  if modes &&& 0x100#16 = 0#16 then m.atcFlush else m

/-- `m68851_pmove_put`, to the translation control register. -/
def putTc (modes : BitVec 16) (value : BitVec 32) (m : Pmmu) : Pmmu × Effect :=
  let m : Pmmu := { m with tc := value }
  let (m, effect) :=
    if m.tc &&& tcEnable ≠ 0#32 then
      let bits := addFields m.tc (pageSize m.tc + initialShift m.tc) [12, 8, 4, 0]
      if bits ≠ 32 ∨ m.tc >>> 23 &&& 1#32 = 0#32 then
        ({ m with tc := m.tc &&& ~~~ tcEnable }, .mmuConfiguration)
      else ({ m with enabled := true }, .none)
    else ({ m with enabled := false }, .none)
  (flushUnlessFd modes { m with canInstructionRestart := m.enabled || m.emmuEnabled }, effect)

/-- `m68851_pmove_put`, to a root pointer. -/
def putRoot (set : BitVec 32 → BitVec 32 → Pmmu → Pmmu) (modes : BitVec 16) (value : BitVec 64)
    (m : Pmmu) : Pmmu × Effect :=
  let limit := (value >>> 32).setWidth 32
  let m := set limit (value.setWidth 32) m
  if limit &&& 3#32 = 0#32 then (m, .mmuConfiguration) else (flushUnlessFd modes m, .none)

def putSrp : BitVec 16 → BitVec 64 → Pmmu → Pmmu × Effect :=
  putRoot fun limit aptr m ↦ { m with srpLimit := limit, srpAptr := aptr }

def putCrp : BitVec 16 → BitVec 64 → Pmmu → Pmmu × Effect :=
  putRoot fun limit aptr m ↦ { m with crpLimit := limit, crpAptr := aptr }

/-- `m68851_pmove_put`, to a transparent translation register. -/
def putTt (modes : BitVec 16) (value : BitVec 32) (m : Pmmu) : Pmmu × Effect :=
  if ¬ is030Plus m.cpuType then (m, .exception1111)
  else
    let m := match (modes >>> 10 &&& 7#16).toNat with
      | 2 => { m with tt0 := value }
      | 3 => { m with tt1 := value }
      | _ => m
    (flushUnlessFd modes m, .none)

/-- `m68851_pmove_put`. -/
def pmovePut (modes : BitVec 16) (operand : Operand) (m : Pmmu) : Pmmu × Effect :=
  match (modes >>> 13 &&& 7#16).toNat with
  | 0 => m.putTt modes operand.long
  | 2 =>
      match (modes >>> 10 &&& 7#16).toNat with
      | 0 => m.putTc modes operand.long
      | 2 => putSrp modes operand.quad m
      | 3 => putCrp modes operand.quad m
      | _ => (m, .none)
  | _ => (m, .none)

/-- `m68851_pmove_get`. -/
def pmoveGet (modes : BitVec 16) (m : Pmmu) : Effect :=
  match (modes >>> 10 &&& 0x3f#16).toNat with
  | 0x02 => if is030Plus m.cpuType then .writeEa32 m.tt0 else .exception1111
  | 0x03 => if is030Plus m.cpuType then .writeEa32 m.tt1 else .exception1111
  | 0x10 => .writeEa32 m.tc
  | 0x12 => .writeEa64 (m.srpLimit ++ m.srpAptr)
  | 0x13 => .writeEa64 (m.crpLimit ++ m.crpAptr)
  | _ => .none

/-- `m68851_pmove`. -/
def pmove (modes : BitVec 16) (operand : Operand) (m : Pmmu) : Pmmu × Effect :=
  match (modes >>> 13 &&& 7#16).toNat with
  | 0 | 2 => if modes &&& 0x200#16 ≠ 0#16 then (m, m.pmoveGet modes) else m.pmovePut modes operand
  | 3 =>
    if modes &&& 0x200#16 ≠ 0#16 then (m, .writeEa16 m.sr)
      else ({ m with sr := operand.word }, .none)
  | _ => (m, .none)

/-- `device_reset`. -/
def reset (m : Pmmu) : Pmmu :=
  { m with
    enabled := false, emmuEnabled := false, canInstructionRestart := false
    tc := 0, tt0 := 0, tt1 := 0 }

/-- `set_emmu_enable`. -/
def setEmmuEnable (enable : Bool) (m : Pmmu) : Pmmu :=
  { m with emmuEnabled := enable, canInstructionRestart := m.enabled || enable }

/-- What happens to the PMMU: its registers are moved, addresses are translated, the CPU is
reset. -/
inductive Step
  | pmove (modes : BitVec 16) (operand : Operand)
  | translate (pload : Bool) (addrIn : BitVec 32) (fc : BitVec 8) (rw : Bool)
  | setEmmuEnable (enable : Bool)
  | reset

def step (m : Pmmu) : Step → Pmmu
  | .pmove modes operand => (m.pmove modes operand).1
  | .translate pload addrIn fc rw => (m.translate pload addrIn fc rw).2
  | .setEmmuEnable enable => m.setEmmuEnable enable
  | .reset => m.reset

/-- The translation is enabled exactly if the register says so, and then the fields of the register
fit. -/
def EnableConsistent (m : Pmmu) : Prop :=
  (m.enabled = true ↔ m.tc &&& tcEnable ≠ 0#32) ∧ (m.enabled = true → TcValid m.tc)

instance (m : Pmmu) : Decidable m.EnableConsistent := inferInstanceAs (Decidable (_ ∧ _))

/-- A `PMOVE` writes the translation control register. -/
def WritesTc (modes : BitVec 16) : Prop :=
  modes >>> 13 &&& 7#16 = 2#16 ∧ modes &&& 0x200#16 = 0#16 ∧ modes >>> 10 &&& 7#16 = 0#16

instance (modes : BitVec 16) : Decidable (WritesTc modes) := inferInstanceAs (Decidable (_ ∧ _))

/-- A value that is rejected comes only while the translation is off. -/
def Allowed (m : Pmmu) : Step → Prop
  | .pmove modes operand =>
      WritesTc modes → operand.long &&& tcEnable ≠ 0#32 → ¬ TcValid operand.long → m.enabled = false
  | _ => True

/-! ## The fields of a register -/

variable (tc : BitVec 32)

theorem addFields_eq (bits : ℕ) (shifts : List ℕ) :
    addFields tc bits shifts = bits + ((shifts.map (tableIndex tc)).takeWhile (· ≠ 0)).sum := by
  induction shifts generalizing bits with
  | nil => rfl
  | cons shift shifts ih =>
    rw [addFields, List.map_cons]
    by_cases hzero : tableIndex tc shift = 0
    · rw [if_pos hzero, List.takeWhile_cons_of_neg (by simpa using hzero)]
      rfl
    · rw [if_neg hzero, List.takeWhile_cons_of_pos (by simpa using hzero), ih, List.sum_cons,
        Nat.add_assoc]

/-- The page size is at least eight if its top bit is set. -/
theorem le_pageSize_iff : 8 ≤ pageSize tc ↔ tc >>> 23 &&& 1#32 ≠ 0#32 := by
  have hsize : pageSize tc = tc.toNat / 2 ^ 20 % 2 ^ 4 := by
    rw [pageSize, BitVec.toNat_and, BitVec.toNat_ushiftRight, Nat.shiftRight_eq_div_pow,
      show (0xf#32).toNat = 2 ^ 4 - 1 from rfl, Nat.and_two_pow_sub_one_eq_mod]
  have hbit : (tc >>> 23 &&& 1#32).toNat = tc.toNat / 2 ^ 23 % 2 ^ 1 := by
    rw [BitVec.toNat_and, BitVec.toNat_ushiftRight, Nat.shiftRight_eq_div_pow,
      show (1#32).toNat = 2 ^ 1 - 1 from rfl, Nat.and_two_pow_sub_one_eq_mod]
  rw [hsize, Ne, ← BitVec.toNat_inj, hbit]
  show _ ↔ ¬ _ = 0
  omega

/-- The check of `m68851_pmove_put`. -/
theorem tcValid_iff : TcValid tc ↔ ¬ (addFields tc (pageSize tc + initialShift tc)
    [12, 8, 4, 0] ≠ 32 ∨ tc >>> 23 &&& 1#32 = 0#32) := by
  rw [TcValid, le_pageSize_iff, addFields_eq, not_or, not_not, and_comm]
  rfl

/-! ## What each step does with the flag and the register -/

theorem enabled_flushUnlessFd (modes : BitVec 16) (m : Pmmu) :
    (flushUnlessFd modes m).enabled = m.enabled := by
  rw [flushUnlessFd]
  split <;> rfl

theorem tc_flushUnlessFd (modes : BitVec 16) (m : Pmmu) : (flushUnlessFd modes m).tc = m.tc := by
  rw [flushUnlessFd]
  split <;> rfl

/-- The enable bit is gone from a register that was rejected. -/
theorem and_not_tcEnable (value : BitVec 32) : value &&& ~~~ tcEnable &&& tcEnable = 0#32 := by
  rw [BitVec.and_assoc, BitVec.and_comm (~~~ tcEnable), BitVec.and_not_self]
  exact BitVec.and_zero

variable {m : Pmmu} (modes : BitVec 16) {value : BitVec 32}

theorem putTc_of_valid (henable : value &&& tcEnable ≠ 0#32) (hvalid : TcValid value) :
    (m.putTc modes value).1.enabled = true ∧ (m.putTc modes value).1.tc = value := by
  rw [putTc]
  rw [if_pos henable, if_neg ((tcValid_iff value).mp hvalid)]
  exact ⟨enabled_flushUnlessFd _ _, tc_flushUnlessFd _ _⟩

/-- A value that is rejected loses its enable bit, and the translation stays as it was. -/
theorem putTc_of_not_valid (henable : value &&& tcEnable ≠ 0#32) (hvalid : ¬ TcValid value) :
    (m.putTc modes value).1.enabled = m.enabled ∧
      (m.putTc modes value).1.tc &&& tcEnable = 0#32 := by
  rw [putTc]
  rw [tcValid_iff, not_not] at hvalid
  rw [if_pos henable, if_pos hvalid]
  refine ⟨enabled_flushUnlessFd _ _, ?_⟩
  dsimp only
  rw [tc_flushUnlessFd]
  exact and_not_tcEnable value

theorem putTc_of_disable (hdisable : value &&& tcEnable = 0#32) :
    (m.putTc modes value).1.enabled = false ∧ (m.putTc modes value).1.tc = value := by
  rw [putTc]
  rw [if_neg (not_not.mpr hdisable)]
  exact ⟨enabled_flushUnlessFd _ _, tc_flushUnlessFd _ _⟩

theorem pmove_of_writesTc (hwrites : WritesTc modes) (operand : Operand) (m : Pmmu) :
    m.pmove modes operand = m.putTc modes operand.long := by
  obtain ⟨hform, hput, hregister⟩ := hwrites
  rw [pmove, hform]
  rw [if_neg (not_not.mpr hput), pmovePut, hform, hregister]
  rfl

theorem putRoot_same (set : BitVec 32 → BitVec 32 → Pmmu → Pmmu)
    (hset : ∀ limit aptr m, (set limit aptr m).enabled = m.enabled ∧ (set limit aptr m).tc = m.tc)
    (value : BitVec 64) (m : Pmmu) : (putRoot set modes value m).1.enabled = m.enabled ∧
    (putRoot set modes value m).1.tc = m.tc := by
  rw [putRoot]
  split
  · exact hset _ _ m
  · rw [enabled_flushUnlessFd, tc_flushUnlessFd]
    exact hset _ _ m

theorem putTt_same (value : BitVec 32) (m : Pmmu) :
    (m.putTt modes value).1.enabled = m.enabled ∧ (m.putTt modes value).1.tc = m.tc := by
  rw [putTt]
  split
  · exact ⟨rfl, rfl⟩
  · rw [enabled_flushUnlessFd, tc_flushUnlessFd]
    split <;> exact ⟨rfl, rfl⟩

/-- A move that does not write the translation control register leaves it alone, and the flag. -/
theorem pmove_of_not_writesTc (hother : ¬ WritesTc modes) (operand : Operand) (m : Pmmu) :
    (m.pmove modes operand).1.enabled = m.enabled ∧ (m.pmove modes operand).1.tc = m.tc := by
  have hput : modes &&& 0x200#16 = 0#16 →
      (m.pmovePut modes operand).1.enabled = m.enabled ∧
      (m.pmovePut modes operand).1.tc = m.tc := by
    intro hget
    rw [pmovePut]
    split
    · exact putTt_same modes operand.long m
    · next hform =>
      split
      · next hregister =>
        exact absurd ⟨BitVec.eq_of_toNat_eq hform, hget, BitVec.eq_of_toNat_eq hregister⟩ hother
      · rw [putSrp]
        refine putRoot_same modes _ ?_ operand.quad m
        exact fun _ _ _ ↦ ⟨rfl, rfl⟩
      · rw [putCrp]
        refine putRoot_same modes _ ?_ operand.quad m
        exact fun _ _ _ ↦ ⟨rfl, rfl⟩
      · exact ⟨rfl, rfl⟩
    · exact ⟨rfl, rfl⟩
  have hform : ∀ r : Pmmu × Effect, (modes &&& 0x200#16 = 0#16 → r = m.pmovePut modes operand) →
      (if modes &&& 0x200#16 ≠ 0#16 then (m, m.pmoveGet modes) else r).1.enabled = m.enabled ∧
        (if modes &&& 0x200#16 ≠ 0#16 then (m, m.pmoveGet modes) else r).1.tc = m.tc := by
    intro r hr
    by_cases hget : modes &&& 0x200#16 = 0#16
    · rw [if_neg (not_not.mpr hget), hr hget]
      exact hput hget
    · rw [if_pos hget]
      exact ⟨rfl, rfl⟩
  rw [pmove]
  split
  · exact hform _ fun _ ↦ rfl
  · exact hform _ fun _ ↦ rfl
  · split <;> exact ⟨rfl, rfl⟩
  · exact ⟨rfl, rfl⟩

/-! ## Runs -/

/-- The two registers decide. -/
theorem EnableConsistent.congr {m' : Pmmu} (h : m.EnableConsistent)
    (henabled : m'.enabled = m.enabled) (htc : m'.tc = m.tc) : m'.EnableConsistent := by
  rw [EnableConsistent, henabled, htc]
  exact h

theorem enableConsistent_reset (m : Pmmu) : m.reset.EnableConsistent :=
  show (false = true ↔ 0#32 &&& tcEnable ≠ 0#32) ∧ (false = true → TcValid 0#32) by decide

/-- A move to the translation control register keeps the two in step unless it is rejected while the
translation is on. -/
theorem enableConsistent_putTc_iff : (m.putTc modes value).1.EnableConsistent ↔
    (value &&& tcEnable ≠ 0#32 → ¬ TcValid value → m.enabled = false) := by
  rw [EnableConsistent]
  by_cases henable : value &&& tcEnable ≠ 0#32
  · by_cases hvalid : TcValid value
    · obtain ⟨henabled, htc⟩ := putTc_of_valid (m := m) modes henable hvalid
      rw [henabled, htc]
      exact iff_of_true ⟨iff_of_true rfl henable, fun _ ↦ hvalid⟩ fun _ hnot ↦ absurd hvalid hnot
    · obtain ⟨henabled, htc⟩ := putTc_of_not_valid (m := m) modes henable hvalid
      rw [henabled, htc]
      cases hm : m.enabled with
      | true =>
        refine iff_of_false (fun h ↦ h.1.mp rfl rfl) fun h ↦ ?_
        exact absurd (h henable hvalid) (by decide)
      | false =>
        refine iff_of_true ⟨iff_of_false (by decide) (not_not.mpr rfl),
          fun h ↦ (by cases h)⟩ fun _ _ ↦ rfl
  · obtain ⟨henabled, htc⟩ := putTc_of_disable (m := m) modes (not_not.mp henable)
    rw [henabled, htc]
    exact iff_of_true ⟨iff_of_false (by decide) henable, fun h ↦ (by cases h)⟩ fun h ↦
      absurd h henable

theorem enableConsistent_step_iff (h : m.EnableConsistent) (e : Step) :
    (m.step e).EnableConsistent ↔ m.Allowed e := by
  cases e with
  | pmove modes operand =>
    by_cases hwrites : WritesTc modes
    · rw [step, pmove_of_writesTc modes hwrites, enableConsistent_putTc_iff]
      exact ⟨fun h _ ↦ h, fun h ↦ h hwrites⟩
    · obtain ⟨henabled, htc⟩ := pmove_of_not_writesTc modes hwrites operand m
      exact iff_of_true (h.congr henabled htc) fun hw ↦ absurd hw hwrites
  | translate pload addrIn fc rw =>
    have hsame := registers_translate pload addrIn fc rw m
    exact iff_of_true
      (h.congr (congrArg Registers.enabled hsame) (congrArg Registers.tc hsame)) trivial
  | setEmmuEnable enable => exact iff_of_true (h.congr rfl rfl) trivial
  | reset => exact iff_of_true (enableConsistent_reset m) trivial

/-- **PMMU enable state.** In a run from reset, the translation is enabled exactly if the register
says so, and then the fields of the register fit, in every state, exactly if no value is rejected
while the translation is on. -/
theorem always_enableConsistent_iff (m : Pmmu) (es : List Step) :
    Run.Always step EnableConsistent m.reset es ↔ Run.Meets step Allowed m.reset es := by
  refine Run.always_iff_meets_of_inv (Q := EnableConsistent) (fun _ h ↦ h) ?_ ?_
    (enableConsistent_reset m) es
  · exact fun m e h hallowed ↦ (enableConsistent_step_iff h e).mpr hallowed
  · exact fun m e h hnext ↦ (enableConsistent_step_iff h e).mp hnext

/-- A 68030 after power-on. -/
def new : Pmmu where
  cpuType := cpuType030
  enabled := false
  emmuEnabled := false
  canInstructionRestart := false
  tc := 0
  srpLimit := 0
  srpAptr := 0
  crpLimit := 0
  crpAptr := 0
  tt0 := 0
  tt1 := 0
  sr := 0
  atcTag _ := 0
  atcData _ := 0
  atcRr := 0
  tmpSr := 0
  tmpFc := 0
  lastLogicalAddr := 0
  buserrorOccurred := 0
  buserrorAddress := 0
  program _ := 0

/-- `PMOVE` of a value to the translation control register. -/
def moveToTc (value : BitVec 32) : Step := .pmove 0x4000 ⟨0, value, 0⟩

/-- A value that fits, and one whose page size is reserved: the translation is on, with that page
size. -/
theorem not_enableConsistent_rejected :
    (Run.run step new.reset [moveToTc 0x80c07760]).EnableConsistent ∧
      (Run.run step new.reset [moveToTc 0x80c07760, moveToTc 0x80000000]).enabled = true ∧
      (Run.run step new.reset [moveToTc 0x80c07760, moveToTc 0x80000000]).tc = 0#32 ∧
      ¬ (Run.run step new.reset [moveToTc 0x80c07760, moveToTc 0x80000000]).EnableConsistent := by
  decide +kernel

end Pmmu

end RoscoEmulator.M68k
