import RoscoEmulator.M6502.PlainRam

/-!
# The W65C02S and the R65C02

On plain RAM an opcode of the W65C02S and the one of the R65C02 do the same. For most opcodes both
lists of lines have one normal form. Where they have not, the difference is in `m_TMP` and
`m_TMP2`. -/

namespace RoscoEmulator.M6502

/-- All but `m_TMP` and `m_TMP2`. -/
def Regs.visible (r : Regs) : Regs := { r with tmp := 0, tmp2 := 0 }

def Plain.visible (s : Plain) : Plain := { s with regs := s.regs.visible }

theorem Regs.prefetchEnd_visible (r : Regs) : r.prefetchEnd.visible = r.visible.prefetchEnd :=
  apply_ite Regs.visible _ _ _

namespace Code

variable {q : InstState} {s : Plain}

theorem run_append (as bs : List Code) (s : Plain) :
    (block (as ++ bs)).run q s = ((block as).run q s).bind ((block bs).run q) := by
  induction as generalizing s with
  | nil => rfl
  | cons a as ih =>
    calc (block (a :: as ++ bs)).run q s
        = (a.run q s).bind fun s₁ ↦ (block (as ++ bs)).run q s₁ := rfl
      _ = (a.run q s).bind fun s₁ ↦ ((block as).run q s₁).bind ((block bs).run q) := by
        simp only [ih]
      _ = ((block (a :: as)).run q s).bind ((block bs).run q) := (Option.bind_assoc _ _ _).symm

theorem run_prefetch_visible (s : Plain) :
    ((block prefetch).run q s).map Plain.visible = (block prefetch).run q s.visible :=
  congrArg (fun r ↦ some (Plain.mk r s.ram)) (Regs.prefetchEnd_visible _)

theorem run_prefetch_congr {as bs : List Code}
    (h : ((block as).run q s).map Plain.visible = ((block bs).run q s).map Plain.visible) :
    ((block (as ++ prefetch)).run q s).map Plain.visible =
      ((block (bs ++ prefetch)).run q s).map Plain.visible := by
  have hvisible : ∀ as : List Code, ((block (as ++ prefetch)).run q s).map Plain.visible =
      (((block as).run q s).map Plain.visible).bind ((block prefetch).run q) := by
    intro as
    rw [run_append, Option.map_bind, Option.bind_map]
    exact congrArg _ (funext run_prefetch_visible)
  rw [hvisible, hvisible, h]

end Code

variable (q : InstState) (s : Plain)

theorem pullPc_visible :
    ((Code.block [read .sp .tmp, .line .incSp, read .sp .tmpHigh, .line .jump]).run q s).map
      Plain.visible =
      ((Code.block [read .sp .pc, .line .incSp, read .sp .pcHigh]).run q s).map Plain.visible := rfl

theorem rti_visible : (Ow65c02s.rtiSImp.code.run q s).map Plain.visible =
    (Om6502.rtiImp.code.run q s).map Plain.visible := by
  refine Code.run_prefetch_congr ?_
  exact pullPc_visible q ⟨(Target.store (s.ram.mem s.regs.incSp.sp) s.regs.incSp .p).incSp, s.ram⟩

theorem rts_visible : (Ow65c02s.rtsSImp.code.run q s).map Plain.visible =
    (Om6502.rtsImp.code.run q s).map Plain.visible := by
  refine Code.run_prefetch_congr ?_
  exact congrArg (Option.map Plain.incPc) (pullPc_visible q ⟨s.regs.incSp, s.ram⟩)

theorem nopAbx_visible : (Ow65c02s.nopSAbx.code.run q s).map Plain.visible =
    (Ow65c02.nopCAbx.code.run q s).map Plain.visible :=
  Code.run_prefetch_congr rfl

theorem cmpZpx_visible : (Ow65c02s.cmpSZpx.code.run q s).map Plain.visible =
    (Om6502.cmpZpx.code.run q s).map Plain.visible := by
  refine Code.run_prefetch_congr ?_
  exact congrArg (fun v ↦ some (Plain.mk { s.regs with
      toAlu := s.regs.toAlu.doCmp s.regs.a v, pc := s.regs.pc + 1, tmp := 0, tmp2 := 0 } s.ram))
    (lowByte_setWidth _)

theorem normal_eq : ∀ ir : Byte, ir ∉ [0x40, 0x60, 0xd5, 0xdc, 0xfc] →
    (w65c02s.opcode ir).code.normal = (r65c02.opcode ir).code.normal :=
  w65c02s.of_opcodes r65c02 (fun ir h h' ↦ ir ∉ [0x40, 0x60, 0xd5, 0xdc, 0xfc] →
    h.code.normal = h'.code.normal) (by decide +kernel)

/-- The lines of both tables do the same. -/
theorem run_visible (ir : Byte) (q : InstState) (s : Plain) :
    ((w65c02s.opcode ir).code.run q s).map Plain.visible =
      ((r65c02.opcode ir).code.run q s).map Plain.visible := by
  by_cases hir : ir ∈ [0x40, 0x60, 0xd5, 0xdc, 0xfc]
  · simp only [List.mem_cons, List.not_mem_nil, or_false] at hir
    rcases hir with rfl | rfl | rfl | rfl | rfl
    · exact rti_visible q s
    · exact rts_visible q s
    · exact cmpZpx_visible q s
    · exact nopAbx_visible q s
    · exact nopAbx_visible q s
  · rw [← Code.run_normal, ← Code.run_normal (r65c02.opcode ir).code, normal_eq ir hir]

theorem loopFree_w65c02s :
    ∀ ir : Byte, ir ≠ 0xcb → ir ≠ 0xdb → (w65c02s.opcode ir).code.loopFree = true :=
  w65c02s.of_opcodes w65c02s (fun ir h _ ↦ ir ≠ 0xcb → ir ≠ 0xdb →
    h.code.loopFree = true) (by decide +kernel)

theorem loopFree_r65c02 :
    ∀ ir : Byte, ir ≠ 0xcb → ir ≠ 0xdb → (r65c02.opcode ir).code.loopFree = true :=
  r65c02.of_opcodes r65c02 (fun ir h _ ↦ ir ≠ 0xcb → ir ≠ 0xdb →
    h.code.loopFree = true) (by decide +kernel)

theorem nonempty_results {h : Handler} (hh : h.code.loopFree = true) (q : InstState) {s : Plain}
    (hrdy : s.regs.rdyState = true) : (h.results q (s.machine [])).Nonempty := by
  obtain ⟨s', log, hexec, -⟩ := @Code.exec_of_loopFree h.device.rdyGated q h.code hh s hrdy []
  exact ⟨_, (mem_results_iff rfl).mpr ⟨_, hexec, rfl⟩⟩

/-- **The W65C02S and the R65C02 are architecturally equal.** When an opcode is at its end with both
tables, it has left the same in the registers but the temporaries, in memory and in the list of
writes. With RDY high it comes to an end with both tables, `WAI` and `STP` aside. -/
theorem results_visible (ir : Byte) (s : Plain) :
    (∀ p ∈ (w65c02s.opcode ir).results (.opcode ir) (s.machine []),
      ∀ p' ∈ (r65c02.opcode ir).results (.opcode ir) (s.machine []),
        p.regs.visible = p'.regs.visible ∧ p.bus = p'.bus) ∧
      (s.regs.rdyState = true → ir ≠ 0xcb → ir ≠ 0xdb →
        ((w65c02s.opcode ir).results (.opcode ir) (s.machine [])).Nonempty ∧
          ((r65c02.opcode ir).results (.opcode ir) (s.machine [])).Nonempty) := by
  refine ⟨fun p hp p' hp' ↦ ?_, fun hrdy hwai hstp ↦ ?_⟩
  · obtain ⟨m, hm, rfl⟩ := (mem_results_iff rfl).mp hp
    obtain ⟨m', hm', rfl⟩ := (mem_results_iff rfl).mp hp'
    obtain ⟨s₁, log₁, h₁, rfl⟩ := Code.run_of_exec hm
    obtain ⟨s₂, log₂, h₂, rfl⟩ := Code.run_of_exec hm'
    have hvisible := run_visible ir (.opcode ir) s
    rw [h₁, h₂] at hvisible
    have h : s₁.visible = s₂.visible := Option.some.inj hvisible
    have hram : s₁.visible.ram = s₂.visible.ram := by rw [h]
    exact ⟨congrArg Plain.regs h, hram⟩
  · exact ⟨nonempty_results (loopFree_w65c02s ir hwai hstp) _ hrdy,
      nonempty_results (loopFree_r65c02 ir hwai hstp) _ hrdy⟩

/-- A machine after a reset, whose memory is all zero. -/
def blank (rdyState : Bool) : Plain :=
  ⟨{ Regs.init with rdyState := rdyState }, ⟨fun _ ↦ 0, []⟩⟩

/-- A store through a pointer, with RDY high. -/
theorem results_visible_staIdx :
    ((w65c02s.opcode 0x81).results (.opcode 0x81) ((blank true).machine [])).Nonempty ∧
      ((r65c02.opcode 0x81).results (.opcode 0x81) ((blank true).machine [])).Nonempty :=
  (results_visible 0x81 (blank true)).2 rfl (by decide) (by decide)

/-- With RDY low the reads of that store wait on the R65C02, and those of the W65C02S do not. -/
theorem not_results_visible :
    ¬ ∀ (ir : Byte) (s : Plain), ir ≠ 0xcb → ir ≠ 0xdb →
      ∀ p ∈ (w65c02s.opcode ir).results (.opcode ir) (s.machine []),
        ∃ p' ∈ (r65c02.opcode ir).results (.opcode ir) (s.machine []),
          p.regs.visible = p'.regs.visible ∧ p.bus = p'.bus := by
  intro h
  have hends : ((w65c02s.opcode 0x81).exec (.opcode 0x81) ((blank false).machine [])).isSome := by
    decide +kernel
  have hwaits : ((r65c02.opcode 0x81).exec (.opcode 0x81) ((blank false).machine [])).isNone := by
    decide +kernel
  obtain ⟨m, hm⟩ := Option.isSome_iff_exists.mp hends
  have hp : m.performed ∈ (w65c02s.opcode 0x81).results (.opcode 0x81) ((blank false).machine []) :=
    (mem_results_iff rfl).mpr ⟨m, hm, rfl⟩
  obtain ⟨p', hp', -⟩ := h 0x81 (blank false) (by decide) (by decide) m.performed hp
  obtain ⟨m', hm', -⟩ := (mem_results_iff rfl).mp hp'
  rw [Option.isNone_iff_eq_none.mp hwaits] at hm'
  cases hm'

end RoscoEmulator.M6502
