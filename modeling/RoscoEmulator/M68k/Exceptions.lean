import RoscoEmulator.M68k.Core

/-!
# Exceptions

The stack frames, field by field in the order they are pushed, and the exceptions: each saves the
status register, enters the supervisor mode, pushes its frame and fetches its vector. An exception
that takes an address error on the way is `none`. -/

namespace RoscoEmulator.M68k

open BitVec

/-- A push of a stack frame. The fake ones make room only. -/
inductive Push
  | push16 (value : BitVec 16)
  | push32 (value : BitVec 32)
  | fakePush16
  | fakePush32
deriving DecidableEq, Repr

namespace Push

def size : Push → ℕ
  | push16 _ | fakePush16 => 2
  | push32 _ | fakePush32 => 4

end Push

/-- The size of a frame. -/
def frameSize (frame : List Push) : ℕ := (frame.map Push.size).sum

namespace Core

def setA7 (a7 : BitVec 32) (s : Core) : Core := { s with a7 := a7 }

/-- `m68ki_push_16`, `m68ki_push_32`, `m68ki_fake_push_16` and `m68ki_fake_push_32`. -/
def push : Push → Core → Option Core
  | .push16 value, s => (s.setA7 (s.a7 - 2#32)).write16 (s.a7 - 2#32) value
  | .push32 value, s => (s.setA7 (s.a7 - 4#32)).write32 (s.a7 - 4#32) value
  | .fakePush16, s => some (s.setA7 (s.a7 - 2#32))
  | .fakePush32, s => some (s.setA7 (s.a7 - 4#32))

def pushAll : List Push → Core → Option Core
  | [], s => some s
  | p :: frame, s => (s.push p).bind (pushAll frame)

/-! ## What pushes change -/

/-- Pushes of so many bytes: memory changes below the stack pointer only, and nothing else but
it. -/
structure Pushed (s s' : Core) (n : ℕ) : Prop where
  eq : ∃ fc rw sz, s' = { s with
    a7 := s.a7 - BitVec.ofNat 32 n
    memory := s'.memory
    mmuTmpFc := fc
    mmuTmpRw := rw
    mmuTmpSz := sz }
  frame : ∀ l, (∀ i < n, s.location (s.a7 - BitVec.ofNat 32 n + BitVec.ofNat 32 i) ≠ l) →
    s'.memory l = s.memory l

section Pushes

variable {s s' s'' : Core} {n m : ℕ} {address : BitVec 32}

theorem memory_poke_of_ne {l : ℕ} (data : BitVec 8) (h : s.location address ≠ l) :
    (s.poke address data).memory l = s.memory l := Function.update_of_ne (Ne.symm h) _ _

theorem Pushed.refl (s : Core) : Pushed s s 0 where
  eq := ⟨s.mmuTmpFc, s.mmuTmpRw, s.mmuTmpSz, by rw [BitVec.sub_zero]⟩
  frame _ _ := rfl

section

variable (h : Pushed s s' n)
include h

theorem Pushed.a7 : s'.a7 = s.a7 - BitVec.ofNat 32 n := by
  obtain ⟨_, _, _, heq⟩ := h.eq
  rw [heq]

theorem Pushed.cpuType : s'.cpuType = s.cpuType := by
  obtain ⟨_, _, _, heq⟩ := h.eq
  rw [heq]

theorem Pushed.sFlag : s'.sFlag = s.sFlag := by
  obtain ⟨_, _, _, heq⟩ := h.eq
  rw [heq]

theorem Pushed.mFlag : s'.mFlag = s.mFlag := by
  obtain ⟨_, _, _, heq⟩ := h.eq
  rw [heq]

/-- Pushes leave the stack pointers that are not active. -/
theorem Pushed.stack {i : ℕ} (hi : bank s.sFlag s.mFlag ≠ i) : s'.stack i = s.stack i := by
  have hsp : s'.sp = s.sp := by
    obtain ⟨_, _, _, heq⟩ := h.eq
    rw [heq]
  rw [Core.stack, Core.stack, h.sFlag, h.mFlag, if_neg hi, if_neg hi, hsp]

theorem Pushed.trans (h' : Pushed s' s'' m) : Pushed s s'' (n + m) := by
  have hsub : s.a7 - BitVec.ofNat 32 (n + m) = s'.a7 - BitVec.ofNat 32 m := by
    rw [h.a7, ofNat_add, BitVec.sub_sub]
  refine ⟨?_, fun l hl ↦ ?_⟩
  · obtain ⟨_, _, _, heq⟩ := h.eq
    obtain ⟨fc, rw, sz, heq'⟩ := h'.eq
    refine ⟨fc, rw, sz, ?_⟩
    rw [heq', hsub, heq]
  · have hlocation : ∀ a, s'.location a = s.location a :=
      fun a ↦ by rw [location, location, h.cpuType]
    rw [h'.frame l, h.frame l]
    · intro i hi
      have hi := hl (m + i) (by omega)
      rwa [ofNat_add m i, ← BitVec.add_assoc, hsub, BitVec.sub_add_cancel, h.a7] at hi
    · intro i hi
      have h := hl i (by omega)
      rwa [hsub, ← hlocation] at h

end

theorem pushed_setA7 (s : Core) (n : ℕ) : Pushed s (s.setA7 (s.a7 - BitVec.ofNat 32 n)) n where
  eq := ⟨s.mmuTmpFc, s.mmuTmpRw, s.mmuTmpSz, rfl⟩
  frame _ _ := rfl

theorem pushed_store16 (s : Core) (value : BitVec 16) (rw : BitVec 16) (sz : BitVec 8) :
    Pushed s (((s.setA7 (s.a7 - 2#32)).access rw sz).store16 (s.a7 - 2#32) value) 2 where
  eq := ⟨_, _, _, rfl⟩
  frame l hl := by
    have h0 := hl 0 (by decide)
    have h1 := hl 1 (by decide)
    rw [BitVec.add_zero] at h0
    exact (memory_poke_of_ne _ (by exact h1)).trans (memory_poke_of_ne _ (by exact h0))

theorem pushed_store32 (s : Core) (value : BitVec 32) (rw : BitVec 16) (sz : BitVec 8) :
    Pushed s (((s.setA7 (s.a7 - 4#32)).access rw sz).store32 (s.a7 - 4#32) value) 4 where
  eq := ⟨_, _, _, rfl⟩
  frame l hl := by
    have h0 := hl 0 (by decide)
    have h1 := hl 1 (by decide)
    have h2 := hl 2 (by decide)
    have h3 := hl 3 (by decide)
    rw [BitVec.add_zero] at h0
    exact (memory_poke_of_ne _ (by exact h3)).trans ((memory_poke_of_ne _ (by exact h2)).trans
      ((memory_poke_of_ne _ (by exact h1)).trans (memory_poke_of_ne _ (by exact h0))))

theorem sub_even {a : BitVec 32} (h : a.toNat % 2 = 0) (hn : n % 2 = 0) :
    (a - BitVec.ofNat 32 n).toNat % 2 = 0 := by
  rw [toNat_sub, toNat_ofNat]
  omega

theorem exists_push (heven : s.a7.toNat % 2 = 0) (p : Push) :
    ∃ s', s.push p = some s' ∧ Pushed s s' p.size := by
  cases p with
  | push16 value =>
    refine ⟨_, if_neg ?_, pushed_store16 s value _ _⟩
    rw [addressError_of_even (sub_even (n := 2) heven rfl)]
    exact Bool.false_ne_true
  | push32 value =>
    refine ⟨_, if_neg ?_, pushed_store32 s value _ _⟩
    rw [addressError_of_even (sub_even (n := 4) heven rfl)]
    exact Bool.false_ne_true
  | fakePush16 => exact ⟨_, rfl, pushed_setA7 s 2⟩
  | fakePush32 => exact ⟨_, rfl, pushed_setA7 s 4⟩

theorem pushed_of_push {p : Push} (h : s.push p = some s') : Pushed s s' p.size := by
  cases p with
  | push16 value =>
    rw [push, write16] at h
    split_ifs at h
    obtain rfl := Option.some.inj h
    exact pushed_store16 s value _ _
  | push32 value =>
    rw [push, write32] at h
    split_ifs at h
    obtain rfl := Option.some.inj h
    exact pushed_store32 s value _ _
  | fakePush16 =>
    obtain rfl := Option.some.inj h
    exact pushed_setA7 s 2
  | fakePush32 =>
    obtain rfl := Option.some.inj h
    exact pushed_setA7 s 4

theorem pushed_of_pushAll {frame : List Push} (h : s.pushAll frame = some s') :
    Pushed s s' (frameSize frame) := by
  induction frame generalizing s with
  | nil =>
    obtain rfl := Option.some.inj h
    exact Pushed.refl s
  | cons p frame ih =>
    obtain ⟨t, hpush, hrest⟩ := Option.bind_eq_some_iff.mp h
    exact (pushed_of_push hpush).trans (ih hrest)

theorem size_even (p : Push) : p.size % 2 = 0 := by
  cases p with
  | push16 _ | fakePush16 => exact Nat.mod_self 2
  | push32 _ | fakePush32 => exact (by decide : 4 % 2 = 0)

theorem frameSize_even (frame : List Push) : frameSize frame % 2 = 0 := by
  induction frame with
  | nil => rfl
  | cons p frame ih =>
    have hp := size_even p
    rw [frameSize, List.map_cons, List.sum_cons]
    exact (Nat.add_mod _ _ _).trans (by rw [hp, ← frameSize, ih])

theorem Pushed.even (h : Pushed s s' n) (heven : s.a7.toNat % 2 = 0) (hn : n % 2 = 0) :
    s'.a7.toNat % 2 = 0 := by
  rw [h.a7]
  exact sub_even heven hn

/-- A frame is pushed as a whole where the stack pointer is even. -/
theorem exists_pushAll (heven : s.a7.toNat % 2 = 0) (frame : List Push) :
    ∃ s', s.pushAll frame = some s' ∧ Pushed s s' (frameSize frame) := by
  induction frame generalizing s with
  | nil => exact ⟨s, rfl, Pushed.refl s⟩
  | cons p frame ih =>
    obtain ⟨t, hpush, hpushed⟩ := exists_push heven p
    obtain ⟨s', hrest, hpushed'⟩ := ih (hpushed.even heven (size_even p))
    refine ⟨s', ?_, hpushed.trans hpushed'⟩
    rw [pushAll, hpush, Option.bind_some, hrest]

theorem pushAll_append (frame frame' : List Push) (s : Core) :
    s.pushAll (frame ++ frame') = (s.pushAll frame).bind (pushAll frame') := by
  induction frame generalizing s with
  | nil => rfl
  | cons p frame ih =>
    rw [List.cons_append, pushAll, pushAll, Option.bind_assoc]
    exact congrArg _ (funext ih)

/-- Pushes keep the bytes above the stack pointer. -/
theorem Pushed.byte (h : Pushed s s' n) {k : ℕ} (hk : n + k < 2 ^ 24) :
    s'.byte (s.a7 + BitVec.ofNat 32 k) = s.byte (s.a7 + BitVec.ofNat 32 k) := by
  have hlocation :
      s'.location (s.a7 + BitVec.ofNat 32 k) = s.location (s.a7 + BitVec.ofNat 32 k) := by
    rw [location, location, h.cpuType]
  have habove : s.a7 + BitVec.ofNat 32 k = s.a7 - BitVec.ofNat 32 n + BitVec.ofNat 32 (n + k) := by
    rw [ofNat_add, ← BitVec.add_assoc, BitVec.sub_add_cancel]
  rw [Core.byte, hlocation, h.frame _ fun i hi heq ↦ ?_]
  · rfl
  · rw [habove, location_add_inj s _ (by omega) hk] at heq
    omega

theorem push16_eq (heven : s.a7.toNat % 2 = 0) (value : BitVec 16) : ∃ s', s.push (.push16 value) =
    some s' ∧ Pushed s s' 2 ∧ s'.byte s'.a7 ++ s'.byte (s'.a7 + 1#32) = value := by
  refine ⟨_, if_neg ?_, pushed_store16 s value _ _, word_store16 _ (s.a7 - 2#32) value⟩
  rw [addressError_of_even (sub_even (n := 2) heven rfl)]
  exact Bool.false_ne_true

theorem push32_eq (heven : s.a7.toNat % 2 = 0) (value : BitVec 32) :
    ∃ s', s.push (.push32 value) = some s' ∧
    Pushed s s' 4 ∧
    s'.byte s'.a7 ++ s'.byte (s'.a7 + 1#32) ++ s'.byte (s'.a7 + 2#32) ++ s'.byte (s'.a7 + 3#32) =
      value := by
  refine ⟨_, if_neg ?_, pushed_store32 s value _ _, dword_store32 _ (s.a7 - 4#32) value⟩
  rw [addressError_of_even (sub_even (n := 4) heven rfl)]
  exact Bool.false_ne_true

/-- The end of every frame. -/
def header (format : BitVec 16) (pc : BitVec 32) (sr : BitVec 16) : List Push :=
  [.push16 format, .push32 pc, .push16 sr]

/-- What RTE reads of a frame: the status register, the program counter and the word of the
format. -/
structure Header (s : Core) (a : BitVec 32) (sr : BitVec 16) (pc : BitVec 32)
    (format : BitVec 16) : Prop where
  sr : s.byte a ++ s.byte (a + 1#32) = sr
  pc : s.byte (a + 2#32) ++ s.byte (a + 2#32 + 1#32) ++ s.byte (a + 2#32 + 2#32) ++
    s.byte (a + 2#32 + 3#32) = pc
  format : s.byte (a + 6#32) ++ s.byte (a + 6#32 + 1#32) = format

/-- The end of a frame is read back. -/
theorem exists_pushAll_header (heven : s.a7.toNat % 2 = 0) (format : BitVec 16) (pc : BitVec 32)
    (sr : BitVec 16) : ∃ s', s.pushAll (header format pc sr) = some s' ∧ Pushed s s' 8 ∧
    Header s' s'.a7 sr pc format := by
  obtain ⟨t, hpusht, hpushedt, ht⟩ := push16_eq heven format
  have htEven := hpushedt.even heven rfl
  obtain ⟨u, hpushu, hpushedu, hu⟩ := push32_eq htEven pc
  have huEven := hpushedu.even htEven rfl
  obtain ⟨s', hpush, hpushed, hs'⟩ := push16_eq huEven sr
  have hua : u.a7 = s'.a7 + 2#32 := by rw [hpushed.a7, BitVec.sub_add_cancel]
  have hta : t.a7 = s'.a7 + 6#32 := by rw [(hpushedu.trans hpushed).a7, BitVec.sub_add_cancel]
  refine ⟨s', ?_, (hpushedt.trans hpushedu).trans hpushed, hs', ?_, ?_⟩
  · rw [header, pushAll, hpusht, Option.bind_some, pushAll, hpushu, Option.bind_some,
      pushAll, hpush]
    rfl
  · have hkeep := fun k (hk : 2 + k < 2 ^ 24) ↦ hpushed.byte hk
    have h0 := hkeep 0 (by decide)
    rw [BitVec.add_zero] at h0
    rw [← hua, h0, hkeep 1 (by decide), hkeep 2 (by decide), hkeep 3 (by decide), hu]
  · have hkeep := fun k (hk : 4 + 2 + k < 2 ^ 24) ↦ (hpushedu.trans hpushed).byte hk
    have h0 := hkeep 0 (by decide)
    rw [BitVec.add_zero] at h0
    rw [← hta, h0, hkeep 1 (by decide), ht]

/-- A frame is pushed below the stack pointer, with its end on top. -/
theorem exists_pushAll_append_header (heven : s.a7.toNat % 2 = 0)
    (frame : List Push) (format : BitVec 16)
    (pc : BitVec 32) (sr : BitVec 16) : ∃ s', s.pushAll (frame ++ header format pc sr) = some s' ∧
      Pushed s s' (frameSize frame + 8) ∧ Header s' s'.a7 sr pc format := by
  obtain ⟨t, hpusht, hpushedt⟩ := exists_pushAll heven frame
  obtain ⟨s', hpush, hpushed, hheader⟩ :=
    exists_pushAll_header (hpushedt.even heven (frameSize_even frame)) format pc sr
  refine ⟨s', ?_, hpushedt.trans hpushed, hheader⟩
  rw [pushAll_append, hpusht, Option.bind_some, hpush]

end Pushes

/-! ## Stack frames -/

open Push

def stackFrame3word (pc : BitVec 32) (sr : BitVec 16) : List Push := [push32 pc, push16 sr]

def stackFrame0000 (s : Core) (pc : BitVec 32) (sr : BitVec 16) (vector : BitVec 32) : List Push :=
  -- a 3-word frame on the 68000
  if s.cpuType.is000 then stackFrame3word pc sr
  else [push16 ((vector <<< 2).setWidth 16), push32 pc, push16 sr]

/-- The throwaway frame. -/
def stackFrame0001 (pc : BitVec 32) (sr : BitVec 16) (vector : BitVec 32) : List Push :=
  [push16 ((0x1000#32 ||| vector <<< 2).setWidth 16), push32 pc, push16 sr]

def stackFrame0010 (s : Core) (sr : BitVec 16) (vector : BitVec 32) : List Push :=
  [push32 s.ppc, push16 ((0x2000#32 ||| vector <<< 2).setWidth 16), push32 s.pc, push16 sr]

/-- The frame of a bus error on the 68000. -/
def stackFrameBuserr (s : Core) (sr : BitVec 16) : List Push :=
  [push32 s.pc, push16 sr, push16 s.ir, push32 s.aerrAddress,
    push16 ((s.aerrWriteMode ||| s.instrMode ||| s.aerrFc).setWidth 16)]

/-- The frame of a bus error on the 68010. -/
def stackFrame1000 (s : Core) (pc : BitVec 32) (sr : BitVec 16)
    (vector faultAddress : BitVec 32) : List Push :=
  let origRw := s.mmuTmpBuserrorRw
  let origFc := s.mmuTmpBuserrorFc
  [ -- version number and internal information
    fakePush32, fakePush32, fakePush32, fakePush32, fakePush32, fakePush32, fakePush32, fakePush32,
    -- the input buffers and the output buffer
    push16 0#16, fakePush16, push16 0#16, fakePush16, push16 0#16, fakePush16,
    push32 faultAddress, push16 (origFc ||| origRw <<< 8),
    push16 ((0x8000#32 ||| vector <<< 2).setWidth 16), push32 pc, push16 sr]

/-- The frame of a bus error on the 68070. -/
def stackFrame1111 (s : Core) (pc : BitVec 32) (sr : BitVec 16)
    (vector faultAddress : BitVec 32) : List Push :=
  [fakePush16, push16 0#16, push16 s.ir, push32 0#32, push32 faultAddress, push32 0#32,
    fakePush32, push16 0#16,
    push16 0#16, push16 ((0xf000#32 ||| vector <<< 2).setWidth 16), push32 pc, push16 sr]

/-- The special status register of a bus fault. -/
def specialStatus (s : Core) : BitVec 16 :=
  0x0100#16 ||| s.mmuTmpBuserrorFc ||| s.mmuTmpBuserrorRw <<< 6 ||| s.mmuTmpBuserrorSz <<< 4

/-- The short bus fault frame. -/
def stackFrame1010 (s : Core) (sr : BitVec 16) (vector pc faultAddress : BitVec 32) : List Push :=
  [push16 0#16, push16 0#16, push32 0#32, push16 0#16, push16 0#16, push32 faultAddress,
    push16 0#16, push16 0#16, push16 s.specialStatus, push16 0#16,
    push16 ((0xa000#32 ||| vector <<< 2).setWidth 16), push32 pc, push16 sr]

/-- The long bus fault frame. -/
def stackFrame1011 (s : Core) (sr : BitVec 16) (vector pc faultAddress : BitVec 32) : List Push :=
  [ -- internal registers
    push32 0#32, push32 0#32, push32 0#32, push32 0#32, push32 0#32, push32 0#32, push32 0#32,
    push32 0#32, push32 0#32,
    -- version and internal registers
    push16 0#16, push32 0#32, push16 0#16,
    -- the data input buffer, and the address of stage B among internal registers
    push32 0#32, push32 0#32, push32 0#32, push32 0#32, push32 0#32,
    -- the data output buffer
    push32 0#32, push16 0#16, push16 0#16, push32 faultAddress, push16 0#16, push16 0#16,
    push16 s.specialStatus, push16 0#16,
    push16 ((0xb000#32 ||| vector <<< 2).setWidth 16), push32 pc, push16 sr]

/-- The access fault frame of the 68040. -/
def stackFrame0111 (s : Core) (sr : BitVec 16) (vector pc faultAddress : BitVec 32)
    (inMmu : Bool) : List Push :=
  let origRw := s.mmuTmpBuserrorRw
  let origFc := s.mmuTmpBuserrorFc
  [push32 0#32, push32 0#32, push32 0#32, push32 0#32, push32 0#32, push32 0#32, push32 0#32,
    push32 0#32, push32 0#32, push32 faultAddress, push32 0#32, push16 0#16,
    push16 ((if inMmu then 0x400#16 else 0#16) ||| origFc ||| origRw <<< 8), push32 faultAddress,
    push16 ((0x7000#32 ||| vector <<< 2).setWidth 16), push32 pc, push16 sr]

/-! ## Exception processing -/

/-- `m68ki_init_exception`: the status register before the exception, and the supervisor mode
without trace. -/
def initException (s : Core) : BitVec 16 × Core :=
  (s.getSr, ({ s with t1Flag := false, t0Flag := false, tracing := false } : Core).setSFlag true)

/-- `m68ki_jump_vector`. -/
def jumpVector (vector : BitVec 32) (s : Core) : Option Core := do
  let (pc, s) ← s.read32 (vector <<< 2 + s.vbr)
  some { s with pc := pc }

/-- What the exceptions but the interrupts share: the processor is prepared, and the frame is taken
from it and from the status register. -/
def raise (vector : BitVec 32) (prepare : Core → Core) (frame : Core → BitVec 16 →
    List Push) (s : Core) : Option Core := do
  let (sr, s) := s.initException
  let s := prepare s
  let s ← s.pushAll (frame s sr)
  s.jumpVector vector

theorem raise_eq (vector : BitVec 32) (prepare : Core → Core) (frame : Core → BitVec 16 → List Push)
    (s : Core) : s.raise vector prepare frame = ((prepare s.initException.2).pushAll
      (frame (prepare s.initException.2) s.getSr)).bind (jumpVector vector) := rfl

/-- The 68000 notes that no instruction runs. -/
def instructionNo (s : Core) : Core := if s.cpuType.is000 then { s with instrMode := 8#32 } else s

/-- `m68ki_exception_trap`. -/
def exceptionTrap (vector : BitVec 32) (s : Core) : Option Core :=
  s.raise vector id fun s sr ↦
    if s.cpuType.is010Less then s.stackFrame0000 s.pc sr vector else s.stackFrame0010 sr vector

/-- `m68ki_exception_trapN`. -/
def exceptionTrapN (vector : BitVec 32) (s : Core) : Option Core :=
  s.raise vector id fun s sr ↦ s.stackFrame0000 s.pc sr vector

/-- The end of a STOP. -/
def endStop (s : Core) : Core := { s with stopped := s.stopped &&& ~~~1#32 }

/-- `m68ki_exception_trace`. -/
def exceptionTrace (s : Core) : Option Core :=
  (s.raise 9#32 (fun s ↦ if s.cpuType.is010Less then s.instructionNo else s) fun s sr ↦
    if s.cpuType.is010Less then s.stackFrame0000 s.pc sr 9#32
      else s.stackFrame0010 sr 9#32).map endStop

/-- `m68ki_exception_privilege_violation`. -/
def exceptionPrivilegeViolation (s : Core) : Option Core :=
  s.raise 8#32 instructionNo fun s sr ↦ s.stackFrame0000 s.ppc sr 8#32

/-- `m68ki_exception_1010`. -/
def exception1010 (s : Core) : Option Core :=
  s.raise 10#32 id fun s sr ↦ s.stackFrame0000 s.ppc sr 10#32

/-- `m68ki_exception_1111`. -/
def exception1111 (s : Core) : Option Core :=
  s.raise 11#32 id fun s sr ↦ s.stackFrame0000 s.ppc sr 11#32

/-- `m68ki_exception_illegal`. -/
def exceptionIllegal (s : Core) : Option Core :=
  s.raise 4#32 instructionNo fun s sr ↦ s.stackFrame0000 s.ppc sr 4#32

/-- `m68ki_exception_format_error`. -/
def exceptionFormatError (s : Core) : Option Core :=
  s.raise 14#32 id fun s sr ↦ s.stackFrame0000 s.pc sr 14#32

/-- The frame that `m68k_cause_bus_error` pushes. -/
def busErrorFrame (s : Core) (sr : BitVec 16) : List Push :=
  if s.cpuType.is000 then s.stackFrameBuserr sr
  else if s.cpuType.is010 then s.stackFrame1000 s.ppc sr 2#32 s.mmuTmpBuserrorAddress
  else if s.cpuType.is070 then s.stackFrame1111 s.ppc sr 2#32 s.mmuTmpBuserrorAddress
  else if s.mmuTmpBuserrorAddress = s.ppc
    then s.stackFrame1010 sr 2#32 s.ppc s.mmuTmpBuserrorAddress
  else s.stackFrame1011 sr 2#32 s.ppc s.mmuTmpBuserrorAddress

/-- The details of the access that a bus error is about. -/
def saveBuserror (s : Core) : Core :=
  { s with
    mmuTmpBuserrorFc := s.mmuTmpFc
    mmuTmpBuserrorRw := s.mmuTmpRw
    mmuTmpBuserrorSz := s.mmuTmpSz.setWidth 16 }

def setRunMode (runMode : RunMode) (s : Core) : Core := { s with runMode := runMode }

/-- `m68k_cause_bus_error`, which halts on a bus error while the frame of one is written. -/
def causeBusError (s : Core) : Option Core :=
  let s := s.saveBuserror
  if s.runMode = .berrAerrResetWsf then some { s with stopped := 2#32 }
  else (s.raise 2#32 (setRunMode .berrAerrResetWsf) busErrorFrame).map (setRunMode .berrAerrReset)

/-- The frame that `execute_run` pushes for a bus error. -/
def restartBusErrorFrame (s : Core) (sr : BitVec 16) : List Push :=
  if ¬ s.cpuType.is020Plus then
    if s.cpuType.is010 then s.stackFrame1000 s.ppc sr 2#32 s.mmuTmpBuserrorAddress
    else s.stackFrameBuserr sr
  else if ¬ s.cpuType.is040Plus then
    if s.mmuTmpBuserrorAddress = s.ppc then s.stackFrame1010 sr 2#32 s.ppc s.mmuTmpBuserrorAddress
    else s.stackFrame1011 sr 2#32 s.ppc s.mmuTmpBuserrorAddress
  else s.stackFrame0111 sr 2#32 s.ppc s.mmuTmpBuserrorAddress true

/-- The bus error of `execute_run` after an instruction that is to be restarted, once the registers
are back to their values before it. -/
def restartBusError (s : Core) : Option Core :=
  s.raise 2#32 (setRunMode .berrAerrReset) restartBusErrorFrame

/-- The address of a handler, with the one for uninitialized vectors in place of none. -/
def fetchHandler (vector : BitVec 32) (s : Core) : Option (BitVec 32 × Core) := do
  let (pc, s) ← s.read32 (vector <<< 2 + s.vbr)
  if pc = 0#32 then s.read32 (15#32 <<< 2 + s.vbr) else some (pc, s)

/-- The frames of an interrupt: on the master stack, and then a throwaway frame on the interrupt
stack. -/
def stackInterrupt (sr : BitVec 16) (vector : BitVec 32) (s : Core) : Option Core := do
  let s ← s.pushAll (s.stackFrame0000 s.pc sr vector)
  if s.mFlag && s.cpuType.isEc020Plus then
    let s := s.setSmFlag s.sFlag false
    s.pushAll (stackFrame0001 s.pc (sr ||| 0x2000#16) vector)
  else some s

def setPc (pc : BitVec 32) (s : Core) : Core := { s with pc := pc }

def setIntMask (level : BitVec 3) (s : Core) : Core := { s with intMask := level }

/-- `m68ki_exception_interrupt`. The parameter is the vector that the acknowledge cycle reads for a
level. -/
def exceptionInterrupt (iack : BitVec 3 → BitVec 8) (level : BitVec 3) (s : Core) : Option Core :=
  let s := s.instructionNo.endStop
  if s.stopped ≠ 0#32 then some s
  else do
    let vector := (iack level).setWidth 32
    let (sr, s) := s.initException
    let (pc, s) ← (s.setIntMask level).fetchHandler vector
    let s ← s.stackInterrupt sr vector
    some (s.setPc pc)

end Core

end RoscoEmulator.M68k
