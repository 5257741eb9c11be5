import RoscoEmulator.Lib.Statements
import Mathlib.Data.Int.Notation

/-!
# The functions that `m6502make.py` writes

Every opcode of a list becomes two functions. `_full` has the lines of the opcode, with a check of
`m_icount` after each memory access. `_partial` has them in a `switch` on `m_inst_substate`, with a
label before each access and one behind it, so that an instruction can go on where the time of the
processor ran out. The labels are numbered from 1 in the order of the lines, two to an access. -/

namespace RoscoEmulator.M6502

/-- What a generated function works on: `m_inst_state`, the registers and lines of the processor
with what is behind its bus, `m_icount` and `m_inst_substate`. -/
structure Running (ι σ : Type*) where
  instState : ι
  core : σ
  icount : ℤ
  instSubstate : ℕ

/-- The members that the generated code reads between the lines of an opcode. -/
structure Pins (σ : Type*) where
  rdyState : σ → Bool
  accessToBeRedone : σ → Bool
  /-- What `access_to_be_redone()` leaves when it returns true. -/
  accessRedone : σ → σ

/-- `identify_line_type` of the lines outside the loops. -/
inductive LineType where
  | memoryRead
  | memoryWrite
  | none
  deriving DecidableEq

/-- The instructions of an opcode, which read `m_inst_state` and leave it alone. A line with
`eat-all-cycles` stands by itself in a `while` or in a `for(;;)`. -/
inductive Block (ι σ : Type*) where
  | nop
  | line (type : LineType) (ins : ι → σ → σ)
  | seq (a b : Block ι σ)
  | ite (c : ι → σ → Bool) (a b : Block ι σ)
  | eatWhile (c : σ → Bool)
  | eatForever

/-- The lists of opcodes, by the device whose functions they become. -/
inductive ListDevice where
  | m6502
  | m6510
  | w65c02
  | w65c02s
  deriving DecidableEq

/-- The devices in `RDY_GATED_DEVICES`. -/
def ListDevice.rdyGated : ListDevice → Bool
  | m6502 | m6510 => true
  | w65c02 | w65c02s => false

structure Opcode (ι σ : Type*) where
  device : ListDevice
  instructions : Block ι σ
  /-- What a last line assigns to `m_inst_state`. -/
  next : Option ι := none

variable {ι σ : Type*}

/-- The substates that the lines of a block take. -/
def Block.substates : Block ι σ → ℕ
  | nop | line .none _ => 0
  | line .memoryRead _ | line .memoryWrite _ => 2
  | seq a b | ite _ a b => a.substates + b.substates
  | eatWhile _ | eatForever => 1

def insLine (ins : ι → σ → σ) : Stmt (Running ι σ) :=
  .act fun r ↦ { r with core := ins r.instState r.core }

/-- The line of a memory access. `defer_access` and `retry_access` take the cycles that are left. -/
def accessLine (pins : Pins σ) (ins : ι → σ → σ) : Stmt (Running ι σ) :=
  .act fun r ↦
    { r with
      core := ins r.instState r.core
      icount :=
        if pins.accessToBeRedone (ins r.instState r.core) then min r.icount 0 else r.icount }

def countCycle : Stmt (Running ι σ) := .act fun r ↦ { r with icount := r.icount - 1 }

def setSubstate (substate : ℕ) : Stmt (Running ι σ) :=
  .act fun r ↦ { r with instSubstate := substate }

/-- Cycles pass until RDY comes back. -/
def rdyWait (pins : Pins σ) (substate : ℕ) : Stmt (Running ι σ) :=
  .loop (fun r ↦ !pins.rdyState r.core) <|
    .seq countCycle <| .ite (fun r ↦ r.icount ≤ 0) (.seq (setSubstate substate) .ret) .nop

/-- The check of `m_icount` behind a memory access. -/
def countAccess (pins : Pins σ) (substate : ℕ) : Stmt (Running ι σ) :=
  .seq countCycle <| .ite (fun r ↦ r.icount ≤ 0)
    (.seq
      (.ite (fun r ↦ pins.accessToBeRedone r.core)
        (.seq (insLine fun _ ↦ pins.accessRedone) <| .seq
          (.act fun r ↦ { r with icount := r.icount + 1 }) <| setSubstate substate)
        (setSubstate (substate + 1)))
      .ret)
    .nop

/-- What is written for a memory access. -/
def memoryAccess (pins : Pins σ) (rdyGated : Bool) (type : LineType) (ins : ι → σ → σ)
    (substate : ℕ) : Stmt (Running ι σ) :=
  .seq (if rdyGated ∧ type = .memoryRead then rdyWait pins substate else .nop) <| .seq
    (accessLine pins ins) <| countAccess pins substate

/-- What is written for `eat-all-cycles`. -/
def eatAllCycles (substate : ℕ) : Stmt (Running ι σ) :=
  .seq (.act fun r ↦ { r with icount := 0 }) <| .seq (setSubstate substate) .ret

/-- The lines of the `_full` function, with the first substate that is free. -/
def fullCode (pins : Pins σ) (rdyGated : Bool) : Block ι σ → ℕ → Stmt (Running ι σ)
  | .nop, _ => .nop
  | .line .none ins, _ => insLine ins
  | .line .memoryRead ins, n => memoryAccess pins rdyGated .memoryRead ins n
  | .line .memoryWrite ins, n => memoryAccess pins rdyGated .memoryWrite ins n
  | .seq a b, n => .seq (fullCode pins rdyGated a n) (fullCode pins rdyGated b (n + a.substates))
  | .ite c a b, n =>
      .ite (fun r ↦ c r.instState r.core) (fullCode pins rdyGated a n)
        (fullCode pins rdyGated b (n + a.substates))
  | .eatWhile c, n => .loop (fun r ↦ c r.core) (eatAllCycles n)
  | .eatForever, n => .loop (fun _ ↦ true) (eatAllCycles n)

/-- The lines of the `_partial` function. -/
def partialCode (pins : Pins σ) (rdyGated : Bool) : Block ι σ → ℕ → Stmt (Running ι σ)
  | .nop, _ => .nop
  | .line .none ins, _ => insLine ins
  | .line .memoryRead ins, n =>
      .seq (.label n) <| .seq (memoryAccess pins rdyGated .memoryRead ins n) (.label (n + 1))
  | .line .memoryWrite ins, n =>
      .seq (.label n) <| .seq (memoryAccess pins rdyGated .memoryWrite ins n) (.label (n + 1))
  | .seq a b, n =>
    .seq (partialCode pins rdyGated a n) (partialCode pins rdyGated b (n + a.substates))
  | .ite c a b, n =>
      .ite (fun r ↦ c r.instState r.core) (partialCode pins rdyGated a n)
        (partialCode pins rdyGated b (n + a.substates))
  | .eatWhile c, n => .loop (fun r ↦ c r.core) (.seq (eatAllCycles n) (.label n))
  | .eatForever, n => .loop (fun _ ↦ true) (.seq (eatAllCycles n) (.label n))

namespace Opcode

variable (pins : Pins σ) (fuel : ℕ) (op : Opcode ι σ)

/-- The line that assigns to `m_inst_state`. -/
def nextLine : Stmt (Running ι σ) :=
  match op.next with
  | none => .nop
  | some i => .act fun r ↦ { r with instState := i }

/-- The `_full` function of the opcode. -/
def full (r : Running ι σ) : Option (Running ι σ) :=
  ((Stmt.seq (fullCode pins op.device.rdyGated op.instructions 1) op.nextLine).exec fuel
    r).map Flow.state

/-- The body of the `switch` in the `_partial` function. -/
def partialCases : Stmt (Running ι σ) :=
  .seq (.label 0) <| .seq (partialCode pins op.device.rdyGated op.instructions 1) op.nextLine

/-- The `_partial` function of the opcode. -/
def part (r : Running ι σ) : Option (Running ι σ) :=
  (((op.partialCases pins).switch fuel Running.instSubstate r).bind
    (Flow.andThen fun r ↦ some (.next { r with instSubstate := 0 }))).map Flow.state

end Opcode

end RoscoEmulator.M6502
