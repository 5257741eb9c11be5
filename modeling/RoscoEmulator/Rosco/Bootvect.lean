import RoscoEmulator.Lib.GuardedRun
import Mathlib.Data.Int.Notation

/-!
# The boot vector of the rosco m68k

At reset the first eight bytes of the address space show the start of the ROM, so that the CPU finds
its stack pointer and its program counter there. The overlay is a memory view over the RAM: a write
inside the view goes to `bootvect_w`, which merges it into the RAM below and disables the view, so
that from the next access on the RAM is all there is.

The accesses are those of the bus, 16 bits wide for the 68000 and 68010 and 32 bits for the 68020
and 68030; a wider access of the CPU is several of them.
-/

namespace RoscoEmulator.Bootvect

/-! ## The memory view -/

/-- `memory_view` as far as its selection goes: the slot, its id, and the dispatch array that the
handlers of the view use, where array `0` is what lies below the view. -/
structure MemoryView where
  curSlot : ℤ
  curId : ℤ
  active : ℤ
deriving DecidableEq, Repr

namespace MemoryView

variable (v : MemoryView)

/-- `refresh_id`, which calls `select_a` of both handlers. -/
def refreshId : MemoryView := { v with active := v.curId + 1 }

/-- `disable`. -/
def disable : MemoryView :=
  if v.curId ≠ -1 then refreshId { v with curSlot := -1, curId := -1 } else v

/-- `select` with the slots of `entryMapping`; a slot that is not there is a fatal error. -/
def select (entryMapping : ℤ → Option ℤ) (slot : ℤ) : Option MemoryView :=
  if slot ≠ v.curSlot ∨ v.curId = -1 then
    (entryMapping slot).map fun id ↦ refreshId { v with curSlot := slot, curId := id }
  else some v

end MemoryView

/-! ## The driver -/

/-- The machines of the driver. -/
inductive Cpu
  | m68000 | m68010 | m68020 | m68030
deriving DecidableEq, Repr

/-- The width of the bus, and of the words of `m_sysram`. -/
def Cpu.busWidth : Cpu → ℕ
  | .m68000 | .m68010 => 16
  | .m68020 | .m68030 => 32

variable {w : ℕ}

/-- The system RAM, the monitor ROM, and the view over the first bytes of the RAM. -/
structure Board (w : ℕ) where
  sysram : ℕ → BitVec w
  monitor : ℕ → BitVec w
  bootvect : MemoryView

/-- `COMBINE_DATA`. -/
def combineData (old data memMask : BitVec w) : BitVec w :=
  (old &&& ~~~memMask) ||| (data &&& memMask)

namespace Board

variable (b : Board w)

/-- A write of the RAM, `handler_entry_write_memory::write`. -/
def ramW (offset : ℕ) (data memMask : BitVec w) : Board w :=
  { b with
    sysram := Function.update b.sysram offset (combineData (b.sysram offset) data memMask) }

/-- `bootvect_w`, the same for all machines but for the width of its words. -/
def bootvectW (offset : ℕ) (data memMask : BitVec w) : Board w :=
  { b.ramW offset data memMask with bootvect := b.bootvect.disable }

/-- The view has the one slot that `delegated_mem_map` makes. -/
def entryMapping (slot : ℤ) : Option ℤ := if slot = 0 then some 0 else none

/-- `bootvec_reset`. -/
def bootvecReset : Option (Board w) :=
  (b.bootvect.select entryMapping 0).map fun v ↦ { b with bootvect := v }

/-- The word of an address, as the handlers get it. -/
def wordOffset (w address : ℕ) : ℕ := address / (w / 8)

/-- A read in the range of the view: the ROM in slot `0`, the RAM below. -/
def read (address : ℕ) : BitVec w :=
  if b.bootvect.active = 0 then b.sysram (wordOffset w address)
  else b.monitor (wordOffset w address)

/-- A write in the range of the view. -/
def write (address : ℕ) (data memMask : BitVec w) : Board w :=
  if b.bootvect.active = 0 then b.ramW (wordOffset w address) data memMask
  else b.bootvectW (wordOffset w address) data memMask

/-- The machine before its first reset. -/
def start (sysram monitor : ℕ → BitVec w) : Board w := ⟨sysram, monitor, ⟨-1, -1, 0⟩⟩

end Board

/-- What happens to the first eight bytes of the address space. -/
inductive Event (w : ℕ)
  | reset
  | read (address : Fin 8)
  | write (address : Fin 8) (data memMask : BitVec w)
deriving DecidableEq, Repr

/-- One event; `none` is a fatal error. -/
def Board.step (b : Option (Board w)) : Event w → Option (Board w)
  | .reset => b.bind Board.bootvecReset
  | .read _ => b
  | .write address data memMask => b.map fun b ↦ b.write address data memMask

/-- A run from power on, which resets the machine first. -/
def Board.run (b : Board w) (es : List (Event w)) : Option (Board w) :=
  Run.run Board.step (some b) (.reset :: es)

/-! ## The history -/

/-- No write since the last reset; the newest event comes first. -/
def overlaid : List (Event w) → Bool
  | [] => true
  | .reset :: _ => true
  | .read _ :: past => overlaid past
  | .write .. :: _ => false

/-- A bit of the RAM: that of the last write whose mask covers it. -/
def ramBit (sysram : ℕ → BitVec w) : List (Event w) → ℕ → ℕ → Bool
  | [], offset, i => (sysram offset).getLsbD i
  | .reset :: past, offset, i => ramBit sysram past offset i
  | .read _ :: past, offset, i => ramBit sysram past offset i
  | .write address data memMask :: past, offset, i =>
      if Board.wordOffset w address = offset ∧ memMask.getLsbD i then data.getLsbD i
      else ramBit sysram past offset i

/-- The board is what its history says. -/
structure Tracks (sysram monitor : ℕ → BitVec w) (past : List (Event w)) (b : Board w) : Prop where
  monitor : b.monitor = monitor
  view : b.bootvect = if overlaid past then ⟨0, 0, 1⟩ else ⟨-1, -1, 0⟩
  ram : ∀ offset, ∀ i < w, (b.sysram offset).getLsbD i = ramBit sysram past offset i

variable {sysram monitor : ℕ → BitVec w} {past : List (Event w)} {b : Board w}

theorem getLsbD_combineData (old data memMask : BitVec w) {i : ℕ} (hi : i < w) :
    (combineData old data memMask).getLsbD i =
      if memMask.getLsbD i then data.getLsbD i else old.getLsbD i := by
  rw [combineData, BitVec.getLsbD_or, BitVec.getLsbD_and, BitVec.getLsbD_and, BitVec.getLsbD_not]
  cases memMask.getLsbD i <;> simp [hi]

/-- A write merges its lanes into the RAM, whether the view is there or not. -/
theorem write_eq (address : Fin 8) (data memMask : BitVec w) :
    (b.write address data memMask).sysram = Function.update b.sysram (Board.wordOffset w address)
      (combineData (b.sysram (Board.wordOffset w address)) data memMask) ∧
    (b.write address data memMask).monitor = b.monitor := by
  rw [Board.write]
  split_ifs <;> exact ⟨rfl, rfl⟩

theorem Tracks.write
    (h : Tracks sysram monitor past b) (address : Fin 8) (data memMask : BitVec w) :
    Tracks sysram monitor (.write address data memMask :: past) (b.write address data memMask) := by
  obtain ⟨hram, hmonitor⟩ := write_eq (b := b) address data memMask
  refine ⟨hmonitor.trans h.monitor, ?_, fun offset i hi ↦ ?_⟩
  · have hview := h.view
    rw [Board.write, overlaid]
    split_ifs at hview with hover
    · -- the view is disabled by the write that it takes
      rw [if_neg (by rw [hview]; decide), Board.bootvectW, hview]
      rfl
    · rw [if_pos (by rw [hview])]
      exact hview
  · rw [hram, ramBit]
    by_cases hoffset : Board.wordOffset w address = offset
    · subst hoffset
      rw [Function.update_self, getLsbD_combineData _ _ _ hi, h.ram _ i hi]
      simp only [true_and]
    · rw [Function.update_of_ne (Ne.symm hoffset), if_neg (fun h' ↦ hoffset h'.1),
        h.ram offset i hi]

theorem Tracks.reset (h : Tracks sysram monitor past b) :
    ∃ b', b.bootvecReset = some b' ∧ Tracks sysram monitor (.reset :: past) b' := by
  have hview := h.view
  refine ⟨{ b with bootvect := ⟨0, 0, 1⟩ }, ?_, h.monitor, rfl, h.ram⟩
  split_ifs at hview with hover
  · rw [Board.bootvecReset, hview]
    rfl
  · rw [Board.bootvecReset, hview]
    rfl

theorem Tracks.step (h : Tracks sysram monitor past b) (e : Event w) :
    ∃ b', Board.step (some b) e = some b' ∧ Tracks sysram monitor (e :: past) b' := by
  cases e with
  | reset => exact h.reset
  | read address => exact ⟨b, rfl, h.monitor, h.view, h.ram⟩
  | write address data memMask => exact ⟨_, rfl, h.write address data memMask⟩

theorem Tracks.run (h : Tracks sysram monitor past b) (es : List (Event w)) :
    ∃ b', Run.run Board.step (some b) es = some b' ∧
      Tracks sysram monitor (es.reverse ++ past) b' := by
  induction es generalizing b past with
  | nil => exact ⟨b, rfl, h⟩
  | cons e es ih =>
    obtain ⟨b', hstep, hb'⟩ := h.step e
    obtain ⟨b'', hrun, hb''⟩ := ih hb'
    refine ⟨b'', by rw [Run.run_cons, hstep, hrun], ?_⟩
    rw [List.reverse_cons, List.append_assoc]
    exact hb''

/-- The machine after the reset of its power on. -/
theorem tracks_start (sysram monitor : ℕ → BitVec w) :
    ∃ b, Board.step (some (Board.start sysram monitor)) .reset = some b ∧
      Tracks sysram monitor [] b :=
  ⟨⟨sysram, monitor, ⟨0, 0, 1⟩⟩, rfl, rfl, rfl, fun _ _ _ ↦ rfl⟩

/-- **The boot-vector overlay.** After every run of resets, reads and masked writes of the first
eight bytes, on each of the machines: reads return the ROM until the first write behind the last
reset, and from that write on the RAM; and the RAM holds all writes made so far, each in the lanes
of its mask, and nothing else. -/
theorem bootvect_overlay (cpu : Cpu) (sysram monitor : ℕ → BitVec cpu.busWidth)
    (es : List (Event cpu.busWidth)) : ∃ b, (Board.start sysram monitor).run es = some b ∧
      (∀ address : Fin 8, overlaid es.reverse = true →
        b.read address = monitor (Board.wordOffset cpu.busWidth address)) ∧
      (∀ address : Fin 8, overlaid es.reverse = false →
        b.read address = b.sysram (Board.wordOffset cpu.busWidth address)) ∧
      ∀ offset, ∀ i < cpu.busWidth,
        (b.sysram offset).getLsbD i = ramBit sysram es.reverse offset i := by
  obtain ⟨b₀, hreset, h₀⟩ := tracks_start sysram monitor
  obtain ⟨b, hrun, hb⟩ := h₀.run es
  rw [List.append_nil] at hb
  refine ⟨b, by rw [Board.run, Run.run_cons, hreset, hrun], fun address hover ↦ ?_,
    fun address hover ↦ ?_, hb.ram⟩
  · rw [Board.read, hb.view, hover, ← hb.monitor]
    rfl
  · rw [Board.read, hb.view, hover]
    rfl

end RoscoEmulator.Bootvect
