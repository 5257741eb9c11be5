import RoscoEmulator.Emu.Diserial
import RoscoEmulator.Lib.BoundedQueue

/-!
# The buffered serial interface

`device_buffered_serial_interface` puts a ring of `FIFO_LENGTH` bytes in front of the transmit
register. The ring has no count: equal indices are an empty ring or a full one, and a flag says
which. A byte that finds the ring and the register empty goes into the register at once.

`waiting` is the queue in the ring. The relations that the class asserts make the flag and the
indices a ring with a count, `ring`; every operation keeps them, and moves bytes from those offered
to those that wait and from there to the transmit register, in order. -/

namespace RoscoEmulator

open List

/-- The members of `device_buffered_serial_interface`, with what it has done so far: the bytes that
it set the transmit register up with, and the bytes of its overrun messages. -/
structure BufferedSerial where
  serial : Serial := {}
  fifo : ℕ → BitVec 8
  head : ℕ := 0
  tail : ℕ := 0
  empty : Bool := true
  setups : List (BitVec 8) := []
  overruns : List (BitVec 8) := []

namespace BufferedSerial

/-- `(i + 1U) % FIFO_LENGTH`. -/
def advance (n i : ℕ) : ℕ := (i + 1) % 2 ^ 32 % n

/-- A byte goes to `transmit_register_setup`. -/
def setup (byte : BitVec 8) (d : BufferedSerial) : BufferedSerial :=
  { d with serial := d.serial.transmitRegisterSetup byte, setups := d.setups ++ [byte] }

/-- `tra_complete`. -/
def traComplete (n : ℕ) (d : BufferedSerial) : BufferedSerial :=
  if !d.empty then
    let d := d.setup (d.fifo d.head)
    let d := { d with head := advance n d.head }
    { d with empty := d.head == d.tail }
  else d

/-- `transmit_byte`. -/
def transmitByte (n : ℕ) (byte : BitVec 8) (d : BufferedSerial) : BufferedSerial :=
  if d.empty && d.serial.traEmpty then d.setup byte
  else if d.empty || d.head != d.tail then
    { d with fifo := Function.update d.fifo d.tail byte, tail := advance n d.tail, empty := false }
  else { d with overruns := d.overruns ++ [byte] }

/-- `fifo_full`. -/
def fifoFull (d : BufferedSerial) : Bool := !d.empty && d.head == d.tail

/-! ## Runs -/

/-- What happens to the interface. -/
inductive Event
  | transmitByte (byte : BitVec 8)
  | traComplete
  /-- Whatever else the serial interface does: bits shifted out and in, rates and frames set, a
  reset of the transmit register. -/
  | serial (serial : Serial)

namespace Event

/-- The byte that an event offers. -/
def offered : Event → Option (BitVec 8)
  | transmitByte byte => some byte
  | traComplete | serial _ => none

def completes : Event → Bool
  | traComplete => true
  | transmitByte _ | serial _ => false

end Event

def step (n : ℕ) (d : BufferedSerial) : Event → BufferedSerial
  | .transmitByte byte => d.transmitByte n byte
  | .traComplete => d.traComplete n
  | .serial serial => { d with serial := serial }

def run (n : ℕ) (d : BufferedSerial) (events : List Event) : BufferedSerial :=
  events.foldl (step n) d

/-- A new interface, with anything in the cells of its ring. -/
def new (serial : Serial) (fifo : ℕ → BitVec 8) : BufferedSerial :=
  { serial := serial, fifo := fifo }

/-- A byte is dropped: it goes into a message. -/
def Drops (n : ℕ) (d : BufferedSerial) (byte : BitVec 8) : Prop :=
  (d.transmitByte n byte).overruns ≠ d.overruns

instance (n : ℕ) (d : BufferedSerial) (byte : BitVec 8) : Decidable (d.Drops n byte) :=
  inferInstanceAs (Decidable (_ ≠ _))

/-- The byte that an event offers, unless it is dropped. -/
def taken (n : ℕ) (d : BufferedSerial) : Event → List (BitVec 8)
  | .transmitByte byte => if d.Drops n byte then [] else [byte]
  | .traComplete | .serial _ => []

/-- The bytes accepted in a run. -/
def accepted (n : ℕ) : BufferedSerial → List Event → List (BitVec 8)
  | _, [] => []
  | d, event :: events => d.taken n event ++ accepted n (d.step n event) events

/-- The relations that `tra_complete` and `transmit_byte` assert. -/
structure Asserts (n : ℕ) (d : BufferedSerial) : Prop where
  head_eq_tail : d.empty = true → d.head = d.tail
  head_lt : d.head < n
  tail_lt : d.tail < n

/-- The number of bytes between the indices. -/
def count (n : ℕ) (d : BufferedSerial) : ℕ :=
  if d.empty then 0 else if d.head < d.tail then d.tail - d.head else d.tail + n - d.head

/-- The ring with its count. -/
def ring (n : ℕ) (d : BufferedSerial) : Ring (BitVec 8) := ⟨d.fifo, d.head, d.tail, d.count n⟩

/-- The bytes in the ring, oldest first. -/
def waiting (n : ℕ) (d : BufferedSerial) : List (BitVec 8) := (d.ring n).contents n

/-! ## The ring -/

section Ring

variable {n : ℕ} {d : BufferedSerial}

@[simp] theorem length_waiting (n : ℕ) (d : BufferedSerial) : (d.waiting n).length = d.count n :=
  Ring.length_contents _

theorem advance_eq_next (hn : n < 2 ^ 32) {i : ℕ} (hi : i < n) : advance n i = Ring.next n i := by
  rw [advance, Nat.mod_eq_of_lt (by omega : i + 1 < 2 ^ 32), Ring.next_mod hi]

namespace Asserts

variable (h : d.Asserts n)
include h

theorem valid : (d.ring n).Valid n := by
  have hhead := h.head_lt
  have htail := h.tail_lt
  refine ⟨hhead, ?_, ?_⟩
  · change d.count n ≤ n
    rw [count]
    split_ifs <;> omega
  · change d.tail = (d.head + d.count n) % n
    rw [count]
    split_ifs with hempty hlt
    · rw [h.head_eq_tail hempty, Nat.add_zero, Nat.mod_eq_of_lt htail]
    · rw [show d.head + (d.tail - d.head) = d.tail by omega, Nat.mod_eq_of_lt htail]
    · rw [show d.head + (d.tail + n - d.head) =
        d.tail + n by omega, Nat.add_mod_right, Nat.mod_eq_of_lt htail]

/-- The ring is full where the indices meet and the flag is clear. -/
theorem fifoFull_iff : d.fifoFull = true ↔ d.count n = n := by
  have htail := h.tail_lt
  rw [fifoFull, count]
  cases hempty : d.empty with
  | true =>
    simp only [Bool.not_true, Bool.false_and, if_true]
    exact iff_of_false Bool.false_ne_true (by omega)
  | false =>
    simp only [Bool.not_false, Bool.true_and, Bool.false_eq_true, if_false, beq_iff_eq]
    split_ifs <;> omega

/-- A byte is dropped exactly at a full ring. -/
theorem drops_iff (byte : BitVec 8) : d.Drops n byte ↔ d.count n = n := by
  rw [← h.fifoFull_iff, Drops, transmitByte, fifoFull]
  cases hempty : d.empty with
  | true =>
    simp only [Bool.true_and, Bool.true_or, if_true, Bool.not_true, Bool.false_and]
    refine iff_of_false (fun hne ↦ hne ?_) Bool.false_ne_true
    split_ifs <;> rfl
  | false =>
    by_cases hmeet : d.head = d.tail
    · simp [hmeet]
    · simp [hmeet]

variable (hn : n < 2 ^ 32)
include hn

/-- A byte that is stored is pushed. -/
theorem ring_store (byte : BitVec 8) (hroom : d.count n ≠ n) :
    ring n { d with
      fifo := Function.update d.fifo d.tail byte, tail := advance n d.tail, empty := false } =
      (d.ring n).push n byte := by
  have hhead := h.head_lt
  have htail := h.tail_lt
  have hlt : d.count n < n := Nat.lt_of_le_of_ne h.valid.num_le hroom
  have hcount : count n { d with
      fifo := Function.update d.fifo d.tail byte, tail := advance n d.tail
      empty := false } = d.count n + 1 := by
    rw [count, count]
    rw [count] at hlt
    rw [advance_eq_next hn htail, Ring.next]
    cases hempty : d.empty with
    | true =>
      have hmeet := h.head_eq_tail hempty
      simp only [Bool.false_eq_true, if_false, if_true]
      split_ifs <;> omega
    | false =>
      simp only [hempty, Bool.false_eq_true, if_false] at hlt ⊢
      split_ifs at hlt ⊢ <;> omega
  rw [ring, hcount, Ring.push, ring]
  rw [if_neg hroom, if_pos hlt, advance_eq_next hn htail]

/-- A byte that leaves is popped. -/
theorem ring_traComplete (hsome : d.empty = false) :
    (d.traComplete n).ring n = (d.ring n).pop n := by
  have hhead := h.head_lt
  have htail := h.tail_lt
  rw [traComplete, hsome, Bool.not_false, if_pos rfl, ring, ring, Ring.pop, setup]
  dsimp only
  congr 1
  · exact advance_eq_next hn hhead
  · rw [count, count, hsome]
    rw [advance_eq_next hn hhead, Ring.next]
    by_cases hlast : d.head + 1 = n
    · simp only [hlast, if_true, Bool.false_eq_true, if_false, beq_iff_eq]
      split_ifs <;> omega
    · simp only [hlast, Bool.false_eq_true, if_false, beq_iff_eq]
      split_ifs <;> omega

/-! ## One step -/

theorem step (event : Event) : (d.step n event).Asserts n := by
  have hhead := h.head_lt
  have htail := h.tail_lt
  cases event with
  | transmitByte byte =>
    change (d.transmitByte n byte).Asserts n
    rw [transmitByte]
    split_ifs
    · exact ⟨h.head_eq_tail, hhead, htail⟩
    · refine ⟨fun hempty ↦ absurd hempty Bool.false_ne_true, hhead, ?_⟩
      rw [advance_eq_next hn htail]
      exact Ring.next_lt htail
    · exact ⟨h.head_eq_tail, hhead, htail⟩
  | traComplete =>
    change (d.traComplete n).Asserts n
    rw [traComplete]
    split_ifs
    · refine ⟨fun hempty ↦ beq_iff_eq.mp hempty, ?_, htail⟩
      change advance n d.head < n
      rw [advance_eq_next hn hhead]
      exact Ring.next_lt hhead
    · exact h
  | serial _ => exact ⟨h.head_eq_tail, hhead, htail⟩

/-- A step hands bytes on from those that wait, and takes at most one behind them. -/
theorem step_bytes (event : Event) : (d.step n event).setups ++ (d.step n event).waiting n =
    d.setups ++ d.waiting n ++ d.taken n event := by
  cases event with
  | transmitByte byte =>
    change (d.transmitByte n byte).setups ++ (d.transmitByte n byte).waiting n =
      d.setups ++ d.waiting n ++ if d.Drops n byte then [] else [byte]
    by_cases hdrops : d.Drops n byte
    · -- a full ring stays as it is
      have hfull := h.fifoFull_iff.mpr ((h.drops_iff byte).mp hdrops)
      rw [fifoFull, Bool.and_eq_true, Bool.not_eq_true', beq_iff_eq] at hfull
      have hsame : d.transmitByte n byte = { d with overruns := d.overruns ++ [byte] } := by
        have hdirect : ¬ (d.empty && d.serial.traEmpty) = true := by simp [hfull.1]
        have hstore : ¬ (d.empty || d.head != d.tail) = true := by simp [hfull.1, hfull.2]
        rw [transmitByte, if_neg hdirect, if_neg hstore]
      rw [if_pos hdrops, append_nil, hsame]
      rfl
    · have hroom := (h.drops_iff byte).not.mp hdrops
      rw [if_neg hdrops, transmitByte]
      split_ifs with hdirect hstore
      · -- the byte goes past an empty ring
        have hnone : d.waiting n = [] := by
          rw [Bool.and_eq_true] at hdirect
          rw [← length_eq_zero_iff, length_waiting, count, if_pos hdirect.1]
        change d.setups ++ [byte] ++ d.waiting n = _
        rw [hnone, append_nil, append_nil]
      · have hpush : waiting n { d with
            fifo := Function.update d.fifo d.tail byte, tail := advance n d.tail, empty := false } =
              d.waiting n ++ [byte] := by
          have hlt : ((d.ring n).contents n).length < n := by
            rw [Ring.length_contents]
            exact Nat.lt_of_le_of_ne h.valid.num_le hroom
          rw [waiting, h.ring_store hn byte hroom, h.valid.contents_push, boundedPush,
            if_pos hlt, waiting]
        rw [hpush, ← append_assoc]
      · rw [Bool.or_eq_true, not_or, Bool.not_eq_true, bne_iff_ne, not_not] at hstore
        refine absurd (h.fifoFull_iff.mp ?_) hroom
        rw [fifoFull, hstore.1, hstore.2, Bool.not_false, Bool.true_and, beq_self_eq_true]
  | traComplete =>
    change (d.traComplete n).setups ++ (d.traComplete n).waiting n = d.setups ++ d.waiting n ++ []
    rw [append_nil]
    cases hempty : d.empty with
    | true => rw [traComplete, hempty, Bool.not_true, if_neg Bool.false_ne_true]
    | false =>
      have hhead := h.head_lt
      have hpos : 0 < (d.ring n).num := by
        change 0 < d.count n
        rw [count, hempty, if_neg Bool.false_ne_true]
        split_ifs <;> omega
      have hsetups : (d.traComplete n).setups = d.setups ++ [(d.ring n).front] := by
        rw [traComplete, hempty, Bool.not_false, if_pos rfl]
        rfl
      rw [hsetups, waiting, h.ring_traComplete hn hempty, waiting, h.valid.contents_eq_cons hpos,
        append_assoc, singleton_append]
  | serial _ => exact (append_nil _).symm

/-! ## Whole runs -/

variable (events : List Event)

theorem run : (d.run n events).Asserts n := by
  induction events generalizing d with
  | nil => exact h
  | cons event events ih => exact ih (h.step hn event)

theorem run_bytes : (d.run n events).setups ++ (d.run n events).waiting n =
    d.setups ++ d.waiting n ++ accepted n d events := by
  induction events generalizing d with
  | nil => exact (append_nil _).symm
  | cons event events ih =>
    change ((d.step n event).run n events).setups ++ ((d.step n event).run n events).waiting n = _
    rw [ih (h.step hn event), h.step_bytes hn, accepted, append_assoc]

/-- A transmit register that has run empty takes one of the bytes that wait. -/
theorem count_traComplete : (d.traComplete n).count n = d.count n - 1 := by
  cases hempty : d.empty with
  | true =>
    have hsame : d.traComplete n = d := by
      rw [traComplete, hempty, Bool.not_true, if_neg Bool.false_ne_true]
    have hnone : d.count n = 0 := by rw [count, if_pos hempty]
    rw [hsame, hnone]
  | false => exact congrArg Ring.num (h.ring_traComplete hn hempty)

/-- Where no byte is offered, as many bytes leave the ring as the register runs empty. -/
theorem count_drain (hquiet : ∀ event ∈ events, event.offered = none) :
    (d.run n events).count n = d.count n - events.countP Event.completes := by
  induction events generalizing d with
  | nil => rfl
  | cons event events ih =>
    have hrest := ih (h.step hn event) fun event hevent ↦ hquiet event (mem_cons_of_mem _ hevent)
    change ((d.step n event).run n events).count n = _
    rw [hrest, countP_cons]
    cases event with
    | transmitByte byte => exact absurd (hquiet _ mem_cons_self) (Option.some_ne_none byte)
    | traComplete =>
      change (d.traComplete n).count n - _ = _
      rw [h.count_traComplete hn, Event.completes, if_pos rfl]
      omega
    | serial _ => rfl

end Asserts

end Ring

theorem accepted_of_quiet (n : ℕ) (d : BufferedSerial) {events : List Event}
    (hquiet : ∀ event ∈ events, event.offered = none) : accepted n d events = [] := by
  induction events generalizing d with
  | nil => rfl
  | cons event events ih =>
    rw [accepted, ih _ fun event hevent ↦ hquiet event (mem_cons_of_mem _ hevent), append_nil]
    cases event with
    | transmitByte byte => exact absurd (hquiet _ mem_cons_self) (Option.some_ne_none byte)
    | traComplete => rfl
    | serial _ => rfl

theorem asserts_new {n : ℕ} (hn : 0 < n) (serial : Serial) (fifo : ℕ → BitVec 8) :
    (new serial fifo).Asserts n :=
  ⟨fun _ ↦ rfl, hn, hn⟩

/-- **Buffered transmission.** Whatever happens to a new interface, the asserted relations hold; the
bytes that the transmit register was set up with, and behind them those that wait, are the bytes
accepted, each once and in order; a byte is dropped only while `FIFO_LENGTH` bytes wait; and the
bytes accepted are all handed on once the register has run empty often enough. -/
theorem hands_on_accepted {n : ℕ} (hn : 0 < n) (hlength : n < 2 ^ 32) (serial : Serial)
    (fifo : ℕ → BitVec 8) (events : List Event) :
    let d := (new serial fifo).run n events
    let bytes := accepted n (new serial fifo) events
    d.Asserts n ∧ d.setups ++ d.waiting n = bytes ∧
      (∀ byte, d.Drops n byte → (d.waiting n).length = n) ∧
      ∀ rest : List Event, (∀ event ∈ rest, event.offered = none) →
        (d.waiting n).length ≤ rest.countP Event.completes → (d.run n rest).setups = bytes := by
  intro d bytes
  have hnew := asserts_new hn serial fifo
  have hd : d.Asserts n := hnew.run hlength events
  have hbytes : d.setups ++ d.waiting n = bytes := hnew.run_bytes hlength events
  refine ⟨hd, hbytes, fun byte hdrops ↦ ?_, fun rest hquiet hcompletes ↦ ?_⟩
  · rw [length_waiting]
    exact (hd.drops_iff byte).mp hdrops
  · have hnone : (d.run n rest).waiting n = [] := by
      rw [length_waiting] at hcompletes
      rw [← length_eq_zero_iff, length_waiting, hd.count_drain hlength rest hquiet]
      exact Nat.sub_eq_zero_of_le hcompletes
    have hrest := hd.run_bytes hlength rest
    rw [hnone, append_nil, accepted_of_quiet n d hquiet, append_nil] at hrest
    exact hrest.trans hbytes

/-- Two cells: the first byte goes into the register, two wait and the fourth is dropped. -/
theorem hands_on_accepted_two : accepted 2 (new {} fun _ ↦ 0#8)
    [.transmitByte 1#8, .transmitByte 2#8, .transmitByte 3#8, .transmitByte 4#8] =
        [1#8, 2#8, 3#8] ∧
      (((new {} fun _ ↦ 0#8).run 2
      [.transmitByte 1#8, .transmitByte 2#8, .transmitByte 3#8, .transmitByte 4#8]).run 2
        [.traComplete, .traComplete]).setups = accepted 2 (new {} fun _ ↦ 0#8)
        [.transmitByte 1#8, .transmitByte 2#8, .transmitByte 3#8, .transmitByte 4#8] :=
  ⟨by decide, (hands_on_accepted (by decide) (by decide) {} (fun _ ↦ 0#8)
    [.transmitByte 1#8, .transmitByte 2#8, .transmitByte 3#8, .transmitByte 4#8]).2.2.2
    [.traComplete, .traComplete] (by simp [Event.offered]) (by decide)⟩

end BufferedSerial

end RoscoEmulator
