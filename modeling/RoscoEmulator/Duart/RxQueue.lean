import RoscoEmulator.Duart.Interrupts
import RoscoEmulator.Duart.Receiver
import RoscoEmulator.Lib.BoundedQueue

/-!
# The receive FIFO as a queue

`RxQueue` says what the receive FIFO is for: it holds at most four characters with their error bits,
oldest first, and a character that finds it full takes the place of the newest one and leaves a
mark, the overrun bit. The channel has a ring of four cells with two indices and a count instead,
and the status register beside it. `rxFifo_refines_queue` is the agreement of the two over every
sequence of `rx_fifo_push`, `read_rx_fifo` and receiver resets.

The error bits of the status register follow the queue too. In character mode they are those of the
oldest character; in block mode they are collected, from every character that has become the oldest
one, until the receiver is reset. -/

namespace RoscoEmulator.Duart

open BitVec List

/-! ## The queue -/

/-- The number of characters that the FIFO holds. -/
def rxCapacity : ℕ := rxFifoSize + 1

/-- Characters with their error bits, oldest first, and what the status register says about them. -/
structure RxQueue where
  items : List (BitVec 8 × BitVec 8)
  overrun : Bool
  errors : BitVec 8
deriving DecidableEq, Repr

/-- An operation on the receive FIFO. -/
inductive FifoOperation
  /-- `rx_fifo_push` of a character with its error bits. -/
  | push (data : BitVec 8) (errors : { errors : BitVec 8 // CharacterErrors errors })
  /-- `read_rx_fifo`. -/
  | read
  /-- A write to `CR` whose command is the reset of the receiver. -/
  | reset (data : { data : BitVec 8 // crMisc data = 2 })

namespace RxQueue

def empty : RxQueue := ⟨[], false, 0⟩

/-- The oldest character and its error bits, and zeros without one. -/
def front (q : RxQueue) : BitVec 8 × BitVec 8 := q.items.headD (0, 0)

/-- The queue after an operation, with the error bits of the status register collected in block
mode. -/
def step (block : Bool) (q : RxQueue) : FifoOperation → RxQueue
  | .push data errors =>
      { items := boundedPush rxCapacity (data, errors.val) q.items
        overrun := q.overrun || q.items.length == rxCapacity
        errors :=
        if q.items = [] then (if block then q.errors else 0) ||| errors.val else q.errors }
  | .read =>
      match q.items with
      | [] => q
      | _ :: items =>
          { q with
            items := items
            errors := (if block then q.errors else 0) ||| (items.headD (0, 0)).2 }
  | .reset _ => empty

/-- What the reads among some operations return. -/
def delivered (block : Bool) (q : RxQueue) : List FifoOperation → List (BitVec 8 × BitVec 8)
  | [] => []
  | .read :: ops => q.front :: delivered block (q.step block .read) ops
  | .push data errors :: ops => delivered block (q.step block (.push data errors)) ops
  | .reset data :: ops => delivered block (q.step block (.reset data)) ops

/-- In character mode the error bits are those of the oldest character. -/
theorem errors_step {q : RxQueue} (h : q.errors = q.front.2) (op : FifoOperation) :
    (q.step false op).errors = (q.step false op).front.2 := by
  cases op with
  | push data errors =>
    have hpos : 0 < rxCapacity := by decide
    cases hitems : q.items with
    | nil => simp [step, front, hitems, boundedPush, hpos]
    | cons item items =>
      rw [front, hitems] at h
      have hhead : (boundedPush rxCapacity (data, errors.val) (item :: items)).headD (0, 0) = item ∨
          items = [] ∧ rxCapacity ≤ 1 := by
        unfold boundedPush
        split_ifs with hroom
        · exact .inl rfl
        · cases items with
          | nil => exact .inr ⟨rfl, Nat.not_lt.mp hroom⟩
          | cons item' items => exact .inl rfl
      rw [step, hitems, if_neg (cons_ne_nil _ _), front]
      exact h.trans (congrArg Prod.snd (hhead.resolve_right fun h ↦ absurd h.2 (by decide)).symm)
  | read =>
    rw [step]
    split
    · exact h
    · exact zero_or
  | reset => rfl

theorem errors_run (ops : List FifoOperation) :
    (Run.run (step false) empty ops).errors = (Run.run (step false) empty ops).front.2 :=
  Run.run_invariant (P := fun q : RxQueue ↦ q.errors = q.front.2)
    (fun _ op h ↦ errors_step h op) rfl ops

end RxQueue

/-! ## The ring -/

/-- The ring of the receive FIFO. -/
def Channel.rxRing (c : Channel) : Ring (BitVec 16) :=
  ⟨c.rxFifo, c.rxFifoReadPtr, c.rxFifoWritePtr, c.rxFifoNum⟩

/-- The character of a cell and its error bits. -/
def rxItem (cell : BitVec 16) : BitVec 8 × BitVec 8 := (cell.setWidth 8, (cell >>> 8).setWidth 8)

theorem rxItem_append (errors data : BitVec 8) : rxItem (errors ++ data) = (data, errors) := by
  refine Prod.ext (eq_of_getLsbD_eq fun i hi ↦ ?_) (eq_of_getLsbD_eq fun i hi ↦ ?_)
  · rw [rxItem, getLsbD_setWidth, getLsbD_append, if_pos hi]
    simp [hi]
  · rw [rxItem, getLsbD_setWidth, getLsbD_ushiftRight, getLsbD_entry_errors]
    simp [hi]

theorem next_rxCapacity {i : ℕ} (h : i < rxCapacity) :
    Ring.next rxCapacity i = if rxFifoSize < i + 1 then 0 else i + 1 := by
  rw [rxCapacity] at h
  exact if_congr (by rw [rxCapacity]; omega) rfl rfl

theorem prev_rxCapacity (i : ℕ) : Ring.prev rxCapacity i = if i ≠ 0 then i - 1 else rxFifoSize := by
  rw [ite_not]
  rfl

variable {block : Bool} (data : BitVec 8) {errors : BitVec 8} {c : Channel} {p : Port} {q : RxQueue}

theorem rxRing_pushed (errors : BitVec 8) (h : c.rxRing.Valid rxCapacity) :
    (c.pushed data errors).rxRing = c.rxRing.push rxCapacity (errors ++ data) := by
  have htail :
      (if c.rxRing.num = rxCapacity then Ring.prev rxCapacity c.rxRing.write else c.rxRing.write) =
      if c.rxFifoNum = rxFifoSize + 1 then if c.rxFifoWritePtr ≠ 0 then c.rxFifoWritePtr - 1
      else rxFifoSize
      else c.rxFifoWritePtr := by
    rw [prev_rxCapacity]
    rfl
  have hlt :=
    Nat.mod_lt (c.rxRing.read + min c.rxRing.num (rxCapacity - 1)) (show 0 < rxCapacity by decide)
  rw [← h.tail_eq] at hlt
  rw [Ring.push, next_rxCapacity hlt, htail]
  simp only [Channel.rxRing, Channel.pushed, rxCapacity, Nat.lt_succ_iff]

theorem rxRing_popped (h : c.rxRing.Valid rxCapacity) :
    c.popped.rxRing = c.rxRing.pop rxCapacity := by
  rw [Ring.pop, next_rxCapacity h.read_lt]
  rfl

/-- The part of a channel that the receive FIFO shows is the same in two states. -/
structure FifoSame (c c' : Channel) : Prop where
  ring : c'.rxRing = c.rxRing
  mr1 : c'.mr1 = c.mr1
  overrun : c'.sr.getLsbD 4 = c.sr.getLsbD 4
  errors : c'.sr &&& statusCharacterErrors = c.sr &&& statusCharacterErrors

theorem FifoSame.trans {c' c'' : Channel} (h : FifoSame c c') (h' : FifoSame c' c'') :
    FifoSame c c'' :=
  ⟨h'.ring.trans h.ring, h'.mr1.trans h.mr1, h'.overrun.trans h.overrun, h'.errors.trans h.errors⟩

theorem pushed_overrun {data : BitVec 8} (he : CharacterErrors errors) (c : Channel) :
    (c.pushed data errors).sr.getLsbD 4 = (c.sr.getLsbD 4 || c.rxFifoNum == rxFifoSize + 1) := by
  have he4 : errors.getLsbD 4 = false := he 4 (by decide)
  simp only [Channel.pushed]
  split_ifs <;> simp_all [rxFifoSize, statusReceiverReady, statusFifoFull, statusOverrunError,
    statusCharacterErrors, statusReceivedBreak, statusFramingError, statusParityError]

theorem CharacterErrors.and_eq (he : CharacterErrors errors) :
    errors &&& statusCharacterErrors = errors := by
  refine eq_of_getLsbD_eq fun i hi ↦ ?_
  rw [getLsbD_and]
  by_cases hlow : i < 5
  · rw [he i hlow, Bool.false_and]
  · obtain rfl | rfl | rfl : i = 5 ∨ i = 6 ∨ i = 7 := by omega
    all_goals exact Bool.and_true _

/-- The error bits of the status register as they are when another character becomes the oldest. -/
def Channel.keptErrors (c : Channel) : BitVec 8 :=
  (if c.mr1 &&& modeBlockError = 0 then c.sr &&& ~~~statusCharacterErrors else c.sr) &&&
    statusCharacterErrors

theorem keptErrors_eq (h : block = (c.mr1 &&& modeBlockError != 0)) :
    c.keptErrors = if block then c.sr &&& statusCharacterErrors else 0 := by
  have hclear : c.sr &&& ~~~statusCharacterErrors &&& statusCharacterErrors = 0 := by
    rw [BitVec.and_assoc, BitVec.and_comm (~~~_), BitVec.and_not_self]
    exact and_zero
  subst h
  unfold Channel.keptErrors
  by_cases hblock : c.mr1 &&& modeBlockError = 0
  · rw [if_pos hblock, hclear, hblock]
    rfl
  · rw [if_neg hblock, if_pos (bne_iff_ne.mpr hblock)]

theorem keptErrors_congr {c : Channel} {sr : BitVec 8}
    (h : sr &&& statusCharacterErrors = c.sr &&& statusCharacterErrors) :
    ({ c with sr := sr } : Channel).keptErrors = c.keptErrors := by
  rw [keptErrors_eq rfl, keptErrors_eq rfl]
  exact if_congr Iff.rfl h rfl

theorem pushed_errors {data : BitVec 8} (he : CharacterErrors errors)
    (hnum : c.rxFifoNum ≤ rxFifoSize + 1) : (c.pushed data errors).sr &&& statusCharacterErrors =
      if c.rxFifoNum = 0 then c.keptErrors ||| errors else c.sr &&& statusCharacterErrors := by
  have hfull (x : BitVec 8) (b : Prop) [Decidable b] :
      (if b then x ||| statusFifoFull else x) &&& statusCharacterErrors =
      x &&& statusCharacterErrors := by
    split_ifs
    · exact Uart.or_and (by decide)
    · rfl
  simp only [Channel.pushed]
  rw [hfull]
  by_cases hzero : c.rxFifoNum = 0
  · have hkept := @keptErrors_congr c (c.sr ||| statusReceiverReady) (Uart.or_and (by decide))
    have hroom : ¬(0 = rxFifoSize + 1) := by decide
    rw [if_pos hzero, hzero, if_neg hroom, if_pos (Nat.zero_le _), if_pos rfl, ← hkept,
      and_or_distrib_right, he.and_eq]
    rfl
  · have hmany : ¬(if c.rxFifoNum ≤ rxFifoSize then c.rxFifoNum + 1 else c.rxFifoNum) = 1 := by
      have hsize : rxFifoSize = 3 := rfl
      split_ifs <;> omega
    rw [if_neg hzero, if_neg hmany]
    split_ifs
    · exact Uart.or_and (by decide)
    · rfl

theorem popped_overrun
    (hentry : c.rxFifoNum - 1 ≠ 0 → CharacterErrors (rxItem (c.rxFifo c.popped.rxFifoReadPtr)).2) :
    c.popped.sr.getLsbD 4 = c.sr.getLsbD 4 := by
  have hentry4 (h : c.rxFifoNum - 1 ≠ 0) := hentry h 4 (by decide)
  simp only [Channel.popped, rxItem] at hentry4 ⊢
  split_ifs at hentry4 ⊢ <;> simp_all [statusReceiverReady, statusFifoFull,
    statusCharacterErrors, statusReceivedBreak, statusFramingError, statusParityError]

theorem popped_errors
    (hentry : c.rxFifoNum - 1 ≠ 0 → CharacterErrors (rxItem (c.rxFifo c.popped.rxFifoReadPtr)).2) :
    c.popped.sr &&& statusCharacterErrors =
      c.keptErrors |||
      if c.rxFifoNum - 1 = 0 then 0 else (rxItem (c.rxFifo c.popped.rxFifoReadPtr)).2 := by
  have hkept := @keptErrors_congr c
    (if c.rxFifoNum - 1 = rxFifoSize - 1 then c.sr &&& ~~~statusFifoFull else c.sr) (by
      split_ifs
      · exact Uart.and_not_and (by decide)
      · rfl)
  rw [← hkept]
  change (if c.rxFifoNum - 1 = 0 then _ else _) &&& statusCharacterErrors = _
  by_cases hlast : c.rxFifoNum - 1 = 0
  · rw [if_pos hlast, if_pos hlast]
    refine (Uart.and_not_and ?_).trans BitVec.or_zero.symm
    decide
  · rw [if_neg hlast, if_neg hlast, and_or_distrib_right, ← (hentry hlast).and_eq]
    rfl

/-- The channel shows the queue. -/
structure Refines (block : Bool) (c : Channel) (q : RxQueue) : Prop where
  valid : c.rxRing.Valid rxCapacity
  items : q.items = (c.rxRing.contents rxCapacity).map rxItem
  overrun : q.overrun = c.sr.getLsbD 4
  errors : q.errors = c.sr &&& statusCharacterErrors
  entries : ∀ item ∈ q.items, CharacterErrors item.2
  mode : block = (c.mr1 &&& modeBlockError != 0)

namespace Refines

variable {block : Bool} {c c' : Channel} {q : RxQueue}

section

variable (h : Refines block c q)
include h

theorem same (hsame : FifoSame c c') : Refines block c' q :=
  ⟨hsame.ring ▸ h.valid, hsame.ring ▸ h.items, h.overrun.trans hsame.overrun.symm,
    h.errors.trans hsame.errors.symm, h.entries, hsame.mr1 ▸ h.mode⟩

theorem length : q.items.length = c.rxFifoNum := by
  rw [h.items, length_map, Ring.length_contents]
  rfl

theorem num_le : c.rxFifoNum ≤ rxFifoSize + 1 := h.valid.num_le

theorem pushed (data : BitVec 8) (errors : { errors : BitVec 8 // CharacterErrors errors }) :
    Refines block (c.pushed data errors) (q.step block (.push data errors)) := by
  have hring := rxRing_pushed data errors.val h.valid
  have hempty : q.items = [] ↔ c.rxFifoNum = 0 := by rw [← length_eq_zero_iff, h.length]
  refine ⟨hring ▸ h.valid.push _, ?_, ?_, ?_, ?_, h.mode⟩
  · rw [hring, h.valid.contents_push, map_boundedPush, rxItem_append, ← h.items]
    rfl
  · change (q.overrun || q.items.length == rxCapacity) = _
    rw [h.length, h.overrun, pushed_overrun errors.property]
    rfl
  · change (if q.items = [] then _ else q.errors) = _
    rw [pushed_errors errors.property h.num_le, if_congr hempty rfl rfl, h.errors,
      keptErrors_eq h.mode]
  · intro item hitem
    rcases mem_boundedPush hitem with rfl | hitem
    · exact errors.property
    · exact h.entries item hitem

/-- A read of a FIFO with characters in it takes the oldest one. -/
theorem popped (hpos : 0 < c.rxFifoNum) :
    Refines block c.popped (q.step block .read) ∧ q.front = rxItem (c.rxFifo c.rxFifoReadPtr) := by
  have hring := rxRing_popped h.valid
  have hvalid := h.valid.pop hpos
  have hitems := h.items
  rw [h.valid.contents_eq_cons hpos, ← hring, map_cons] at hitems
  rw [← hring] at hvalid
  have hrest : q.step block .read =
      { q with
        items := (c.popped.rxRing.contents rxCapacity).map rxItem
        errors := (if block then q.errors else 0) |||
          (((c.popped.rxRing.contents rxCapacity).map rxItem).headD (0, 0)).2 } := by
    rw [RxQueue.step, hitems]
  have hhead : ((c.popped.rxRing.contents rxCapacity).map rxItem).headD (0, 0) =
      if c.rxFifoNum - 1 = 0 then (0, 0) else rxItem (c.rxFifo c.popped.rxFifoReadPtr) := by
    by_cases hlast : c.rxFifoNum - 1 = 0
    · have hnil : c.popped.rxRing.contents rxCapacity = [] := by
        rw [← length_eq_zero_iff, Ring.length_contents]
        exact hlast
      rw [if_pos hlast, hnil]
      rfl
    · rw [if_neg hlast, hvalid.contents_eq_cons (Nat.pos_of_ne_zero hlast)]
      rfl
  have hentry (hlast : c.rxFifoNum - 1 ≠ 0) :
      CharacterErrors (rxItem (c.rxFifo c.popped.rxFifoReadPtr)).2 := by
    refine h.entries _ ?_
    rw [hitems, hvalid.contents_eq_cons (Nat.pos_of_ne_zero hlast)]
    exact mem_cons_of_mem _ mem_cons_self
  refine ⟨?_, by rw [RxQueue.front, hitems]; rfl⟩
  rw [hrest]
  refine ⟨hvalid, rfl, h.overrun.trans (popped_overrun hentry).symm, ?_, ?_, h.mode⟩
  · rw [popped_errors hentry, keptErrors_eq h.mode, h.errors, hhead]
    split_ifs <;> rfl
  · intro item hitem
    refine h.entries item ?_
    rw [hitems]
    exact mem_cons_of_mem _ hitem

end

end Refines

/-! ## The operations -/

theorem fifoSame_maskTxReady (c : Channel) : FifoSame c c.maskTxReady := by
  rw [Channel.maskTxReady]
  split_ifs
  · exact ⟨rfl, rfl, by simp [statusTransmitterReady], Uart.and_not_and (by decide)⟩
  · exact ⟨rfl, rfl, rfl, rfl⟩

theorem FifoSame.updateInterrupts (h : FifoSame c p.chan) :
    FifoSame c (updateInterrupts p).chan := h.trans (fifoSame_maskTxReady p.chan)

theorem fifoSame_crReceiver (p : Port) : FifoSame p.chan (crReceiver data p).chan := by
  have hready (c : Channel) : FifoSame c { c with sr := c.sr &&& ~~~statusReceiverReady } :=
    ⟨rfl, rfl, by simp [statusReceiverReady], Uart.and_not_and (by decide)⟩
  simp only [crReceiver]
  split_ifs
  · exact ⟨rfl, rfl, (hready p.chan).overrun, (hready p.chan).errors⟩
  · exact ⟨rfl, rfl, (hready p.chan).overrun, (hready p.chan).errors⟩
  · exact ⟨rfl, rfl, rfl, rfl⟩
  · exact ⟨rfl, rfl, rfl, rfl⟩

theorem fifoSame_crTransmitter (p : Port) : FifoSame p.chan (crTransmitter data p).chan := by
  have hset (c : Channel) : FifoSame c { c with
      sr := c.sr ||| (statusTransmitterReady ||| statusTransmitterEmpty) } :=
    ⟨rfl, rfl, by simp [statusTransmitterReady, statusTransmitterEmpty], Uart.or_and (by decide)⟩
  have hclear (c : Channel) : FifoSame c { c with
      sr := c.sr &&& ~~~(statusTransmitterReady ||| statusTransmitterEmpty) } :=
    ⟨rfl,
      rfl, by simp [statusTransmitterReady, statusTransmitterEmpty], Uart.and_not_and (by decide)⟩
  have hboth := (hset p.chan).trans (hclear _)
  simp only [crTransmitter]
  split_ifs
  · exact ⟨rfl, rfl, hboth.overrun, hboth.errors⟩
  · exact ⟨rfl, rfl, (hclear p.chan).overrun, (hclear p.chan).errors⟩
  · exact ⟨rfl, rfl, (hset p.chan).overrun, (hset p.chan).errors⟩
  · exact ⟨rfl, rfl, rfl, rfl⟩

theorem fifoSame_writeCR (p : Port) : FifoSame (crCommand data p).chan (writeCR data p).chan := by
  have h := ((fifoSame_crReceiver data (crCommand data p)).trans
    (fifoSame_crTransmitter data _)).updateInterrupts
  exact ⟨h.ring, h.mr1, h.overrun, h.errors⟩

/-- A receiver reset leaves an empty queue, whatever was there before. -/
theorem refines_writeCR {data : BitVec 8} (hdata : crMisc data = 2) (p : Port) :
    Refines (p.chan.mr1 &&& modeBlockError != 0) (writeCR data p).chan .empty := by
  have hcommand : Refines (p.chan.mr1 &&& modeBlockError != 0) (crCommand data p).chan .empty := by
    rw [crMisc] at hdata
    simp only [crCommand, hdata]
    refine ⟨Ring.valid_empty (by decide) _, rfl, ?_, ?_,
      fun item hitem ↦ absurd hitem not_mem_nil, rfl⟩
    · simp [RxQueue.empty, statusOverrunError]
    · change (0 : BitVec 8) = _ &&& ~~~statusOverrunError &&& statusCharacterErrors
      rw [Uart.and_not_and (by decide), BitVec.and_assoc,
        BitVec.and_comm (~~~statusCharacterErrors), BitVec.and_not_self]
      exact BitVec.and_zero.symm
  exact hcommand.same (fifoSame_writeCR data p)

/-- The reset of the device leaves an empty queue too. -/
theorem refines_channelReset (p : Port) :
    Refines (p.chan.mr1 &&& modeBlockError != 0) (channelReset p).chan .empty := by
  have hmr1 : (writeCR 0x10 p).chan.mr1 = p.chan.mr1 := (fifoSame_writeCR 0x10 p).mr1
  have hreset :
      Refines (p.chan.mr1 &&& modeBlockError != 0) (writeCR 0x20 (writeCR 0x10 p)).chan .empty :=
    hmr1 ▸ refines_writeCR (by decide) (writeCR 0x10 p)
  rw [channelReset]
  generalize writeCR 0x20 (writeCR 0x10 p) = p₂ at hreset ⊢
  have hsr : p₂.chan.sr &&& ~~~(statusTransmitterReady ||| statusTransmitterEmpty) &&&
      statusCharacterErrors = p₂.chan.sr &&& statusCharacterErrors := Uart.and_not_and (by decide)
  have hthird : FifoSame p₂.chan (crCommand 0x30 p₂).chan :=
    ⟨rfl, rfl, by simp [crCommand, statusTransmitterReady, statusTransmitterEmpty], hsr⟩
  have h := hreset.same (hthird.trans (fifoSame_writeCR 0x30 p₂))
  -- the last command clears the error bits of which there are none
  have hlast : Refines (p.chan.mr1 &&& modeBlockError != 0)
      (crCommand 0x40 (writeCR 0x30 p₂)).chan .empty := by
    refine ⟨h.valid, h.items, ?_, ?_, h.entries, h.mode⟩
    · simp [crCommand, RxQueue.empty, statusOverrunError]
    · have herrors : (writeCR 0x30 p₂).chan.sr &&& statusCharacterErrors = 0 := h.errors.symm
      change (0 : BitVec 8) = _ &&& ~~~_ &&& statusCharacterErrors
      rw [BitVec.and_assoc, BitVec.and_comm (~~~_), ← BitVec.and_assoc, herrors]
      exact BitVec.zero_and.symm
  have hfourth := hlast.same (fifoSame_writeCR 0x40 (writeCR 0x30 p₂))
  generalize writeCR 0x40 (writeCR 0x30 p₂) = p₄ at hfourth ⊢
  exact ⟨hfourth.valid, hfourth.items, hfourth.overrun, hfourth.errors,
    hfourth.entries, hfourth.mode⟩

/-- The port after an operation. -/
def FifoOperation.apply (p : Port) : FifoOperation → Port
  | .push data errors => rxFifoPush data errors p
  | .read => (readRxFifo p).2
  | .reset data => writeCR data p

/-- The error bits that are stored with the oldest character. -/
def Channel.frontErrors (c : Channel) : BitVec 8 :=
  if c.rxFifoNum = 0 then 0 else (c.rxFifo c.rxFifoReadPtr >>> 8).setWidth 8

/-- What the reads among some operations return: the character, and the error bits that are stored
with it. -/
def fifoDelivered : Port → List FifoOperation → List (BitVec 8 × BitVec 8)
  | _, [] => []
  | p, .read :: ops => ((readRxFifo p).1, p.chan.frontErrors) :: fifoDelivered (readRxFifo p).2 ops
  | p, .push data errors :: ops => fifoDelivered (rxFifoPush data errors p) ops
  | p, .reset data :: ops => fifoDelivered (writeCR data p) ops

theorem refines_readRxFifo (h : Refines block p.chan q) :
    Refines block (readRxFifo p).2.chan (q.step block .read) ∧
      q.front = ((readRxFifo p).1, p.chan.frontErrors) := by
  unfold readRxFifo Channel.frontErrors
  by_cases hzero : p.chan.rxFifoNum = 0
  · have hnil : q.items = [] := List.length_eq_zero_iff.mp (h.length.trans hzero)
    have hstep : q.step block .read = q := by rw [RxQueue.step, hnil]
    rw [if_pos hzero, if_pos hzero, hstep, RxQueue.front, hnil]
    exact ⟨h.same (fifoSame_maskTxReady p.chan), rfl⟩
  · obtain ⟨hpopped, hfront⟩ := h.popped (Nat.pos_of_ne_zero hzero)
    rw [if_neg hzero, if_neg hzero]
    exact ⟨hpopped.same (fifoSame_maskTxReady p.chan.popped), hfront⟩

theorem refines_apply (h : Refines block p.chan q) (op : FifoOperation) :
    Refines block (op.apply p).chan (q.step block op) := by
  cases op with
  | push data errors => exact (h.pushed data errors).same (fifoSame_maskTxReady _)
  | read => exact (refines_readRxFifo h).1
  | reset data => exact h.mode ▸ refines_writeCR data.property p

theorem refines_run (h : Refines block p.chan q) (ops : List FifoOperation) : Refines block
    (Run.run FifoOperation.apply p ops).chan (Run.run (RxQueue.step block) q ops) := by
  induction ops generalizing p q with
  | nil => exact h
  | cons op ops ih => exact ih (refines_apply h op)

theorem fifoDelivered_eq (h : Refines block p.chan q) (ops : List FifoOperation) :
    fifoDelivered p ops = q.delivered block ops := by
  induction ops generalizing p q with
  | nil => rfl
  | cons op ops ih =>
    cases op with
    | push data errors => exact ih (refines_apply h (.push data errors))
    | read => exact congrArg₂ _ (refines_readRxFifo h).2.symm (ih (refines_readRxFifo h).1)
    | reset data => exact ih (refines_apply h (.reset data))

/-- **The receive FIFO is a bounded queue.** From the reset of a channel, the indices and the count
stay in range, the characters that are read and the error bits stored with them are those of the
queue, the overrun bit is set when a character has found the queue full, and the error bits of the
status register are what the queue says: in character mode those of its oldest character. -/
theorem rxFifo_refines_queue (p : Port) (ops : List FifoOperation) :
    let block := p.chan.mr1 &&& modeBlockError != 0
    let c := (Run.run FifoOperation.apply (channelReset p) ops).chan
    let q := Run.run (RxQueue.step block) .empty ops
    (c.rxFifoReadPtr ≤ 3 ∧ c.rxFifoWritePtr ≤ 3 ∧ c.rxFifoNum ≤ 4) ∧
      fifoDelivered (channelReset p) ops = RxQueue.empty.delivered block ops ∧
      c.sr.getLsbD 4 = q.overrun ∧ c.sr &&& statusCharacterErrors = q.errors ∧
      (block = false → q.errors = q.front.2) := by
  intro block c q
  have hrun : Refines block c q := refines_run (refines_channelReset p) ops
  refine ⟨⟨?_, ?_, hrun.num_le⟩, fifoDelivered_eq (refines_channelReset p) ops, hrun.overrun.symm,
    hrun.errors.symm, fun hmode ↦ ?_⟩
  · exact Nat.le_of_lt_succ hrun.valid.read_lt
  · exact Nat.le_of_lt_succ hrun.valid.write_lt
  · have hfront := RxQueue.errors_run ops
    rw [← hmode] at hfront
    exact hfront

/-- A fifth character takes the place of the fourth. -/
example : fifoDelivered (channelReset ⟨default, default⟩) [.push 1 ⟨0, by decide⟩, .push 2
    ⟨0x40, by decide⟩, .push 3 ⟨0, by decide⟩, .push 4 ⟨0, by decide⟩,
      .push 5 ⟨0, by decide⟩, .read, .read, .read, .read, .read] =
    [(1, 0), (2, 0x40), (3, 0), (5, 0), (0, 0)] := by decide

end RoscoEmulator.Duart
