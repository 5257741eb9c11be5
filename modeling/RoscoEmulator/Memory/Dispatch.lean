import Mathlib

/-!
# The dispatch tables of an address space

An access goes through a tree of tables. A table has an entry for each value of some bits of the
address, which holds a handler or, in the upper of two levels, another table for the bits below;
beside each entry there is the range of addresses around it that are known to go to the same
handler, which the access caches use to skip the dispatch. A table is changed by installing a
handler in a range of addresses, and in the mirrors of the range.

An address has at most 32 bits, so there are at most two levels: the upper table is indexed by the
bits from 14 on, and the lower ones by the bits below 14; an address space of at most 14 bits has
one table. The bits below `Width + AddrShift` are within one access. The reference counts of the
handlers are left out, and so are the views and the handlers that pass an access on to the one they
cover. -/

namespace RoscoEmulator.Memory

open Function

/-! ## Addresses -/

/-- `x - 1`, for an `offs_t`. -/
def offsPred (x : ℕ) : ℕ := (x + (2 ^ 32 - 1)) % 2 ^ 32

/-- `x + 1`, for an `offs_t`. -/
def offsSucc (x : ℕ) : ℕ := (x + 1) % 2 ^ 32

def lowMask (lowBits : ℕ) : ℕ := 2 ^ lowBits - 1

def highMask (highBits lowBits : ℕ) : ℕ := (2 ^ highBits - 1) ^^^ lowMask lowBits

/-- The number of entries of a table, `COUNT`. -/
def count (highBits lowBits : ℕ) : ℕ := 2 ^ (highBits - lowBits)

/-- The index of an address in a table. -/
def dispatchEntry (highBits lowBits address : ℕ) : ℕ :=
  (address &&& highMask highBits lowBits) >>> lowBits

/-- `LowBits` of the upper level. -/
def upperBits : ℕ := 14

/-- The bits of an address space. With `unit` above `highBits` no range would be aligned. -/
structure Geometry where
  highBits : ℕ
  /-- `Width + AddrShift` -/
  unit : ℕ
  highBits_le : highBits ≤ 32
  unit_le : unit ≤ highBits
  unit_lt : unit < upperBits

/-! ## Tables -/

/-- A `handler_entry::range`; both ends are in it. -/
structure Range where
  start : ℕ
  stop : ℕ
deriving DecidableEq, Repr

/-- `m_u_dispatch` and `m_u_ranges`. -/
structure Table (α : Type*) where
  dispatch : ℕ → α
  range : ℕ → Range

namespace Table

variable {α : Type*}

def setDispatch (t : Table α) (entry : ℕ) (e : α) : Table α :=
  { t with dispatch := update t.dispatch entry e }

def setRange (t : Table α) (entry : ℕ) (r : Range) : Table α :=
  { t with range := update t.range entry r }

variable (t : Table α)

@[simp] theorem setDispatch_self (entry : ℕ) (e : α) :
    (t.setDispatch entry e).dispatch entry = e := update_self (β := fun _ ↦ α) entry e t.dispatch

theorem setDispatch_of_ne {entry i : ℕ} (h : i ≠ entry) (e : α) :
    (t.setDispatch entry e).dispatch i = t.dispatch i :=
  update_of_ne (β := fun _ ↦ α) h e t.dispatch

@[simp] theorem setRange_self (entry : ℕ) (r : Range) :
    (t.setRange entry r).range entry = r := update_self (β := fun _ ↦ Range) entry r t.range

theorem setRange_of_ne {entry i : ℕ} (h : i ≠ entry) (r : Range) :
    (t.setRange entry r).range i = t.range i := update_of_ne (β := fun _ ↦ Range) h r t.range

/-- The loop that installs a handler in the entries from `startEntry` to `endEntry`. -/
def fill (t : Table α) (startEntry endEntry : ℕ) (e : α) (r : Range) : Table α where
  dispatch ent := if startEntry ≤ ent ∧ ent ≤ endEntry then e else t.dispatch ent
  range ent := if startEntry ≤ ent ∧ ent ≤ endEntry then r else t.range ent

/-- `range_cut_before`, where `cut` does it in an entry that is a table. -/
def rangeCutBefore (cut : α → Option α) (address : ℕ) : ℕ → Table α → Table α
  | 0, t => t
  | start + 1, t =>
      match cut (t.dispatch start) with
      | some e => t.setDispatch start e
      | none =>
          if (t.range start).stop ≤ address then t
          else rangeCutBefore cut address start
            (t.setRange start { t.range start with stop := address })

/-- The loop of `range_cut_after`, for `n` entries from `start`. -/
def rangeCutAfterFrom (cut : α → Option α) (address : ℕ) : ℕ → ℕ → Table α → Table α
  | 0, _, t => t
  | n + 1, start, t =>
      match cut (t.dispatch start) with
      | some e => t.setDispatch start e
      | none =>
          if (t.range start).start ≥ address then t
          else rangeCutAfterFrom cut address n (start + 1)
            (t.setRange start { t.range start with start := address })

/-- `range_cut_after`, in the entries from `first` to the last one. -/
def rangeCutAfter (cut : α → Option α) (count address first : ℕ) (t : Table α) : Table α :=
  t.rangeCutAfterFrom cut address (count - first) first

end Table

/-! ## The mirrors -/

/-- The loop over the mirrors of a range, in at most `fuel` rounds: the values of `offset`. -/
def mirrorOffsetsFrom (hmirror : ℕ) : ℕ → ℕ → List ℕ
  | 0, _ => []
  | fuel + 1, offset =>
      let add := (1 + (2 ^ 32 - 1 - hmirror)) % 2 ^ 32
      let next := (offset + add) % 2 ^ 32 &&& hmirror
      offset :: if next = 0 then [] else mirrorOffsetsFrom hmirror fuel next

def mirrorOffsets (hmirror : ℕ) : List ℕ := mirrorOffsetsFrom hmirror (hmirror + 1) 0

/-! ## The lower level -/

variable {H : Type*}

/-- A table of handlers, for the bits from `unit` to `highBits`. -/
abbrev LowDispatch (H : Type*) := Table H

namespace LowDispatch

/-- No entry is a table. -/
def noTable (_ : H) : Option H := none

def rangeCutBefore (address start : ℕ) (t : LowDispatch H) : LowDispatch H :=
  Table.rangeCutBefore noTable address start t

def rangeCutAfter (highBits unit address first : ℕ) (t : LowDispatch H) : LowDispatch H :=
  Table.rangeCutAfter noTable (count highBits unit) address first t

def populateNomirror (highBits unit start stop ostart ostop : ℕ) (handler : H) (t : LowDispatch H) :
    LowDispatch H :=
  let startEntry := dispatchEntry highBits unit start
  let endEntry := dispatchEntry highBits unit stop
  let t := rangeCutBefore (offsPred ostart) startEntry t
  let t := rangeCutAfter highBits unit (offsSucc ostop) (endEntry + 1) t
  t.fill startEntry endEntry handler ⟨ostart, ostop⟩

/-- `populate_mirror` has no mirror in the bits below `unit` here, in which the range varies. -/
def populateMirror (highBits unit start stop ostart ostop mirror : ℕ) (handler : H)
    (t : LowDispatch H) : LowDispatch H :=
  (mirrorOffsets (mirror &&& highMask highBits unit)).foldl
    (fun t offset ↦ populateNomirror highBits unit (start ||| offset) (stop ||| offset)
      (ostart ||| offset) (ostop ||| offset) handler t) t

/-- The range and the handler that `lookup` finds. -/
def lookup (highBits unit address : ℕ) (t : LowDispatch H) : Range × H :=
  let slot := (address >>> unit) &&& (count highBits unit - 1)
  (t.range slot, t.dispatch slot)

/-- The handler that an access reaches. -/
def read (highBits unit address : ℕ) (t : LowDispatch H) : H :=
  t.dispatch (dispatchEntry highBits unit address)

end LowDispatch

/-! ## The upper level -/

inductive Entry (H : Type*)
  | handler (h : H)
  | dispatch (sub : LowDispatch H)

/-- The handler that an access which is sent to an entry reaches. -/
def Entry.read (unit address : ℕ) : Entry H → H
  | .handler h => h
  | .dispatch sub => LowDispatch.read upperBits unit address sub

/-- A table of handlers and tables, for the bits from 14 to `highBits`. -/
abbrev HighDispatch (H : Type*) := Table (Entry H)

namespace HighDispatch

variable (g : Geometry)

def cutBeforeIn (address : ℕ) : Entry H → Option (Entry H)
  | .handler _ => none
  | .dispatch sub =>
      some (.dispatch (LowDispatch.rangeCutBefore address (count upperBits g.unit) sub))

def cutAfterIn (address : ℕ) : Entry H → Option (Entry H)
  | .handler _ => none
  | .dispatch sub => some (.dispatch (LowDispatch.rangeCutAfter upperBits g.unit address 0 sub))

def rangeCutBefore (address start : ℕ) (t : HighDispatch H) : HighDispatch H :=
  Table.rangeCutBefore (cutBeforeIn g address) address start t

def rangeCutAfter (address first : ℕ) (t : HighDispatch H) : HighDispatch H :=
  Table.rangeCutAfter (cutAfterIn g address) (count g.highBits upperBits) address first t

/-- What the two functions `populate_..._subdispatch` share: an entry that is no table becomes one,
with its handler and its range everywhere, and the ranges around it are cut. -/
def populateSubdispatch (entry : ℕ) (populate : LowDispatch H → LowDispatch H)
    (t : HighDispatch H) : HighDispatch H :=
  match t.dispatch entry with
  | .dispatch sub => t.setDispatch entry (.dispatch (populate sub))
  | .handler cur =>
      let sub : LowDispatch H := ⟨fun _ ↦ cur, fun _ ↦ t.range entry⟩
      let t := t.setDispatch entry (.dispatch (populate sub))
      let t := rangeCutBefore g (offsPred (entry <<< upperBits)) entry t
      rangeCutAfter g ((entry + 1) <<< upperBits % 2 ^ 32) (entry + 1) t

def populateNomirrorSubdispatch (entry start stop ostart ostop : ℕ) (handler : H)
    (t : HighDispatch H) : HighDispatch H :=
  populateSubdispatch g entry
    (LowDispatch.populateNomirror upperBits g.unit start stop ostart ostop handler) t

def populateMirrorSubdispatch (entry start stop ostart ostop mirror : ℕ) (handler : H)
    (t : HighDispatch H) : HighDispatch H :=
  populateSubdispatch g entry
    (LowDispatch.populateMirror upperBits g.unit start stop ostart ostop mirror handler) t

def populateNomirror (start stop ostart ostop : ℕ) (handler : H) (t : HighDispatch H) :
    HighDispatch H :=
  let startEntry := dispatchEntry g.highBits upperBits start
  let endEntry := dispatchEntry g.highBits upperBits stop
  let startsInside := start &&& lowMask upperBits ≠ 0
  let stopsInside := stop &&& lowMask upperBits ≠ lowMask upperBits
  let t := rangeCutBefore g (offsPred ostart) startEntry t
  let t := rangeCutAfter g (offsSucc ostop) (endEntry + 1) t
  if startEntry = endEntry then
    if ¬ startsInside ∧ ¬ stopsInside then
      t.fill startEntry startEntry (.handler handler) ⟨ostart, ostop⟩
    else populateNomirrorSubdispatch g startEntry start stop ostart ostop handler t
  else
    let t := if startsInside then
        populateNomirrorSubdispatch g startEntry start (start ||| lowMask upperBits) ostart ostop
          handler t
      else t
    let startEntry := if startsInside then startEntry + 1 else startEntry
    let t := if stopsInside then
        populateNomirrorSubdispatch g endEntry
          (stop &&& (2 ^ 32 - 1 - lowMask upperBits)) stop ostart ostop handler t
      else t
    let endEntry := if stopsInside then endEntry - 1 else endEntry
    t.fill startEntry endEntry (.handler handler) ⟨ostart, ostop⟩

def populateMirror (start stop ostart ostop mirror : ℕ) (handler : H) (t : HighDispatch H) :
    HighDispatch H :=
  let hmirror := mirror &&& highMask g.highBits upperBits
  let lmirror := mirror &&& lowMask upperBits
  if lmirror ≠ 0 then
    -- each mirror instance is a single entry
    (mirrorOffsets hmirror).foldl
      (fun t offset ↦ populateMirrorSubdispatch g ((start >>> upperBits) ||| (offset >>> upperBits))
        (start ||| offset) (stop ||| offset) (ostart ||| offset)
        (ostop ||| offset) lmirror handler t) t
  else
    (mirrorOffsets hmirror).foldl
      (fun t offset ↦ populateNomirror g (start ||| offset) (stop ||| offset) (ostart ||| offset)
        (ostop ||| offset) handler t) t

def lookup (address : ℕ) (t : HighDispatch H) : Range × H :=
  let slot := (address >>> upperBits) &&& (count g.highBits upperBits - 1)
  match t.dispatch slot with
  | .dispatch sub => LowDispatch.lookup upperBits g.unit address sub
  | .handler h => (t.range slot, h)

def read (address : ℕ) (t : HighDispatch H) : H :=
  (t.dispatch (dispatchEntry g.highBits upperBits address)).read g.unit address

end HighDispatch

/-! ## The root -/

/-- The root table of an address space. -/
inductive Root (H : Type*)
  | low (t : LowDispatch H)
  | high (t : HighDispatch H)

/-- A call that installs a handler. -/
inductive Installation (H : Type*)
  | populateNomirror (start stop : ℕ) (handler : H)
  | populateMirror (start stop mirror : ℕ) (handler : H)

namespace Root

variable (g : Geometry)

/-- A tree that is unmapped everywhere. -/
def create (unmap : H) : Root H :=
  if g.highBits > upperBits then .high ⟨fun _ ↦ .handler unmap, fun _ ↦ ⟨0, 2 ^ g.highBits - 1⟩⟩
  else .low ⟨fun _ ↦ unmap, fun _ ↦ ⟨0, 2 ^ g.highBits - 1⟩⟩

def install (r : Root H) (i : Installation H) : Root H :=
  match r, i with
  | .low t, .populateNomirror start stop h =>
      .low (LowDispatch.populateNomirror g.highBits g.unit start stop start stop h t)
  | .low t, .populateMirror start stop mirror h =>
      .low (LowDispatch.populateMirror g.highBits g.unit start stop start stop mirror h t)
  | .high t, .populateNomirror start stop h =>
      .high (HighDispatch.populateNomirror g start stop start stop h t)
  | .high t, .populateMirror start stop mirror h =>
      .high (HighDispatch.populateMirror g start stop start stop mirror h t)

def lookup (address : ℕ) : Root H → Range × H
  | .low t => LowDispatch.lookup g.highBits g.unit address t
  | .high t => HighDispatch.lookup g address t

/-- The handler that an access to an address reaches. -/
def read (address : ℕ) : Root H → H
  | .low t => LowDispatch.read g.highBits g.unit address t
  | .high t => HighDispatch.read g address t

end Root

end RoscoEmulator.Memory
