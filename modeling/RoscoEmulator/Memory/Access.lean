import Mathlib

/-!
# Accesses of any width

`memory_read_generic`, `memory_write_generic` and the two that also return flags: an access of 8 to
64 bits is made of accesses of the width of the bus. The template parameters of the four are an
`Access`. What they have in common, the sizes, the masks and the conditions of the branches, is
defined once; the branches are written out for each.

An access of the bus goes through a state, whose changes are those of the bus. It is made only if
its mask is not zero, unless one is enough. -/

namespace RoscoEmulator.Memory

/-- The template parameters: the width of the bus and of the access, each as the logarithm of its
bytes, the address shift, the order of the bytes, and whether the access is known to be aligned. An
address holds at most a whole word of the bus and at least a bit. -/
structure Access where
  width : ℕ
  addrShift : ℤ
  big : Bool
  targetWidth : ℕ
  aligned : Bool
  width_le : width ≤ 3
  targetWidth_le : targetWidth ≤ 3
  le_addrShift : 0 ≤ width + addrShift
  addrShift_le : addrShift ≤ 3

/-- A double word through a bus of bytes, big endian. -/
def dwordOnBytes : Access where
  width := 0
  addrShift := 0
  big := true
  targetWidth := 2
  aligned := true
  width_le := by decide
  targetWidth_le := by decide
  le_addrShift := by decide
  addrShift_le := by decide

/-- A double word through a bus of words. -/
def dwordOnWords : Access where
  width := 1
  addrShift := 0
  big := true
  targetWidth := 2
  aligned := false
  width_le := by decide
  targetWidth_le := by decide
  le_addrShift := by decide
  addrShift_le := by decide

namespace Access

variable (p : Access)

/-- `NATIVE_BYTES`. -/
def nativeBytes : ℕ := 2 ^ p.width

/-- `TARGET_BYTES`. -/
def targetBytes : ℕ := 2 ^ p.targetWidth

/-- `NATIVE_BITS`. -/
def nativeBits : ℕ := 8 * p.nativeBytes

/-- `TARGET_BITS`. -/
def targetBits : ℕ := 8 * p.targetBytes

/-- `NATIVE_STEP`. -/
def nativeStep : ℕ :=
  if 0 ≤ p.addrShift then p.nativeBytes <<< p.addrShift.natAbs
    else p.nativeBytes >>> p.addrShift.natAbs

/-- `NATIVE_MASK`. -/
def nativeMask : ℕ := if 0 ≤ p.width + p.addrShift then 2 ^ (p.width + p.addrShift).toNat - 1 else 0

/-- `MAX_SPLITS_MINUS_ONE`. -/
def maxSplitsMinusOne : ℕ := p.targetBytes / p.nativeBytes - 1

/-- `NativeType`. -/
abbrev Native : Type := BitVec p.nativeBits

/-- `TargetType`. -/
abbrev Target : Type := BitVec p.targetBits

/-- `memory_offset_to_byte`. -/
def offsetToByte (offset : BitVec 32) : BitVec 32 :=
  if p.addrShift < 0 then offset <<< p.addrShift.natAbs else offset >>> p.addrShift.natAbs

/-- `address & ~NATIVE_MASK`. -/
def base (address : BitVec 32) : BitVec 32 := address &&& ~~~BitVec.ofNat 32 p.nativeMask

/-- `address + NATIVE_STEP`. -/
def next (address : BitVec 32) : BitVec 32 := address + BitVec.ofNat 32 p.nativeStep

/-- The access is one of the bus. -/
def isDirect (address : BitVec 32) : Bool :=
  p.nativeBytes = p.targetBytes ∧ (p.aligned = true ∨ address &&& BitVec.ofNat 32 p.nativeMask = 0)

/-- `offsbits` where one access may be enough. -/
def singleOffset (address : BitVec 32) : ℕ :=
  8 * (p.offsetToByte address &&&
    BitVec.ofNat 32 (p.nativeBytes - if p.aligned then p.targetBytes else 1)).toNat

/-- One access of a wider bus is enough. -/
def isSingle (address : BitVec 32) : Bool :=
  p.targetBytes < p.nativeBytes ∧
    (p.aligned = true ∨ p.singleOffset address + p.targetBits ≤ p.nativeBits)

/-- `offsbits` for the data of that access. -/
def singleShift (address : BitVec 32) : ℕ :=
  if p.big then p.nativeBits - p.targetBits - p.singleOffset address else p.singleOffset address

/-- `offsbits` where one access is not enough. -/
def offsbits (address : BitVec 32) : ℕ :=
  8 * (p.offsetToByte address &&& BitVec.ofNat 32 (p.nativeBytes - 1)).toNat

/-- `LEFT_JUSTIFY_TARGET_TO_NATIVE_SHIFT`. -/
def leftJustify : ℕ := if p.targetBits ≤ p.nativeBits then p.nativeBits - p.targetBits else 0

/-! ## Accesses of the bus -/

section Bus

variable {σ : Type} {w : ℕ}

/-- A native read. -/
abbrev Rop (σ : Type) : Type := BitVec 32 → p.Native → σ → p.Native × σ

/-- A native write. -/
abbrev Wop (σ : Type) : Type := BitVec 32 → p.Native → p.Native → σ → σ

/-- A native read with flags. -/
abbrev Ropf (σ : Type) : Type := BitVec 32 → p.Native → σ → (p.Native × BitVec 16) × σ

/-- A native write with flags. -/
abbrev Wopf (σ : Type) : Type := BitVec 32 → p.Native → p.Native → σ → BitVec 16 × σ

variable {p}

/-- `if (curmask != 0) result |= ...`. -/
def read (rop : p.Rop σ) (address : BitVec 32) (curmask : p.Native) (place : p.Native → BitVec w)
    (r : BitVec w × σ) : BitVec w × σ :=
  if curmask ≠ 0
    then (r.1 ||| place (rop address curmask r.2).1, (rop address curmask r.2).2) else r

/-- `if (curmask != 0) wop(...)`. -/
def write (wop : p.Wop σ) (address : BitVec 32) (data curmask : p.Native) (st : σ) : σ :=
  if curmask ≠ 0 then wop address data curmask st else st

/-- `if (curmask != 0) { auto pack = ...; result |= ...; flags |= pack.second; }`. -/
def readFlags (ropf : p.Ropf σ) (address : BitVec 32) (curmask : p.Native)
    (place : p.Native → BitVec w) (r : (BitVec w × BitVec 16) × σ) : (BitVec w × BitVec 16) × σ :=
  if curmask ≠ 0 then
    ((r.1.1 ||| place (ropf address curmask r.2).1.1, r.1.2 ||| (ropf address curmask r.2).1.2),
      (ropf address curmask r.2).2)
  else r

/-- `if (curmask != 0) flags |= wopf(...)`. -/
def writeFlags (wopf : p.Wopf σ) (address : BitVec 32) (data curmask : p.Native)
    (r : BitVec 16 × σ) : BitVec 16 × σ :=
  if curmask ≠ 0
    then (r.1 ||| (wopf address data curmask r.2).1, (wopf address data curmask r.2).2) else r

end Bus

/-- The loop over the middle accesses, little endian. -/
def loopLittle {α : Type} (access : BitVec 32 → ℕ → α → α) :
    ℕ → BitVec 32 → ℕ → α → BitVec 32 × ℕ × α
  | 0, address, offsbits, r => (address, offsbits, r)
  | n + 1, address, offsbits, r =>
      let address := p.next address
      let r := access address offsbits r
      loopLittle access n address (offsbits + p.nativeBits) r

/-- The loop over the middle accesses, big endian. -/
def loopBig {α : Type} (access : BitVec 32 → ℕ → α → α) :
    ℕ → BitVec 32 → ℕ → α → BitVec 32 × ℕ × α
  | 0, address, offsbits, r => (address, offsbits, r)
  | n + 1, address, offsbits, r =>
      let offsbits := offsbits - p.nativeBits
      let address := p.next address
      let r := access address offsbits r
      loopBig access n address offsbits r

end Access

open Access

/-! ## The templates -/

section Templates

variable (p : Access) {σ : Type}

/-- `memory_read_generic`. -/
def memoryReadGeneric (rop : p.Rop σ) (address : BitVec 32) (mask : p.Target) (st : σ) :
    p.Target × σ :=
  if p.isDirect address then
    let r := rop (p.base address) (mask.setWidth _) st
    (r.1.setWidth _, r.2)
  else if p.isSingle address then
    let offsbits := p.singleShift address
    let r := rop (p.base address) (mask.setWidth _ <<< offsbits) st
    ((r.1 >>> offsbits).setWidth _, r.2)
  else
    let offsbits := p.offsbits address
    let address := p.base address
    if p.targetBytes ≤ p.nativeBytes then
      if p.big = false then
        -- the lower bits from the lower address, then the upper bits from the upper address
        let r : p.Target × σ :=
          read rop address (mask.setWidth _ <<< offsbits)
            (fun d ↦ (d >>> offsbits).setWidth _) (0, st)
        let offsbits := p.nativeBits - offsbits
        read rop (p.next address) ((mask >>> offsbits).setWidth _)
          (fun d ↦ (d <<< offsbits).setWidth _) r
      else
        -- the upper bits from the lower address, then the lower bits from the upper address
        let ljmask : p.Native := mask.setWidth _ <<< p.leftJustify
        let r : p.Native × σ :=
          read rop address (ljmask >>> offsbits) (fun d ↦ d <<< offsbits) (0, st)
        let offsbits := p.nativeBits - offsbits
        let r := read rop (p.next address) (ljmask <<< offsbits) (fun d ↦ d >>> offsbits) r
        ((r.1 >>> p.leftJustify).setWidth _, r.2)
    else if p.big = false then
      -- from the lowest bits to the uppermost
      let r : p.Target × σ :=
        read rop address ((mask <<< offsbits).setWidth _)
          (fun d ↦ (d >>> offsbits).setWidth _) (0, st)
      let (address, offsbits, r) := p.loopLittle
        (fun address offsbits ↦
          read rop address ((mask >>> offsbits).setWidth _) fun d ↦ d.setWidth _ <<< offsbits)
        p.maxSplitsMinusOne address (p.nativeBits - offsbits) r
      if p.aligned = false ∧ offsbits < p.targetBits then
        read rop (p.next address) ((mask >>> offsbits).setWidth _)
          (fun d ↦ d.setWidth _ <<< offsbits) r
      else r
    else
      -- from the highest bits to the lowermost
      let offsbits := p.targetBits - (p.nativeBits - offsbits)
      let r : p.Target × σ :=
        read rop address ((mask >>> offsbits).setWidth _)
          (fun d ↦ d.setWidth _ <<< offsbits) (0, st)
      let (address, offsbits, r) := p.loopBig
        (fun address offsbits ↦
          read rop address ((mask >>> offsbits).setWidth _) fun d ↦ d.setWidth _ <<< offsbits)
        p.maxSplitsMinusOne address offsbits r
      if p.aligned = false ∧ offsbits ≠ 0 then
        let offsbits := p.nativeBits - offsbits
        read rop (p.next address) ((mask <<< offsbits).setWidth _)
          (fun d ↦ (d >>> offsbits).setWidth _) r
      else r

/-- `memory_write_generic`. -/
def memoryWriteGeneric (wop : p.Wop σ) (address : BitVec 32) (data mask : p.Target) (st : σ) : σ :=
  if p.isDirect address then wop (p.base address) (data.setWidth _) (mask.setWidth _) st
  else if p.isSingle address then
    let offsbits := p.singleShift address
    wop (p.base address) (data.setWidth _ <<< offsbits) (mask.setWidth _ <<< offsbits) st
  else
    let offsbits := p.offsbits address
    let address := p.base address
    if p.targetBytes ≤ p.nativeBytes then
      if p.big = false then
        let st := write wop address (data.setWidth _ <<< offsbits) (mask.setWidth _ <<< offsbits) st
        let offsbits := p.nativeBits - offsbits
        write wop (p.next address) ((data >>> offsbits).setWidth _)
          ((mask >>> offsbits).setWidth _) st
      else
        let ljdata : p.Native := data.setWidth _ <<< p.leftJustify
        let ljmask : p.Native := mask.setWidth _ <<< p.leftJustify
        let st := write wop address (ljdata >>> offsbits) (ljmask >>> offsbits) st
        let offsbits := p.nativeBits - offsbits
        write wop (p.next address) (ljdata <<< offsbits) (ljmask <<< offsbits) st
    else if p.big = false then
      let st :=
        write wop address ((data <<< offsbits).setWidth _) ((mask <<< offsbits).setWidth _) st
      let (address, offsbits, st) := p.loopLittle
        (fun address offsbits ↦
          write wop address ((data >>> offsbits).setWidth _) ((mask >>> offsbits).setWidth _))
        p.maxSplitsMinusOne address (p.nativeBits - offsbits) st
      if p.aligned = false ∧ offsbits < p.targetBits then
        write wop (p.next address) ((data >>> offsbits).setWidth _)
          ((mask >>> offsbits).setWidth _) st
      else st
    else
      let offsbits := p.targetBits - (p.nativeBits - offsbits)
      let st :=
        write wop address ((data >>> offsbits).setWidth _) ((mask >>> offsbits).setWidth _) st
      let (address, offsbits, st) := p.loopBig
        (fun address offsbits ↦
          write wop address ((data >>> offsbits).setWidth _) ((mask >>> offsbits).setWidth _))
        p.maxSplitsMinusOne address offsbits st
      if p.aligned = false ∧ offsbits ≠ 0 then
        let offsbits := p.nativeBits - offsbits
        write wop (p.next address) ((data <<< offsbits).setWidth _)
          ((mask <<< offsbits).setWidth _) st
      else st

/-- A right shift of native data. It is not defined for a shift by the width of the promoted type or
more, where the machine makes of it what it likes. -/
def shiftRight (undefined : p.Native → ℕ → p.Target) (d : p.Native) (count : ℕ) : p.Target :=
  if max 32 p.nativeBits ≤ count then undefined d count else (d >>> count).setWidth _

/-- `memory_read_generic_flags`. Where it takes more than one access of a narrower bus, the result
is returned as `NativeType`, and two of the three shifts of the big-endian case are to the right. -/
def memoryReadGenericFlags (undefined : p.Native → ℕ → p.Target) (ropf : p.Ropf σ)
    (address : BitVec 32) (mask : p.Target) (st : σ) : (p.Target × BitVec 16) × σ :=
  if p.isDirect address then
    let r := ropf (p.base address) (mask.setWidth _) st
    ((r.1.1.setWidth _, r.1.2), r.2)
  else if p.isSingle address then
    let offsbits := p.singleShift address
    let r := ropf (p.base address) (mask.setWidth _ <<< offsbits) st
    (((r.1.1 >>> offsbits).setWidth _, r.1.2), r.2)
  else
    let offsbits := p.offsbits address
    let address := p.base address
    let r : (p.Native × BitVec 16) × σ :=
      if p.targetBytes ≤ p.nativeBytes then
        if p.big = false then
          let r : (p.Target × BitVec 16) × σ :=
            readFlags ropf address (mask.setWidth _ <<< offsbits)
              (fun d ↦ (d >>> offsbits).setWidth _) ((0, 0), st)
          let offsbits := p.nativeBits - offsbits
          let r :=
            readFlags ropf (p.next address) ((mask >>> offsbits).setWidth _)
              (fun d ↦ (d <<< offsbits).setWidth _) r
          ((r.1.1.setWidth _, r.1.2), r.2)
        else
          let ljmask : p.Native := mask.setWidth _ <<< p.leftJustify
          let r : (p.Native × BitVec 16) × σ :=
            readFlags ropf address (ljmask >>> offsbits) (fun d ↦ d <<< offsbits) ((0, 0), st)
          let offsbits := p.nativeBits - offsbits
          let r := readFlags ropf (p.next address) (ljmask <<< offsbits) (fun d ↦ d >>> offsbits) r
          ((r.1.1 >>> p.leftJustify, r.1.2), r.2)
      else if p.big = false then
        let r : (p.Target × BitVec 16) × σ :=
          readFlags ropf address ((mask <<< offsbits).setWidth _)
            (fun d ↦ (d >>> offsbits).setWidth _) ((0, 0), st)
        let (address, offsbits, r) := p.loopLittle
          (fun address offsbits ↦
            readFlags ropf address ((mask >>> offsbits).setWidth _) fun d ↦
              d.setWidth _ <<< offsbits)
          p.maxSplitsMinusOne address (p.nativeBits - offsbits) r
        let r :=
          if p.aligned = false ∧ offsbits < p.targetBits then
            readFlags ropf (p.next address) ((mask >>> offsbits).setWidth _)
              (fun d ↦ d.setWidth _ <<< offsbits) r
          else r
        ((r.1.1.setWidth _, r.1.2), r.2)
      else
        let offsbits := p.targetBits - (p.nativeBits - offsbits)
        let r : (p.Target × BitVec 16) × σ :=
          readFlags ropf address ((mask >>> offsbits).setWidth _)
            (fun d ↦ shiftRight p undefined d offsbits) ((0, 0), st)
        let (address, offsbits, r) := p.loopBig
          (fun address offsbits ↦
            readFlags ropf address ((mask >>> offsbits).setWidth _) fun d ↦
              d.setWidth _ >>> offsbits)
          p.maxSplitsMinusOne address offsbits r
        let r :=
          if p.aligned = false ∧ offsbits ≠ 0 then
            let offsbits := p.nativeBits - offsbits
            readFlags ropf (p.next address) ((mask <<< offsbits).setWidth _)
              (fun d ↦ d.setWidth _ >>> offsbits) r
          else r
        ((r.1.1.setWidth _, r.1.2), r.2)
    ((r.1.1.setWidth _, r.1.2), r.2)

/-- `memory_write_generic_flags`. -/
def memoryWriteGenericFlags (wopf : p.Wopf σ) (address : BitVec 32) (data mask : p.Target)
    (st : σ) : BitVec 16 × σ :=
  if p.isDirect address then wopf (p.base address) (data.setWidth _) (mask.setWidth _) st
  else if p.isSingle address then
    let offsbits := p.singleShift address
    wopf (p.base address) (data.setWidth _ <<< offsbits) (mask.setWidth _ <<< offsbits) st
  else
    let offsbits := p.offsbits address
    let address := p.base address
    if p.targetBytes ≤ p.nativeBytes then
      if p.big = false then
        let r := writeFlags wopf address (data.setWidth _ <<< offsbits)
          (mask.setWidth _ <<< offsbits) (0, st)
        let offsbits := p.nativeBits - offsbits
        writeFlags wopf (p.next address) ((data >>> offsbits).setWidth _)
          ((mask >>> offsbits).setWidth _) r
      else
        let ljdata : p.Native := data.setWidth _ <<< p.leftJustify
        let ljmask : p.Native := mask.setWidth _ <<< p.leftJustify
        let r := writeFlags wopf address (ljdata >>> offsbits) (ljmask >>> offsbits) (0, st)
        let offsbits := p.nativeBits - offsbits
        writeFlags wopf (p.next address) (ljdata <<< offsbits) (ljmask <<< offsbits) r
    else if p.big = false then
      let r := writeFlags wopf address ((data <<< offsbits).setWidth _)
        ((mask <<< offsbits).setWidth _) (0, st)
      let (address, offsbits, r) := p.loopLittle
        (fun address offsbits ↦
          writeFlags wopf address ((data >>> offsbits).setWidth _) ((mask >>> offsbits).setWidth _))
        p.maxSplitsMinusOne address (p.nativeBits - offsbits) r
      if p.aligned = false ∧ offsbits < p.targetBits then
        writeFlags wopf (p.next address) ((data >>> offsbits).setWidth _)
          ((mask >>> offsbits).setWidth _) r
      else r
    else
      let offsbits := p.targetBits - (p.nativeBits - offsbits)
      let r := writeFlags wopf address ((data >>> offsbits).setWidth _)
        ((mask >>> offsbits).setWidth _) (0, st)
      let (address, offsbits, r) := p.loopBig
        (fun address offsbits ↦
          writeFlags wopf address ((data >>> offsbits).setWidth _) ((mask >>> offsbits).setWidth _))
        p.maxSplitsMinusOne address offsbits r
      if p.aligned = false ∧ offsbits ≠ 0 then
        let offsbits := p.nativeBits - offsbits
        writeFlags wopf (p.next address) ((data <<< offsbits).setWidth _)
          ((mask <<< offsbits).setWidth _) r
      else r

end Templates

end RoscoEmulator.Memory
