import RoscoEmulator.Lib.BitString

/-!
# Bit streams

`bitstream_out` and `bitstream_in`: an accumulator of 32 bits in front of a buffer of bytes. The
writer goes on counting behind the end of its buffer, and the reader reads zeros there.

A shift by the width of the accumulator or more is not defined. Where the result of one matters, the
operation has no result here: a field of more than 32 bits cannot be written, and one of 32 bits or
more cannot be read.
-/

namespace RoscoEmulator.Util

open BitString

/-! ## Writing -/

/-- `bitstream_out`. -/
structure BitstreamOut where
  buffer : BitVec 32
  bits : ℕ
  dest : List (BitVec 8)
  doffset : ℕ

namespace BitstreamOut

def start (destlength : ℕ) : BitstreamOut := ⟨0, 0, List.replicate destlength 0, 0⟩

variable (o : BitstreamOut)

def overflow : Bool := o.dest.length < o.doffset

/-- The high byte of the accumulator goes out. Behind the end of the buffer it is lost. -/
def putByte : BitstreamOut where
  buffer := o.buffer <<< 8
  bits := o.bits - 8
  dest := o.dest.set o.doffset ((o.buffer >>> 24).setWidth 8)
  doffset := (o.doffset + 1) % 2 ^ 32

/-- Bytes go out while there are at least `least` bits, for at most `fuel` of them. -/
def drain (least : ℕ) : ℕ → BitstreamOut → BitstreamOut
  | 0, o => o
  | fuel + 1, o => if least ≤ o.bits then drain least fuel o.putByte else o

/-- The first of the new bits go into the accumulator, as many as `count`. -/
def accept (newbits : BitVec 32) (count : ℕ) : BitstreamOut :=
  { o with buffer := o.buffer ||| newbits >>> o.bits, bits := o.bits + count }

/-- The loop of `write` and what is behind it. The new bits are at the high end. -/
def writeLoop : ℕ → BitVec 32 → ℕ → BitstreamOut → BitstreamOut
  | 0, _, _, o => o
  | fuel + 1, newbits, numbits, o =>
      if 32 ≤ o.bits + numbits ∧ 0 < numbits then
        let o := drain 8 o.bits o
        if 32 ≤ o.bits + numbits then
          let rem := min (32 - o.bits) numbits
          writeLoop fuel (newbits <<< rem) (numbits - rem) (o.accept newbits rem)
        else writeLoop fuel newbits numbits o
      else if numbits = 0 then o
      else o.accept newbits numbits

/-- `write`. -/
def write (newbits : BitVec 32) (numbits : ℕ) : Option BitstreamOut :=
  if 32 < numbits then none
    else some (writeLoop (numbits + 2) (newbits <<< (32 - numbits)) numbits o)

/-- Several calls of `write`, for values with their numbers of bits. -/
def writeAll : List (ℕ × ℕ) → BitstreamOut → Option BitstreamOut
  | [], o => some o
  | (value, numbits) :: fields, o =>
      (o.write (BitVec.ofNat 32 value) numbits).bind (writeAll fields)

/-- `flush`. It returns the offset behind the bytes. -/
def flush : BitstreamOut := { drain 1 o.bits o with buffer := 0, bits := 0 }

end BitstreamOut

/-! ## Reading -/

/-- `bitstream_in`. -/
structure BitstreamIn where
  buffer : BitVec 32
  bits : ℕ
  data : List (BitVec 8)
  doffset : ℕ
  dbitoffs : ℕ

namespace BitstreamIn

def start (src : List (BitVec 8)) : BitstreamIn := ⟨0, 0, src, 0, 0⟩

variable (b : BitstreamIn)

def overflow : Bool := b.data.length < (b.doffset + 2 ^ 32 - b.bits / 8) % 2 ^ 32

/-- The next byte, without the bits of it that have been read. -/
def newbits : BitVec 32 := ((b.data.getD b.doffset 0).setWidth 32 <<< b.dbitoffs) &&& 0xff

/-- One round of the loop that fills the accumulator. -/
def fillStep : BitstreamIn :=
  if 32 < b.bits + 8 then
    { b with
      buffer := b.buffer ||| b.newbits >>> (8 - (32 - b.bits))
      bits := 32
      dbitoffs := 32 - b.bits }
  else
    { b with
      buffer := b.buffer ||| b.newbits <<< (24 - b.bits)
      bits := b.bits + (8 - b.dbitoffs)
      dbitoffs := 0
      doffset := (b.doffset + 1) % 2 ^ 32 }

/-- The loop that fills the accumulator, for at most `fuel` rounds. -/
def fill : ℕ → BitstreamIn → BitstreamIn
  | 0, b => b
  | fuel + 1, b => if b.bits < 32 then fill fuel b.fillStep else b

/-- What `peek` does before it looks at the accumulator. -/
def prepare (numbits : ℕ) : BitstreamIn := if b.bits < numbits then fill 32 b else b

/-- What `peek` returns then. -/
def front (numbits : ℕ) : ℕ := if numbits = 0 then 0 else (b.buffer >>> (32 - numbits)).toNat

/-- `remove`. -/
def remove (numbits : ℕ) : BitstreamIn :=
  { b with buffer := b.buffer <<< numbits, bits := b.bits - numbits }

/-- `read`. -/
def read (numbits : ℕ) : Option (ℕ × BitstreamIn) :=
  if 32 ≤ numbits then none
  else some ((b.prepare numbits).front numbits, (b.prepare numbits).remove numbits)

/-- `read` of up to 32 bits, on a machine that makes `shift` of a left shift by the width of the
accumulator. -/
def readOn (shift : BitVec 32 → BitVec 32) (numbits : ℕ) : ℕ × BitstreamIn :=
  ((b.prepare numbits).front numbits,
    { b.prepare numbits with
      buffer := if numbits < 32 then (b.prepare numbits).buffer <<< numbits
        else shift (b.prepare numbits).buffer
      bits := (b.prepare numbits).bits - numbits })

/-- Several calls of `read`. -/
def readAll (shift : BitVec 32 → BitVec 32) : List ℕ → BitstreamIn → List ℕ × BitstreamIn
  | [], b => ([], b)
  | numbits :: widths, b =>
      let (value, b) := b.readOn shift numbits
      let (values, b) := readAll shift widths b
      (value :: values, b)

/-- The loop of `flush` and `read_offset`, for at most `fuel` bytes: whole bytes of the accumulator
have not been read. -/
def unread : ℕ → ℕ → ℕ → ℕ × ℕ
  | 0, doffset, bits => (doffset, bits)
  | fuel + 1, doffset, bits =>
      if 8 ≤ bits then unread fuel ((doffset + 2 ^ 32 - 1) % 2 ^ 32) (bits - 8) else (doffset, bits)

/-- `read_offset`. -/
def readOffset : ℕ :=
  let (result, bits) := unread b.bits b.doffset b.bits
  if bits < b.dbitoffs then (result + 1) % 2 ^ 32 else result

/-- `flush`. -/
def flush : ℕ × BitstreamIn :=
  let (doffset, bits) := unread b.bits b.doffset b.bits
  let doffset := if bits < b.dbitoffs then (doffset + 1) % 2 ^ 32 else doffset
  (doffset, { b with buffer := 0, bits := 0, doffset, dbitoffs := 0 })

end BitstreamIn

end RoscoEmulator.Util
