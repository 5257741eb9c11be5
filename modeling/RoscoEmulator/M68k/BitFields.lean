import RoscoEmulator.M68k.Registers

/-!
# The bit field instructions

The handlers of BFTST, BFEXTU, BFEXTS, BFFFO, BFINS, BFSET, BFCLR and BFCHG for a field in memory. A
field that is not within a double word has a fifth byte. Three of the handlers take an offset in the
instruction as it is, the others bring every offset below 8, and BFFFO takes the size of its access
from the offset that it was given. -/

namespace RoscoEmulator.M68k

namespace Core

def szByte : BitVec 8 := 1#8

def read8 (address : BitVec 32) (s : Core) : BitVec 8 × Core :=
  (s.byte address, s.access 1#16 szByte)

def write8 (address : BitVec 32) (data : BitVec 8) (s : Core) : Core :=
  (s.access 0#16 szByte).poke address data

end Core

namespace Processor

def read8 (address : BitVec 32) (s : Processor) : BitVec 8 × Processor :=
  ((s.toCore.read8 address).1, s.withCore (s.toCore.read8 address).2)

def write8 (address : BitVec 32) (data : BitVec 8) (s : Processor) : Processor :=
  s.withCore (s.toCore.write8 address data)

/-! ## The extension word -/

/-- `MAKE_INT_32(REG_D()[offset&7])` for an offset in a register. -/
def fieldOffset (word2 : BitVec 16) (s : Processor) : BitVec 32 :=
  if word2.getLsbD 11 then s.da (dReg (word2.extractLsb' 6 3))
    else (word2.setWidth 32 >>> 6) &&& 31#32

/-- The width, from 1 to 32. -/
def fieldWidth (word2 : BitVec 16) (s : Processor) : BitVec 32 :=
  ((if word2.getLsbD 5 then s.da (dReg (word2.extractLsb' 0 3)) else word2.setWidth 32) - 1#32 &&&
    31#32) + 1#32

/-- The register of a result or of what is inserted. -/
def fieldRegister (word2 : BitVec 16) : Fin 16 := dReg (word2.extractLsb' 12 3)

/-- The offset is divided by 8 as a number with a sign. -/
def normalize (ea offset : BitVec 32) : BitVec 32 × BitVec 32 :=
  let ea := ea + offset.sdiv 8#32
  let offset := offset.srem 8#32
  if offset.slt 0#32 then (ea - 1#32, offset + 8#32) else (ea, offset)

/-- Where the offset is normalised only if it is in a register. -/
def normalizeRegister (word2 : BitVec 16) (ea offset : BitVec 32) : BitVec 32 × BitVec 32 :=
  if word2.getLsbD 11 then normalize ea offset else (ea, offset)

/-! ## The pieces of a field -/

/-- The bytes of the field, from the top. -/
def readData (size : BitVec 32) (ea : BitVec 32) (s : Processor) : Option (BitVec 32 × Processor) :=
  if size ≤ 8#32 then
    let (data, s) := s.read8 ea
    some (data.setWidth 32 <<< 24, s)
  else if size ≤ 16#32 then do
    let (data, s) ← s.read16 ea
    some (data.setWidth 32 <<< 16, s)
  else s.read32 ea

def writeData (size : BitVec 32) (ea data : BitVec 32) (s : Processor) : Option Processor :=
  if size ≤ 8#32 then some (s.write8 ea ((data >>> 24).setWidth 8))
  else if size ≤ 16#32 then s.write16 ea ((data >>> 16).setWidth 16)
  else s.write32 ea data

def maskBase (width : BitVec 32) : BitVec 32 := 0xffffffff#32 <<< (32#32 - width)

/-- The flags of a field, with V and C clear. -/
def setField (nFlag notZFlag : BitVec 32) (s : Processor) : Processor :=
  { s with
    nFlag := nFlag
    notZFlag := notZFlag
    vFlag := 0#32
    cFlag := 0#32 }

/-- The field at the top of a word, with what is left of it in the fifth byte. -/
def readField (size offset width ea : BitVec 32) (s : Processor) : Option (BitVec 32 × Processor) :=
  do
  let (data, s) ← s.readData size ea
  let data := data <<< offset
  if 32#32 < offset + width then
    let (byte, s) := s.read8 (ea + 4#32)
    some (data ||| (byte.setWidth 32 <<< offset) >>> 8, s)
  else some (data, s)

/-! ## The instructions that read -/

/-- BFEXTU and BFEXTS but for the shift. -/
def bfext (shift : BitVec 32 → ℕ → BitVec 32) (word2 : BitVec 16) (ea : BitVec 32) (s : Processor) :
    Option Processor := do
  let width := s.fieldWidth word2
  let (ea, offset) := normalizeRegister word2 ea (s.fieldOffset word2)
  let (data, s) ← s.readField (offset + width) offset width ea
  let field := shift data (32#32 - width).toNat
  some ((s.setField (data >>> 24) field).setDa (fieldRegister word2) field)

def xe9c0Bfextu : BitVec 16 → BitVec 32 → Processor → Option Processor := bfext (· >>> ·)

def xebc0Bfexts : BitVec 16 → BitVec 32 → Processor → Option Processor := bfext BitVec.sshiftRight

/-- The search for a one among the low bits. The offset counts as a number with a sign, which must
not overflow. -/
def findOne (data : BitVec 32) : ℕ → BitVec 32 → Option (BitVec 32)
  | 0, offset => some offset
  | n + 1, offset =>
    if data.getLsbD n then some offset
    else if offset = 0x7fffffff#32 then none
    else findOne data n (offset + 1#32)

/-- The size of the access is that of the offset before it is normalised. -/
def xedc0Bfffo (word2 : BitVec 16) (ea : BitVec 32) (s : Processor) : Option Processor := do
  let offset := s.fieldOffset word2
  let width := s.fieldWidth word2
  let (ea, localOffset) := normalize ea offset
  let (data, s) ← s.readField (offset + width) localOffset width ea
  let field := data >>> (32#32 - width)
  let found ← findOne field width.toNat offset
  some ((s.setField (data >>> 24) field).setDa (fieldRegister word2) found)

def xe8c0Bftst (word2 : BitVec 16) (ea : BitVec 32) (s : Processor) : Option Processor := do
  let width := s.fieldWidth word2
  let (ea, offset) := normalize ea (s.fieldOffset word2)
  let maskLong := maskBase width >>> offset
  let (dataLong, s) ← s.readData (offset + width) ea
  let nFlag := ((dataLong &&& 0x80000000#32 >>> offset) <<< offset) >>> 24
  if 32#32 < width + offset then
    let maskByte := (maskBase width &&& 0xff#32) <<< (8#32 - offset)
    let (dataByte, s) := s.read8 (ea + 4#32)
    some (s.setField nFlag (dataLong &&& maskLong ||| dataByte.setWidth 32 &&& maskByte))
  else some (s.setField nFlag (dataLong &&& maskLong))

/-! ## The instructions that write -/

/-- BFSET and BFCLR with a normalised offset, but for the operation on data and mask. -/
def modifyAt (op : BitVec 32 → BitVec 32 →
    BitVec 32) (size width ea offset : BitVec 32) (s : Processor) : Option Processor := do
  let maskLong := maskBase width >>> offset
  let (dataLong, s) ← s.readData size ea
  let nFlag := (dataLong <<< offset) >>> 24
  let s ← s.writeData size ea (op dataLong maskLong)
  if 32#32 < width + offset then
    let maskByte := (maskBase width &&& 0xff#32) <<< (8#32 - offset)
    let (dataByte, s) := s.read8 (ea + 4#32)
    let s := s.write8 (ea + 4#32) ((op (dataByte.setWidth 32) maskByte).setWidth 8)
    some (s.setField nFlag (dataLong &&& maskLong ||| dataByte.setWidth 32 &&& maskByte))
  else some (s.setField nFlag (dataLong &&& maskLong))

def bfmodify (op : BitVec 32 → BitVec 32 → BitVec 32) (word2 : BitVec 16) (ea : BitVec 32)
    (s : Processor) : Option Processor :=
  let width := s.fieldWidth word2
  let (ea, offset) := normalize ea (s.fieldOffset word2)
  s.modifyAt op (offset + width) width ea offset

def xeec0Bfset : BitVec 16 → BitVec 32 → Processor → Option Processor := bfmodify (· ||| ·)

def xecc0Bfclr : BitVec 16 → BitVec 32 → Processor → Option Processor := bfmodify (· &&& ~~~·)

/-- BFCHG reads and writes a double word for every field. -/
def xeac0Bfchg (word2 : BitVec 16) (ea : BitVec 32) (s : Processor) : Option Processor := do
  let width := s.fieldWidth word2
  let (ea, offset) := normalize ea (s.fieldOffset word2)
  let maskLong := maskBase width >>> offset
  let (dataLong, s) ← s.read32 ea
  let nFlag := (dataLong <<< offset) >>> 24
  let s ← s.write32 ea (dataLong ^^^ maskLong)
  if 32#32 < width + offset then
    let maskByte := (maskBase width &&& 0xff#32) <<< (8#32 - offset)
    let (dataByte, s) := s.read8 (ea + 4#32)
    let s := s.write8 (ea + 4#32) ((dataByte.setWidth 32 ^^^ maskByte).setWidth 8)
    some (s.setField nFlag (dataLong &&& maskLong ||| dataByte.setWidth 32 &&& maskByte))
  else some (s.setField nFlag (dataLong &&& maskLong))

/-- A shift of the fifth byte to its place, by what must not be negative. -/
def shiftByte (a offset : BitVec 32) : Option (BitVec 32) :=
  if (8#32 - offset).slt 0#32 then none else some ((a &&& 0xff#32) <<< (8#32 - offset))

def xefc0Bfins (word2 : BitVec 16) (ea : BitVec 32) (s : Processor) : Option Processor := do
  let insertBase := s.da (fieldRegister word2)
  let width := s.fieldWidth word2
  let (ea, offset) := normalizeRegister word2 ea (s.fieldOffset word2)
  let maskLong := maskBase width >>> offset
  let insertBase := insertBase <<< (32#32 - width)
  let insertLong := insertBase >>> offset
  let (dataLong, s) ← s.readData (offset + width) ea
  let s ← s.writeData (width + offset) ea (dataLong &&& ~~~maskLong ||| insertLong)
  if 32#32 < width + offset then
    let maskByte ← shiftByte (maskBase width) offset
    let insertByte ← shiftByte insertBase offset
    let (dataByte, s) := s.read8 (ea + 4#32)
    let s := s.write8 (ea + 4#32) ((dataByte.setWidth 32 &&& ~~~maskByte ||| insertByte).setWidth 8)
    some (s.setField (insertBase >>> 24) (insertBase ||| insertByte &&& maskByte))
  else some (s.setField (insertBase >>> 24) insertBase)

end Processor

end RoscoEmulator.M68k
