import RoscoEmulator.M6502.Ow65c02

/-!
# Opcodes of the W65C02S

The opcodes of `ow65c02s.lst`, under the names of the list. They take the program counter past the
operand late and read from it in the cycles in which the other processors read from an address that
is not ready. -/

namespace RoscoEmulator.M6502

/-- An opcode of this list that ends with `prefetch()`. -/
def os (as : List Code) : Handler := ⟨.w65c02s, .block (as ++ prefetch), false⟩

/-! ## Modes -/

/-- The operand word. The program counter stays on its high byte. -/
def sAbsolute : List Code := [readPc .tmp, incPc, readPc .tmpHigh]

/-- The extra cycle of a page crossing. -/
def sCrossPage (r : Reg) : Code := when (.pageChanging r) [readPc .none]

/-- The pointer of `idx` behind its first byte. -/
def sIndexedPointer : List Code :=
  [.line (.addIndexTmp2 .x), read .tmp2 .tmp, read .tmp2Next .tmpHigh]

/-- The pointer of `idy`. The program counter stays on the operand. -/
def sPointer : List Code := [readPc .tmp2, read .tmp2 .tmp, read .tmp2Next .tmpHigh]

def sReadZpx (r : Reg) (u : Use) : List Code :=
  [readPc .tmp, readPc .none, incPc, read (.indexedZp r) u.target] ++ u.lines

/-- `zpx` with the program counter still on the operand in the extra cycle. -/
def sReadZpxLate (r : Reg) (u : Use) : List Code :=
  [readPc .tmp, readPc .none, read (.indexedZp r) u.target] ++ u.lines ++ [incPc]

def sReadAbx (r : Reg) (u : Use) : List Code :=
  sAbsolute ++ [sCrossPage r, .line (.addIndex r), read .tmp u.target] ++ u.lines ++ [incPc]

/-- `abx` of most loads, which leave `m_TMP` alone. -/
def sLoadAbx (r : Reg) (u : Use) : List Code :=
  sAbsolute ++ [sCrossPage r, read (.indexed r) u.target] ++ u.lines ++ [incPc]

def sReadIdx (u : Use) : List Code :=
  [readPc .tmp2, readPc .none, incPc] ++ sIndexedPointer ++ [read .tmp u.target] ++ u.lines

/-- `idx` with the program counter still on the operand in the extra cycle. -/
def sReadIdxLate (u : Use) : List Code :=
  [readPc .tmp2, readPc .none] ++ sIndexedPointer ++ [read .tmp u.target] ++ u.lines ++ [incPc]

def sReadIdy (u : Use) : List Code :=
  sPointer ++ [sCrossPage .y, read (.indexed .y) u.target] ++ u.lines ++ [incPc]

def sWriteZpx (r : Reg) (d : Data) : List Code :=
  [readPc .tmp, readPc .none, incPc, .write (.indexedZp r) d]

def sWriteAbx (r : Reg) (d : Data) : List Code :=
  sAbsolute ++ [readPc .none, incPc, .write (.indexed r) d]

def sWriteIdx (d : Data) : List Code :=
  [readPc .tmp2, readPc .none, incPc] ++ sIndexedPointer ++ [.write .tmp d]

def sWriteIdy (d : Data) : List Code := sPointer ++ [readPc .none, incPc, .write (.indexed .y) d]

/-- A byte of memory is read and written, with a read of the byte behind it in between. -/
def sModifyTmp (dummy : Addr) (as : List Code) : List Code :=
  [read .tmp .tmp2, read dummy .none] ++ as ++ [.write .tmp .tmp2]

def sModifyZpg (as : List Code) : List Code := immediate ++ sModifyTmp .tmpNextZp as

def sModifyZpx (as : List Code) : List Code :=
  [readPc .tmp, readPc .none, incPc, .line (.addIndexZp .x)] ++ sModifyTmp .tmpNextZp as

def sModifyAbx (dummy : Addr) (as : List Code) : List Code :=
  sAbsolute ++ [sCrossPage .x, .line (.addIndex .x)] ++ sModifyTmp dummy as ++ [incPc]

def sPull (r : Reg) : List Code :=
  [readPc .none, readPc .none, .line .incSp, read .sp (.reg r), .line (.setNz r)]

/-! ## The list -/

namespace Ow65c02s

def adcSAbx : Handler := os (sReadAbx .x (decimal .adc))
def adcSAby : Handler := os (sReadAbx .y (decimal .adc))
def adcSIdx : Handler := os (sReadIdxLate (decimal .adc))
def adcSIdy : Handler := os (sReadIdy (decimal .adc))
def adcSZpx : Handler := os (sReadZpxLate .x (decimal .adc))

def andSAbx : Handler := os (sReadAbx .x (operate .and))
def andSAby : Handler := os (sReadAbx .y (operate .and))
def andSIdx : Handler := os (sReadIdx (operate .and))
def andSIdy : Handler := os (sReadIdy (operate .and))
def andSZpx : Handler := os (sReadZpx .x (operate .and))

def aslSAbx : Handler := os (sModifyAbx .tmpNext (change .asl))
def aslSZpg : Handler := os (sModifyZpg (change .asl))
def aslSZpx : Handler := os (sModifyZpx (change .asl))

def bitSAbx : Handler := os (sReadAbx .x (operate .bit))
def bitSZpx : Handler := os (sReadZpx .x (operate .bit))

def brkSImp : Handler := ⟨.w65c02s, brk, true⟩

def cmpSAbx : Handler := os (sReadAbx .x (operate (.cmp .a)))
def cmpSAby : Handler := os (sReadAbx .y (operate (.cmp .a)))
def cmpSIdx : Handler := os (sReadIdx (operate (.cmp .a)))
def cmpSIdy : Handler := os (sReadIdy (operate (.cmp .a)))
def cmpSZpx : Handler := os (sReadZpx .x (operateImm (.cmp .a)))

def decSAbx : Handler := os (sModifyAbx .tmpNext (change .dec))
def decSZpg : Handler := os (sModifyZpg (change .dec))
def decSZpx : Handler := os (sModifyZpx (change .dec))

def eorSAbx : Handler := os (sReadAbx .x (operate .eor))
def eorSAby : Handler := os (sReadAbx .y (operate .eor))
def eorSIdx : Handler := os (sReadIdx (operate .eor))
def eorSIdy : Handler := os (sReadIdy (operate .eor))
def eorSZpx : Handler := os (sReadZpx .x (operate .eor))

def incSAbx : Handler := os (sModifyAbx .tmpNext (change .inc))
def incSZpg : Handler := os (sModifyZpg (change .inc))
def incSZpx : Handler := os (sModifyZpx (change .inc))

def jmpSIax : Handler := os
  [readPc .tmp, incPc, readPc .tmpHigh, readPc .none, .line (.addIndex .x), read .tmp .pc,
  read .tmpNext .pcHigh]

def jmpSInd : Handler :=
  os [readPc .tmp, incPc, readPc .tmpHigh, readPc .none, read .tmp .pc, read .tmpNext .pcHigh]

def ldaSAbx : Handler := os (sLoadAbx .x (load .a))
def ldaSAby : Handler := os (sLoadAbx .y (load .a))
def ldaSIdx : Handler := os (sReadIdx (load .a))
def ldaSIdy : Handler := os (sReadIdy (load .a))
def ldaSZpx : Handler := os (sReadZpx .x (load .a))

def ldxSAby : Handler := os (sLoadAbx .y (load .x))
def ldxSZpy : Handler := os (sReadZpx .y (load .x))

def ldySAbx : Handler := os (sReadAbx .x (load .y))
def ldySZpx : Handler := os (sReadZpx .x (load .y))

def lsrSAbx : Handler := os (sModifyAbx .tmpNextZp (change .lsr))
def lsrSZpg : Handler := os (sModifyZpg (change .lsr))
def lsrSZpx : Handler := os (sModifyZpx (change .lsr))

def nopSAbx : Handler := os [readPc .none, incPc, readPc .none, readPc .none, incPc]
def nopSZpx : Handler := os (sReadZpx .x nothing)

def oraSAbx : Handler := os (sReadAbx .x (operate .ora))
def oraSAby : Handler := os (sReadAbx .y (operate .ora))
def oraSIdx : Handler := os (sReadIdx (operate .ora))
def oraSIdy : Handler := os (sReadIdy (operate .ora))
def oraSZpx : Handler := os (sReadZpx .x (operate .ora))

def plaSImp : Handler := os (sPull .a)

def plpSImp : Handler :=
  ⟨.w65c02s, .block ([readPc .none, readPc .none, .line .incSp, read .sp .tmpStatus] ++ prefetch ++
    [.line .pullStatus]), false⟩

def plxSImp : Handler := os (sPull .x)

def plySImp : Handler := os (sPull .y)

def rolSAbx : Handler := os (sModifyAbx .tmpNext (change .rol))
def rolSZpg : Handler := os (sModifyZpg (change .rol))
def rolSZpx : Handler := os (sModifyZpx (change .rol))

def rorSAbx : Handler := os (sModifyAbx .tmpNext (change .ror))
def rorSZpg : Handler := os (sModifyZpg (change .ror))
def rorSZpx : Handler := os (sModifyZpx (change .ror))

def rtiSImp : Handler := os
  [readPc .none, .line .incSp, read .sp .p, .line .incSp, read .sp .tmp, .line .incSp,
    read .sp .tmpHigh, readPc .none, .line .endInterrupt, .line .jump]

def rtsSImp : Handler := os
  [readPc .none, readPc .none, .line .incSp, read .sp .tmp, .line .incSp, read .sp .tmpHigh,
    readPc .none, .line .jumpNext]

def sbcSAbx : Handler := os (sReadAbx .x (decimal .sbcC))
def sbcSAby : Handler := os (sReadAbx .y (decimal .sbcC))
def sbcSIdx : Handler := os (sReadIdxLate (decimal .sbcC))
def sbcSIdy : Handler := os (sReadIdy (decimal .sbcC))
def sbcSZpx : Handler := os (sReadZpxLate .x (decimal .sbcC))

def staSAbx : Handler := os (sWriteAbx .x (.reg .a))
def staSAby : Handler := os (sWriteAbx .y (.reg .a))
def staSIdx : Handler := os (sWriteIdx (.reg .a))
def staSIdy : Handler := os (sWriteIdy (.reg .a))
def staSZpx : Handler := os (sWriteZpx .x (.reg .a))

def stxSZpy : Handler := os (sWriteZpx .y (.reg .x))

def stySZpx : Handler := os (sWriteZpx .x (.reg .y))

def stzSAbx : Handler := os (sWriteAbx .x .zero)
def stzSZpx : Handler := os (sWriteZpx .x .zero)

def trbSZpg : Handler := os (sModifyZpg trb)

def tsbSZpg : Handler := os (sModifyZpg tsb)

def resetS : Handler := ⟨.w65c02s, reset, true⟩

end Ow65c02s

end RoscoEmulator.M6502
