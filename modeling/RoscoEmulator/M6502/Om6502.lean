import RoscoEmulator.M6502.Lines

/-!
# Opcodes of the NMOS 6502

The opcodes of `om6502.lst` that the CMOS processors share, under the names of the list. The first
word of a name is the mnemonic and the last one the addressing mode. Opcodes of one mode differ in
what they do with the operand, so that a mode is a function from a `Use` to lines. -/

namespace RoscoEmulator.M6502

/-! ## Lines that many opcodes have -/

/-- `read(..)`. -/
def read (addr : Addr) (target : Target) : Code := .read .read addr target

/-- `read_pc()`. -/
def readPc (target : Target) : Code := .read .readArg .pc target

/-- `m_PC++`. -/
def incPc : Code := .line .incPc

/-- `if(..) { .. }`. -/
def when (c : Cond) (as : List Code) : Code := .ite c (.block as) (.block [])

/-- `prefetch()`, which the generator expands. -/
def prefetch : List Code := [.line .prefetchStart, .read .readSync .pc .ir, .line .prefetchEnd]

/-- An opcode of this list that ends with `prefetch()`. -/
def om (as : List Code) : Handler := ⟨.m6502, .block (as ++ prefetch), false⟩

/-! ## What is done with an operand -/

/-- Where the operand is read to and what follows. -/
structure Use where
  target : Target
  lines : List Code

def operate (op : Operation) : Use := ⟨.tmp2, [.line (.operate op .tmp2)]⟩

def operateImm (op : Operation) : Use := ⟨.tmp, [.line (.operate op .tmp)]⟩

def load (r : Reg) : Use := ⟨.reg r, [.line (.setNz r)]⟩

def nothing : Use := ⟨.none, []⟩

/-! ## Modes -/

/-- The operand byte. -/
def immediate : List Code := [readPc .tmp, incPc]

/-- The operand word. -/
def absolute : List Code := [readPc .tmp, incPc, readPc .tmpHigh, incPc]

/-- The pointer of `idx`. -/
def indexedPointer : List Code :=
  [readPc .tmp2, incPc, read .tmp2 .none, .line (.addIndexTmp2 .x), read .tmp2 .tmp,
    read .tmp2Next .tmpHigh]

/-- The pointer of `idy` and `zpi`. -/
def pointer : List Code := [readPc .tmp2, incPc, read .tmp2 .tmp, read .tmp2Next .tmpHigh]

/-- The extra cycle of a page crossing. -/
def crossPage (r : Reg) : Code := when (.pageChanging r) [read (.indexedLow r) .none]

def readImm (u : Use) : List Code := [readPc u.target, incPc] ++ u.lines

def readZpg (u : Use) : List Code := immediate ++ [read .tmp u.target] ++ u.lines

def readZpx (r : Reg) (u : Use) : List Code :=
  immediate ++ [read .tmp .none, read (.indexedZp r) u.target] ++ u.lines

def readAba (u : Use) : List Code := absolute ++ [read .tmp u.target] ++ u.lines

def readAbx (r : Reg) (u : Use) : List Code :=
  absolute ++ [crossPage r, .line (.addIndex r), read .tmp u.target] ++ u.lines

/-- `abx` of most loads, which leave `m_TMP` alone. -/
def loadAbx (r : Reg) (u : Use) : List Code :=
  absolute ++ [crossPage r, read (.indexed r) u.target] ++ u.lines

def readIdx (u : Use) : List Code := indexedPointer ++ [read .tmp u.target] ++ u.lines

def readIdy (u : Use) : List Code :=
  pointer ++ [crossPage .y, read (.indexed .y) u.target] ++ u.lines

def writeZpg (d : Data) : List Code := immediate ++ [.write .tmp d]

def writeZpx (r : Reg) (d : Data) : List Code :=
  immediate ++ [read .tmp .none, .write (.indexedZp r) d]

def writeAba (d : Data) : List Code := absolute ++ [.write .tmp d]

def writeAbx (r : Reg) (d : Data) : List Code :=
  absolute ++ [read (.indexedLow r) .none, .write (.indexed r) d]

def writeIdx (d : Data) : List Code := indexedPointer ++ [.write .tmp d]

def writeIdy (d : Data) : List Code :=
  pointer ++ [read (.indexedLow .y) .none, .write (.indexed .y) d]

/-- A change of the registers in two cycles. -/
def implied (l : Line) : List Code := [readPc .none, .line l]

def push (d : Data) : List Code := [readPc .none, .write .sp d, .line .decSp]

def pull (r : Reg) : List Code :=
  [readPc .none, read .sp .none, .line .incSp, read .sp (.reg r), .line (.setNz r)]

/-- A branch that is taken. -/
def branch : List Code :=
  [readPc .none, when .branchPageChanging [.read .readArg .branchLow .none], .line .takeBranch]

def branchOn (c : Cond) : List Code := immediate ++ [when c branch]

/-! ## The list -/

namespace Om6502

def andAba : Handler := om (readAba (operate .and))
def andAbx : Handler := om (readAbx .x (operate .and))
def andAby : Handler := om (readAbx .y (operate .and))
def andImm : Handler := om (readImm (operateImm .and))
def andIdx : Handler := om (readIdx (operate .and))
def andIdy : Handler := om (readIdy (operate .and))
def andZpg : Handler := om (readZpg (operate .and))
def andZpx : Handler := om (readZpx .x (operate .and))

def aslAcc : Handler := om (implied (.modifyReg .asl .a))

def bccRel : Handler := om (branchOn (.notFlag flagC))

def bcsRel : Handler := om (branchOn (.flag flagC))

def beqRel : Handler := om (branchOn (.flag flagZ))

def bitAba : Handler := om (readAba (operate .bit))
def bitZpg : Handler := om (readZpg (operate .bit))

def bmiRel : Handler := om (branchOn (.flag flagN))

def bneRel : Handler := om (branchOn (.notFlag flagZ))

def bplRel : Handler := om (branchOn (.notFlag flagN))

def bvcRel : Handler := om (branchOn (.notFlag flagV))

def bvsRel : Handler := om (branchOn (.flag flagV))

def clcImp : Handler := om (implied (.clear flagC))

def cldImp : Handler := om (implied (.clear flagD))

def cliImp : Handler :=
  ⟨.m6502, .block ([readPc .none] ++ prefetch ++ [.line (.clear flagI)]), false⟩

def clvImp : Handler := om (implied (.clear flagV))

def cmpAba : Handler := om (readAba (operate (.cmp .a)))
def cmpAbx : Handler := om (readAbx .x (operate (.cmp .a)))
def cmpAby : Handler := om (readAbx .y (operate (.cmp .a)))
def cmpIdx : Handler := om (readIdx (operate (.cmp .a)))
def cmpIdy : Handler := om (readIdy (operate (.cmp .a)))
def cmpImm : Handler := om (readImm (operateImm (.cmp .a)))
def cmpZpg : Handler := om (readZpg (operate (.cmp .a)))
def cmpZpx : Handler := om (readZpx .x (operate (.cmp .a)))

def cpxAba : Handler := om (readAba (operate (.cmp .x)))
def cpxImm : Handler := om (readImm (operateImm (.cmp .x)))
def cpxZpg : Handler := om (readZpg (operate (.cmp .x)))

def cpyAba : Handler := om (readAba (operate (.cmp .y)))
def cpyImm : Handler := om (readImm (operateImm (.cmp .y)))
def cpyZpg : Handler := om (readZpg (operate (.cmp .y)))

def dexImp : Handler := om (implied (.modifyReg .dec .x))

def deyImp : Handler := om (implied (.modifyReg .dec .y))

def eorAba : Handler := om (readAba (operate .eor))
def eorAbx : Handler := om (readAbx .x (operate .eor))
def eorAby : Handler := om (readAbx .y (operate .eor))
def eorIdx : Handler := om (readIdx (operate .eor))
def eorIdy : Handler := om (readIdy (operate .eor))
def eorImm : Handler := om (readImm (operateImm .eor))
def eorZpg : Handler := om (readZpg (operate .eor))
def eorZpx : Handler := om (readZpx .x (operate .eor))

def inxImp : Handler := om (implied (.modifyReg .inc .x))

def inyImp : Handler := om (implied (.modifyReg .inc .y))

def jmpAdr : Handler := om [readPc .tmp, incPc, readPc .tmpHigh, .line .jump]

def jsrAdr : Handler := om
  [readPc .tmp, incPc,
  read .sp .none, .write .sp .pcHigh, .line .decSp, .write .sp .pcLow, .line .decSp,
    readPc .tmpHigh, .line .jump]

def ldaAba : Handler := om (readAba (load .a))
def ldaAbx : Handler := om (loadAbx .x (load .a))
def ldaAby : Handler := om (loadAbx .y (load .a))
def ldaIdx : Handler := om (readIdx (load .a))
def ldaIdy : Handler := om (readIdy (load .a))
def ldaImm : Handler := om (readImm (load .a))
def ldaZpg : Handler := om (readZpg (load .a))
def ldaZpx : Handler := om (readZpx .x (load .a))

def ldxAba : Handler := om (readAba (load .x))
def ldxAby : Handler := om (loadAbx .y (load .x))
def ldxImm : Handler := om (readImm (load .x))
def ldxZpg : Handler := om (readZpg (load .x))
def ldxZpy : Handler := om (readZpx .y (load .x))

def ldyAba : Handler := om (readAba (load .y))
def ldyAbx : Handler := om (readAbx .x (load .y))
def ldyImm : Handler := om (readImm (load .y))
def ldyZpg : Handler := om (readZpg (load .y))
def ldyZpx : Handler := om (readZpx .x (load .y))

def lsrAcc : Handler := om (implied (.modifyReg .lsr .a))

def nopImp : Handler := om [readPc .none]

def oraAba : Handler := om (readAba (operate .ora))
def oraAbx : Handler := om (readAbx .x (operate .ora))
def oraAby : Handler := om (readAbx .y (operate .ora))
def oraImm : Handler := om (readImm (operateImm .ora))
def oraIdx : Handler := om (readIdx (operate .ora))
def oraIdy : Handler := om (readIdy (operate .ora))
def oraZpg : Handler := om (readZpg (operate .ora))
def oraZpx : Handler := om (readZpx .x (operate .ora))

def phaImp : Handler := om (push (.reg .a))

def phpImp : Handler := om (push .p)

def plaImp : Handler := om (pull .a)

def plpImp : Handler :=
  ⟨.m6502, .block ([readPc .none, read .sp .none, .line .incSp, read .sp .tmpStatus] ++ prefetch ++
    [.line .pullStatus]), false⟩

def rolAcc : Handler := om (implied (.modifyReg .rol .a))

def rorAcc : Handler := om (implied (.modifyReg .ror .a))

def rtiImp : Handler := om
  [readPc .none, read .sp .none, .line .incSp, read .sp .p, .line .incSp,
  read .sp .pc, .line .incSp, read .sp .pcHigh]

def rtsImp : Handler := om
  [readPc .none, read .sp .none, .line .incSp, read .sp .pc, .line .incSp, read .sp .pcHigh,
  readPc .none, incPc]

def secImp : Handler := om (implied (.raise flagC))

def sedImp : Handler := om (implied (.raise flagD))

def seiImp : Handler :=
  ⟨.m6502, .block ([readPc .none] ++ prefetch ++ [.line (.raise flagI)]), false⟩

def staAba : Handler := om (writeAba (.reg .a))
def staAbx : Handler := om (writeAbx .x (.reg .a))
def staAby : Handler := om (writeAbx .y (.reg .a))
def staIdx : Handler := om (writeIdx (.reg .a))
def staIdy : Handler := om (writeIdy (.reg .a))
def staZpg : Handler := om (writeZpg (.reg .a))
def staZpx : Handler := om (writeZpx .x (.reg .a))

def stxAba : Handler := om (writeAba (.reg .x))
def stxZpg : Handler := om (writeZpg (.reg .x))
def stxZpy : Handler := om (writeZpx .y (.reg .x))

def styAba : Handler := om (writeAba (.reg .y))
def styZpg : Handler := om (writeZpg (.reg .y))
def styZpx : Handler := om (writeZpx .x (.reg .y))

def taxImp : Handler := om (implied (.transfer .x .a))

def tayImp : Handler := om (implied (.transfer .y .a))

def tsxImp : Handler := om (implied .tsx)

def txaImp : Handler := om (implied (.transfer .a .x))

def txsImp : Handler := om (implied .txs)

def tyaImp : Handler := om (implied (.transfer .a .y))

def nopImm : Handler := om (readImm nothing)
def nopZpg : Handler := om (readZpg nothing)
def nopZpx : Handler := om (readZpx .x nothing)

end Om6502

end RoscoEmulator.M6502
