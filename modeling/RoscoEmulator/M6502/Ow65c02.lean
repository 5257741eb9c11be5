import RoscoEmulator.M6502.Om6502

/-!
# Opcodes of the 65C02

The opcodes of `ow65c02.lst` that the W65C02S and the R65C02 have, under the names of the list.
-/

namespace RoscoEmulator.M6502

/-- An opcode of this list that ends with `prefetch()`. -/
def oc (as : List Code) : Handler := ⟨.w65c02, .block (as ++ prefetch), false⟩

/-! ## What is done with an operand -/

/-- In decimal mode `adc` and `sbc` take a cycle more, in which N and Z are set. -/
def decimalCycle : Code := when (.flag flagD) [readPc .none, .line (.setNz .a)]

def decimal (op : Operation) : Use := ⟨.tmp2, [.line (.operate op .tmp2), decimalCycle]⟩

def decimalImm (op : Operation) : Use := ⟨.tmp, [.line (.operate op .tmp), decimalCycle]⟩

/-- What is done to a byte of memory. -/
def change (m : Modification) : List Code := [.line (.modify m)]

def trb : List Code := [.line (.testBits .tmp2), .line .resetBits]

def tsb : List Code := [.line (.testBits .tmp2), .line .setBits]

/-! ## Modes -/

def readZpi (u : Use) : List Code := pointer ++ [read .tmp u.target] ++ u.lines

def writeZpi (d : Data) : List Code := pointer ++ [.write .tmp d]

/-- A byte of memory is read twice and written. -/
def modifyTmp (as : List Code) : List Code :=
  [read .tmp .tmp2, read .tmp .none] ++ as ++ [.write .tmp .tmp2]

def modifyZpg (as : List Code) : List Code := immediate ++ modifyTmp as

def modifyZpx (as : List Code) : List Code :=
  immediate ++ [read .tmp .none, .line (.addIndexZp .x)] ++ modifyTmp as

def modifyAba (as : List Code) : List Code := absolute ++ modifyTmp as

def modifyAbx (as : List Code) : List Code :=
  absolute ++ [read (.indexedLow .x) .none, .line (.addIndex .x)] ++ modifyTmp as

def branchAlways : List Code := immediate ++ branch

/-- `bbr` and `bbs`. -/
def branchOnBit (c : Cond) : List Code :=
  [readPc .tmp, incPc, read .tmp .tmp2, read .tmp .none, readPc .tmp, incPc, when c branch]

/-- The lines of `brk`, which serves the interrupts too. -/
def brk : Code := .block
  ([.ite .interrupted (.block [readPc .none])
  (.block [readPc .none, incPc]), .write .sp .pcHigh, .line .decSp,
    .write .sp .pcLow, .line .decSp, .write .sp .pushedStatus, .line .decSp,
    .ite .nmiTaken
      (.block [.line .standardIrqCallback, .read .readArg (.const 0xfffa) .pc,
        .read .readArg (.const 0xfffb) .pcHigh, .line .clearNmiPending])
      (.block [when .irqTaken [.line .standardIrqCallback], .read .readArg (.const 0xfffe) .pc,
        .read .readArg (.const 0xffff) .pcHigh]),
    .line .clearIrqTaken, .line .enterInterrupt] ++ prefetch)

/-- The lines of the reset. -/
def reset : Code := .block
  ([.read .readArg (.const 0xffff) .none, readPc .none, read .sp .none, .line .decSp,
  read .sp .none, .line .decSp,
    read .sp .none, .line .decSp, .line .enterInterrupt, .read .readArg (.const 0xfffc) .pc,
    .read .readArg (.const 0xfffd) .pcHigh] ++ prefetch)

/-! ## The list -/

namespace Ow65c02

def adcCAba : Handler := oc (readAba (decimal .adc))
def adcCAbx : Handler := oc (readAbx .x (decimal .adc))
def adcCAby : Handler := oc (readAbx .y (decimal .adc))
def adcCIdx : Handler := oc (readIdx (decimal .adc))
def adcCIdy : Handler := oc (readIdy (decimal .adc))
def adcCImm : Handler := oc (readImm (decimalImm .adc))
def adcCZpg : Handler := oc (readZpg (decimal .adc))
def adcCZpi : Handler := oc (readZpi (decimal .adc))
def adcCZpx : Handler := oc (readZpx .x (decimal .adc))

def andZpi : Handler := oc (readZpi (operate .and))

def aslCAba : Handler := oc (modifyAba (change .asl))
def aslCAbx : Handler := oc (modifyAbx (change .asl))
def aslCZpg : Handler := oc (modifyZpg (change .asl))
def aslCZpx : Handler := oc (modifyZpx (change .asl))

def bbrZpb : Handler := oc (branchOnBit .bitClear)

def bbsZpb : Handler := oc (branchOnBit .bitSet)

def bitAbx : Handler := oc (readAbx .x (operate .bit))
def bitImm : Handler := oc (readImm ⟨.tmp, [.line (.testBits .tmp)]⟩)
def bitZpx : Handler := oc (readZpx .x (operate .bit))

def braRel : Handler := oc (branchAlways)

def brkCImp : Handler := ⟨.w65c02, brk, true⟩

def cmpZpi : Handler := oc (readZpi (operate (.cmp .a)))

def decAcc : Handler := oc (implied (.modifyReg .dec .a))
def decCAba : Handler := oc (modifyAba (change .dec))
def decCAbx : Handler := oc (modifyAbx (change .dec))
def decCZpg : Handler := oc (modifyZpg (change .dec))
def decCZpx : Handler := oc (modifyZpx (change .dec))

def eorZpi : Handler := oc (readZpi (operate .eor))

def incAcc : Handler := oc (implied (.modifyReg .inc .a))
def incCAba : Handler := oc (modifyAba (change .inc))
def incCAbx : Handler := oc (modifyAbx (change .inc))
def incCZpg : Handler := oc (modifyZpg (change .inc))
def incCZpx : Handler := oc (modifyZpx (change .inc))

def jmpIax : Handler := oc
  (absolute ++
  [read (.indexedLow .x) .none, .line (.addIndex .x), read .tmp .pc, read .tmpNext .pcHigh])

def jmpCInd : Handler :=
  oc (absolute ++ [read .tmp .pc, read .tmpNextLow .none, read .tmpNext .pcHigh])

def ldaZpi : Handler := oc (readZpi (load .a))

def lsrCAba : Handler := oc (modifyAba (change .lsr))
def lsrCAbx : Handler := oc (modifyAbx (change .lsr))
def lsrCZpg : Handler := oc (modifyZpg (change .lsr))
def lsrCZpx : Handler := oc (modifyZpx (change .lsr))

def nopCImp : Handler := oc []

def nopCAba : Handler := oc
  [readPc .none, incPc, readPc .none, incPc, readPc .none, readPc .none, readPc .none,
  readPc .none, readPc .none]

def nopCAbx : Handler := oc (absolute ++ [read (.indexedLow .x) .none])

def oraZpi : Handler := oc (readZpi (operate .ora))

def phxImp : Handler := oc (push (.reg .x))

def phyImp : Handler := oc (push (.reg .y))

def plxImp : Handler := oc (pull .x)

def plyImp : Handler := oc (pull .y)

def rmbBzp : Handler := oc (modifyZpg [.line .resetBit])

def rolCAba : Handler := oc (modifyAba (change .rol))
def rolCAbx : Handler := oc (modifyAbx (change .rol))
def rolCZpg : Handler := oc (modifyZpg (change .rol))
def rolCZpx : Handler := oc (modifyZpx (change .rol))

def rorCAba : Handler := oc (modifyAba (change .ror))
def rorCAbx : Handler := oc (modifyAbx (change .ror))
def rorCZpg : Handler := oc (modifyZpg (change .ror))
def rorCZpx : Handler := oc (modifyZpx (change .ror))

def sbcCAba : Handler := oc (readAba (decimal .sbcC))
def sbcCAbx : Handler := oc (readAbx .x (decimal .sbcC))
def sbcCAby : Handler := oc (readAbx .y (decimal .sbcC))
def sbcCIdx : Handler := oc (readIdx (decimal .sbcC))
def sbcCIdy : Handler := oc (readIdy (decimal .sbcC))
def sbcCImm : Handler := oc (readImm (decimalImm .sbcC))
def sbcCZpg : Handler := oc (readZpg (decimal .sbcC))
def sbcCZpi : Handler := oc (readZpi (decimal .sbcC))
def sbcCZpx : Handler := oc (readZpx .x (decimal .sbcC))

def smbBzp : Handler := oc (modifyZpg [.line .setBit])

def staZpi : Handler := oc (writeZpi (.reg .a))

def stpImp : Handler := ⟨.w65c02, .block [.eatForever], false⟩

def stzAba : Handler := oc (writeAba .zero)
def stzAbx : Handler := oc (writeAbx .x .zero)
def stzZpg : Handler := oc (writeZpg .zero)
def stzZpx : Handler := oc (writeZpx .x .zero)

def trbAba : Handler := oc (modifyAba trb)
def trbZpg : Handler := oc (modifyZpg trb)

def tsbAba : Handler := oc (modifyAba tsb)
def tsbZpg : Handler := oc (modifyZpg tsb)

def waiImp : Handler := oc [readPc .none, readPc .none, .eatWhile .noInterrupt]

def resetC : Handler := ⟨.w65c02, reset, true⟩

end Ow65c02

end RoscoEmulator.M6502
