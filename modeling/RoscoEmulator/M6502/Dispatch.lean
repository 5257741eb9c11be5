import RoscoEmulator.M6502.Ow65c02s

/-!
# The tables of the devices

`dw65c02s.lst` and `dr65c02.lst` name the handler of each opcode and of the reset. `do_exec_full`
and `do_exec_partial` are a `switch` on `m_inst_state` over such a table, and `execute_run` chooses
the next opcode. -/

namespace RoscoEmulator.M6502

/-- A table of handlers. -/
structure Dispatch where
  opcodes : List Handler
  reset : Handler
  length_opcodes : opcodes.length = 256

namespace Dispatch

/-- The handler of an opcode. -/
def opcode (d : Dispatch) (ir : Byte) : Handler :=
  d.opcodes.get ⟨ir.toNat, d.length_opcodes ▸ ir.isLt⟩

/-- What holds of the handlers of two tables, line by line, holds of those of every opcode. -/
theorem of_opcodes (d d' : Dispatch) (p : Byte → Handler → Handler → Prop)
    (h : ∀ x ∈ (d.opcodes.zip d'.opcodes).zipIdx, p (BitVec.ofNat 8 x.2) x.1.1 x.1.2) (ir : Byte) :
    p ir (d.opcode ir) (d'.opcode ir) := by
  have hlt : ir.toNat < (d.opcodes.zip d'.opcodes).length := by
    rw [List.length_zip, d.length_opcodes, d'.length_opcodes]
    exact ir.isLt
  have hmem := h _ (List.mk_mem_zipIdx_iff_getElem?.mpr (List.getElem?_eq_getElem hlt))
  rw [List.getElem_zip, BitVec.ofNat_toNat, BitVec.setWidth_eq] at hmem
  exact hmem

/-- The cases of the `switch` on `m_inst_state`. -/
def handler (d : Dispatch) : InstState → Option Handler
  | .reset => some d.reset
  | .opcode ir => some (d.opcode ir)
  | .none => none

end Dispatch

/-! ## Tables -/

open Om6502 Ow65c02 Ow65c02s

/-- `dw65c02s.lst` -/
def w65c02s : Dispatch where
  opcodes := [
    brkSImp, oraSIdx, nopImm, nopCImp, tsbSZpg, oraZpg, aslSZpg, rmbBzp, phpImp, oraImm, aslAcc,
    nopCImp, tsbAba, oraAba, aslCAba, bbrZpb,
    bplRel, oraSIdy, oraZpi, nopCImp, trbSZpg, oraSZpx, aslSZpx, rmbBzp, clcImp, oraSAby, incAcc,
    nopCImp, trbAba, oraSAbx, aslSAbx, bbrZpb,
    jsrAdr, andSIdx, nopImm, nopCImp, bitZpg, andZpg, rolSZpg, rmbBzp, plpSImp, andImm, rolAcc,
    nopCImp, bitAba, andAba, rolCAba, bbrZpb,
    bmiRel, andSIdy, andZpi, nopCImp, bitSZpx, andSZpx, rolSZpx, rmbBzp, secImp, andSAby, decAcc,
    nopCImp, bitSAbx, andSAbx, rolSAbx, bbrZpb,
    rtiSImp, eorSIdx, nopImm, nopCImp, nopZpg, eorZpg, lsrSZpg, rmbBzp, phaImp, eorImm, lsrAcc,
    nopCImp, jmpAdr, eorAba, lsrCAba, bbrZpb,
    bvcRel, eorSIdy, eorZpi, nopCImp, nopSZpx, eorSZpx, lsrSZpx, rmbBzp, cliImp, eorSAby, phyImp,
    nopCImp, nopCAba, eorSAbx, lsrSAbx, bbrZpb,
    rtsSImp, adcSIdx, nopImm, nopCImp, stzZpg, adcCZpg, rorSZpg, rmbBzp, plaSImp, adcCImm, rorAcc,
    nopCImp, jmpSInd, adcCAba, rorCAba, bbrZpb,
    bvsRel, adcSIdy, adcCZpi, nopCImp, stzSZpx, adcSZpx, rorSZpx, rmbBzp, seiImp, adcSAby, plySImp,
    nopCImp, jmpSIax, adcSAbx, rorSAbx, bbrZpb,
    braRel, staSIdx, nopImm, nopCImp, styZpg, staZpg, stxZpg, smbBzp, deyImp, bitImm, txaImp,
    nopCImp, styAba, staAba, stxAba, bbsZpb,
    bccRel, staSIdy, staZpi, nopCImp, stySZpx, staSZpx, stxSZpy, smbBzp, tyaImp, staSAby, txsImp,
    nopCImp, stzAba, staSAbx, stzSAbx, bbsZpb,
    ldyImm, ldaSIdx, ldxImm, nopCImp, ldyZpg, ldaZpg, ldxZpg, smbBzp, tayImp, ldaImm, taxImp,
    nopCImp, ldyAba, ldaAba, ldxAba, bbsZpb,
    bcsRel, ldaSIdy, ldaZpi, nopCImp, ldySZpx, ldaSZpx, ldxSZpy, smbBzp, clvImp, ldaSAby, tsxImp,
    nopCImp, ldySAbx, ldaSAbx, ldxSAby, bbsZpb,
    cpyImm, cmpSIdx, nopImm, nopCImp, cpyZpg, cmpZpg, decSZpg, smbBzp, inyImp, cmpImm, dexImp,
    waiImp, cpyAba, cmpAba, decCAba, bbsZpb,
    bneRel, cmpSIdy, cmpZpi, nopCImp, nopSZpx, cmpSZpx, decSZpx, smbBzp, cldImp, cmpSAby, phxImp,
    stpImp, nopSAbx, cmpSAbx, decSAbx, bbsZpb,
    cpxImm, sbcSIdx, nopImm, nopCImp, cpxZpg, sbcCZpg, incSZpg, smbBzp, inxImp, sbcCImm, nopImp,
    nopCImp, cpxAba, sbcCAba, incCAba, bbsZpb,
    beqRel, sbcSIdy, sbcCZpi, nopCImp, nopSZpx, sbcSZpx, incSZpx, smbBzp, sedImp, sbcSAby, plxSImp,
    nopCImp, nopSAbx, sbcSAbx, incSAbx, bbsZpb]
  reset := resetS
  length_opcodes := by decide +kernel

/-- `dr65c02.lst` -/
def r65c02 : Dispatch where
  opcodes := [
    brkCImp, oraIdx, nopImm, nopCImp, tsbZpg, oraZpg, aslCZpg, rmbBzp, phpImp, oraImm, aslAcc,
    nopCImp, tsbAba, oraAba, aslCAba, bbrZpb,
    bplRel, oraIdy, oraZpi, nopCImp, trbZpg, oraZpx, aslCZpx, rmbBzp, clcImp, oraAby, incAcc,
    nopCImp, trbAba, oraAbx, aslCAbx, bbrZpb,
    jsrAdr, andIdx, nopImm, nopCImp, bitZpg, andZpg, rolCZpg, rmbBzp, plpImp, andImm, rolAcc,
    nopCImp, bitAba, andAba, rolCAba, bbrZpb,
    bmiRel, andIdy, andZpi, nopCImp, bitZpx, andZpx, rolCZpx, rmbBzp, secImp, andAby, decAcc,
    nopCImp, bitAbx, andAbx, rolCAbx, bbrZpb,
    rtiImp, eorIdx, nopImm, nopCImp, nopZpg, eorZpg, lsrCZpg, rmbBzp, phaImp, eorImm, lsrAcc,
    nopCImp, jmpAdr, eorAba, lsrCAba, bbrZpb,
    bvcRel, eorIdy, eorZpi, nopCImp, nopZpx, eorZpx, lsrCZpx, rmbBzp, cliImp, eorAby, phyImp,
    nopCImp, nopCAba, eorAbx, lsrCAbx, bbrZpb,
    rtsImp, adcCIdx, nopImm, nopCImp, stzZpg, adcCZpg, rorCZpg, rmbBzp, plaImp, adcCImm, rorAcc,
    nopCImp, jmpCInd, adcCAba, rorCAba, bbrZpb,
    bvsRel, adcCIdy, adcCZpi, nopCImp, stzZpx, adcCZpx, rorCZpx, rmbBzp, seiImp, adcCAby, plyImp,
    nopCImp, jmpIax, adcCAbx, rorCAbx, bbrZpb,
    braRel, staIdx, nopImm, nopCImp, styZpg, staZpg, stxZpg, smbBzp, deyImp, bitImm, txaImp,
    nopCImp, styAba, staAba, stxAba, bbsZpb,
    bccRel, staIdy, staZpi, nopCImp, styZpx, staZpx, stxZpy, smbBzp, tyaImp, staAby, txsImp,
    nopCImp, stzAba, staAbx, stzAbx, bbsZpb,
    ldyImm, ldaIdx, ldxImm, nopCImp, ldyZpg, ldaZpg, ldxZpg, smbBzp, tayImp, ldaImm, taxImp,
    nopCImp, ldyAba, ldaAba, ldxAba, bbsZpb,
    bcsRel, ldaIdy, ldaZpi, nopCImp, ldyZpx, ldaZpx, ldxZpy, smbBzp, clvImp, ldaAby, tsxImp,
    nopCImp, ldyAbx, ldaAbx, ldxAby, bbsZpb,
    cpyImm, cmpIdx, nopImm, nopCImp, cpyZpg, cmpZpg, decCZpg, smbBzp, inyImp, cmpImm, dexImp,
    waiImp, cpyAba, cmpAba, decCAba, bbsZpb,
    bneRel, cmpIdy, cmpZpi, nopCImp, nopZpx, cmpZpx, decCZpx, smbBzp, cldImp, cmpAby, phxImp,
    stpImp, nopCAbx, cmpAbx, decCAbx, bbsZpb,
    cpxImm, sbcCIdx, nopImm, nopCImp, cpxZpg, sbcCZpg, incCZpg, smbBzp, inxImp, sbcCImm, nopImp,
    nopCImp, cpxAba, sbcCAba, incCAba, bbsZpb,
    beqRel, sbcCIdy, sbcCZpi, nopCImp, nopZpx, sbcCZpx, incCZpx, smbBzp, sedImp, sbcCAby, plxImp,
    nopCImp, nopCAbx, sbcCAbx, incCAbx, bbsZpb]
  reset := resetC
  length_opcodes := by decide +kernel

end RoscoEmulator.M6502
