import RoscoEmulator.Ata.Accesses

/-!
# Two drives on a bus

`abstract_ata_interface_device` passes every access of the host on to both drives, to drive 0 first.
Each of them decides by its own copy of the device and head register whether it is meant. The lines
DASP and PDIAG of drive 1 lead to drive 0.

A command should be executed by the drive that the DRV bit names, and `EXECUTE DEVICE DIAGNOSTIC` by
both. But the test for that command looks at `m_command` before the new command is in it: it finds
the command before. So a drive that is not selected misses the diagnostic, and executes the command
that comes after one.
-/

namespace RoscoEmulator.Ata

open SdCard (HardDisk)

/-- `abstract_ata_interface_device` with a drive in both slots. -/
structure Bus (M : Type) where
  drive : Bool → Hdd M

/-- What can happen on a bus. -/
inductive BusEvent
  | readDma
  | writeDma (data : BitVec 16)
  | writeDmack (state : Bool)
  | readCs0 (offset : ℕ)
  | writeCs0 (offset : ℕ) (data : BitVec 16)
  | readCs1 (offset : ℕ)
  | writeCs1 (offset : ℕ) (data : BitVec 16)
  /-- The busy timer of a drive expires. -/
  | busyTick (drive : Bool)
  /-- The other timer of a drive expires. -/
  | emptyTick (drive : Bool)
  | reset
deriving DecidableEq, Repr

/-- What an event on the bus is to one of the drives. -/
def BusEvent.toDrive (drive : Bool) : BusEvent → Option Event
  | .readDma => some .readDma
  | .writeDma data => some (.writeDma data)
  | .writeDmack state => some (.dmackIn state)
  | .readCs0 offset => some (.readCs0 offset)
  | .writeCs0 offset data => some (.writeCs0 offset data)
  | .readCs1 offset => some (.readCs1 offset)
  | .writeCs1 offset data => some (.writeCs1 offset data)
  | .busyTick i => if i = drive then some .busyTick else none
  | .emptyTick i => if i = drive then some .emptyTick else none
  | .reset => some .reset

/-- The command that the host writes. -/
def BusEvent.command : BusEvent → Option Byte
  | .writeCs0 7 data => some (data.setWidth 8)
  | _ => none

theorem BusEvent.exists_of_command {e : BusEvent} {c : Byte} (h : c ∈ e.command) :
    ∃ data : BitVec 16, e = .writeCs0 7 data ∧ data.setWidth 8 = c := by
  rw [BusEvent.command.eq_def] at h
  split at h
  case h_1 data => exact ⟨data, rfl, Option.some.inj h⟩
  case h_2 => exact absurd h (by simp)

namespace Hdd

variable {M : Type}

/-- The drive after an event that may pass it by. -/
def stepOption [HardDisk M] (d : Hdd M) : Option Event → Hdd M
  | some e => d.step e
  | none => d

/-- Drive 0 behind an event that takes drive 1 from `old` to `new`: `dasp1_write_line` and
`pdiag1_write_line`. -/
def follow (d old new : Hdd M) : Hdd M :=
  let d := if new.lines.daspout ≠ old.lines.daspout then d.setDaspIn new.lines.daspout else d
  if new.lines.pdiagout ≠ old.lines.pdiagout then d.setPdiagIn new.lines.pdiagout else d

/-- A drive that takes the next command, if it is meant: it is not busy, or the write ends its data
phase, and it is not in a DMA cycle. -/
def accepts (d : Hdd M) : Bool := (!d.status.bsy || d.status.drq) && !d.lines.dmack

/-- The end of a data phase in front of a command. -/
theorem beginWrite_frame (d : Hdd M) (data : BitVec 16) :
    (d.beginWrite 7 data).status.bsy = (d.status.bsy && !d.status.drq) ∧
      (d.beginWrite 7 data).lines.dmack = d.lines.dmack ∧ (d.beginWrite 7 data).log = d.log ∧
      (d.beginWrite 7 data).takesCommand = d.takesCommand := by
  have haborts : d.abortsTransfer 7 data = d.status.drq := by simp [abortsTransfer]
  rw [beginWrite, haborts]
  split_ifs with hdrq
  · rw [hdrq]
    exact ⟨(Bool.and_false _).symm, rfl, rfl, rfl⟩
  · rw [Bool.eq_false_iff.mpr hdrq]
    exact ⟨(Bool.and_true _).symm, rfl, rfl, rfl⟩

/-- A drive executes a command if it accepts it and takes itself to be meant. -/
theorem log_commandW [HardDisk M] (d : Hdd M) (data : BitVec 16) :
    (d.commandW 7 data).log =
      if d.accepts && d.takesCommand then d.log ++ [.started (data.setWidth 8)] else d.log := by
  obtain ⟨hbsy, hdmack, hlog, htakes⟩ := d.beginWrite_frame data
  have haccepts : d.accepts =
      (!(d.beginWrite 7 data).status.bsy && !(d.beginWrite 7 data).lines.dmack) := by
    rw [accepts, hbsy, hdmack]
    cases d.status.bsy <;> cases d.status.drq <;> rfl
  rw [haccepts, ← hlog, ← htakes]
  simp only [commandW]
  generalize d.beginWrite 7 data = d'
  cases hbusy : d'.status.bsy with
  | true => rfl
  | false =>
    cases hcycle : d'.lines.dmack with
    | true => rfl
    | false =>
      rw [if_neg Bool.false_ne_true, if_neg Bool.false_ne_true, writeRegister]
      cases d'.takesCommand with
      | true => exact log_startCommand _ _
      | false => rfl

theorem log_follow (d old new : Hdd M) : (d.follow old new).log = d.log := by
  simp only [follow, setPdiagIn]
  split_ifs <;> rfl

end Hdd

namespace Bus

variable {M : Type}

/-- The bus behind its start. -/
def start (image : Bool → Option M) (inquiryData : Bool → List Byte)
    (masterPassword userPassword : Bool → Option (List Byte)) : Bus M where
  drive i := Hdd.start i (image i) (inquiryData i) (masterPassword i) (userPassword i)

variable [HardDisk M]

/-- The bus after an event. -/
def step (b : Bus M) (e : BusEvent) : Bus M where
  drive
    | false => ((b.drive false).stepOption (e.toDrive false)).follow (b.drive true)
        ((b.drive true).stepOption (e.toDrive true))
    | true => (b.drive true).stepOption (e.toDrive true)

/-- What an event answers: drive 1 gets what drive 0 has made of the data. -/
def answer (b : Bus M) : BusEvent → BitVec 16
  | .readDma => ((b.drive true).dmaR ((b.drive false).dmaR 0xffff).1).1
  | .readCs0 offset => ((b.drive true).commandR offset ((b.drive false).commandR offset 0xffff).1).1
  | .readCs1 offset => ((b.drive true).controlR offset ((b.drive false).controlR offset 0xffff).1).1
  | _ => 0xffff

/-! ## Selection -/

/-- In the event the drive executes a command. -/
def Executes (b : Bus M) (e : BusEvent) (drive : Bool) (c : Byte) : Prop :=
  ((b.step e).drive drive).log = (b.drive drive).log ++ [.started c]

/-- A command goes to the drive that the DRV bit names, whichever copy of it one looks at, and
`EXECUTE DEVICE DIAGNOSTIC` to every drive that accepts it. -/
def CommandLaw (b : Bus M) (e : BusEvent) : Prop :=
  ∀ c ∈ e.command, ∀ i j : Bool, b.Executes e i c ↔
    (b.drive i).accepts = true ∧ ((b.drive j).dev = (b.drive i).lines.csel ∨ c = 0x90)

omit [HardDisk M] in
/-- For each drive that accepts a command: it takes `EXECUTE DEVICE DIAGNOSTIC` by its own test, and
for any other command the two copies of the DRV bit agree, and the drive is selected or did not
execute that command last. -/
def SelectsRight (b : Bus M) (e : BusEvent) : Prop :=
  ∀ c ∈ e.command, ∀ i : Bool, (b.drive i).accepts = true →
    if c = 0x90 then (b.drive i).takesCommand = true
    else (b.drive false).dev = (b.drive true).dev ∧
      ((b.drive i).deviceSelected = true ∨ (b.drive i).regs.command ≠ 0x90)

omit [HardDisk M] in
instance (b : Bus M) : DecidablePred b.SelectsRight := fun e ↦
  inferInstanceAs (Decidable (∀ c ∈ e.command, ∀ _ : Bool, _ → ite _ _ _))

variable (b : Bus M)

theorem executes_iff {e : BusEvent} {c : Byte} (hc : c ∈ e.command) (i : Bool) :
    b.Executes e i c ↔ (b.drive i).accepts = true ∧ (b.drive i).takesCommand = true := by
  obtain ⟨data, rfl, rfl⟩ := BusEvent.exists_of_command hc
  have hlog : ((b.step (.writeCs0 7 data)).drive i).log = ((b.drive i).commandW 7 data).log := by
    cases i with
    | false => exact Hdd.log_follow _ _ _
    | true => rfl
  rw [Executes, hlog, Hdd.log_commandW]
  cases hmeant : ((b.drive i).accepts && (b.drive i).takesCommand) with
  | true => exact iff_of_true rfl (by simpa using hmeant)
  | false =>
    refine iff_of_false (fun heq ↦ ?_) (by simpa using hmeant)
    exact absurd heq.symm (by simp)

omit [HardDisk M] in
/-- A drive takes a command exactly if it is named by both copies of the DRV bit, if the copies
agree and the command before was not the diagnostic or the drive is selected anyway. -/
theorem takes_iff (i : Bool) :
    (∀ j : Bool, (b.drive i).takesCommand = true ↔ (b.drive j).dev = (b.drive i).lines.csel) ↔
      (b.drive false).dev = (b.drive true).dev ∧
        ((b.drive i).deviceSelected = true ∨ (b.drive i).regs.command ≠ 0x90) := by
  have htakes : (b.drive i).takesCommand =
      (((b.drive i).lines.csel == (b.drive i).dev) || decide ((b.drive i).regs.command = 0x90)) :=
      rfl
  have hselected : (b.drive i).deviceSelected = ((b.drive i).lines.csel == (b.drive i).dev) := rfl
  have hcommand : (b.drive i).regs.command ≠ 0x90 ↔
      decide ((b.drive i).regs.command = 0x90) = false := by simp
  rw [htakes, hselected, hcommand, Bool.forall_bool]
  generalize decide ((b.drive i).regs.command = 0x90) = before
  generalize (b.drive i).lines.csel = csel
  cases i <;> cases (b.drive false).dev <;> cases (b.drive true).dev <;> cases before <;>
    cases csel <;> decide

/-- **Selection.** A command obeys the law exactly if each drive that accepts it selects right. -/
theorem commandLaw_iff (e : BusEvent) : b.CommandLaw e ↔ b.SelectsRight e := by
  refine forall_congr' fun c ↦ forall_congr' fun hc ↦ forall_congr' fun i ↦ ?_
  simp only [b.executes_iff hc]
  cases haccepts : (b.drive i).accepts with
  | false => simp
  | true =>
    simp only [true_and, true_imp_iff]
    split_ifs with hdiagnostic
    · simp [hdiagnostic]
    · simp only [hdiagnostic, or_false]
      exact takes_iff b i

/-- **Selection over runs.** The commands of a run go where they should exactly if at each of them
the drives that accept it select right. -/
theorem meets_commandLaw_iff (b : Bus M) (es : List BusEvent) :
    Run.Meets step CommandLaw b es ↔ Run.Meets step SelectsRight b es :=
  Run.meets_congr commandLaw_iff b es

/-- Both drives are ready, and drive 0 is selected, when the host writes
`EXECUTE DEVICE DIAGNOSTIC`. Drive 1 does not execute it. -/
theorem not_meets_commandLaw_diagnostic :
    ¬ Run.Meets step CommandLaw
      (start (fun _ ↦ (none : Option SdCard.MemoryDisk)) (fun _ ↦ []) (fun _ ↦ none) fun _ ↦ none)
      [.reset, .busyTick true, .busyTick false, .busyTick false, .busyTick false,
        .writeCs0 7 0x90] := by
  intro h
  exact absurd ((Run.meets_congr commandLaw_iff _ _).mp h) (by decide)

end Bus

end RoscoEmulator.Ata
