import RoscoEmulator.Emu.ReceiveFrame
import RoscoEmulator.Duart.Delivery
import RoscoEmulator.Duart.OutputPort
import RoscoEmulator.Duart.SaveState
import RoscoEmulator.Chd.OverallHash
import RoscoEmulator.Chd.Failures
import RoscoEmulator.Rosco.Rosco6502
import RoscoEmulator.Rosco.BusError
import RoscoEmulator.Ata.InterruptGate
import RoscoEmulator.Ata.Bus
import RoscoEmulator.Schedule.Timeslices
import RoscoEmulator.Memory.Lookup
import RoscoEmulator.Chd.Termination
import RoscoEmulator.Chd.Malformed
import RoscoEmulator.Util.HardDiskBounds
import RoscoEmulator.M68k.InstructionCache
import RoscoEmulator.Emu.InputQueue
import RoscoEmulator.M68k.Misaligned
import RoscoEmulator.Save.FailedLoads
import RoscoEmulator.Memory.Bytewise
import RoscoEmulator.Memory.Flags
import RoscoEmulator.Duart.CounterHold
import RoscoEmulator.Duart.InputPort
import RoscoEmulator.Duart.RxQueue
import RoscoEmulator.M6502.Deferral
import RoscoEmulator.M6502.Variants
import RoscoEmulator.Ata.BlockInterrupts
import RoscoEmulator.Emu.ReceivePhase
import RoscoEmulator.Emu.TickConversion
import RoscoEmulator.M68k.TranslationCache
import RoscoEmulator.SdCard.PartialReads
import RoscoEmulator.Util.HardDiskGeometry
import RoscoEmulator.Util.HuffmanCodec
import RoscoEmulator.Emu.DiserialFifo
import RoscoEmulator.M68k.Movem
import RoscoEmulator.M68k.ShiftCounts
import RoscoEmulator.M68k.Division
import RoscoEmulator.M68k.BitFieldResults
import RoscoEmulator.Save.Capacity
import RoscoEmulator.Util.Utf16
import RoscoEmulator.M6502.ProgramCounter
