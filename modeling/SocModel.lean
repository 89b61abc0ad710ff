import SocModel.Asm.Bounds
import SocModel.Asm.Compile
import SocModel.Asm.Denote
import SocModel.Asm.Directives
import SocModel.Asm.Elements
import SocModel.Asm.Emulator
import SocModel.Asm.Labels
import SocModel.Asm.Layout
import SocModel.Asm.Li
import SocModel.Asm.Lines
import SocModel.Asm.Offsets
import SocModel.Asm.Ranges
import SocModel.Asm.Registers
import SocModel.Asm.Resolve
import SocModel.Asm.SourceText
import SocModel.Asm.Sources
import SocModel.Asm.Statements
import SocModel.Bus.Packet
import SocModel.Cfu.Simd
import SocModel.Chisel.Datapath
import SocModel.Chisel.Execute
import SocModel.Chisel.Freeze
import SocModel.Chisel.Handshake
import SocModel.Chisel.Hazard
import SocModel.Chisel.InOrder
import SocModel.Chisel.LoadStore
import SocModel.Chisel.Path
import SocModel.Chisel.Pipeline
import SocModel.Chisel.Programs
import SocModel.Cpu.ExactlyOnce
import SocModel.Cpu.Fetch
import SocModel.Cpu.Model
import SocModel.Cpu.Semantics
import SocModel.Cpu.Zero
import SocModel.DataMem.Bursts
import SocModel.DataMem.Confined
import SocModel.DataMem.Forward
import SocModel.DataMem.Model
import SocModel.DataMem.Order
import SocModel.DataMem.Serial
import SocModel.Dma.Bursts
import SocModel.Dma.Completion
import SocModel.Dma.Copy
import SocModel.Dma.Exact
import SocModel.Dma.Handover
import SocModel.Dma.Isolation
import SocModel.Dma.Model
import SocModel.Dma.Rect
import SocModel.Dma.Routing
import SocModel.Dma.Run
import SocModel.Dma.Stream
import SocModel.Dma.Window
import SocModel.Isa.Exec
import SocModel.Isa.Instr
import SocModel.Isa.Machine
import SocModel.Isa.Rv32
import SocModel.Lib.Blocks
import SocModel.Lib.Bytes
import SocModel.Lib.CText
import SocModel.Lib.Lanes
import SocModel.Lib.Layout
import SocModel.Lib.Literal
import SocModel.Lib.Logged
import SocModel.Lib.Machine
import SocModel.Lib.Outbox
import SocModel.Lib.Recorded
import SocModel.Lib.Registers
import SocModel.Lib.Reorder
import SocModel.Mem.BaseMemory
import SocModel.Sa.AddressMap
import SocModel.Sa.Bounds
import SocModel.Sa.EndToEnd
import SocModel.Sa.Layout
import SocModel.Sa.Loops
import SocModel.Sa.Matrix
import SocModel.Sa.Model
import SocModel.Sa.Pe
import SocModel.Sa.Requests
import SocModel.Sa.Runs
import SocModel.Sa.SizeCfg
import SocModel.Sa.Tile
import SocModel.Soc.CpuMemory
import SocModel.Soc.DmaCopy
import SocModel.Soc.DmaFinish
import SocModel.Soc.DmaMemory
import SocModel.Soc.Mmio
import SocModel.Soc.Programs
import SocModel.Soc.Queues
import SocModel.Soc.Refinement
import SocModel.Soc.Sources
import SocModel.Soc.TwoMemories
import SocModel.Stage5.Cpu
import SocModel.Stage5.Drain
import SocModel.Stage5.MemLatency
import SocModel.Stage5.Refinement
import SocModel.Stage5.Shadow
import SocModel.Timing.Agreement
import SocModel.Timing.Cycles
import SocModel.Timing.Encoding
import SocModel.Timing.Gaps
import SocModel.Timing.Hazards
