import MpuPasses.Lib.Loop
import MpuPasses.Lib.Packing
import MpuPasses.Lib.Chars
import MpuPasses.Lib.Machine
import MpuPasses.Lib.Cut
import MpuPasses.Mpu
import MpuPasses.RegionMap
import MpuPasses.Layout
import MpuPasses.LinkScript
import MpuPasses.LinkAddr
import MpuPasses.ToSize
import MpuPasses.Encoding
import MpuPasses.FunctionSize
import MpuPasses.BlockSizes
import MpuPasses.Thumb
import MpuPasses.BlockBytes
import MpuPasses.ExpectBB
import MpuPasses.AddrInfo
import MpuPasses.SplitBlock
import MpuPasses.SplitBB
import MpuPasses.NullCallees
import MpuPasses.SizeScript
import MpuPasses.Lib.Cursor
import MpuPasses.ConnectFunction
import MpuPasses.InsertFunction
import MpuPasses.SetOperand
import MpuPasses.Pipeline
import MpuPasses.RegionRuns
import MpuPasses.FindFunction
import MpuPasses.Lookups
import MpuPasses.RecordFiles
import MpuPasses.AddressTiling
import MpuPasses.Lib.Names
import MpuPasses.BBLabel
import MpuPasses.MiddleBB
import MpuPasses.InsertNop
import MpuPasses.NopStores
import MpuPasses.Lib.Search
import MpuPasses.DotFile
import MpuPasses.CfgExtract
import MpuPasses.Lib.Observe
import MpuPasses.Erasure
import MpuPasses.Behaviour
import MpuPasses.Access
import MpuPasses.Isolation
import MpuPasses.Toolchain
import MpuPasses.ExecutedBB
import MpuPasses.Lib.Blocks
import MpuPasses.Startup
import MpuPasses.Heap
import MpuPasses.BlockPadding
import MpuPasses.BBCheck
import MpuPasses.LinkedProgram
import MpuPasses.Cost
import MpuPasses.SplitBehaviour
