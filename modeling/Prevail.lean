import Prevail.Lib.OrdMap
import Prevail.Arith.Number
import Prevail.Arith.Interval
import Prevail.Arith.Division
import Prevail.Arith.Truncation
import Prevail.Arith.Bitwise
import Prevail.Arith.Shift
import Prevail.Arith.Remainder
import Prevail.Arith.RemainderExact
import Prevail.Arith.Linear
import Prevail.Lib.DiffSys
import Prevail.Lib.DiffPath
import Prevail.Crab.AdaptGraph
import Prevail.Crab.Heap
import Prevail.Crab.GraphOps
import Prevail.Crab.GraphClosure
import Prevail.Crab.SplitDbm
import Prevail.Crab.SplitDbmSound
import Prevail.Crab.OffsetMap
import Prevail.Crab.FiniteDomain
import Prevail.Crab.AssumeSound
import Prevail.Crab.Assume64
import Prevail.Crab.Overflow
import Prevail.Crab.Apply
import Prevail.Lib.Tarjan
import Prevail.Crab.Reachable
import Prevail.Crab.SplitDbmMeet
import Prevail.Crab.SplitNormal
import Prevail.Crab.Feasibility
import Prevail.Lib.Stamps
import Prevail.Lib.SlotTable
import Prevail.Crab.SlotGraph
import Prevail.Crab.SlotWeights
import Prevail.Crab.Scratch
import Prevail.Crab.Inclusion
import Prevail.Crab.JoinExact
import Prevail.Crab.WidenKept
import Prevail.Crab.BoundClosure
import Prevail.Crab.WidenStable
import Prevail.Crab.NormalHavoc
import Prevail.Crab.LoopFree
import Prevail.Crab.AddSteps
import Prevail.Crab.RevMap
import Prevail.Crab.Irreflexive
import Prevail.Crab.AddBottom
import Prevail.Crab.Keeps
import Prevail.Crab.Assigned
import Prevail.Crab.AssignExact
import Prevail.Lib.Ensures
import Prevail.Crab.TypeToNum
import Prevail.Crab.TypeToNumSound
import Prevail.Crab.RegisterTypes
import Prevail.Crab.EbpfDomain
import Prevail.Crab.StackCells
import Prevail.Crab.TypedRegisters
import Prevail.Crab.Untouched
import Prevail.Crab.JoinOverTypes
import Prevail.Crab.TypeSplit
import Prevail.Crab.Feasible
import Prevail.Crab.TransformAssume
import Prevail.Crab.NumericBytes
import Prevail.Lib.Delimited
import Prevail.Lib.BitString
import Prevail.Crab.OffsetKey
import Prevail.Crab.PrintedState
import Prevail.Crab.SafeAccess
import Prevail.Crab.Progress
import Prevail.Crab.SafeKeyValue
import Prevail.Crab.ToSet
import Prevail.Crab.VarRegistry
import Prevail.Crab.Unlinked
import Prevail.Crab.WrappedArith
import Prevail.Crab.ZoneOrder
import Prevail.Crab.Shift
import Prevail.Crab.TransformShift
import Prevail.Crab.Checker
import Prevail.Crab.TransformCall
import Prevail.Crab.IndirectCall
import Prevail.Crab.Forgetting
import Prevail.Crab.ContextLoad
import Prevail.Crab.MapLookup
import Prevail.Crab.LookupSound
import Prevail.Crab.LookupExact
import Prevail.Crab.MapQueries
import Prevail.Crab.CallContract
import Prevail.Crab.PacketMoved
import Prevail.Crab.TransformLocal
import Prevail.Crab.KnownTypes
import Prevail.Crab.LocalCalls
import Prevail.Crab.TransformAlu
import Prevail.Crab.WordOps
import Prevail.Crab.AluNumbers
import Prevail.Crab.Routines
import Prevail.Crab.BinNumbers
import Prevail.Crab.BinSound
import Prevail.Crab.NumberPaths
import Prevail.Crab.AluCovered
import Prevail.Crab.TransformMem
import Prevail.Crab.Built
import Prevail.Crab.BuiltTransform
import Prevail.Crab.BuiltMemory
import Prevail.Crab.Computed
import Prevail.Crab.EbpfMeet
import Prevail.Crab.EbpfOrder
import Prevail.Ir.Inlined
import Prevail.Ir.Calls
import Prevail.Ir.ProgramInfo
import Prevail.Ir.Assertions
import Prevail.Cfg.Wto
import Prevail.Cfg.WtoInvariant
import Prevail.Cfg.WtoBatch
import Prevail.Cfg.WtoVisit
import Prevail.Cfg.WtoBuild
import Prevail.Cfg.WtoValid
import Prevail.Cfg.WtoHeads
import Prevail.Cfg.BasicBlocks
import Prevail.Ir.Program
import Prevail.Ir.ProgramShape
import Prevail.Analysis.FwdAnalyzer
import Prevail.Lib.Flow
import Prevail.Analysis.FwdFrame
import Prevail.Analysis.FwdSound
import Prevail.Analysis.FwdRun
import Prevail.Lib.Marks
import Prevail.Analysis.Termination
import Prevail.Analysis.CycleEntries
import Prevail.Analysis.Verdict
import Prevail.Analysis.Invariant
import Prevail.Isa.Syntax
import Prevail.Isa.Unmarshal
import Prevail.Isa.DecodeErrors
import Prevail.Isa.LineInfo
import Prevail.Lib.Numbering
import Prevail.Elf.File
import Prevail.Elf.Maps
import Prevail.Elf.Reloc
import Prevail.Elf.Core
import Prevail.Elf.FieldAccess
import Prevail.Elf.CoreField
import Prevail.Elf.Link
import Prevail.Elf.Loaded
import Prevail.Elf.Linked
import Prevail.Elf.Subprograms
import Prevail.Elf.LinkFuel
import Prevail.Elf.MapNumbers
import Prevail.Elf.MapGlobals
import Prevail.Elf.MapIdentity
import Prevail.Elf.GlobalVariables
import Prevail.Isa.Marshal
import Prevail.Isa.Encodable
import Prevail.Isa.RoundTrip
import Prevail.Isa.Decoded
import Prevail.Isa.Reencode
import Prevail.Isa.FramePointer
import Prevail.Isa.Template
import Prevail.Isa.Accept
import Prevail.Isa.AcceptMem
import Prevail.Isa.AcceptJmp
import Prevail.Isa.Conformance
import Prevail.Lib.Stutter
import Prevail.Isa.Machine
import Prevail.Isa.Effect
import Prevail.Isa.DecodedEffect
import Prevail.Isa.Turn
import Prevail.Isa.Layout
import Prevail.Isa.SameRuns
