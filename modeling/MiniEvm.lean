import MiniEvm.Abi.Abi
import MiniEvm.Abi.Arguments
import MiniEvm.Abi.Canonical
import MiniEvm.Abi.Checked
import MiniEvm.Abi.Fuzz
import MiniEvm.Abi.FuzzLayout
import MiniEvm.Abi.InPlace
import MiniEvm.Abi.Method
import MiniEvm.Abi.NewType
import MiniEvm.Abi.Pack
import MiniEvm.Abi.Static
import MiniEvm.Abi.Type
import MiniEvm.Abi.Unpack
import MiniEvm.Common.Big
import MiniEvm.Common.Word
import MiniEvm.Detectors.CReplayer
import MiniEvm.Detectors.ContractUtils
import MiniEvm.Detectors.Deployment
import MiniEvm.Detectors.FuzzInt
import MiniEvm.Detectors.Handles
import MiniEvm.Detectors.Inputs
import MiniEvm.Detectors.OverFlowDetector
import MiniEvm.Detectors.StorageLoc
import MiniEvm.Framework.Added
import MiniEvm.Framework.BufferedWriter
import MiniEvm.Framework.Cells
import MiniEvm.Framework.Deferred
import MiniEvm.Framework.Layout
import MiniEvm.Framework.Loop
import MiniEvm.Framework.Outcome
import MiniEvm.Framework.Pool
import MiniEvm.Framework.Product
import MiniEvm.Framework.Registry
import MiniEvm.Framework.Replay
import MiniEvm.Framework.Result
import MiniEvm.Framework.Scan
import MiniEvm.Framework.Simulation
import MiniEvm.Framework.Slice
import MiniEvm.Math.Bytes
import MiniEvm.Math.Image
import MiniEvm.Math.Squaring
import MiniEvm.Params.Config
import MiniEvm.Rlp.Encode
import MiniEvm.Rlp.Raw
import MiniEvm.Safety.Arithmetic
import MiniEvm.Safety.Atomicity
import MiniEvm.Safety.BackupRestore
import MiniEvm.Safety.BoundaryValues
import MiniEvm.Safety.CallGas
import MiniEvm.Safety.Conservation
import MiniEvm.Safety.Creation
import MiniEvm.Safety.Delegation
import MiniEvm.Safety.Depth
import MiniEvm.Safety.Dispatch
import MiniEvm.Safety.EventScan
import MiniEvm.Safety.Exponent
import MiniEvm.Safety.FuzzedCalldata
import MiniEvm.Safety.GeneratedInputs
import MiniEvm.Safety.HostileData
import MiniEvm.Safety.IntegerPool
import MiniEvm.Safety.JumpdestBitmap
import MiniEvm.Safety.Jumps
import MiniEvm.Safety.LogFile
import MiniEvm.Safety.MainContract
import MiniEvm.Safety.Markers
import MiniEvm.Safety.MemoryGas
import MiniEvm.Safety.MemoryRefinement
import MiniEvm.Safety.ModExp
import MiniEvm.Safety.Overdraft
import MiniEvm.Safety.Overloads
import MiniEvm.Safety.PushData
import MiniEvm.Safety.Queries
import MiniEvm.Safety.ReadOnly
import MiniEvm.Safety.ReplayFidelity
import MiniEvm.Safety.Reports
import MiniEvm.Safety.ReturnData
import MiniEvm.Safety.RlpCanonical
import MiniEvm.Safety.RlpEncoding
import MiniEvm.Safety.RoundTrip
import MiniEvm.Safety.Signatures
import MiniEvm.Safety.StackDiscipline
import MiniEvm.Safety.StorageLocs
import MiniEvm.Safety.Termination
import MiniEvm.Safety.Transparency
import MiniEvm.Safety.TypeStrings
import MiniEvm.Safety.Verdict
import MiniEvm.Safety.WordRange
import MiniEvm.State.Observation
import MiniEvm.State.Replay
import MiniEvm.State.StateDB
import MiniEvm.Vm.Alike
import MiniEvm.Vm.Analysis
import MiniEvm.Vm.Bitmap
import MiniEvm.Vm.Blind
import MiniEvm.Vm.Contracts
import MiniEvm.Vm.Effects
import MiniEvm.Vm.Entry
import MiniEvm.Vm.Evm
import MiniEvm.Vm.Evolution
import MiniEvm.Vm.Fuel
import MiniEvm.Vm.Gas
import MiniEvm.Vm.GasTable
import MiniEvm.Vm.History
import MiniEvm.Vm.Instructions
import MiniEvm.Vm.IntMoves
import MiniEvm.Vm.IntPool
import MiniEvm.Vm.Interpreter
import MiniEvm.Vm.Iterates
import MiniEvm.Vm.JumpTable
import MiniEvm.Vm.KeptLogs
import MiniEvm.Vm.Machine
import MiniEvm.Vm.MemoryEffects
import MiniEvm.Vm.MemoryImage
import MiniEvm.Vm.MemoryRegion
import MiniEvm.Vm.OpCode
import MiniEvm.Vm.Plain
import MiniEvm.Vm.Price
import MiniEvm.Vm.StackShape
import MiniEvm.Vm.Step
import MiniEvm.Vm.Visits
import MiniEvm.Vm.WordRule
import MiniEvm.Vm.Words
