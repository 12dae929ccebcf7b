import SpirvToDxil.Nir.CombineStoresSoundness
import SpirvToDxil.Dxil.LinkVaryingsSoundness
import SpirvToDxil.Dxil.PhiTypesSoundness
import SpirvToDxil.Dxil.SemanticIndexTable
import SpirvToDxil.Dxil.Module.EmitBits64
import SpirvToDxil.Dxil.Module.AggregateConst
import SpirvToDxil.Dxil.Module.AggregateConstSoundness
import SpirvToDxil.Dxil.Module.AggregateConstEmission
import SpirvToDxil.Util.BackwardTable
import SpirvToDxil.Nir.SplitTypedSamplers
import SpirvToDxil.Util.KeyedIntern
import SpirvToDxil.Dxil.SplitClipCull
import SpirvToDxil.Util.BlobRoundTrip
import SpirvToDxil.Util.BlobCalls
import SpirvToDxil.Dxil.SemanticNames
import SpirvToDxil.Dxil.DependencyTiling
import SpirvToDxil.Util.Tiling
import SpirvToDxil.Dxil.Module.IntConst
import SpirvToDxil.Dxil.PsOutputs
import SpirvToDxil.Dxil.BufferCalls
import SpirvToDxil.Nir.LowerIntSamplers
import SpirvToDxil.Nir.LowerInt64Soundness
import SpirvToDxil.Nir.LowerInt64Words
import SpirvToDxil.Nir.LowerInt64
import SpirvToDxil.Nir.LowerBitSizeReductions
import SpirvToDxil.Nir.LowerBitSizeSoundness
import SpirvToDxil.Util.TwosComplement
import SpirvToDxil.Nir.LowerBitSize
import SpirvToDxil.Nir.IntegerOps
import SpirvToDxil.Nir.LowerVarBitSize
import SpirvToDxil.Nir.LowerVarBitSizeSoundness
import SpirvToDxil.Nir.FlattenVarArrays
import SpirvToDxil.Util.Cells
import SpirvToDxil.Nir.SplitUnaligned
import SpirvToDxil.Nir.CoherentAccess
import SpirvToDxil.Nir.UnsupportedCasts
import SpirvToDxil.Nir.SubgroupScan
import SpirvToDxil.Nir.QuantizeToHalf
import SpirvToDxil.Nir.ImageFormat
import SpirvToDxil.Nir.LowerMemLoadSoundness
import SpirvToDxil.Nir.LowerMemStoreSoundness
import SpirvToDxil.Nir.LoopAnalyzeSoundness
import SpirvToDxil.Nir.LowerUboVec4
import SpirvToDxil.Spirv.PhiSoundness
import SpirvToDxil.Spirv.ReadSafety
import SpirvToDxil.Dxil.Container
import SpirvToDxil.Dxil.Module.Lockstep
import SpirvToDxil.Dxil.Module.Safety
import SpirvToDxil.Dxil.ResourceHandles
import SpirvToDxil.Dxil.ResourceRanges
import SpirvToDxil.Dxil.DependencyLayout
import SpirvToDxil.Dxil.IoDependencyTables
import SpirvToDxil.Dxil.IoDependencySoundness
import SpirvToDxil.Dxil.ControlFlowSoundness
import SpirvToDxil.Dxil.SignaturePacking
import SpirvToDxil.Dxil.SignatureLayout
import SpirvToDxil.Dxil.SignatureUsageSoundness
import SpirvToDxil.Dxil.AluSoundness
import SpirvToDxil.SpirvNir.LowerBindless
import SpirvToDxil.SpirvNir.MergeBuffers
import SpirvToDxil.Nir.LowerMemAccess
import SpirvToDxil.Nir.LowerMemAccessAnswers
import SpirvToDxil.Nir.CombineStoresState
import SpirvToDxil.Nir.Int64Ops
import SpirvToDxil.Util.LongDivision
import SpirvToDxil.Nir.LowerInt64Products
import SpirvToDxil.Nir.LowerInt64Division
import SpirvToDxil.Nir.LowerReturns
import SpirvToDxil.Nir.LowerReturnsSoundness
import SpirvToDxil.Util.RegisterScope
import SpirvToDxil.Nir.LowerContinueConstructs
import SpirvToDxil.Nir.LowerContinueConstructsSoundness
import SpirvToDxil.Nir.FunctionImpl
import SpirvToDxil.Util.Probing
import SpirvToDxil.Util.FastUrem
import SpirvToDxil.Util.HashTable
import SpirvToDxil.Util.HashTableSoundness
import SpirvToDxil.Nir.LowerSubgroupId
import SpirvToDxil.Nir.LowerSubgroupIdSoundness
import SpirvToDxil.Util.Dominance
import SpirvToDxil.Util.DominatorTree
import SpirvToDxil.Nir.Dominance
import SpirvToDxil.Nir.DominanceIteration
import SpirvToDxil.Nir.DominanceSoundness
import SpirvToDxil.Nir.BlockOrder
import SpirvToDxil.Nir.PhiBuilder
import SpirvToDxil.Nir.PhiBuilderKeys
