import Syllog.InterpTraps
import Syllog.InterpOverwrite
import Syllog.CodegenTraps
import Syllog.CodegenValid
import Syllog.LowerMeaning
import Syllog.AsyncAdequacy
import Syllog.RegistryArchives
import Syllog.DatabaseFresh
import Syllog.ResolverIndexes
import Syllog.ResolverComplete
import Syllog.ResolverYank
import Syllog.AsyncFrame
import Syllog.EffectsSound
import Syllog.PipelineFanOut
import Syllog.PipelineTrial
import Syllog.PipelineCancel
import Syllog.PipelineHandover
import Syllog.SingleFile
import Syllog.ImportedTypes
import Syllog.InterpBounds
import Syllog.VerifyExact
import Syllog.EffectsExact
import Syllog.Manifest
import Syllog.DevServer
import Syllog.Vendor
import Syllog.Affine
import Syllog.AffineSound
import Syllog.Package
import Syllog.PackagePlan
import Syllog.PackageLink
import Syllog.PackageIds
import Syllog.MirTypes
import Syllog.DropsVerify
import Syllog.DropsMeaning
import Syllog.TypeResolvers
import Syllog.AsyncLocals
import Syllog.PatternMatrix
import Syllog.Exhaustive
import Syllog.Visits
import Syllog.TypeErrors
import Syllog.HirTypes
import Syllog.Positions
import Syllog.OperandOrder
import Syllog.ReturnEscape
import Syllog.LowerCongr
import Syllog.PackageAdded
import Syllog.PackageFiles
import Syllog.MirAdded
import Syllog.TargetPaths
import Syllog.Remap
import Syllog.ArchivePaths
import Syllog.Colours
import Syllog.Cycles
import Syllog.Lines
import Syllog.Frames
import Syllog.Sse
import Syllog.SseStream
import Syllog.LocalFrames
import Syllog.Download
import Syllog.Readback
import Syllog.Interface
import Syllog.InterfaceRead
import Syllog.Versions
import Syllog.Detector
import Syllog.Peg
import Syllog.PegTrees
import Syllog.Parse
import Syllog.Formed
import Syllog.ParseSound
import Syllog.ParseExprs
import Syllog.ParseItems
import Syllog.Places
import Syllog.CheckSyl
