import Bundler.Config.Fingerprint
import Bundler.Main
import Bundler.Proofs.Built
import Bundler.Proofs.Overall
import Bundler.Proofs.Spelling
import Bundler.Proofs.Edits
import Bundler.Proofs.Artifacts
import Bundler.Proofs.Resolution
import Bundler.Proofs.Watches
import Bundler.Proofs.Lockstep
import Bundler.Proofs.Rereading
import Bundler.Proofs.Twins
import Bundler.Proofs.TwinSteps
import Bundler.Proofs.TwinProjects
import Bundler.Proofs.TwinLoading
import Bundler.Proofs.TwinPreparing
import Bundler.Proofs.Restoration
import Bundler.Proofs.Remembered
import Bundler.Proofs.Rebuilds
import Bundler.Proofs.Stitching
import Bundler.Proofs.FastBundles
import Bundler.Proofs.Invalidation
import Bundler.Proofs.MergedOrder
import Bundler.Proofs.Arity
import Bundler.Proofs.MangledNames
import Bundler.Proofs.Layouts
import Bundler.Proofs.NewestTimes
import Bundler.Proofs.AtlasImages
import Bundler.Proofs.WrittenPaths
import Bundler.Proofs.ImportClosure
import Bundler.Proofs.CallTexts
import Bundler.Proofs.ModuleSyntax
import Bundler.Proofs.Placement
import Bundler.Proofs.Splices
import Bundler.Proofs.LineNumbers
import Bundler.Proofs.ImportLists
import Bundler.Proofs.DefinedBundles
import Bundler.Proofs.SheetStrings
import Bundler.Proofs.Packing
import Bundler.Proofs.SheetReferences
import Bundler.Proofs.CopyPasses
import Bundler.Proofs.ShortNames
import Bundler.Proofs.ResourceNames
import Bundler.Proofs.SpriteCalls
import Bundler.Proofs.LastingNumbers
import Bundler.Proofs.StyleCalls
import Bundler.Proofs.Decoding
import Bundler.Proofs.SearchOutcomes
import Bundler.Proofs.WordOrder
import Bundler.Proofs.Joining
import Bundler.Proofs.FirstEntries
import Bundler.Proofs.Bookkeeping
import Bundler.Proofs.Positions
import Bundler.Proofs.Tallies
