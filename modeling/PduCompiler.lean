import PduCompiler.Machine.Bits
import PduCompiler.Machine.Decode
import PduCompiler.Machine.Encode
import PduCompiler.Machine.View
import PduCompiler.Main
import PduCompiler.Sample
import PduCompiler.Sample.Schema
import PduCompiler.Text.Name
import PduCompiler.Proofs.Forest
import PduCompiler.Proofs.Placement
import PduCompiler.Proofs.Planning
import PduCompiler.Proofs.Construction
import PduCompiler.Proofs.Mutation
import PduCompiler.Proofs.Decoding
import PduCompiler.Proofs.Depth
import PduCompiler.Proofs.Encoding
import PduCompiler.Proofs.SizeAgreement
import PduCompiler.Proofs.Bounds
import PduCompiler.Proofs.Consuming
import PduCompiler.Proofs.ZeroBytes
import PduCompiler.Proofs.Redeclaration
import PduCompiler.Proofs.Ownership
import PduCompiler.Proofs.Reading
import PduCompiler.Proofs.Decoded
import PduCompiler.Proofs.Rewriting
import PduCompiler.Proofs.Defaults
import PduCompiler.Proofs.Acceptance
import PduCompiler.Proofs.RoundTrip
import PduCompiler.Proofs.DecodedCounts
import PduCompiler.Proofs.WireCounts
import PduCompiler.Proofs.Embedding
import PduCompiler.Proofs.Sealable
import PduCompiler.Proofs.Linking
import PduCompiler.Proofs.Calls
import PduCompiler.Proofs.Registration
import PduCompiler.Proofs.Framing
import PduCompiler.Proofs.Nesting
import PduCompiler.Proofs.Making
import PduCompiler.Proofs.Failing
import PduCompiler.Proofs.Termination
import PduCompiler.Proofs.Closedness
import PduCompiler.Proofs.ExactSizes
import PduCompiler.Proofs.WireLayout
import PduCompiler.Proofs.SampleProgram
import PduCompiler.Proofs.SampleDecoding
import PduCompiler.Proofs.SampleEncoding
import PduCompiler.Proofs.SampleReach
import PduCompiler.Proofs.SampleRefinement
import PduCompiler.Proofs.StaticSizes
import PduCompiler.Proofs.Widths
import PduCompiler.Proofs.StoredWords
import PduCompiler.Proofs.FileNames
import PduCompiler.Proofs.Imports
import PduCompiler.Proofs.Schedules
import PduCompiler.Proofs.Plannable
import PduCompiler.Proofs.InitialValues
import PduCompiler.Proofs.BitFields
import PduCompiler.Proofs.EmittedBits
import PduCompiler.Proofs.TargetLiterals
import PduCompiler.Proofs.Disclosure
import PduCompiler.Proofs.Trees
import PduCompiler.Proofs.Interruption
import PduCompiler.Proofs.Equality
import PduCompiler.Proofs.CycleReports
import PduCompiler.Proofs.Documents
import PduCompiler.Proofs.DocumentTypes
import PduCompiler.Proofs.Cleaning
import PduCompiler.Proofs.Comments
import PduCompiler.Proofs.PackageImports
import PduCompiler.Proofs.PackageUse
import PduCompiler.Proofs.SignedFields
import PduCompiler.Proofs.BitRuns
import PduCompiler.Proofs.Ascent
import PduCompiler.Proofs.OutputDirectories
