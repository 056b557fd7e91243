import CliMetadata.Buffer
import CliMetadata.Assembly.Parsing
import CliMetadata.Signature.Handles
import CliMetadata.Signature.Equality
import CliMetadata.Signature.Decoder
import CliMetadata.Description
import CliMetadata.Image
import CliMetadata.Proofs.RoundTrip
import CliMetadata.Proofs.Extension
import CliMetadata.Proofs.Grammar
import CliMetadata.Proofs.Resolution
import CliMetadata.Proofs.Relocation
import CliMetadata.Proofs.Streams
import CliMetadata.Proofs.QualifiedNames
import CliMetadata.Proofs.Locating
import CliMetadata.Proofs.Directory
import CliMetadata.Proofs.AddressMapping
import CliMetadata.Proofs.CodedIndexes
import CliMetadata.Proofs.HeapEntries
import CliMetadata.Proofs.Places
import CliMetadata.Proofs.Truncation
import CliMetadata.Proofs.Encodability
import CliMetadata.Proofs.Words
import CliMetadata.Proofs.NameLimits
import CliMetadata.Proofs.NameLengths
import CliMetadata.Proofs.Erasure
import CliMetadata.Proofs.Inlining
import CliMetadata.Proofs.Ownership
import CliMetadata.Proofs.Congruence
import CliMetadata.Proofs.References
import CliMetadata.Proofs.NestedNames
import CliMetadata.Proofs.MalformedNames
import CliMetadata.Proofs.SectionTables
import CliMetadata.Proofs.Operations
import CliMetadata.Proofs.Wrappings
import CliMetadata.Proofs.RowMaps
import CliMetadata.Proofs.ArrayShapes
import CliMetadata.Proofs.Sizes
import CliMetadata.Proofs.Buffers
