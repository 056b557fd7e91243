import CliMetadata.BlobHeap
import CliMetadata.MetadataRoot
import CliMetadata.RuntimeHeader
import CliMetadata.Section

/-!
Images: files with a section table and, if they hold managed code, a runtime header. The header
leads to the metadata, the metadata root to the streams, and the stream named `#Blob` is the blob
heap.
-/

namespace CliMetadata

/-- A data directory entry: the address and the size of a structure of the image. -/
structure DataDirectory where
  rva : Nat
  size : Nat
deriving DecidableEq, Repr

/-- What the headers in front of the section table say. -/
structure ImageLayout where
  sectionTableOffset : Nat
  sectionCount : Nat
  runtime : Option DataDirectory
deriving DecidableEq, Repr

structure Image where
  data : Bytes
  sections : SectionTable
  /-- Address and size of the runtime header. -/
  runtime : Option DataDirectory

namespace Image

/-- The image of the bytes of a file. How the headers are read is a parameter: nothing behind them
depends on it. -/
def load (layout? : Bytes → Option ImageLayout) (data : Bytes) : Except Fault Image :=
  if data = [] then .error .emptyFile
  else match layout? data with
    | none => .error .invalidImage
    | some layout => do
      let table : Read SectionTable := do
        Read.seek layout.sectionTableOffset
        Read.sectionTable layout.sectionCount
      let sections ← table.run? data
      return { data, sections, runtime := layout.runtime.filter fun directory => directory.rva ≠ 0 }

def slice (image : Image) (offset length : Nat) : Except Fault Bytes :=
  image.data.slice offset length

def offsetOfRva (image : Image) (rva : Nat) : Except Fault Nat :=
  (image.sections.offsetOfRva rva).mapError .malformed

def runtimeHeader (image : Image) : Except Fault RuntimeHeader :=
  match image.runtime with
  | none => .error .unsupportedFile
  | some directory => do
    let offset ← image.offsetOfRva directory.rva
    let bytes ← image.slice offset RuntimeHeader.width
    Read.runtimeHeader.run? bytes

def metadata (image : Image) : Except Fault Bytes := do
  let header ← image.runtimeHeader
  let offset ← image.offsetOfRva header.metadataRva.toNat
  image.slice offset header.metadataSize.toNat

def metadataRoot (image : Image) : Except Fault MetadataRoot := do
  let metadata ← image.metadata
  Read.metadataRoot.run? metadata

def blobHeap (image : Image) : Except Fault BlobHeap := do
  let metadata ← image.metadata
  let root ← Read.metadataRoot.run? metadata
  match root.stream? "#Blob" with
  | none => .error (.malformed .missingBlobHeap)
  | some stream =>
    let heap := (metadata.drop stream.offset.toNat).take stream.size.toNat
    (BlobHeap.ofBytes heap).mapError .malformed

end Image

end CliMetadata
