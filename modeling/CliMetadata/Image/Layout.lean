import CliMetadata.Image.Basic

/-!
The headers in front of the section table of an image. They say where the table is, and in the
fifteenth data directory where the runtime header is. A layout is accepted only if everything
that its headers promise is in the file, the runtime header and the start of the metadata
included. Files are opened with this reader; for everything else it is a parameter.
-/

namespace CliMetadata

namespace Bytes

def uint16? (bytes : Bytes) (offset : Nat) : Option Nat := (bytes.slice? offset 2).map toNatLE

def uint32? (bytes : Bytes) (offset : Nat) : Option Nat := (bytes.slice? offset 4).map toNatLE

end Bytes

/-- What the mapping of addresses needs to know of a section. -/
structure SectionExtent where
  virtualSize : Nat
  virtualAddress : Nat
  rawSize : Nat
  rawOffset : Nat
deriving DecidableEq, Repr

namespace SectionExtent

def roundUp (n unit : Nat) : Nat := (n + unit - 1) / unit * unit

/-- How many bytes of the section a loader takes from the file: no more than the aligned raw data
has, and no more pages than either size fills. -/
def readSize (extent : SectionExtent) (fileAlignment : Nat) : Nat :=
  if extent.rawSize = 0 then 0
  else
    let aligned := roundUp (extent.rawOffset + extent.rawSize) fileAlignment -
      extent.rawOffset / 0x200 * 0x200
    let raw := min aligned (roundUp extent.rawSize 0x1000)
    if extent.virtualSize = 0 then raw else min raw (roundUp extent.virtualSize 0x1000)

def contains (extent : SectionExtent) (fileAlignment rva : Nat) : Bool :=
  extent.virtualAddress ≤ rva && rva < extent.virtualAddress + extent.readSize fileAlignment

def ofBytes? (bytes : Bytes) (start : Nat) : Option SectionExtent := do
  return {
    virtualSize := ← bytes.uint32? (start + 8)
    virtualAddress := ← bytes.uint32? (start + 12)
    rawSize := ← bytes.uint32? (start + 16)
    rawOffset := ← bytes.uint32? (start + 20) }

/-- The file offset of an address. The file alignment has to be a power of two. -/
def offsetOfRva? (extents : List SectionExtent) (fileAlignment rva : Nat) : Option Nat :=
  if fileAlignment = 1 <<< fileAlignment.log2 then
    (extents.find? fun extent => extent.contains fileAlignment rva).map fun extent =>
      extent.rawOffset + (rva - extent.virtualAddress)
  else none

end SectionExtent

structure OptionalHeader where
  fileAlignment : Nat
  /-- The directory of the runtime header, if it has one with an entry that is not zero. -/
  runtime : Option DataDirectory
deriving DecidableEq, Repr

namespace OptionalHeader

/-- The length of the fixed part of an optional header, by its magic number. -/
def fixedWidth? : (magic : Nat) → Option Nat
  | 0x10B => some 96
  | 0x20B => some 112
  | _ => none

def ofBytes? (bytes : Bytes) (start : Nat) : Option OptionalHeader := do
  let fixed ← fixedWidth? (← bytes.uint16? start)
  let count ← bytes.uint32? (start + fixed - 4)
  guard (count ≤ 16)
  let directories ← bytes.slice? (start + fixed) (8 * count)
  let fileAlignment ← bytes.uint32? (start + 36)
  let runtime : Option DataDirectory := do
    let rva ← directories.uint32? (8 * 14)
    let size ← directories.uint32? (8 * 14 + 4)
    guard (rva ≠ 0 ∨ size ≠ 0)
    return { rva, size }
  return { fileAlignment, runtime }

end OptionalHeader

namespace ImageLayout

/-- Whether the metadata that starts at an offset is complete up to the stream directory, and its
version is text. -/
def hasMetadataStart (bytes : Bytes) (start size : Nat) : Bool :=
  start + 4 ≤ bytes.length && start + size ≤ bytes.length &&
    match bytes.uint32? (start + 12) with
    | none => false
    | some length =>
      match bytes.slice? (start + 16) length with
      | none => false
      | some version => version.toByteArray.validateUTF8 &&
        start + 16 + length + 4 ≤ bytes.length

/-- Whether the runtime header of a directory is there, and the metadata that it points to. -/
def hasRuntimeHeader (bytes : Bytes) (extents : List SectionExtent) (fileAlignment : Nat)
    (directory : DataDirectory) : Bool :=
  let offsetOf := SectionExtent.offsetOfRva? extents fileAlignment
  match offsetOf directory.rva >>= fun header => bytes.slice? header 72 with
  | none => false
  | some header =>
    match header.uint32? 8 >>= offsetOf, header.uint32? 12 with
    | some start, some size => hasMetadataStart bytes start size
    | _, _ => false

/-- The layout that the headers of a file describe. -/
def ofBytes? (bytes : Bytes) : Option ImageLayout := do
  guard (bytes.take 2 = [0x4D, 0x5A])
  let start ← bytes.uint32? 0x3C
  guard (0x40 ≤ start)
  let signature ← bytes.slice? start 4
  guard (signature = [0x50, 0x45, 0x00, 0x00])
  let _ ← bytes.slice? (start + 4) 20
  let sectionCount ← bytes.uint16? (start + 6)
  let optionalWidth ← bytes.uint16? (start + 20)
  let optional ←
    if optionalWidth = 0 then pure none
    else (OptionalHeader.ofBytes? bytes (start + 24)).map some
  let sectionTableOffset := start + 24 + optionalWidth
  guard (sectionCount ≤ bytes.length / 40)
  let extents ← (List.range sectionCount).mapM fun i => do
    let _ ← bytes.slice? (sectionTableOffset + 40 * i) 40
    SectionExtent.ofBytes? bytes (sectionTableOffset + 40 * i)
  let runtime := optional.bind OptionalHeader.runtime
  match optional, runtime with
  | some header, some directory =>
    guard (hasRuntimeHeader bytes extents header.fileAlignment directory)
  | _, _ => pure ()
  return { sectionTableOffset, sectionCount, runtime }

end ImageLayout

end CliMetadata
