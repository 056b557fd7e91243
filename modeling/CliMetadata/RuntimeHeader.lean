import CliMetadata.Cursor

/-!
The runtime header of an image (ECMA-335 II.25.3.3), which says where the metadata is.
-/

namespace CliMetadata

structure RuntimeHeader where
  size : UInt32
  majorVersion : UInt16
  minorVersion : UInt16
  metadataRva : UInt32
  metadataSize : UInt32
  flags : UInt32
  entryPointToken : UInt32
  resourceRva : UInt32
  resourceSize : UInt32
  strongNameRva : UInt32
  strongNameSize : UInt32
  codeManagerRva : UInt32
  codeManagerSize : UInt32
  vtableFixupsRva : UInt32
  vtableFixupsSize : UInt32
  exportJumpsRva : UInt32
  exportJumpsSize : UInt32
  nativeHeaderRva : UInt32
  nativeHeaderSize : UInt32
deriving DecidableEq, Repr

namespace RuntimeHeader

/-- The length of a header, which a header states in its first field. -/
def width : Nat := 72

end RuntimeHeader

namespace Read

def runtimeHeader : Read RuntimeHeader := do
  require RuntimeHeader.width
  let size ← uint32
  if size.toNat ≠ RuntimeHeader.width then
    throw (.malformed (.runtimeHeaderSize size.toNat))
  let header : RuntimeHeader := {
    size
    majorVersion := ← uint16
    minorVersion := ← uint16
    metadataRva := ← uint32
    metadataSize := ← uint32
    flags := ← uint32
    entryPointToken := ← uint32
    resourceRva := ← uint32
    resourceSize := ← uint32
    strongNameRva := ← uint32
    strongNameSize := ← uint32
    codeManagerRva := ← uint32
    codeManagerSize := ← uint32
    vtableFixupsRva := ← uint32
    vtableFixupsSize := ← uint32
    exportJumpsRva := ← uint32
    exportJumpsSize := ← uint32
    nativeHeaderRva := ← uint32
    nativeHeaderSize := ← uint32 }
  if header.metadataRva = 0 ∨ header.metadataSize = 0 then
    throw (.malformed .emptyMetadataDirectory)
  return header

end Read

end CliMetadata
