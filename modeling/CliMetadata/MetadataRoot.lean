import CliMetadata.Cursor

/-!
The metadata root (ECMA-335 II.24.2.1): a version text and the directory of the metadata streams.
The name of a stream ends with a zero byte and is padded to a multiple of four. Both the padding
and the limit on the length of a name count the name as UTF-8 text, in which a byte of 0x80 or
above takes two units.
-/

namespace CliMetadata

structure StreamHeader where
  offset : UInt32
  size : UInt32
  name : String
deriving DecidableEq, Repr

structure MetadataRoot where
  signature : UInt32
  majorVersion : UInt16
  minorVersion : UInt16
  reserved : UInt32
  /-- The length of the version field, in which the text may end early. -/
  length : UInt32
  version : String
  flags : UInt16
  streams : List StreamHeader
deriving DecidableEq, Repr

namespace StreamHeader

/-- How many UTF-8 units a name may have. -/
def maxName : Nat := 31

/-- How many zero bytes follow a name of the given number of units and the zero byte that ends
it. -/
def padding (units : Nat) : Nat := (units + 4) / 4 * 4 - (units + 1)

end StreamHeader

namespace MetadataRoot

/-- The four bytes `BSJB`, as a number. -/
def expectedSignature : UInt32 := 0x424A5342

/-- The first stream with the given name. -/
def stream? (root : MetadataRoot) (name : String) : Option StreamHeader :=
  root.streams.find? fun header => header.name = name

end MetadataRoot

namespace Read

/-- The bytes up to a zero byte, behind the bytes already read, with room for a number of units.
A name whose next unit does not fit may still take two where there is room for one. -/
def streamName : (room : Nat) → (name : Bytes) → Read Bytes
  | 0, name => do
    let next ← byte
    if next = 0 then return name
    else throw (.malformed (.streamNameTooLong (Bytes.toText name)))
  | 1, name => do
    let next ← byte
    if next = 0 then return name else streamName 0 (name ++ [next])
  | room + 2, name => do
    let next ← byte
    if next = 0 then return name
    else if next < 0x80 then streamName (room + 1) (name ++ [next])
    else streamName room (name ++ [next])

def streamHeader : Read StreamHeader := do
  let offset ← uint32
  let size ← uint32
  let name := Bytes.toText (← streamName StreamHeader.maxName [])
  skip (StreamHeader.padding name.utf8ByteSize)
  return { offset, size, name }

/-- A stream header whose stream lies inside the data. -/
def streamInside : Read StreamHeader := do
  let header ← streamHeader
  let length := (← get).data.length
  let behind := header.offset.toNat + header.size.toNat
  if behind < 0x100000000 ∧ behind ≤ length then return header
  else throw (.malformed (.streamOutOfRange header.name header.offset.toNat header.size.toNat))

def metadataRoot : Read MetadataRoot := do
  let signature ← uint32
  if signature ≠ MetadataRoot.expectedSignature then
    throw (.malformed (.metadataSignature signature.toNat))
  let majorVersion ← uint16
  let minorVersion ← uint16
  let reserved ← uint32
  let length ← uint32
  let version ← take length.toNat
  let flags ← uint16
  let count ← uint16
  let streams ← times streamInside count.toNat
  return {
    signature, majorVersion, minorVersion, reserved, length
    version := Bytes.toText (Bytes.untilZero version)
    flags, streams }

end Read

end CliMetadata
