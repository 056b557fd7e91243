import CliMetadata.Image.Basic

/-!
The way to the blob heap with its unchecked operations laid open. Nearly all operations on the way
give a fault for operands that they cannot take. Left are the differences of two numbers and the
ranges of bytes whose bounds are relied on: for other operands they have no result, and everything
that goes through them crashes. The functions here do what the ones of the same names do, with these
operations in their places.
-/

namespace CliMetadata

/-- Why there is no value: a fault that is given back, or an operation without a result. -/
inductive Stop where
  | fault (cause : Fault)
  | crash
deriving DecidableEq, Repr

abbrev Guarded := Except Stop

abbrev GuardedRead := EStateM Stop Cursor

instance : MonadLift (Except Fault) Guarded where
  monadLift outcome := outcome.mapError .fault

instance : MonadLift Read GuardedRead where
  monadLift read := fun cursor =>
    match read cursor with
    | .ok a stopped => .ok a stopped
    | .error fault stopped => .error (.fault fault) stopped

instance : MonadLift Guarded GuardedRead where
  monadLift outcome := fun cursor =>
    match outcome with
    | .ok a => .ok a cursor
    | .error stop => .error stop cursor

namespace Guarded

/-- A difference, which may not be less than zero. -/
def sub (whole part : Nat) : Guarded Nat :=
  if part ≤ whole then .ok (whole - part) else .error .crash

/-- The bytes in `[start, behind)`, which has to be a range of the bytes. -/
def range (bytes : Bytes) (start behind : Nat) : Guarded Bytes :=
  if start ≤ behind ∧ behind ≤ bytes.length then .ok ((bytes.drop start).take (behind - start))
  else .error .crash

end Guarded

namespace GuardedRead

def run? {α : Type} (read : GuardedRead α) (data : Bytes) : Guarded α :=
  match read { data } with
  | .ok value _ => .ok value
  | .error stop _ => .error stop

def take (count : Nat) : GuardedRead Bytes := do
  let behind ← Read.endAfter count
  let cursor ← get
  let bytes ← Guarded.range cursor.data cursor.pos behind
  set { cursor with pos := behind }
  return bytes

def byte : GuardedRead UInt8 := do
  match ← take 1 with
  | [value] => return value
  | _ => throw (.fault .outOfBounds)

def uint16 : GuardedRead UInt16 := do
  return UInt16.ofNat (Bytes.toNatLE (← take 2))

def uint32 : GuardedRead UInt32 := do
  return UInt32.ofNat (Bytes.toNatLE (← take 4))

def times {α : Type} (read : GuardedRead α) : (count : Nat) → GuardedRead (List α)
  | 0 => pure []
  | count + 1 => do
    let value ← read
    let values ← times read count
    return value :: values

def runtimeHeader : GuardedRead RuntimeHeader := do
  Read.require RuntimeHeader.width
  let size ← uint32
  if size.toNat ≠ RuntimeHeader.width then
    throw (.fault (.malformed (.runtimeHeaderSize size.toNat)))
  let header : RuntimeHeader := {
    size
    majorVersion := ← uint16
    minorVersion := ← uint16
    metadataRva := ← uint32
    metadataSize := ← uint32
    flags := ← uint32
    entryPointToken := ← uint32
    resourceRva := ← uint32
    resourceSize := ← uint32
    strongNameRva := ← uint32
    strongNameSize := ← uint32
    codeManagerRva := ← uint32
    codeManagerSize := ← uint32
    vtableFixupsRva := ← uint32
    vtableFixupsSize := ← uint32
    exportJumpsRva := ← uint32
    exportJumpsSize := ← uint32
    nativeHeaderRva := ← uint32
    nativeHeaderSize := ← uint32 }
  if header.metadataRva = 0 ∨ header.metadataSize = 0 then
    throw (.fault (.malformed .emptyMetadataDirectory))
  return header

def streamName : (room : Nat) → (name : Bytes) → GuardedRead Bytes
  | 0, name => do
    let next ← byte
    if next = 0 then return name
    else throw (.fault (.malformed (.streamNameTooLong (Bytes.toText name))))
  | 1, name => do
    let next ← byte
    if next = 0 then return name else streamName 0 (name ++ [next])
  | room + 2, name => do
    let next ← byte
    if next = 0 then return name
    else if next < 0x80 then streamName (room + 1) (name ++ [next])
    else streamName room (name ++ [next])

def streamHeader : GuardedRead StreamHeader := do
  let offset ← uint32
  let size ← uint32
  let name := Bytes.toText (← streamName StreamHeader.maxName [])
  let padded := (name.utf8ByteSize + 4) / 4 * 4
  let padding ← Guarded.sub padded (name.utf8ByteSize + 1)
  Read.skip padding
  return { offset, size, name }

def streamInside : GuardedRead StreamHeader := do
  let header ← streamHeader
  let length := (← get).data.length
  let behind := header.offset.toNat + header.size.toNat
  if behind < 0x100000000 ∧ behind ≤ length then return header
  else throw (.fault (.malformed
    (.streamOutOfRange header.name header.offset.toNat header.size.toNat)))

def metadataRoot : GuardedRead MetadataRoot := do
  let signature ← uint32
  if signature ≠ MetadataRoot.expectedSignature then
    throw (.fault (.malformed (.metadataSignature signature.toNat)))
  let majorVersion ← uint16
  let minorVersion ← uint16
  let reserved ← uint32
  let length ← uint32
  let version ← take length.toNat
  let flags ← uint16
  let count ← uint16
  let streams ← times streamInside count.toNat
  return {
    signature, majorVersion, minorVersion, reserved, length
    version := Bytes.toText (Bytes.untilZero version)
    flags, streams }

end GuardedRead

namespace Guarded

/-- The section that contains an address is relied on not to begin behind it. -/
def offsetOfRva (image : Image) (rva : Nat) : Guarded Nat :=
  match image.sections.sectionByRva? rva with
  | none => throw (.fault (.malformed (.unmappedRva rva)))
  | some header => do
    let delta ← sub rva header.virtualAddress.toNat
    if delta < header.rawSize.toNat then return header.rawOffset.toNat + delta
    else throw (.fault (.malformed (.uninitializedTail rva header.displayName)))

def runtimeHeader (image : Image) : Guarded RuntimeHeader :=
  match image.runtime with
  | none => throw (.fault .unsupportedFile)
  | some directory => do
    let offset ← offsetOfRva image directory.rva
    let bytes ← image.slice offset RuntimeHeader.width
    GuardedRead.runtimeHeader.run? bytes

def metadata (image : Image) : Guarded Bytes := do
  let header ← runtimeHeader image
  let offset ← offsetOfRva image header.metadataRva.toNat
  image.slice offset header.metadataSize.toNat

def metadataRoot (image : Image) : Guarded MetadataRoot := do
  let metadata ← metadata image
  GuardedRead.metadataRoot.run? metadata

/-- The streams of a metadata root are relied on to lie inside the metadata. -/
def blobHeap (image : Image) : Guarded BlobHeap := do
  let metadata ← metadata image
  let root ← GuardedRead.metadataRoot.run? metadata
  match root.stream? "#Blob" with
  | none => throw (.fault (.malformed .missingBlobHeap))
  | some stream =>
    let start := stream.offset.toNat
    let heap ← range metadata start (start + stream.size.toNat)
    (BlobHeap.ofBytes heap).mapError fun cause => .fault (.malformed cause)

end Guarded

end CliMetadata
