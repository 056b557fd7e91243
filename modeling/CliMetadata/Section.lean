import CliMetadata.Cursor

/-!
Section headers and the section table. A section maps a range of relative virtual addresses to a
range of the file: its virtual range is as long as the greater of its two sizes, and the
addresses past the raw data are not in the file. All bounds are compared as numbers, so that no
range wraps around.
-/

namespace CliMetadata

/-- The eight bytes of a section name. -/
structure SectionName where
  bytes : Bytes
  length_bytes : bytes.length = 8 := by decide
deriving DecidableEq

namespace SectionName

/-- The first eight bytes, with zero bytes for those that are missing. -/
def ofBytes (bytes : Bytes) : SectionName where
  bytes := (bytes ++ List.replicate 8 0).take 8
  length_bytes := by simp

end SectionName

structure SectionHeader where
  name : SectionName
  virtualSize : UInt32 := 0
  virtualAddress : UInt32 := 0
  rawSize : UInt32 := 0
  rawOffset : UInt32 := 0
  relocationsOffset : UInt32 := 0
  lineNumbersOffset : UInt32 := 0
  relocationCount : UInt16 := 0
  lineNumberCount : UInt16 := 0
  characteristics : UInt32 := 0
deriving DecidableEq

/-- The characteristics of sections that have a name. -/
inductive SectionFlag where
  | code
  | initializedData
  | uninitializedData
  | relocationOverflow
  | discardable
  | notCached
  | notPaged
  | shared
  | execute
  | read
  | write
deriving DecidableEq, Repr

namespace SectionFlag

def all : List SectionFlag :=
  [.code, .initializedData, .uninitializedData, .relocationOverflow, .discardable, .notCached,
    .notPaged, .shared, .execute, .read, .write]

def mask : SectionFlag → UInt32
  | .code => 0x20
  | .initializedData => 0x40
  | .uninitializedData => 0x80
  | .relocationOverflow => 0x01000000
  | .discardable => 0x02000000
  | .notCached => 0x04000000
  | .notPaged => 0x08000000
  | .shared => 0x10000000
  | .execute => 0x20000000
  | .read => 0x40000000
  | .write => 0x80000000

def name : SectionFlag → String
  | .code => "CNT_CODE"
  | .initializedData => "CNT_INITIALIZED_DATA"
  | .uninitializedData => "CNT_UNINITIALIZED_DATA"
  | .relocationOverflow => "LNK_NRELOC_OVFL"
  | .discardable => "MEM_DISCARDABLE"
  | .notCached => "MEM_NOT_CACHED"
  | .notPaged => "MEM_NOT_PAGED"
  | .shared => "MEM_SHARED"
  | .execute => "MEM_EXECUTE"
  | .read => "MEM_READ"
  | .write => "MEM_WRITE"

end SectionFlag

namespace SectionHeader

/-- The length of an encoded header. -/
def width : Nat := 40

def encode (header : SectionHeader) : Bytes :=
  header.name.bytes ++ Bytes.ofNatLE 4 header.virtualSize.toNat ++
    Bytes.ofNatLE 4 header.virtualAddress.toNat ++ Bytes.ofNatLE 4 header.rawSize.toNat ++
    Bytes.ofNatLE 4 header.rawOffset.toNat ++ Bytes.ofNatLE 4 header.relocationsOffset.toNat ++
    Bytes.ofNatLE 4 header.lineNumbersOffset.toNat ++
    Bytes.ofNatLE 2 header.relocationCount.toNat ++
    Bytes.ofNatLE 2 header.lineNumberCount.toNat ++
    Bytes.ofNatLE 4 header.characteristics.toNat

/-- The name up to its first zero byte. -/
def displayName (header : SectionHeader) : String :=
  Bytes.toText (Bytes.untilZero header.name.bytes)

/-- The named characteristics that are set. -/
def flags (header : SectionHeader) : List SectionFlag :=
  SectionFlag.all.filter fun flag => header.characteristics &&& flag.mask != 0

/-- The length of the virtual range. -/
def virtualExtent (header : SectionHeader) : Nat :=
  max header.virtualSize.toNat header.rawSize.toNat

def containsRva (header : SectionHeader) (rva : Nat) : Bool :=
  header.virtualAddress.toNat ≤ rva && rva < header.virtualAddress.toNat + header.virtualExtent

def containsOffset (header : SectionHeader) (offset : Nat) : Bool :=
  header.rawOffset.toNat ≤ offset && offset < header.rawOffset.toNat + header.rawSize.toNat

end SectionHeader

structure SectionTable where
  sections : List SectionHeader := []
deriving DecidableEq

namespace Read

def sectionHeader : Read SectionHeader := do
  require SectionHeader.width
  let name ← take 8
  return {
    name := SectionName.ofBytes name
    virtualSize := ← uint32
    virtualAddress := ← uint32
    rawSize := ← uint32
    rawOffset := ← uint32
    relocationsOffset := ← uint32
    lineNumbersOffset := ← uint32
    relocationCount := ← uint16
    lineNumberCount := ← uint16
    characteristics := ← uint32 }

def sectionTable (count : Nat) : Read SectionTable := do
  return ⟨← times sectionHeader count⟩

end Read

namespace SectionTable

def sectionByRva? (table : SectionTable) (rva : Nat) : Option SectionHeader :=
  table.sections.find? fun header => header.containsRva rva

def sectionByOffset? (table : SectionTable) (offset : Nat) : Option SectionHeader :=
  table.sections.find? fun header => header.containsOffset offset

def sectionByName? (table : SectionTable) (name : String) : Option SectionHeader :=
  table.sections.find? fun header => header.displayName = name

/-- The file offset of an address, by the first section that contains it. -/
def offsetOfRva (table : SectionTable) (rva : Nat) : Except Malformation Nat :=
  match table.sectionByRva? rva with
  | none => .error (.unmappedRva rva)
  | some header =>
    let delta := rva - header.virtualAddress.toNat
    if delta < header.rawSize.toNat then .ok (header.rawOffset.toNat + delta)
    else .error (.uninitializedTail rva header.displayName)

/-- The address of a file offset, by the first section whose raw data contains it. -/
def rvaOfOffset (table : SectionTable) (offset : Nat) : Except Malformation Nat :=
  if offset < 0x100000000 then
    match table.sectionByOffset? offset with
    | none => .error (.unmappedOffset offset)
    | some header =>
      let rva := offset - header.rawOffset.toNat + header.virtualAddress.toNat
      if rva < 0x100000000 then .ok rva else .error (.addressOverflow offset header.displayName)
  else .error (.offsetTooLarge offset)

end SectionTable

end CliMetadata
