import CliMetadata.ElementType
import CliMetadata.Token

/-!
What can go wrong, by cause, and the wording of each cause. A malformation is a violation of a
file or text format; an encoding fault says why a value has no encoding.
-/

namespace CliMetadata

inductive EncodingFault where
  | unsignedTooLarge (value : Nat)
  | signedOutOfRange (value : Int)
  | notTypeToken (token : Token)
  | notPrimitive (tag : ElementType)
  | listTooLong (count : Nat)
deriving DecidableEq, Repr

inductive Malformation where
  | reservedIndexTag (index : Nat)
  | callingConvention (byte : UInt8)
  | unmappedRva (rva : Nat)
  | uninitializedTail (rva : Nat) (sectionName : String)
  | offsetTooLarge (offset : Nat)
  | unmappedOffset (offset : Nat)
  | addressOverflow (offset : Nat) (sectionName : String)
  | runtimeHeaderSize (size : Nat)
  | emptyMetadataDirectory
  | metadataSignature (value : Nat)
  | streamNameTooLong (name : String)
  | streamOutOfRange (name : String) (offset size : Nat)
  | blobHeapStart
  | missingBlobHeap
  | versionParts (text : String)
  | versionNumber (text : String)
  | emptyAssemblyName
  | keyTokenLength (text : String)
  | keyTokenDigits (text : String)
deriving DecidableEq, Repr

inductive Fault where
  | outOfBounds
  | unsupportedFile
  | emptyFile
  | unreadableFile
  | invalidImage
  | truncated (tag : ElementType) (offset : Nat)
  | invalidElementType (value : UInt8) (offset : Nat)
  | invalidCompressedInteger (firstByte : UInt8) (offset : Nat)
  | invalidInstantiation (found : UInt8) (offset : Nat)
  | nestedTooDeep (limit : Nat)
  | malformed (cause : Malformation)
deriving DecidableEq, Repr

namespace EncodingFault

def message : EncodingFault → String
  | .unsignedTooLarge value =>
    s!"Value 0x{Text.hex .upper 1 value} exceeds the compressed integer range"
  | .signedOutOfRange value => s!"Value {value} exceeds the compressed signed integer range"
  | .notTypeToken token => s!"Token {token} is not a TypeDef, TypeRef or TypeSpec token"
  | .notPrimitive tag => s!"{tag.name} is not a core library element type"
  | .listTooLong count => s!"List of {count} entries is too long"

end EncodingFault

namespace Malformation

def message : Malformation → String
  | .reservedIndexTag index => s!"Invalid TypeDefOrRef coded index - 0x{Text.hex .upper 1 index}"
  | .callingConvention byte =>
    s!"Invalid calling convention for a method signature - 0x{Text.hex .upper 2 byte.toNat}"
  | .unmappedRva rva => s!"RVA 0x{Text.hex .upper 1 rva} is not mapped by any section"
  | .uninitializedTail rva sectionName =>
    s!"RVA 0x{Text.hex .upper 1 rva} lies in the uninitialized tail of section {sectionName}"
  | .offsetTooLarge offset => s!"Offset too large to fit in u32: {offset}"
  | .unmappedOffset offset => s!"Offset 0x{Text.hex .upper 1 offset} is not inside any section"
  | .addressOverflow offset sectionName =>
    s!"Offset 0x{Text.hex .upper 1 offset} maps past the address space in section {sectionName}"
  | .runtimeHeaderSize size => s!"Invalid CLR header size: expected 72, got {size}"
  | .emptyMetadataDirectory => "CLR header has an empty metadata directory"
  | .metadataSignature value =>
    s!"CIL_HEADER_MAGIC does not match - 0x{Text.hex .upper 8 value}"
  | .streamNameTooLong name => s!"Stream name too long - {name}"
  | .streamOutOfRange name offset size =>
    s!"Stream {name} exceeds the metadata - 0x{Text.hex .upper 1 offset} + " ++
      s!"0x{Text.hex .upper 1 size}"
  | .blobHeapStart => "Invalid memory for #Blob heap"
  | .missingBlobHeap => "Metadata has no #Blob stream"
  | .versionParts text => s!"Invalid version format: {text}"
  | .versionNumber text => s!"Invalid version component: {text}"
  | .emptyAssemblyName => "Assembly name cannot be empty"
  | .keyTokenLength text => s!"PublicKeyToken must be 16 hex characters - {text}"
  | .keyTokenDigits text => s!"Invalid hex in PublicKeyToken - {text}"

end Malformation

namespace Fault

/-- The wording of a fault; none where the cause lies outside of what this library reads itself.
-/
def message? : Fault → Option String
  | .outOfBounds => some "Out of Bound read would have occurred!"
  | .unsupportedFile => some "This file type is not supported"
  | .emptyFile => some "Provided input was empty"
  | .unreadableFile | .invalidImage => none
  | .truncated tag offset =>
    some s!"Signature truncated inside {tag.name} node starting at offset {offset}"
  | .invalidElementType value offset =>
    some s!"Invalid element type 0x{Text.hex .upper 2 value.toNat} at offset {offset}"
  | .invalidCompressedInteger firstByte offset =>
    some (s!"Invalid compressed integer prefix 0x{Text.hex .upper 2 firstByte.toNat} " ++
      s!"at offset {offset}")
  | .invalidInstantiation found offset =>
    some (s!"Generic instantiation over 0x{Text.hex .upper 2 found.toNat} at offset {offset}, " ++
      "expected CLASS or VALUETYPE")
  | .nestedTooDeep limit => some s!"Reach the maximum recursion level allowed - {limit}"
  | .malformed cause => some cause.message

end Fault

section

variable {ε α β : Type}

theorem bind_ok_iff {first : Except ε α} {next : α → Except ε β} {b : β} :
    (first >>= next) = .ok b ↔ ∃ a, first = .ok a ∧ next a = .ok b := by
  cases first <;> simp [bind, Except.bind]

theorem pure_ok_iff {a b : α} : (pure a : Except ε α) = .ok b ↔ a = b := by
  simp [pure, Except.pure]

end

end CliMetadata
