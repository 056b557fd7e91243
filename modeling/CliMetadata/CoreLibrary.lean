import CliMetadata.ElementType
import CliMetadata.NamedType

/-!
Core libraries. A core library is an assembly that has a type for every primitive tag. Its types
are references numbered from one in the order of the tags.
-/

namespace CliMetadata

structure CoreLibrary where
  assembly : AssemblyIdentity
deriving DecidableEq, Repr

namespace CoreLibrary

def primitives : List ElementType := ElementType.all.filter ElementType.isPrimitive

/-- The library's type for a primitive tag. -/
def type? (library : CoreLibrary) (tag : ElementType) : Option NamedType :=
  tag.coreName?.map fun name => .topLevel {
    token := Token.ofParts TypeTable.typeRef.number (primitives.idxOf tag + 1)
    ns := ElementType.coreNamespace
    name
    scope := some (.inAssembly library.assembly)
    isValueType := tag.isValueType }

/-- The library that is taken where none is given. -/
def standard : CoreLibrary where
  assembly := {
    name := "mscorlib"
    version := { major := 4 }
    publicKeyToken := some 0xB77A5C561934E089 }

end CoreLibrary

end CliMetadata
