import CliMetadata.Signature.Naming

/-!
What can be asked of anything that describes a type: a named type, a signature, or a row that is
one of the two.
-/

namespace CliMetadata

structure TypeDescription where
  token : Token
  name : String
  ns : String
  reflectionName : String
  reflectionNamespace : String
  fullName : String
  reflectionFullName : String
  assemblyQualifiedName : String
  isValueType : Bool
  assembly : Option AssemblyIdentity
  scope : Option Scope
deriving DecidableEq, Repr

def NamedType.description (type : NamedType) : TypeDescription where
  token := type.token
  name := type.name
  ns := type.ns
  reflectionName := type.reflectionName
  reflectionNamespace := type.reflectionNamespace
  fullName := type.fullName
  reflectionFullName := type.reflectionFullName
  assemblyQualifiedName := type.assemblyQualifiedName
  isValueType := type.isValueType
  assembly := type.assembly?
  scope := type.scope

def TypeSignature.description (signature : TypeSignature) : TypeDescription where
  token := signature.token
  name := signature.name
  ns := signature.ns
  reflectionName := signature.reflectionName
  reflectionNamespace := signature.reflectionNamespace
  fullName := signature.fullName
  reflectionFullName := signature.reflectionFullName
  assemblyQualifiedName := signature.assemblyQualifiedName
  isValueType := signature.isValueType
  assembly := signature.assembly?
  scope := signature.scope

def TypeRow.description : TypeRow → TypeDescription
  | .definition type | .reference type => type.description
  | .specification signature => signature.description

end CliMetadata
