import CliMetadata.Assembly
import CliMetadata.Token

/-!
Named types: the definitions and references of a metadata image. A nested type is named through
the chain of types that enclose it. Namespace and resolution scope count on the outermost type of
the chain only, whatever the heads below it say.
-/

namespace CliMetadata

structure ModuleInfo where
  name : String
  assembly : Option AssemblyIdentity := none
deriving DecidableEq, Repr

/-- Where a reference is resolved: in a module, or in another assembly. -/
inductive Scope where
  | inModule (module : ModuleInfo)
  | inAssembly (assembly : AssemblyIdentity)
deriving DecidableEq, Repr

namespace Scope

def assembly? : Scope → Option AssemblyIdentity
  | .inModule m => m.assembly
  | .inAssembly a => some a

def module? : Scope → Option ModuleInfo
  | .inModule m => some m
  | .inAssembly _ => none

end Scope

/-- What a row says about a type by itself. -/
structure TypeHead where
  token : Token
  ns : String := ""
  name : String := ""
  scope : Option Scope := none
  isValueType : Bool := false
deriving DecidableEq, Repr

inductive NamedType where
  | topLevel (head : TypeHead)
  | nested (head : TypeHead) (enclosing : NamedType)
deriving DecidableEq, Repr

namespace NamedType

def head : NamedType → TypeHead
  | .topLevel head | .nested head _ => head

def outermost : NamedType → NamedType
  | .topLevel head => .topLevel head
  | .nested _ enclosing => enclosing.outermost

def token (type : NamedType) : Token := type.head.token

def name (type : NamedType) : String := type.head.name

def ns (type : NamedType) : String := type.outermost.head.ns

def isValueType (type : NamedType) : Bool := type.head.isValueType

def scope (type : NamedType) : Option Scope := type.outermost.head.scope

def assembly? (type : NamedType) : Option AssemblyIdentity := type.scope.bind Scope.assembly?

end NamedType

end CliMetadata
