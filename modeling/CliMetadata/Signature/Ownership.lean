import CliMetadata.Signature

/-!
What type a signature is about, and where that type lives. Wrappers are transparent: the leaf
decides, for an instantiation its generic type, and a row that is a signature is looked through.
-/

namespace CliMetadata

/-- What the leaf of a signature comes down to. -/
inductive Denoted where
  | definition (type : NamedType)
  | reference (type : NamedType)
  | primitive (tag : ElementType)
  | typeVar (index : Nat)
  | methodVar (index : Nat)
  | sentinel
  | functionPointer
  | unknown

mutual

def TypeSignature.denoted : TypeSignature → Denoted
  | .primitive _ _ (some type) => .reference type
  | .primitive _ tag none => .primitive tag
  | .named _ _ handle => handle.denoted
  | .typeVar _ index => .typeVar index
  | .methodVar _ index => .methodVar index
  | .sentinel _ => .sentinel
  | .functionPointer _ _ => .functionPointer
  | .instantiation _ _ generic _ => generic.denoted
  | .wrapped _ _ next => next.denoted

def TypeHandle.denoted : TypeHandle → Denoted
  | ⟨_, target⟩ => TypeRow.denotedTarget target

def TypeRow.denotedTarget : Option TypeRow → Denoted
  | none => .unknown
  | some row => row.denoted

def TypeRow.denoted : TypeRow → Denoted
  | .definition type => .definition type
  | .reference type => .reference type
  | .specification signature => signature.denoted

end

namespace Denoted

def type? : Denoted → Option NamedType
  | .definition type | .reference type => some type
  | _ => none

def row? : Denoted → Option TypeRow
  | .definition type => some (.definition type)
  | .reference type => some (.reference type)
  | _ => none

end Denoted

namespace TypeSignature

/-- The definition or reference that the leaf comes down to. -/
def scopeRow? (signature : TypeSignature) : Option TypeRow := signature.denoted.row?

def scope (signature : TypeSignature) : Option Scope :=
  signature.denoted.type?.bind NamedType.scope

def assembly? (signature : TypeSignature) : Option AssemblyIdentity :=
  signature.scope.bind Scope.assembly?

def ownerModule? (signature : TypeSignature) : Option ModuleInfo :=
  signature.scope.bind Scope.module?

/-- The token of the type that the leaf refers to, which is the one of its handle. -/
def leafToken? (signature : TypeSignature) : Option Token :=
  match signature.leaf with
  | .primitive _ _ type => type.map NamedType.token
  | .named _ _ handle => some handle.token
  | .instantiation _ _ generic _ => some generic.token
  | _ => none

end TypeSignature

end CliMetadata
