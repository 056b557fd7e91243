import CliMetadata.Signature

/-!
Looking through custom modifiers and the mark of pinned locals. The core of a signature is what
is left when the outer modifiers, one pinned node and the modifiers behind it are taken away; a
second pinned node stays. Questions about the kind of a type are asked of its core.
-/

namespace CliMetadata

/-- The shapes of nodes. -/
inductive NodeKind where
  | primitive | classType | valueType | typeVar | methodVar | sentinel | functionPointer
  | instantiation | pointer | byRef | array | vector | requiredModifier | optionalModifier
  | pinned | valueArray | scoped
deriving DecidableEq, Repr

namespace Wrapper

def nodeKind : Wrapper → NodeKind
  | .pointer => .pointer
  | .byRef => .byRef
  | .vector => .vector
  | .pinned => .pinned
  | .array _ => .array
  | .modifier .required _ => .requiredModifier
  | .modifier .optional _ => .optionalModifier
  | .valueArray _ => .valueArray
  | .scoped _ => .scoped

end Wrapper

namespace TypeSignature

def nodeKind : TypeSignature → NodeKind
  | .primitive _ _ _ => .primitive
  | .named _ .classType _ => .classType
  | .named _ .valueType _ => .valueType
  | .typeVar _ _ => .typeVar
  | .methodVar _ _ => .methodVar
  | .sentinel _ => .sentinel
  | .functionPointer _ _ => .functionPointer
  | .instantiation _ _ _ _ => .instantiation
  | .wrapped _ wrapper _ => wrapper.nodeKind

def isLeaf (signature : TypeSignature) : Bool := signature.next?.isNone

def isPrimitive (signature : TypeSignature) : Bool := signature.nodeKind == .primitive

def isClass (signature : TypeSignature) : Bool := signature.nodeKind == .classType

def isValueTypeNode (signature : TypeSignature) : Bool := signature.nodeKind == .valueType

/-- A node that names a type by itself: a primitive type, a class or a value type. -/
def isNaming (signature : TypeSignature) : Bool :=
  signature.isPrimitive || signature.isClass || signature.isValueTypeNode

def isTypeVar (signature : TypeSignature) : Bool := signature.nodeKind == .typeVar

def isMethodVar (signature : TypeSignature) : Bool := signature.nodeKind == .methodVar

def isGenericParameter (signature : TypeSignature) : Bool :=
  signature.isTypeVar || signature.isMethodVar

def isSentinel (signature : TypeSignature) : Bool := signature.nodeKind == .sentinel

def isFunctionPointer (signature : TypeSignature) : Bool := signature.nodeKind == .functionPointer

def isInstantiation (signature : TypeSignature) : Bool := signature.nodeKind == .instantiation

def isPointer (signature : TypeSignature) : Bool := signature.nodeKind == .pointer

def isByRef (signature : TypeSignature) : Bool := signature.nodeKind == .byRef

def isArray (signature : TypeSignature) : Bool := signature.nodeKind == .array

def isVector (signature : TypeSignature) : Bool := signature.nodeKind == .vector

def isRequiredModifier (signature : TypeSignature) : Bool :=
  signature.nodeKind == .requiredModifier

def isOptionalModifier (signature : TypeSignature) : Bool :=
  signature.nodeKind == .optionalModifier

def isModifier (signature : TypeSignature) : Bool :=
  signature.isRequiredModifier || signature.isOptionalModifier

def isPinned (signature : TypeSignature) : Bool := signature.nodeKind == .pinned

def isValueArray (signature : TypeSignature) : Bool := signature.nodeKind == .valueArray

def isScoped (signature : TypeSignature) : Bool := signature.nodeKind == .scoped

/-- The signature without its outer modifiers. -/
def withoutModifiers : TypeSignature → TypeSignature
  | .wrapped _ (.modifier _ _) next => next.withoutModifiers
  | signature => signature

/-- The signature without the mark of a pinned local. -/
def withoutPinned : TypeSignature → TypeSignature
  | .wrapped _ .pinned next => next
  | signature => signature

def core (signature : TypeSignature) : TypeSignature :=
  signature.withoutModifiers.withoutPinned.withoutModifiers

/-- The core, if it is of the asked kind. -/
def coreIf (signature : TypeSignature) (asked : TypeSignature → Bool) : Option TypeSignature :=
  if asked signature.core then some signature.core else none

def coreNaming? (signature : TypeSignature) : Option TypeSignature := signature.coreIf isNaming

def coreNamed? (signature : TypeSignature) : Option TypeSignature :=
  signature.coreIf fun core => core.isClass || core.isValueTypeNode

def coreClass? (signature : TypeSignature) : Option TypeSignature := signature.coreIf isClass

def coreValueType? (signature : TypeSignature) : Option TypeSignature :=
  signature.coreIf isValueTypeNode

def coreInstantiation? (signature : TypeSignature) : Option TypeSignature :=
  signature.coreIf isInstantiation

def coreArray? (signature : TypeSignature) : Option TypeSignature := signature.coreIf isArray

def coreVector? (signature : TypeSignature) : Option TypeSignature := signature.coreIf isVector

def corePointer? (signature : TypeSignature) : Option TypeSignature := signature.coreIf isPointer

def coreByRef? (signature : TypeSignature) : Option TypeSignature := signature.coreIf isByRef

def coreParameter? (signature : TypeSignature) : Option TypeSignature :=
  signature.coreIf isGenericParameter

def coreTypeVar? (signature : TypeSignature) : Option TypeSignature := signature.coreIf isTypeVar

def coreMethodVar? (signature : TypeSignature) : Option TypeSignature :=
  signature.coreIf isMethodVar

/-- The handle of the core, if it is a class or a value type. -/
def coreHandle? (signature : TypeSignature) : Option TypeHandle :=
  match signature.core with
  | .named _ _ handle => some handle
  | _ => none

/-- The definition that the core refers to. -/
def definition? (signature : TypeSignature) : Option NamedType :=
  signature.coreHandle?.bind TypeHandle.definition?

/-- The reference that the core refers to; a primitive type stands for a reference. Where the
core is not primitive its own core is asked, so that a reference is found behind two pinned nodes
as well. -/
def reference? (signature : TypeSignature) : Option NamedType :=
  match signature.core with
  | .primitive _ _ type => type
  | core => core.coreHandle?.bind TypeHandle.reference?

/-- The row of a signature that the core refers to. -/
def specification? (signature : TypeSignature) : Option TypeSignature :=
  signature.coreHandle?.bind TypeHandle.specification?

/-- How many arguments the core has as an instantiation. -/
def argumentCount (signature : TypeSignature) : Nat :=
  match signature.core with
  | .instantiation _ _ _ arguments => arguments.length
  | _ => 0

/-- Whether the core is stored by value. For an instantiation the kind of its generic type
decides, for everything else the tag. -/
def isValueType (signature : TypeSignature) : Bool :=
  match signature.core with
  | .instantiation _ kind _ _ => kind = .valueType
  | core => core.tag.isValueType

end TypeSignature

end CliMetadata
