import CliMetadata.ElementType
import CliMetadata.NamedType

/-!
Signatures as trees. A type signature is a leaf or wraps the next type; the leaves are primitive
types, named types, generic parameters, the sentinel, function pointers and generic
instantiations. A named type is known by a handle: its token, and the row behind the token if
that was found. Rows can be signatures in their turn.

Every node carries a row number, by which it can be addressed as a row of the type specification
table. Zero stands for a number that was never given.
-/

namespace CliMetadata

/-- Whether a named type is marked as a class or as a value type. -/
inductive TypeKind where
  | classType
  | valueType
deriving DecidableEq, Repr

def TypeKind.tag : TypeKind → ElementType
  | .classType => .classType
  | .valueType => .valueType

inductive ModifierKind where
  | required
  | optional
deriving DecidableEq, Repr

def ModifierKind.tag : ModifierKind → ElementType
  | .required => .modReqd
  | .optional => .modOpt

/-- The dimensions of an array. Sizes and lower bounds are those of the leading dimensions, and
there may be fewer of them than dimensions. -/
structure ArrayShape where
  rank : Nat
  sizes : List Nat := []
  lowerBounds : List Int := []
deriving DecidableEq, Repr

mutual

inductive TypeSignature where
  | primitive (row : Nat) (tag : ElementType) (type : Option NamedType)
  | named (row : Nat) (kind : TypeKind) (handle : TypeHandle)
  | typeVar (row : Nat) (index : Nat)
  | methodVar (row : Nat) (index : Nat)
  | sentinel (row : Nat)
  | functionPointer (row : Nat) (method : MethodSignature)
  | instantiation (row : Nat) (kind : TypeKind) (generic : TypeHandle)
      (arguments : List TypeSignature)
  | wrapped (row : Nat) (wrapper : Wrapper) (next : TypeSignature)

inductive Wrapper where
  | pointer
  | byRef
  | vector
  | pinned
  | array (shape : ArrayShape)
  | modifier (kind : ModifierKind) (handle : TypeHandle)
  | valueArray (size : Nat)
  | scoped (index : Nat)

/-- A method signature. Arguments behind the sentinel of a call with a variable argument list
stand apart, and are absent if there is no sentinel. -/
structure MethodSignature where
  convention : UInt8
  genericCount : Nat
  result : TypeSignature
  params : List TypeSignature
  varargs : Option (List TypeSignature)

structure TypeHandle where
  token : Token
  target : Option TypeRow

inductive TypeRow where
  | definition (type : NamedType)
  | reference (type : NamedType)
  | specification (signature : TypeSignature)

end

namespace Wrapper

def tag : Wrapper → ElementType
  | .pointer => .ptr
  | .byRef => .byRef
  | .vector => .szArray
  | .pinned => .pinned
  | .array _ => .array
  | .modifier kind _ => kind.tag
  | .valueArray _ => .valueArray
  | .scoped _ => .moduleType

end Wrapper

namespace TypeSignature

/-- How many nodes deep a signature may be nested to be read, and to be named in full. -/
def maxNesting : Nat := 50

def row : TypeSignature → Nat
  | .primitive row _ _ | .named row _ _ | .typeVar row _ | .methodVar row _ | .sentinel row
  | .functionPointer row _ | .instantiation row _ _ _ | .wrapped row _ _ => row

def withRow (row : Nat) : TypeSignature → TypeSignature
  | .primitive _ tag type => .primitive row tag type
  | .named _ kind handle => .named row kind handle
  | .typeVar _ index => .typeVar row index
  | .methodVar _ index => .methodVar row index
  | .sentinel _ => .sentinel row
  | .functionPointer _ method => .functionPointer row method
  | .instantiation _ kind generic arguments => .instantiation row kind generic arguments
  | .wrapped _ wrapper next => .wrapped row wrapper next

/-- The token of the node as a row of the type specification table. -/
def token (signature : TypeSignature) : Token :=
  Token.ofParts TypeTable.typeSpec.number signature.row

def tag : TypeSignature → ElementType
  | .primitive _ tag _ => tag
  | .named _ kind _ => kind.tag
  | .typeVar _ _ => .typeVar
  | .methodVar _ _ => .methodVar
  | .sentinel _ => .sentinel
  | .functionPointer _ _ => .fnPtr
  | .instantiation _ _ _ _ => .genericInst
  | .wrapped _ wrapper _ => wrapper.tag

def next? : TypeSignature → Option TypeSignature
  | .wrapped _ _ next => some next
  | _ => none

/-- The innermost node of the chain of wrapped types. -/
def leaf : TypeSignature → TypeSignature
  | .wrapped _ _ next => next.leaf
  | signature => signature

/-- The signature with other arguments, if it is an instantiation. -/
def withArguments? (arguments : List TypeSignature) : TypeSignature → Option TypeSignature
  | .instantiation row kind generic _ => some (.instantiation row kind generic arguments)
  | _ => none

/-- The signature with an altered shape, if it is an array. -/
def withShape? (alter : ArrayShape → ArrayShape) : TypeSignature → Option TypeSignature
  | .wrapped row (.array shape) next => some (.wrapped row (.array (alter shape)) next)
  | _ => none

end TypeSignature

namespace MethodSignature

/-- The calling convention without the flags in its upper half. -/
def kind (method : MethodSignature) : Nat := method.convention.toNat % 16

def isGeneric (method : MethodSignature) : Bool := method.convention &&& 0x10 != 0

def hasThis (method : MethodSignature) : Bool := method.convention &&& 0x20 != 0

def explicitThis (method : MethodSignature) : Bool := method.convention &&& 0x40 != 0

def isVararg (method : MethodSignature) : Bool := method.kind == 0x5 || method.kind == 0xB

/-- How many parameters there are before and behind the sentinel together. -/
def paramCount (method : MethodSignature) : Nat :=
  method.params.length + (method.varargs.getD []).length

end MethodSignature

namespace TypeRow

def token : TypeRow → Token
  | .definition type | .reference type => type.token
  | .specification signature => signature.token

/-- The row of a signature, which takes the row number. -/
def ofSignature (row : Nat) (signature : TypeSignature) : TypeRow :=
  .specification (signature.withRow row)

def type? : TypeRow → Option NamedType
  | .definition type | .reference type => some type
  | .specification _ => none

end TypeRow

namespace TypeHandle

def unresolved (token : Token) : TypeHandle := ⟨token, none⟩

/-- The handle of a known row, with the row's own token. -/
def ofRow (row : TypeRow) : TypeHandle := ⟨row.token, some row⟩

def isResolved (handle : TypeHandle) : Bool := handle.target.isSome

def definition? (handle : TypeHandle) : Option NamedType :=
  match handle.target with
  | some (.definition type) => some type
  | _ => none

def reference? (handle : TypeHandle) : Option NamedType :=
  match handle.target with
  | some (.reference type) => some type
  | _ => none

def specification? (handle : TypeHandle) : Option TypeSignature :=
  match handle.target with
  | some (.specification signature) => some signature
  | _ => none

end TypeHandle

end CliMetadata
