import CliMetadata.Compressed
import CliMetadata.Resolver

/-!
Reading signatures (ECMA-335 II.23.2). A reader of types is built level by level: the reader for
one level more takes a tag and leaves the types inside to the reader below, and the reader for no
level at all refuses. Where the data ends inside a node, the fault names the innermost node that
was begun.
-/

namespace CliMetadata

namespace MethodSignature

/-- The calling conventions of methods. The other values of the lower half mark fields, local
variables and instantiations. -/
def isConvention (convention : UInt8) : Bool :=
  let kind := convention.toNat % 16
  kind ≤ 5 || kind == 8 || kind == 9 || kind == 0xB

end MethodSignature

namespace Read

def handle (resolver : Resolver) : Read TypeHandle := do
  let token ← token
  return ⟨token, resolver.row? token⟩

/-- The dimensions of an array; without dimensions no lists follow. -/
def arrayShape : Read ArrayShape := do
  let rank ← unsigned
  if rank = 0 then return { rank }
  let sizes ← listOf unsigned
  let lowerBounds ← listOf signed
  return { rank, sizes, lowerBounds }

/-- The parameters of a method. The first sentinel is not a parameter itself, and all the
parameters behind it are variable ones. -/
def params (type : Read TypeSignature) :
    (count : Nat) → Read (List TypeSignature × Option (List TypeSignature))
  | 0 => pure ([], none)
  | count + 1 => do
    let first ← peekByte
    if first = ElementType.sentinel.byte then
      skip 1
      let varargs ← times type (count + 1)
      return ([], some varargs)
    else
      let param ← type
      let (others, varargs) ← params type count
      return (param :: others, varargs)

/-- The number of generic parameters, which is left out if the convention has no flag for it. -/
def genericCount (convention : UInt8) : Read Nat :=
  if convention &&& 0x10 != 0 then unsigned else pure 0

def methodOf (type : Read TypeSignature) : Read MethodSignature := do
  let convention ← byte
  if MethodSignature.isConvention convention then
    let genericCount ← genericCount convention
    let count ← unsigned
    let result ← type
    let (params, varargs) ← params type count
    return { convention, genericCount, result, params, varargs }
  else throw (.malformed (.callingConvention convention))

/-- The byte that tells whether the type of an instantiation is a class or a value type. -/
def typeKind : Read TypeKind := do
  let start ← position
  let found ← peekByte
  match ElementType.ofByte? found with
  | some .classType => do skip 1; return .classType
  | some .valueType => do skip 1; return .valueType
  | _ => throw (.invalidInstantiation found start)

def wrappedBy (wrapper : Wrapper) (type : Read TypeSignature) : Read TypeSignature := do
  return .wrapped 0 wrapper (← type)

def modified (resolver : Resolver) (kind : ModifierKind) (type : Read TypeSignature) :
    Read TypeSignature := do
  let handle ← handle resolver
  wrappedBy (.modifier kind handle) type

/-- What follows the tag of a node. -/
def node (resolver : Resolver) (type : Read TypeSignature) : ElementType → Read TypeSignature
  | .ptr => wrappedBy .pointer type
  | .byRef => wrappedBy .byRef type
  | .szArray => wrappedBy .vector type
  | .pinned => wrappedBy .pinned type
  | .classType => do return .named 0 .classType (← handle resolver)
  | .valueType => do return .named 0 .valueType (← handle resolver)
  | .typeVar => do return .typeVar 0 (← unsigned)
  | .methodVar => do return .methodVar 0 (← unsigned)
  | .sentinel => return .sentinel 0
  | .array => do
    let next ← type
    let shape ← arrayShape
    return .wrapped 0 (.array shape) next
  | .genericInst => do
    let kind ← typeKind
    let generic ← handle resolver
    let arguments ← listOf type
    return .instantiation 0 kind generic arguments
  | .fnPtr => do return .functionPointer 0 (← methodOf type)
  | .modReqd => modified resolver .required type
  | .modOpt => modified resolver .optional type
  | .valueArray => do
    let next ← type
    let size ← unsigned
    return .wrapped 0 (.valueArray size) next
  | .moduleType => do
    let index ← unsigned
    wrappedBy (.scoped index) type
  | tag => return .primitive 0 tag (resolver.primitive? tag)

/-- A type that is nested no deeper than the given number of levels. -/
def typeWithin (resolver : Resolver) : (levels : Nat) → Read TypeSignature
  | 0 => throw (.nestedTooDeep TypeSignature.maxNesting)
  | levels + 1 => do
    let start ← position
    let value ← byte
    match (ElementType.ofByte? value).filter ElementType.isNodeTag with
    | some tag => onEnd (.truncated tag start) (node resolver (typeWithin resolver levels) tag)
    | none => throw (.invalidElementType value start)

def type (resolver : Resolver) : Read TypeSignature :=
  typeWithin resolver TypeSignature.maxNesting

def method (resolver : Resolver) : Read MethodSignature := methodOf (type resolver)

end Read

/-- The type signature at the start of the data; what follows it does not matter. -/
def TypeSignature.decode (resolver : Resolver) (data : Bytes) : Except Fault TypeSignature :=
  (Read.type resolver).run? data

/-- The method signature at the start of the data; what follows it does not matter. -/
def MethodSignature.decode (resolver : Resolver) (data : Bytes) : Except Fault MethodSignature :=
  (Read.method resolver).run? data

end CliMetadata
