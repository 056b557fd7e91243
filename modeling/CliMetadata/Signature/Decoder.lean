import CliMetadata.Signature.Sequence

/-!
Decoders, which read one signature after the other from the same data. A decoder stands at a cursor
and counts the nodes it is inside of. The count goes up before what follows the tag of a node is
read and down behind it, also where that ends in a fault, and inside of fifty nodes no further one
is begun. Cursor and count are all that is left of one signature when the next one is read.
-/

namespace CliMetadata

structure Decoder where
  cursor : Cursor
  depth : Nat := 0
deriving DecidableEq, Repr

abbrev Decode := EStateM Fault Decoder

namespace Decoder

def ofData (data : Bytes) : Decoder := { cursor := { data } }

def pos (decoder : Decoder) : Nat := decoder.cursor.pos

/-- What a reader gives, as the result of a decoder that is inside of so many nodes. -/
def resultAt {α : Type} (depth : Nat) :
    EStateM.Result Fault Cursor α → EStateM.Result Fault Decoder α
  | .ok value stopped => .ok value ⟨stopped, depth⟩
  | .error fault stopped => .error fault ⟨stopped, depth⟩

/-- The decoder as a result leaves it. -/
def ofResult {α : Type} : EStateM.Result Fault Decoder α → Decoder
  | .ok _ stopped => stopped
  | .error _ stopped => stopped

end Decoder

instance : MonadLift Read Decode where
  monadLift read := fun decoder => Decoder.resultAt decoder.depth (read decoder.cursor)

namespace Decode

variable {α : Type}

def depth : Decode Nat := fun decoder => .ok decoder.depth decoder

/-- Counts one node more while the body is read. -/
def inside (body : Decode α) : Decode α := fun decoder =>
  match body { decoder with depth := decoder.depth + 1 } with
  | .ok value stopped => .ok value { stopped with depth := stopped.depth - 1 }
  | .error fault stopped => .error fault { stopped with depth := stopped.depth - 1 }

/-- Puts another fault in the place of an end of data. -/
def onEnd (fault : Fault) (decode : Decode α) : Decode α := fun decoder =>
  match decode decoder with
  | .error .outOfBounds stopped => .error fault stopped
  | result => result

def times (decode : Decode α) : (count : Nat) → Decode (List α)
  | 0 => pure []
  | count + 1 => do
    let value ← decode
    let values ← times decode count
    return value :: values

/-- Values that follow their count. -/
def listOf (decode : Decode α) : Decode (List α) := do
  let count ← Read.unsigned
  times decode count

/-- The parameters of a method, with those behind the first sentinel apart. -/
def params (type : Decode TypeSignature) :
    (count : Nat) → Decode (List TypeSignature × Option (List TypeSignature))
  | 0 => pure ([], none)
  | count + 1 => do
    let first ← Read.peekByte
    if first = ElementType.sentinel.byte then
      Read.skip 1
      let varargs ← times type (count + 1)
      return ([], some varargs)
    else
      let param ← type
      let (others, varargs) ← params type count
      return (param :: others, varargs)

def methodOf (type : Decode TypeSignature) : Decode MethodSignature := do
  let convention ← Read.byte
  if MethodSignature.isConvention convention then
    let genericCount ← Read.genericCount convention
    let count ← Read.unsigned
    let result ← type
    let (params, varargs) ← params type count
    return { convention, genericCount, result, params, varargs }
  else throw (.malformed (.callingConvention convention))

def wrappedBy (wrapper : Wrapper) (type : Decode TypeSignature) : Decode TypeSignature := do
  let next ← type
  return .wrapped 0 wrapper next

def modified (resolver : Resolver) (kind : ModifierKind) (type : Decode TypeSignature) :
    Decode TypeSignature := do
  let handle ← Read.handle resolver
  wrappedBy (.modifier kind handle) type

/-- What follows the tag of a node. -/
def node (resolver : Resolver) (type : Decode TypeSignature) : ElementType → Decode TypeSignature
  | .ptr => wrappedBy .pointer type
  | .byRef => wrappedBy .byRef type
  | .szArray => wrappedBy .vector type
  | .pinned => wrappedBy .pinned type
  | .classType => do
    let handle ← Read.handle resolver
    return .named 0 .classType handle
  | .valueType => do
    let handle ← Read.handle resolver
    return .named 0 .valueType handle
  | .typeVar => do
    let index ← Read.unsigned
    return .typeVar 0 index
  | .methodVar => do
    let index ← Read.unsigned
    return .methodVar 0 index
  | .sentinel => return .sentinel 0
  | .array => do
    let next ← type
    let shape ← Read.arrayShape
    return .wrapped 0 (.array shape) next
  | .genericInst => do
    let kind ← Read.typeKind
    let generic ← Read.handle resolver
    let arguments ← listOf type
    return .instantiation 0 kind generic arguments
  | .fnPtr => do
    let method ← methodOf type
    return .functionPointer 0 method
  | .modReqd => modified resolver .required type
  | .modOpt => modified resolver .optional type
  | .valueArray => do
    let next ← type
    let size ← Read.unsigned
    return .wrapped 0 (.valueArray size) next
  | .moduleType => do
    let index ← Read.unsigned
    wrappedBy (.scoped index) type
  | tag => return .primitive 0 tag (resolver.primitive? tag)

/-- A type, with no more nodes inside of each other than the bound. The bound is there for the
recursion only: where it is above the greatest depth, the depth ends the reading first. -/
def typeUpTo (resolver : Resolver) : (bound : Nat) → Decode TypeSignature
  | 0 => throw (.nestedTooDeep TypeSignature.maxNesting)
  | bound + 1 => do
    let depth ← depth
    if TypeSignature.maxNesting ≤ depth then throw (.nestedTooDeep TypeSignature.maxNesting)
    else
      let start ← Read.position
      let value ← Read.byte
      match (ElementType.ofByte? value).filter ElementType.isNodeTag with
      | some tag =>
        onEnd (.truncated tag start) (inside (node resolver (typeUpTo resolver bound) tag))
      | none => throw (.invalidElementType value start)

def type (resolver : Resolver) : Decode TypeSignature :=
  typeUpTo resolver (TypeSignature.maxNesting + 1)

def method (resolver : Resolver) : Decode MethodSignature := methodOf (type resolver)

def item (resolver : Resolver) : ItemKind → Decode SignatureItem
  | .type => do
    let signature ← type resolver
    return .type signature
  | .method => do
    let signature ← method resolver
    return .method signature

end Decode

namespace Decoder

/-- The decoder after it was asked for one signature after the other. -/
def after (resolver : Resolver) (decoder : Decoder) : List ItemKind → Decoder
  | [] => decoder
  | kind :: rest => (ofResult (Decode.item resolver kind decoder)).after resolver rest

/-- What a decoder gives that is asked for one signature after the other. A fault does not end the
run. -/
def outcomes (resolver : Resolver) (decoder : Decoder) :
    List ItemKind → List (EStateM.Result Fault Decoder SignatureItem)
  | [] => []
  | kind :: rest =>
    let outcome := Decode.item resolver kind decoder
    outcome :: (ofResult outcome).outcomes resolver rest

end Decoder

end CliMetadata
