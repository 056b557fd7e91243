import CliMetadata.Signature
import CliMetadata.Compressed

/-!
Writing signatures as bytes (ECMA-335 II.23.2). A node is its tag byte followed by its parts;
numbers and coded indexes are compressed integers. The first part without an encoding decides the
fault.
-/

namespace CliMetadata

/-- The encodings of the items one after the other. -/
def encodeEach {α : Type} (encode : α → Except EncodingFault Bytes) :
    List α → Except EncodingFault Bytes
  | [] => .ok []
  | item :: rest => do
    let first ← encode item
    let others ← encodeEach encode rest
    return first ++ others

/-- The length of a list, which must fit into 32 bits before it is compressed. -/
def encodeCount (count : Nat) : Except EncodingFault Bytes :=
  if count < 0x100000000 then Compressed.encodeUnsigned count else .error (.listTooLong count)

namespace ArrayShape

/-- The dimensions of an array; an array without dimensions has no lists. -/
def encode (shape : ArrayShape) : Except EncodingFault Bytes := do
  let rank ← Compressed.encodeUnsigned shape.rank
  if shape.rank = 0 then return rank
  let sizeCount ← encodeCount shape.sizes.length
  let sizes ← encodeEach Compressed.encodeUnsigned shape.sizes
  let boundCount ← encodeCount shape.lowerBounds.length
  let bounds ← encodeEach Compressed.encodeSigned shape.lowerBounds
  return rank ++ sizeCount ++ sizes ++ boundCount ++ bounds

end ArrayShape

namespace TypeHandle

def encode (handle : TypeHandle) : Except EncodingFault Bytes :=
  Compressed.encodeToken handle.token

end TypeHandle

namespace Wrapper

/-- What stands between the tag and the wrapped type. -/
def encodeBefore : Wrapper → Except EncodingFault Bytes
  | .modifier _ handle => handle.encode
  | .scoped index => Compressed.encodeUnsigned index
  | _ => .ok []

/-- What stands behind the wrapped type. -/
def encodeBehind : Wrapper → Except EncodingFault Bytes
  | .array shape => shape.encode
  | .valueArray size => Compressed.encodeUnsigned size
  | _ => .ok []

end Wrapper

namespace MethodSignature

/-- The convention, the count of generic parameters if the convention has the flag for it, and the
count of parameters. -/
def encodeHead (method : MethodSignature) : Except EncodingFault Bytes := do
  let generics ← if method.isGeneric then Compressed.encodeUnsigned method.genericCount else pure []
  let params ← encodeCount method.paramCount
  return method.convention :: generics ++ params

end MethodSignature

mutual

def TypeSignature.encode : TypeSignature → Except EncodingFault Bytes
  | .primitive _ tag _ => if tag.isPrimitive then .ok [tag.byte] else .error (.notPrimitive tag)
  | .named _ kind handle => do
    let reference ← handle.encode
    return kind.tag.byte :: reference
  | .typeVar _ index => do
    let number ← Compressed.encodeUnsigned index
    return ElementType.typeVar.byte :: number
  | .methodVar _ index => do
    let number ← Compressed.encodeUnsigned index
    return ElementType.methodVar.byte :: number
  | .sentinel _ => .ok [ElementType.sentinel.byte]
  | .functionPointer _ method => do
    let body ← method.encode
    return ElementType.fnPtr.byte :: body
  | .instantiation _ kind generic arguments => do
    let reference ← generic.encode
    let count ← encodeCount arguments.length
    let body ← TypeSignature.encodeAll arguments
    return ElementType.genericInst.byte :: kind.tag.byte :: reference ++ count ++ body
  | .wrapped _ wrapper next => do
    let before ← wrapper.encodeBefore
    let inner ← next.encode
    let behind ← wrapper.encodeBehind
    return wrapper.tag.byte :: before ++ inner ++ behind

def MethodSignature.encode : MethodSignature → Except EncodingFault Bytes
  | ⟨convention, genericCount, result, params, varargs⟩ => do
    let head ← MethodSignature.encodeHead ⟨convention, genericCount, result, params, varargs⟩
    let result ← result.encode
    let params ← TypeSignature.encodeAll params
    let varargs ← TypeSignature.encodeVarargs varargs
    return head ++ result ++ params ++ varargs

def TypeSignature.encodeAll : List TypeSignature → Except EncodingFault Bytes
  | [] => .ok []
  | signature :: rest => do
    let first ← signature.encode
    let others ← TypeSignature.encodeAll rest
    return first ++ others

/-- The sentinel and the parameters behind it; without such parameters there is no sentinel. -/
def TypeSignature.encodeVarargs : Option (List TypeSignature) → Except EncodingFault Bytes
  | none | some [] => .ok []
  | some (signature :: rest) => do
    let first ← signature.encode
    let others ← TypeSignature.encodeAll rest
    return ElementType.sentinel.byte :: first ++ others

end

end CliMetadata
