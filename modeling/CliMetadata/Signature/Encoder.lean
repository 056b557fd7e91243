import CliMetadata.Compressed.Words
import CliMetadata.Signature

/-!
Writing signatures in place. An encoder is a buffer that the parts of a signature are appended to
one by one, in the order in which they stand in the tree. The tag of a node is appended before
anything of the node is looked at, and what was appended before a fault stays in the buffer.
-/

namespace CliMetadata

namespace Append

instance : MonadLift (Except EncodingFault) Append where
  monadLift outcome := fun buffer =>
    match outcome with
    | .ok a => .ok a buffer
    | .error fault => .error fault buffer

/-- A number, which has to be a word of 32 bits before it is compressed. -/
def number (n : Nat) : Append Unit :=
  if n < 0x100000000 then unsigned (.ofNat n) else throw (.unsignedTooLarge n)

def signedNumber (i : Int) : Append Unit :=
  if -0x80000000 ≤ i ∧ i < 0x80000000 then signed (.ofInt i) else throw (.signedOutOfRange i)

/-- The length of a list. -/
def count (n : Nat) : Append Unit :=
  if n < 0x100000000 then unsigned (.ofNat n) else throw (.listTooLong n)

def handle (handle : TypeHandle) : Append Unit := do
  number (← handle.token.codedIndex)

def arrayShape (shape : ArrayShape) : Append Unit := do
  number shape.rank
  if 0 < shape.rank then
    count shape.sizes.length
    forM shape.sizes number
    count shape.lowerBounds.length
    forM shape.lowerBounds signedNumber

/-- What stands between the tag and the wrapped type. -/
def before : Wrapper → Append Unit
  | .modifier _ modifier => handle modifier
  | .scoped index => number index
  | _ => pure ()

/-- What stands behind the wrapped type. -/
def behind : Wrapper → Append Unit
  | .array shape => arrayShape shape
  | .valueArray size => number size
  | _ => pure ()

def methodHead (method : MethodSignature) : Append Unit := do
  byte method.convention
  if method.isGeneric then number method.genericCount
  count method.paramCount

mutual

def type : TypeSignature → Append Unit
  | .primitive _ tag _ => do
    byte tag.byte
    if !tag.isPrimitive then throw (.notPrimitive tag)
  | .named _ kind reference => do
    byte kind.tag.byte
    handle reference
  | .typeVar _ index => do
    byte ElementType.typeVar.byte
    number index
  | .methodVar _ index => do
    byte ElementType.methodVar.byte
    number index
  | .sentinel _ => byte ElementType.sentinel.byte
  | .functionPointer _ signature => do
    byte ElementType.fnPtr.byte
    method signature
  | .instantiation _ kind generic arguments => do
    byte ElementType.genericInst.byte
    byte kind.tag.byte
    handle generic
    count arguments.length
    types arguments
  | .wrapped _ wrapper next => do
    byte wrapper.tag.byte
    before wrapper
    type next
    behind wrapper

def method : MethodSignature → Append Unit
  | ⟨convention, genericCount, result, params, arguments⟩ => do
    methodHead ⟨convention, genericCount, result, params, arguments⟩
    type result
    types params
    varargs arguments

def types : List TypeSignature → Append Unit
  | [] => pure ()
  | signature :: rest => do
    type signature
    types rest

/-- The sentinel and the parameters behind it; without such parameters there is no sentinel. -/
def varargs : Option (List TypeSignature) → Append Unit
  | none | some [] => pure ()
  | some (signature :: rest) => do
    byte ElementType.sentinel.byte
    type signature
    types rest

end

end Append

end CliMetadata
