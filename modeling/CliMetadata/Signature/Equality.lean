import CliMetadata.Signature

/-!
Equality of signatures. Row numbers are addresses and not part of the type, so two signatures are
equal if they differ in nothing but row numbers, at any node and also inside the rows of handles.
-/

namespace CliMetadata

mutual

def TypeSignature.same : TypeSignature → TypeSignature → Bool
  | .primitive _ tag type, .primitive _ tag' type' => tag = tag' && type = type'
  | .named _ kind handle, .named _ kind' handle' => kind = kind' && handle.same handle'
  | .typeVar _ index, .typeVar _ index' => index = index'
  | .methodVar _ index, .methodVar _ index' => index = index'
  | .sentinel _, .sentinel _ => true
  | .functionPointer _ method, .functionPointer _ method' => method.same method'
  | .instantiation _ kind generic arguments, .instantiation _ kind' generic' arguments' =>
    kind = kind' && generic.same generic' && TypeSignature.sameAll arguments arguments'
  | .wrapped _ wrapper next, .wrapped _ wrapper' next' => wrapper.same wrapper' && next.same next'
  | _, _ => false

def Wrapper.same : Wrapper → Wrapper → Bool
  | .pointer, .pointer | .byRef, .byRef | .vector, .vector | .pinned, .pinned => true
  | .array shape, .array shape' => shape = shape'
  | .modifier kind handle, .modifier kind' handle' => kind = kind' && handle.same handle'
  | .valueArray size, .valueArray size' => size = size'
  | .scoped index, .scoped index' => index = index'
  | _, _ => false

def MethodSignature.same : MethodSignature → MethodSignature → Bool
  | ⟨convention, genericCount, result, params, varargs⟩,
    ⟨convention', genericCount', result', params', varargs'⟩ =>
    convention = convention' && genericCount = genericCount' && result.same result' &&
      TypeSignature.sameAll params params' && TypeSignature.sameVarargs varargs varargs'

def TypeHandle.same : TypeHandle → TypeHandle → Bool
  | ⟨token, target⟩, ⟨token', target'⟩ => token = token' && TypeRow.sameTarget target target'

def TypeRow.sameTarget : Option TypeRow → Option TypeRow → Bool
  | none, none => true
  | some row, some row' => row.same row'
  | _, _ => false

def TypeRow.same : TypeRow → TypeRow → Bool
  | .definition type, .definition type' => type = type'
  | .reference type, .reference type' => type = type'
  | .specification signature, .specification signature' => signature.same signature'
  | _, _ => false

def TypeSignature.sameAll : List TypeSignature → List TypeSignature → Bool
  | [], [] => true
  | signature :: rest, signature' :: rest' =>
    signature.same signature' && TypeSignature.sameAll rest rest'
  | _, _ => false

def TypeSignature.sameVarargs : Option (List TypeSignature) → Option (List TypeSignature) → Bool
  | none, none => true
  | some signatures, some signatures' => TypeSignature.sameAll signatures signatures'
  | _, _ => false

end

instance : BEq TypeSignature := ⟨TypeSignature.same⟩

instance : BEq MethodSignature := ⟨MethodSignature.same⟩

instance : BEq TypeHandle := ⟨TypeHandle.same⟩

instance : BEq TypeRow := ⟨TypeRow.same⟩

end CliMetadata
