import CliMetadata.Signature

/-!
The handles of a signature, in the order in which its encoding holds their tokens. Handles inside
the rows that they point to do not belong to the signature.
-/

namespace CliMetadata

def Wrapper.handles : Wrapper → List TypeHandle
  | .modifier _ handle => [handle]
  | _ => []

mutual

def TypeSignature.handles : TypeSignature → List TypeHandle
  | .named _ _ handle => [handle]
  | .functionPointer _ method => method.handles
  | .instantiation _ _ generic arguments => generic :: TypeSignature.handlesOfAll arguments
  | .wrapped _ wrapper next => wrapper.handles ++ next.handles
  | .primitive _ _ _ | .typeVar _ _ | .methodVar _ _ | .sentinel _ => []

def MethodSignature.handles : MethodSignature → List TypeHandle
  | ⟨_, _, result, params, varargs⟩ =>
    result.handles ++ TypeSignature.handlesOfAll params ++ TypeSignature.handlesOfVarargs varargs

def TypeSignature.handlesOfAll : List TypeSignature → List TypeHandle
  | [] => []
  | signature :: rest => signature.handles ++ TypeSignature.handlesOfAll rest

def TypeSignature.handlesOfVarargs : Option (List TypeSignature) → List TypeHandle
  | none => []
  | some signatures => TypeSignature.handlesOfAll signatures

end

/-- The tokens whose rows are not known. -/
def TypeSignature.unresolvedTokens (signature : TypeSignature) : List Token :=
  (signature.handles.filter fun handle => !handle.isResolved).map TypeHandle.token

end CliMetadata
