import CliMetadata.Signature

/-!
Edits of signatures. A node holds signatures in slots. An edit gives the root another row number,
writes into one of its fields, puts the signature into a slot of another node or takes it out of
one, or edits what is in a slot in its place. An edit that a node has no field or slot for is not
done.
-/

namespace CliMetadata

/-- Where a node holds a signature: the type that it wraps, an argument of an instantiation, a type
of a method, or the row behind its handle. -/
inductive Slot where
  | next
  | argument (i : Nat)
  | result
  | param (i : Nat)
  | vararg (i : Nat)
  | specification
deriving DecidableEq, Repr

/-- A field of a node, with what is written into it. -/
inductive NodeField where
  | wrapper (wrapper : Wrapper)
  | type (kind : TypeKind) (handle : TypeHandle)
  | arguments (arguments : List TypeSignature)
  | convention (convention : UInt8) (genericCount : Nat)
  | params (params : List TypeSignature)
  | varargs (varargs : Option (List TypeSignature))

/-- A list with another item at a place, if the list has the place. -/
def putAt? {α : Type} (i : Nat) (item : α) (items : List α) : Option (List α) :=
  if i < items.length then some (items.set i item) else none

namespace TypeHandle

/-- The handle with another signature in its row, if its row is one. -/
def withSpecification? (signature : TypeSignature) : TypeHandle → Option TypeHandle
  | ⟨token, some (.specification _)⟩ => some ⟨token, some (.specification signature)⟩
  | _ => none

end TypeHandle

namespace TypeSignature

/-- What is in a slot of a node. -/
def slot? (node : TypeSignature) (slot : Slot) : Option TypeSignature :=
  match slot, node with
  | .next, node => node.next?
  | .argument i, .instantiation _ _ _ arguments => arguments[i]?
  | .result, .functionPointer _ method => some method.result
  | .param i, .functionPointer _ method => method.params[i]?
  | .vararg i, .functionPointer _ method => method.varargs.bind (·[i]?)
  | .specification, .named _ _ handle => handle.specification?
  | .specification, .instantiation _ _ generic _ => generic.specification?
  | .specification, .wrapped _ (.modifier _ handle) _ => handle.specification?
  | _, _ => none

/-- The node with another signature in one of its slots. -/
def fill? (node : TypeSignature) (slot : Slot) (inner : TypeSignature) : Option TypeSignature :=
  match slot, node with
  | .next, .wrapped row wrapper _ => some (.wrapped row wrapper inner)
  | .argument i, .instantiation row kind generic arguments =>
    (putAt? i inner arguments).map (.instantiation row kind generic)
  | .result, .functionPointer row method =>
    some (.functionPointer row { method with result := inner })
  | .param i, .functionPointer row method =>
    (putAt? i inner method.params).map fun params => .functionPointer row { method with params }
  | .vararg i, .functionPointer row method =>
    (method.varargs.bind (putAt? i inner)).map fun varargs =>
      .functionPointer row { method with varargs := some varargs }
  | .specification, .named row kind handle =>
    (handle.withSpecification? inner).map (.named row kind)
  | .specification, .instantiation row kind generic arguments =>
    (generic.withSpecification? inner).map fun generic =>
      .instantiation row kind generic arguments
  | .specification, .wrapped row (.modifier kind handle) next =>
    (handle.withSpecification? inner).map fun handle => .wrapped row (.modifier kind handle) next
  | _, _ => none

def withField? : NodeField → TypeSignature → Option TypeSignature
  | .wrapper wrapper, .wrapped row _ next => some (.wrapped row wrapper next)
  | .type kind handle, .named row _ _ => some (.named row kind handle)
  | .type kind handle, .instantiation row _ _ arguments =>
    some (.instantiation row kind handle arguments)
  | .arguments arguments, signature => signature.withArguments? arguments
  | .convention convention genericCount, .functionPointer row method =>
    some (.functionPointer row { method with convention, genericCount })
  | .params params, .functionPointer row method =>
    some (.functionPointer row { method with params })
  | .varargs varargs, .functionPointer row method =>
    some (.functionPointer row { method with varargs })
  | _, _ => none

end TypeSignature

inductive Edit where
  | setRow (row : Nat)
  /-- Replaces everything but the row number. -/
  | setNode (node : TypeSignature)
  | setField (field : NodeField)
  | setShape (alter : ArrayShape → ArrayShape)
  | putInto (slot : Slot) (node : TypeSignature)
  | takeFrom (slot : Slot)
  | inside (slot : Slot) (edit : Edit)

namespace Edit

def apply : Edit → TypeSignature → Option TypeSignature
  | .setRow row, signature => some (signature.withRow row)
  | .setNode node, signature => some (node.withRow signature.row)
  | .setField field, signature => signature.withField? field
  | .setShape alter, signature => signature.withShape? alter
  | .putInto slot node, signature => node.fill? slot signature
  | .takeFrom slot, signature => signature.slot? slot
  | .inside slot edit, signature => do
    let inner ← signature.slot? slot
    let edited ← edit.apply inner
    signature.fill? slot edited

/-- The edits one after the other. One that is not done leaves the signature as it is. -/
def run : List Edit → TypeSignature → TypeSignature
  | [], signature => signature
  | edit :: rest, signature => run rest ((edit.apply signature).getD signature)

end Edit

end CliMetadata
