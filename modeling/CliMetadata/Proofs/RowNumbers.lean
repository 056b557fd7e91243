import CliMetadata.Proofs.Rebuilding
import CliMetadata.Signature.Equality

/-!
Signatures without row numbers. Two signatures are the same if and only if they are equal when the
numbers are taken away from them, so that sameness is an equality of trees.
-/

namespace CliMetadata

mutual

/-- The signature with all of its row numbers taken away, in the rows of its handles as well. -/
def TypeSignature.unnumbered : TypeSignature → TypeSignature
  | .primitive _ tag type => .primitive 0 tag type
  | .named _ kind handle => .named 0 kind handle.unnumbered
  | .typeVar _ index => .typeVar 0 index
  | .methodVar _ index => .methodVar 0 index
  | .sentinel _ => .sentinel 0
  | .functionPointer _ method => .functionPointer 0 method.unnumbered
  | .instantiation _ kind generic arguments =>
    .instantiation 0 kind generic.unnumbered (TypeSignature.unnumberedAll arguments)
  | .wrapped _ wrapper next => .wrapped 0 wrapper.unnumbered next.unnumbered

def Wrapper.unnumbered : Wrapper → Wrapper
  | .modifier kind handle => .modifier kind handle.unnumbered
  | wrapper => wrapper

def MethodSignature.unnumbered : MethodSignature → MethodSignature
  | ⟨convention, genericCount, result, params, varargs⟩ =>
    ⟨convention, genericCount, result.unnumbered, TypeSignature.unnumberedAll params,
      TypeSignature.unnumberedVarargs varargs⟩

def TypeHandle.unnumbered : TypeHandle → TypeHandle
  | ⟨token, target⟩ => ⟨token, TypeRow.unnumberedTarget target⟩

def TypeRow.unnumberedTarget : Option TypeRow → Option TypeRow
  | none => none
  | some row => some row.unnumbered

def TypeRow.unnumbered : TypeRow → TypeRow
  | .definition type => .definition type
  | .reference type => .reference type
  | .specification signature => .specification signature.unnumbered

def TypeSignature.unnumberedAll : List TypeSignature → List TypeSignature
  | [] => []
  | signature :: rest => signature.unnumbered :: TypeSignature.unnumberedAll rest

def TypeSignature.unnumberedVarargs :
    Option (List TypeSignature) → Option (List TypeSignature)
  | none => none
  | some signatures => some (TypeSignature.unnumberedAll signatures)

end

theorem TypeHandle.unnumbered_eq (handle : TypeHandle) :
    handle.unnumbered = handle.mapSpecification TypeSignature.unnumbered := by
  obtain ⟨token, target⟩ := handle
  rcases target with _ | type | type | signature <;> rfl

theorem Wrapper.unnumbered_eq (wrapper : Wrapper) :
    wrapper.unnumbered = wrapper.mapSpecification TypeSignature.unnumbered := by
  cases wrapper with
  | modifier kind handle => rw [unnumbered, handle.unnumbered_eq, mapSpecification]
  | _ => rfl

theorem TypeSignature.unnumberedAll_eq (signatures : List TypeSignature) :
    unnumberedAll signatures = signatures.map unnumbered := by
  induction signatures with
  | nil => rfl
  | cons signature rest ih => rw [unnumberedAll, ih, List.map_cons]

theorem MethodSignature.unnumbered_eq (method : MethodSignature) :
    method.unnumbered = method.mapParts TypeSignature.unnumbered := by
  obtain ⟨convention, genericCount, result, params, varargs⟩ := method
  cases varargs <;>
    simp [unnumbered, mapParts, TypeSignature.unnumberedAll_eq, TypeSignature.unnumberedVarargs]

namespace TypeSignature

theorem unnumbered_eq (signature : TypeSignature) :
    signature.unnumbered = (signature.mapNode unnumbered unnumbered).withRow 0 := by
  cases signature with
  | primitive | typeVar | methodVar | sentinel => rfl
  | named row kind handle => rw [unnumbered, handle.unnumbered_eq, mapNode, withRow]
  | functionPointer row method => rw [unnumbered, method.unnumbered_eq, mapNode, withRow]
  | instantiation row kind generic arguments =>
      rw [unnumbered, generic.unnumbered_eq, unnumberedAll_eq, mapNode, withRow]
  | wrapped row wrapper next => rw [unnumbered, wrapper.unnumbered_eq, mapNode, withRow]

theorem unnumbered_functionPointer (row : Nat) (method : MethodSignature) :
    (functionPointer row method).unnumbered = .functionPointer 0 (method.mapParts unnumbered) := by
  rw [unnumbered, method.unnumbered_eq]

theorem unnumbered_instantiation (row : Nat) (kind : TypeKind) (generic : TypeHandle)
    (arguments : List TypeSignature) :
    (instantiation row kind generic arguments).unnumbered =
      .instantiation 0 kind generic.unnumbered (arguments.map unnumbered) := by
  rw [unnumbered, unnumberedAll_eq]

theorem unnumbered_withRow (signature : TypeSignature) (row : Nat) :
    (signature.withRow row).unnumbered = signature.unnumbered := by
  cases signature <;> rfl

theorem row_unnumbered (signature : TypeSignature) : signature.unnumbered.row = 0 := by
  cases signature <;> rfl

theorem withRow_unnumbered (signature : TypeSignature) :
    signature.unnumbered.withRow 0 = signature.unnumbered := by
  cases signature <;> rfl

end TypeSignature

section

/-- Being the same as this signature is being equal to it without the numbers. -/
def TypeSignature.ComparedUnnumbered (signature : TypeSignature) : Prop :=
  ∀ other : TypeSignature, signature.same other ↔ signature.unnumbered = other.unnumbered

open TypeSignature (ComparedUnnumbered)

theorem TypeHandle.same_iff_unnumbered {handle other : TypeHandle}
    (rows : ∀ row ∈ handle.specification?.toList, ComparedUnnumbered row) :
    handle.same other ↔ handle.unnumbered = other.unnumbered := by
  obtain ⟨token, target⟩ := handle
  obtain ⟨otherToken, otherTarget⟩ := other
  rcases target with _ | type | type | signature
  case some.specification =>
    have behind : ∀ other, signature.same other ↔ signature.unnumbered = other.unnumbered :=
      rows signature (List.mem_singleton_self signature)
    rcases otherTarget with _ | type | type | other <;>
      simp [same, TypeRow.sameTarget, TypeRow.same, unnumbered, TypeRow.unnumberedTarget,
        TypeRow.unnumbered, behind]
  all_goals
    rcases otherTarget with _ | type | type | other <;>
      simp [same, TypeRow.sameTarget, TypeRow.same, unnumbered, TypeRow.unnumberedTarget,
        TypeRow.unnumbered]

theorem Wrapper.same_iff_unnumbered {wrapper other : Wrapper}
    (rows : ∀ row ∈ wrapper.specifications, ComparedUnnumbered row) :
    wrapper.same other ↔ wrapper.unnumbered = other.unnumbered := by
  cases wrapper with
  | modifier kind handle =>
      cases other with
      | modifier otherKind otherHandle =>
          simp [same, unnumbered, TypeHandle.same_iff_unnumbered rows]
      | _ => simp [same, unnumbered]
  | _ => cases other <;> simp [same, unnumbered]

theorem TypeSignature.sameAll_iff_unnumbered {signatures others : List TypeSignature}
    (h : ∀ signature ∈ signatures, ComparedUnnumbered signature) :
    sameAll signatures others ↔ signatures.map unnumbered = others.map unnumbered := by
  induction signatures generalizing others with
  | nil => cases others <;> simp [sameAll]
  | cons signature rest ih =>
      obtain ⟨first, tail⟩ := List.forall_mem_cons.mp h
      cases others with
      | nil => simp [sameAll]
      | cons other others =>
          rw [sameAll, Bool.and_eq_true, first other, ih tail, List.map_cons, List.map_cons,
            List.cons.injEq]

theorem TypeSignature.sameVarargs_iff_unnumbered {varargs others : Option (List TypeSignature)}
    (h : ∀ vararg ∈ varargs.getD [], ComparedUnnumbered vararg) :
    sameVarargs varargs others ↔
      varargs.map (List.map unnumbered) = others.map (List.map unnumbered) := by
  cases varargs with
  | none => cases others <;> simp [sameVarargs]
  | some signatures =>
      cases others with
      | none => simp [sameVarargs]
      | some others =>
          rw [Option.getD_some] at h
          rw [sameVarargs, sameAll_iff_unnumbered h, Option.map_some, Option.map_some,
            Option.some.injEq]

theorem MethodSignature.same_iff_unnumbered {method other : MethodSignature}
    (h : ∀ part ∈ method.parts, ComparedUnnumbered part) :
    method.same other ↔ method.unnumbered = other.unnumbered := by
  obtain ⟨result, params, varargs⟩ := forall_parts_iff.mp h
  obtain ⟨convention, genericCount, _, _, _⟩ := method
  obtain ⟨otherConvention, otherCount, otherResult, _, _⟩ := other
  rw [unnumbered_eq, unnumbered_eq]
  simp only [same, mapParts, Bool.and_eq_true, decide_eq_true_eq, result otherResult,
    TypeSignature.sameAll_iff_unnumbered params, TypeSignature.sameVarargs_iff_unnumbered varargs,
    mk.injEq, and_assoc]

theorem TypeSignature.same_iff_unnumbered {signature other : TypeSignature} :
    signature.same other ↔ signature.unnumbered = other.unnumbered := by
  suffices compared : ComparedUnnumbered signature from compared other
  induction signature using induction_components with
  | node signature types rows =>
      intro other
      -- Nodes of two constructors are neither the same nor equal without numbers.
      cases signature with
      | primitive | typeVar | methodVar | sentinel => cases other <;> simp [same, unnumbered]
      | named row kind handle =>
          cases other with
          | named => simp [same, unnumbered, TypeHandle.same_iff_unnumbered rows]
          | _ => simp [same, unnumbered]
      | functionPointer row method =>
          cases other with
          | functionPointer => simp [same, unnumbered, MethodSignature.same_iff_unnumbered types]
          | _ => simp [same, unnumbered]
      | instantiation row kind generic arguments =>
          have inside : ∀ others, sameAll arguments others ↔
              arguments.map unnumbered = others.map unnumbered :=
            fun others => sameAll_iff_unnumbered types
          cases other with
          | instantiation =>
              simp [same, unnumbered, unnumberedAll_eq, TypeHandle.same_iff_unnumbered rows,
                inside, and_assoc]
          | _ => simp [same, unnumbered]
      | wrapped row wrapper next =>
          have below : ∀ other, next.same other ↔ next.unnumbered = other.unnumbered :=
            types next (List.mem_singleton_self next)
          cases other with
          | wrapped => simp [same, unnumbered, Wrapper.same_iff_unnumbered rows, below]
          | _ => simp [same, unnumbered]

theorem TypeSignature.rel_same_iff_unnumbered {edited other : Option TypeSignature} :
    Option.Rel (fun t t' => t.same t') edited other ↔
      edited.map unnumbered = other.map unnumbered := by
  cases edited <;> cases other <;> simp [same_iff_unnumbered]

end

end CliMetadata
