import CliMetadata.Proofs.Nodes

/-!
What a name is made of. The name of a node can have the names of the types right below it, and of
the signatures behind its handles. These are the components of the node, and the nesting of a name
counts through them: a row behind a handle is one level below the node that has the handle.
-/

namespace CliMetadata

/-- The row behind the handle of a wrapper, if it is a signature. -/
def Wrapper.specifications : Wrapper → List TypeSignature
  | .modifier _ handle => handle.specification?.toList
  | _ => []

/-- The signatures whose names may stand in the name of a node: the types right below it and the
rows behind its handles. -/
def TypeSignature.components : TypeSignature → List TypeSignature
  | .named _ _ handle => handle.specification?.toList
  | .functionPointer _ method => method.parts
  | .instantiation _ _ generic arguments => generic.specification?.toList ++ arguments
  | .wrapped _ wrapper next => wrapper.specifications ++ [next]
  | .primitive _ _ _ | .typeVar _ _ | .methodVar _ _ | .sentinel _ => []

mutual

/-- How many nodes lie on the longest way from the root to a leaf, where ways go on through the
rows behind handles. -/
def TypeSignature.renderedNesting : TypeSignature → Nat
  | .named _ _ handle => handle.renderedNesting + 1
  | .functionPointer _ method => method.renderedNesting + 1
  | .instantiation _ _ generic arguments =>
    max generic.renderedNesting (TypeSignature.renderedNestingOfAll arguments) + 1
  | .wrapped _ wrapper next => max wrapper.renderedNesting next.renderedNesting + 1
  | .primitive _ _ _ | .typeVar _ _ | .methodVar _ _ | .sentinel _ => 1

def Wrapper.renderedNesting : Wrapper → Nat
  | .modifier _ handle => handle.renderedNesting
  | .pointer | .byRef | .vector | .pinned | .array _ | .valueArray _ | .scoped _ => 0

def MethodSignature.renderedNesting : MethodSignature → Nat
  | ⟨_, _, result, params, varargs⟩ =>
    max result.renderedNesting (max (TypeSignature.renderedNestingOfAll params)
      (TypeSignature.renderedNestingOfVarargs varargs))

def TypeHandle.renderedNesting : TypeHandle → Nat
  | ⟨_, target⟩ => TypeRow.renderedNestingOfTarget target

def TypeRow.renderedNestingOfTarget : Option TypeRow → Nat
  | none => 0
  | some row => row.renderedNesting

def TypeRow.renderedNesting : TypeRow → Nat
  | .definition _ | .reference _ => 0
  | .specification signature => signature.renderedNesting

def TypeSignature.renderedNestingOfAll : List TypeSignature → Nat
  | [] => 0
  | signature :: rest =>
    max signature.renderedNesting (TypeSignature.renderedNestingOfAll rest)

def TypeSignature.renderedNestingOfVarargs : Option (List TypeSignature) → Nat
  | none => 0
  | some signatures => TypeSignature.renderedNestingOfAll signatures

end

theorem TypeHandle.renderedNesting_le_iff {handle : TypeHandle} {levels : Nat} :
    handle.renderedNesting ≤ levels ↔
      ∀ t ∈ handle.specification?.toList, t.renderedNesting ≤ levels := by
  obtain ⟨token, target⟩ := handle
  rcases target with _ | type | type | signature <;>
    simp [renderedNesting, TypeRow.renderedNestingOfTarget, TypeRow.renderedNesting, specification?]

theorem Wrapper.renderedNesting_le_iff {wrapper : Wrapper} {levels : Nat} :
    wrapper.renderedNesting ≤ levels ↔
      ∀ t ∈ wrapper.specifications, t.renderedNesting ≤ levels := by
  cases wrapper with
  | modifier kind handle => exact TypeHandle.renderedNesting_le_iff
  | _ => simp [renderedNesting, specifications]

theorem TypeSignature.renderedNestingOfAll_le_iff {signatures : List TypeSignature}
    {levels : Nat} :
    renderedNestingOfAll signatures ≤ levels ↔ ∀ t ∈ signatures, t.renderedNesting ≤ levels := by
  induction signatures with
  | nil => simp [renderedNestingOfAll]
  | cons signature rest ih => rw [renderedNestingOfAll, Nat.max_le, ih, List.forall_mem_cons]

theorem MethodSignature.renderedNesting_le_iff {method : MethodSignature} {levels : Nat} :
    method.renderedNesting ≤ levels ↔ ∀ part ∈ method.parts, part.renderedNesting ≤ levels := by
  obtain ⟨convention, genericCount, result, params, varargs⟩ := method
  rw [renderedNesting, forall_parts_iff, Nat.max_le, Nat.max_le,
    TypeSignature.renderedNestingOfAll_le_iff]
  refine and_congr_right' (and_congr_right' ?_)
  cases varargs with
  | none => exact iff_of_true (Nat.zero_le _) nofun
  | some varargs => exact TypeSignature.renderedNestingOfAll_le_iff

namespace TypeSignature

theorem renderedNesting_pos (signature : TypeSignature) : 0 < signature.renderedNesting := by
  cases signature <;> simp [renderedNesting]

theorem renderedNesting_le_succ_iff {signature : TypeSignature} {levels : Nat} :
    signature.renderedNesting ≤ levels + 1 ↔
      ∀ component ∈ signature.components, component.renderedNesting ≤ levels := by
  cases signature with
  | primitive | typeVar | methodVar | sentinel => simp [renderedNesting, components]
  | named row kind handle =>
      rw [renderedNesting, components, Nat.add_le_add_iff_right, TypeHandle.renderedNesting_le_iff]
  | functionPointer row method =>
      rw [renderedNesting, components, Nat.add_le_add_iff_right,
        MethodSignature.renderedNesting_le_iff]
  | instantiation row kind generic arguments =>
      rw [renderedNesting, components, Nat.add_le_add_iff_right, Nat.max_le,
        TypeHandle.renderedNesting_le_iff, renderedNestingOfAll_le_iff, List.forall_mem_append]
  | wrapped row wrapper next =>
      rw [renderedNesting, components, Nat.add_le_add_iff_right, Nat.max_le,
        Wrapper.renderedNesting_le_iff, List.forall_mem_append, List.forall_mem_singleton]

end TypeSignature

end CliMetadata
