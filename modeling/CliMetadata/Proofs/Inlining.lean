import CliMetadata.Proofs.NameLimits
import CliMetadata.Proofs.Rebuilding

/-!
Signatures without references to rows that are signatures. A class or value type whose row is a
signature stands for that signature, and writing the signature in its place changes neither names
nor what the whole is about. The generic types of instantiations and the types that modify are no
nodes of their own and keep their rows.
-/

namespace CliMetadata

mutual

/-- The signature with every node that stands for a row replaced by the row. -/
def TypeSignature.inline : TypeSignature → TypeSignature
  | .named row kind handle => handle.inline?.getD (.named row kind handle)
  | .functionPointer row method => .functionPointer row method.inline
  | .instantiation row kind generic arguments =>
    .instantiation row kind generic (TypeSignature.inlineAll arguments)
  | .wrapped row wrapper next => .wrapped row wrapper next.inline
  | .primitive row tag type => .primitive row tag type
  | .typeVar row index => .typeVar row index
  | .methodVar row index => .methodVar row index
  | .sentinel row => .sentinel row

def MethodSignature.inline : MethodSignature → MethodSignature
  | ⟨convention, genericCount, result, params, varargs⟩ =>
    ⟨convention, genericCount, result.inline, TypeSignature.inlineAll params,
      TypeSignature.inlineVarargs varargs⟩

/-- The row behind a handle, if it is a signature, with its own references replaced. -/
def TypeHandle.inline? : TypeHandle → Option TypeSignature
  | ⟨_, target⟩ => TypeRow.inlineTarget? target

def TypeRow.inlineTarget? : Option TypeRow → Option TypeSignature
  | none => none
  | some row => row.inline?

def TypeRow.inline? : TypeRow → Option TypeSignature
  | .definition _ | .reference _ => none
  | .specification signature => some signature.inline

def TypeSignature.inlineAll : List TypeSignature → List TypeSignature
  | [] => []
  | signature :: rest => signature.inline :: TypeSignature.inlineAll rest

def TypeSignature.inlineVarargs : Option (List TypeSignature) → Option (List TypeSignature)
  | none => none
  | some signatures => some (TypeSignature.inlineAll signatures)

end

theorem TypeHandle.inline?_eq (handle : TypeHandle) :
    handle.inline? = handle.specification?.map TypeSignature.inline := by
  obtain ⟨token, target⟩ := handle
  rcases target with _ | type | type | signature <;> rfl

theorem TypeSignature.inlineAll_eq (signatures : List TypeSignature) :
    inlineAll signatures = signatures.map inline := by
  induction signatures with
  | nil => rfl
  | cons signature rest ih => rw [inlineAll, ih, List.map_cons]

theorem MethodSignature.inline_eq (method : MethodSignature) :
    method.inline = method.mapParts TypeSignature.inline := by
  obtain ⟨convention, genericCount, result, params, varargs⟩ := method
  cases varargs <;> simp [inline, mapParts, TypeSignature.inlineAll_eq, TypeSignature.inlineVarargs]

theorem TypeHandle.mapSpecification_id (handle : TypeHandle) :
    handle.mapSpecification id = handle := by
  obtain ⟨token, target⟩ := handle
  rcases target with _ | type | type | signature <;> rfl

theorem Wrapper.mapSpecification_id (wrapper : Wrapper) : wrapper.mapSpecification id = wrapper := by
  cases wrapper with
  | modifier kind handle => rw [mapSpecification, handle.mapSpecification_id]
  | _ => rfl

namespace TypeSignature

/-- The row that a class or a value type stands for. -/
def standsFor? : TypeSignature → Option TypeSignature
  | .named _ _ handle => handle.specification?
  | _ => none

/-- A node that stands for a row is replaced, and every other one is rebuilt. -/
theorem inline_cases (signature : TypeSignature) :
    (∃ row kind handle target, signature = .named row kind handle ∧
      handle.specification? = some target ∧ signature.inline = target.inline) ∨
    signature.standsFor? = none ∧ signature.inline = signature.mapNode inline id := by
  cases signature with
  | primitive | typeVar | methodVar | sentinel => exact .inr ⟨rfl, rfl⟩
  | named row kind handle =>
      cases found : handle.specification? with
      | none =>
          refine .inr ⟨found, ?_⟩
          rw [inline, handle.inline?_eq, found, mapNode, handle.mapSpecification_id]
          rfl
      | some target =>
          refine .inl ⟨row, kind, handle, target, rfl, found, ?_⟩
          rw [inline, handle.inline?_eq, found]
          rfl
  | functionPointer row method => exact .inr ⟨rfl, by rw [inline, method.inline_eq, mapNode]⟩
  | instantiation row kind generic arguments =>
      refine .inr ⟨rfl, ?_⟩
      rw [inline, inlineAll_eq, mapNode, generic.mapSpecification_id]
  | wrapped row wrapper next =>
      refine .inr ⟨rfl, ?_⟩
      rw [inline, mapNode, wrapper.mapSpecification_id]

section

variable {row : Nat} {kind : TypeKind} {handle : TypeHandle} {target : TypeSignature}

theorem mem_specifications (found : handle.specification? = some target) :
    target ∈ (named row kind handle).specifications := by
  rw [specifications, found]
  exact List.mem_singleton_self target

theorem denoted_named (found : handle.specification? = some target) :
    (named row kind handle).denoted = target.denoted := by
  obtain ⟨token, _ | type | type | signature⟩ := handle <;> cases found
  rfl

theorem nameWithin_named {style : NameStyle} {levels : Nat}
    (found : handle.specification? = some target) :
    nameWithin style (levels + 1) (named row kind handle) = nameWithin style levels target := by
  obtain ⟨token, _ | type | type | signature⟩ := handle <;> cases found
  rfl

theorem standsFor?_mapNode {inside : TypeSignature → TypeSignature} (signature : TypeSignature) :
    (signature.mapNode inside id).standsFor? = signature.standsFor? := by
  cases signature with
  | named row kind handle => rw [mapNode, handle.mapSpecification_id]
  | _ => rfl

end

theorem denoted_inline (signature : TypeSignature) :
    signature.inline.denoted = signature.denoted := by
  induction signature using induction_components with
  | node signature types rows =>
      rcases inline_cases signature with
        ⟨row, kind, handle, target, rfl, found, replaced⟩ | ⟨-, rebuilt⟩
      · rw [replaced, rows target (mem_specifications found), denoted_named found]
      · rw [rebuilt]
        exact denoted_mapNode types fun _ _ => rfl

theorem assembly?_inline (signature : TypeSignature) :
    signature.inline.assembly? = signature.assembly? :=
  assembly?_of_denoted (denoted_inline signature)

/-- A replaced node takes a level less, so that a name that is written whole needs no more of
them. -/
theorem nameWithin_inline {style : NameStyle} {levels more : Nat} {signature : TypeSignature}
    (nested : signature.renderedNesting ≤ levels) (le : levels ≤ more) :
    nameWithin style more signature.inline = nameWithin style levels signature := by
  induction levels generalizing more signature with
  | zero => exact absurd nested (Nat.not_le_of_lt signature.renderedNesting_pos)
  | succ levels ih =>
      rw [renderedNesting_le_succ_iff, components_eq, List.forall_mem_append] at nested
      obtain ⟨rows, types⟩ := nested
      rcases inline_cases signature with
        ⟨row, kind, handle, target, rfl, found, replaced⟩ | ⟨-, rebuilt⟩
      · have behind := rows target (mem_specifications found)
        rw [replaced, nameWithin_named found, ih behind (Nat.le_of_succ_le le)]
      · obtain ⟨more, rfl⟩ := Nat.exists_eq_add_of_le' (Nat.zero_lt_of_lt le)
        have le := Nat.le_of_succ_le_succ le
        rw [rebuilt]
        apply nodeChars_mapNode
        · exact fun type mem => ih (types type mem) le
        · exact fun type _ => assembly?_inline type
        · exact fun row mem => nameWithin_of_nested (rows row mem) le

theorem standsFor?_of_mem_nodes_inline {signature node : TypeSignature}
    (mem : node ∈ signature.inline.nodes) : node.standsFor? = none := by
  induction signature using induction_components with
  | node signature types rows =>
      rcases inline_cases signature with
        ⟨row, kind, handle, target, rfl, found, replaced⟩ | ⟨none, rebuilt⟩
      · rw [replaced] at mem
        exact rows target (mem_specifications found) mem
      · rw [rebuilt, mem_nodes_mapNode] at mem
        rcases mem with rfl | ⟨type, below, mem⟩
        · rw [standsFor?_mapNode, none]
        · exact types type below mem

/-- Every class and value type that stands for a row can be replaced by the row, and none that
stands for one is left then. Names stay the same, unless they were cut, and a signature of any
nesting is about the same type. -/
theorem inlining_unseen (signature : TypeSignature) :
    (∀ node ∈ signature.inline.nodes, node.standsFor? = none) ∧
    (signature.renderedNesting ≤ maxNesting →
      signature.inline.fullName = signature.fullName ∧
      signature.inline.reflectionFullName = signature.reflectionFullName ∧
      signature.inline.assemblyQualifiedName = signature.assemblyQualifiedName) ∧
    signature.inline.name = signature.name ∧
    signature.inline.ns = signature.ns ∧
    signature.inline.reflectionName = signature.reflectionName ∧
    signature.inline.reflectionNamespace = signature.reflectionNamespace ∧
    signature.inline.scope = signature.scope ∧
    signature.inline.scopeRow? = signature.scopeRow? ∧
    signature.inline.assembly? = signature.assembly? := by
  obtain ⟨name, ns, reflectionName, reflectionNamespace, scope, scopeRow, -, assembly⟩ :=
    owned_of_denoted (denoted_inline signature)
  refine ⟨fun node => standsFor?_of_mem_nodes_inline, fun nested => ?_, name, ns, reflectionName,
    reflectionNamespace, scope, scopeRow, assembly⟩
  have chars (style : NameStyle) : signature.inline.nameChars style = signature.nameChars style :=
    nameWithin_inline nested (Nat.le_refl maxNesting)
  refine ⟨?_, ?_, ?_⟩
  · rw [fullName, chars, fullName]
  · rw [reflectionFullName, chars, reflectionFullName]
  · rw [assemblyQualifiedName, chars, assembly, assemblyQualifiedName]

/-- Vectors of a row that is a pointer to another row. -/
def vectorsOfRows : TypeSignature :=
  Nat.repeat (.wrapped 0 .vector) 46 <| .named 0 .classType
    ⟨⟨0x1B000001⟩, some <| .specification <| .wrapped 1 .pointer <| .named 0 .valueType
      ⟨⟨0x1B000002⟩, some <| .specification <| .typeVar 2 0⟩⟩

theorem inlining_unseen_vectors_of_rows :
    vectorsOfRows.renderedNesting = maxNesting ∧
    vectorsOfRows.inline = Nat.repeat (.wrapped 0 .vector) 46 (.wrapped 1 .pointer (.typeVar 2 0)) ∧
    vectorsOfRows.inline.fullName = vectorsOfRows.fullName := by
  have nested : vectorsOfRows.renderedNesting = maxNesting := by decide +kernel
  exact ⟨nested, rfl, ((inlining_unseen vectorsOfRows).2.1 (Nat.le_of_eq nested)).1⟩

end TypeSignature

end CliMetadata
