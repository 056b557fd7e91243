import CliMetadata.Proofs.NameLimits
import CliMetadata.Proofs.Rebuilding

/-!
Signatures without modifiers and without marks of pinned locals. Reflection names leave such nodes
out, and what a signature is about is asked of the type that they wrap. So nothing changes but the
tree when they are erased, wherever they stand.
-/

namespace CliMetadata

/-- How far an erasure goes: through the nodes of a signature, or through the rows behind its
handles as well. -/
inductive Reach where
  | tree
  | rows
deriving DecidableEq, Repr

mutual

/-- The signature without modifiers and marks of pinned locals. -/
def TypeSignature.erase (reach : Reach) : TypeSignature → TypeSignature
  | .primitive row tag type => .primitive row tag type
  | .named row kind handle => .named row kind (handle.erase reach)
  | .typeVar row index => .typeVar row index
  | .methodVar row index => .methodVar row index
  | .sentinel row => .sentinel row
  | .functionPointer row method => .functionPointer row (method.erase reach)
  | .instantiation row kind generic arguments =>
    .instantiation row kind (generic.erase reach) (TypeSignature.eraseAll reach arguments)
  | .wrapped row wrapper next =>
    match wrapper with
    | .modifier _ _ | .pinned => next.erase reach
    | wrapper => .wrapped row wrapper (next.erase reach)

def MethodSignature.erase (reach : Reach) : MethodSignature → MethodSignature
  | ⟨convention, genericCount, result, params, varargs⟩ =>
    ⟨convention, genericCount, result.erase reach, TypeSignature.eraseAll reach params,
      TypeSignature.eraseVarargs reach varargs⟩

def TypeHandle.erase (reach : Reach) : TypeHandle → TypeHandle
  | ⟨token, target⟩ => ⟨token, TypeRow.eraseTarget reach target⟩

def TypeRow.eraseTarget (reach : Reach) : Option TypeRow → Option TypeRow
  | none => none
  | some row => some (row.erase reach)

def TypeRow.erase (reach : Reach) : TypeRow → TypeRow
  | .definition type => .definition type
  | .reference type => .reference type
  | .specification signature =>
    match reach with
    | .tree => .specification signature
    | .rows => .specification (signature.erase .rows)

def TypeSignature.eraseAll (reach : Reach) : List TypeSignature → List TypeSignature
  | [] => []
  | signature :: rest => signature.erase reach :: TypeSignature.eraseAll reach rest

def TypeSignature.eraseVarargs (reach : Reach) :
    Option (List TypeSignature) → Option (List TypeSignature)
  | none => none
  | some signatures => some (TypeSignature.eraseAll reach signatures)

end

/-- What an erasure makes of a row that is a signature. -/
def Reach.behind : Reach → TypeSignature → TypeSignature
  | .tree => id
  | .rows => TypeSignature.erase .rows

theorem TypeHandle.erase_eq (reach : Reach) (handle : TypeHandle) :
    handle.erase reach = handle.mapSpecification reach.behind := by
  obtain ⟨token, target⟩ := handle
  rcases target with _ | type | type | signature
  · rfl
  · rfl
  · rfl
  · cases reach <;> rfl

namespace TypeSignature

theorem eraseAll_eq (reach : Reach) (signatures : List TypeSignature) :
    eraseAll reach signatures = signatures.map (erase reach) := by
  induction signatures with
  | nil => rfl
  | cons signature rest ih => rw [eraseAll, ih, List.map_cons]

end TypeSignature

theorem MethodSignature.erase_eq (reach : Reach) (method : MethodSignature) :
    method.erase reach = method.mapParts (TypeSignature.erase reach) := by
  obtain ⟨convention, genericCount, result, params, varargs⟩ := method
  cases varargs <;> simp [erase, mapParts, TypeSignature.eraseAll_eq, TypeSignature.eraseVarargs]

namespace TypeSignature

variable {reach : Reach}

/-- A node is passed over if it is a modifier or a mark, and rebuilt if it is not. -/
theorem erase_cases (reach : Reach) (signature : TypeSignature) :
    (∃ row wrapper next, signature = .wrapped row wrapper next ∧
      (∀ nameOf name, wrapper.surround .reflection nameOf name = name) ∧
      signature.erase reach = next.erase reach) ∨
    signature.isModifier = false ∧ signature.isPinned = false ∧
      signature.erase reach = signature.mapNode (erase reach) reach.behind := by
  cases signature with
  | primitive | typeVar | methodVar | sentinel => exact .inr ⟨rfl, rfl, rfl⟩
  | named row kind handle =>
      refine .inr ⟨by cases kind <;> rfl, by cases kind <;> rfl, ?_⟩
      rw [erase, handle.erase_eq, mapNode]
  | functionPointer row method =>
      refine .inr ⟨rfl, rfl, ?_⟩
      rw [erase, method.erase_eq, mapNode]
  | instantiation row kind generic arguments =>
      refine .inr ⟨rfl, rfl, ?_⟩
      rw [erase, generic.erase_eq, eraseAll_eq, mapNode]
  | wrapped row wrapper next =>
      cases wrapper with
      | modifier kind handle =>
          exact .inl ⟨row, _, next, rfl, fun _ _ => by cases kind <;> rfl, rfl⟩
      | pinned => exact .inl ⟨row, _, next, rfl, fun _ _ => rfl, rfl⟩
      | _ => exact .inr ⟨rfl, rfl, rfl⟩

theorem denoted_erase (reach : Reach) (signature : TypeSignature) :
    (signature.erase reach).denoted = signature.denoted := by
  induction signature using induction_components with
  | node signature types rows =>
      rcases erase_cases reach signature with ⟨row, wrapper, next, rfl, -, passed⟩ | ⟨-, -, rebuilt⟩
      · rw [passed]
        exact types next (List.mem_singleton_self next)
      · rw [rebuilt]
        apply denoted_mapNode types
        intro row mem
        cases reach with
        | tree => rfl
        | rows => exact rows row mem

theorem leafToken?_erase (signature : TypeSignature) :
    (signature.erase reach).leafToken? = signature.leafToken? := by
  induction signature using induction_components with
  | node signature types rows =>
      rcases erase_cases reach signature with ⟨row, wrapper, next, rfl, -, passed⟩ | ⟨-, -, rebuilt⟩
      · rw [passed]
        exact types next (List.mem_singleton_self next)
      · rw [rebuilt]
        exact leafToken?_mapNode types

theorem assembly?_erase (signature : TypeSignature) :
    (signature.erase reach).assembly? = signature.assembly? :=
  assembly?_of_denoted (denoted_erase reach signature)

/-- Erasing takes levels away, so that a name that is written whole needs no more of them. -/
theorem nameWithin_erase {levels more : Nat} {signature : TypeSignature}
    (nested : signature.renderedNesting ≤ levels) (le : levels ≤ more) :
    nameWithin .reflection more (signature.erase reach) =
      nameWithin .reflection levels signature := by
  induction levels generalizing more signature with
  | zero => exact absurd nested (Nat.not_le_of_lt signature.renderedNesting_pos)
  | succ levels ih =>
      rw [renderedNesting_le_succ_iff, components_eq, List.forall_mem_append] at nested
      obtain ⟨rows, types⟩ := nested
      rcases erase_cases reach signature with
        ⟨row, wrapper, next, rfl, unseen, passed⟩ | ⟨-, -, rebuilt⟩
      · have inside := types next (List.mem_singleton_self next)
        rw [passed, ih inside (Nat.le_of_succ_le le)]
        exact (unseen _ _).symm
      · obtain ⟨more, rfl⟩ := Nat.exists_eq_add_of_le' (Nat.zero_lt_of_lt le)
        have le := Nat.le_of_succ_le_succ le
        rw [rebuilt]
        apply nodeChars_mapNode
        · exact fun type mem => ih (types type mem) le
        · exact fun type _ => assembly?_erase type
        · intro row mem
          cases reach with
          | tree => exact nameWithin_of_nested (rows row mem) le
          | rows => exact ih (rows row mem) le

theorem not_marked_of_mem_nodes_erase {signature node : TypeSignature}
    (mem : node ∈ (signature.erase reach).nodes) :
    node.isModifier = false ∧ node.isPinned = false := by
  induction signature using induction_components with
  | node signature types rows =>
      rcases erase_cases reach signature with
        ⟨row, wrapper, next, rfl, -, passed⟩ | ⟨modifier, pinned, rebuilt⟩
      · rw [passed] at mem
        exact types next (List.mem_singleton_self next) mem
      · rw [rebuilt, mem_nodes_mapNode] at mem
        rcases mem with rfl | ⟨type, below, mem⟩
        · simp only [isModifier, isRequiredModifier, isOptionalModifier, isPinned,
            nodeKind_mapNode] at modifier pinned ⊢
          exact ⟨modifier, pinned⟩
        · exact types type below mem

/-- Modifiers and marks of pinned locals can be erased, in a signature alone or in its rows as
well, and none are left then. A reflection name stays the same, unless it was cut, and a signature
of any nesting is about the same type. -/
theorem erasure_unseen (reach : Reach) (signature : TypeSignature) :
    (∀ node ∈ (signature.erase reach).nodes,
      node.isModifier = false ∧ node.isPinned = false) ∧
    (signature.renderedNesting ≤ maxNesting →
      (signature.erase reach).reflectionFullName = signature.reflectionFullName ∧
      (signature.erase reach).assemblyQualifiedName = signature.assemblyQualifiedName) ∧
    (signature.erase reach).name = signature.name ∧
    (signature.erase reach).ns = signature.ns ∧
    (signature.erase reach).reflectionName = signature.reflectionName ∧
    (signature.erase reach).reflectionNamespace = signature.reflectionNamespace ∧
    (signature.erase reach).leafToken? = signature.leafToken? ∧
    (signature.erase reach).scope = signature.scope ∧
    (signature.erase reach).scopeRow? = signature.scopeRow? ∧
    (signature.erase reach).assembly? = signature.assembly? := by
  obtain ⟨name, ns, reflectionName, reflectionNamespace, scope, scopeRow, -, assembly⟩ :=
    owned_of_denoted (denoted_erase reach signature)
  refine ⟨fun node => not_marked_of_mem_nodes_erase, fun nested => ?_, name, ns, reflectionName,
    reflectionNamespace, leafToken?_erase signature, scope, scopeRow, assembly⟩
  have chars : (signature.erase reach).nameChars .reflection = signature.nameChars .reflection :=
    nameWithin_erase nested (Nat.le_refl maxNesting)
  constructor
  · rw [reflectionFullName, chars, reflectionFullName]
  · rw [assemblyQualifiedName, chars, assembly, assemblyQualifiedName]

/-- Marks around a vector of pairs, around the first of the pair and in the row of the second. -/
def markedPairs : TypeSignature :=
  Nat.repeat (.wrapped 0 .pinned) 44 <| .wrapped 0 .vector <|
    .instantiation 0 .classType
      (.ofRow <| .reference <| .topLevel { token := ⟨0x01000001⟩, ns := "Pairs", name := "Pair`2" })
      [.wrapped 0 (.modifier .optional (.unresolved ⟨0x01000002⟩)) (.typeVar 0 0),
        .named 0 .classType ⟨⟨0x1B000001⟩, some <| .specification <|
          .wrapped 1 (.modifier .required (.unresolved ⟨0x01000003⟩)) <|
            .wrapped 0 .pointer (.methodVar 0 1)⟩]

theorem erasure_unseen_marked_pairs :
    markedPairs.renderedNesting = maxNesting ∧
    (markedPairs.erase .rows).nodes.length = 4 ∧
    markedPairs.reflectionFullName = "Pairs.Pair`2[[!0],[!!1*]][]" ∧
    (markedPairs.erase .rows).reflectionFullName = markedPairs.reflectionFullName := by
  have nested : markedPairs.renderedNesting = maxNesting := by decide +kernel
  have unseen := erasure_unseen .rows markedPairs
  exact ⟨nested, rfl, by decide +kernel, (unseen.2.1 (Nat.le_of_eq nested)).1⟩

end TypeSignature

end CliMetadata
