import CliMetadata.Proofs.Building

/-!
Signatures rebuilt node by node. A node holds types right below it, and there may be a signature in
the row behind its handle. With others in their places it is the same node to whoever asks if they
are the same: names and ownership look below a node and behind its handle only by asking the same
question again.
-/

namespace CliMetadata

namespace TypeHandle

/-- The handle with another signature in its row, if its row is one. -/
def mapSpecification (f : TypeSignature → TypeSignature) : TypeHandle → TypeHandle
  | ⟨token, some (.specification signature)⟩ => ⟨token, some (.specification (f signature))⟩
  | handle => handle

end TypeHandle

def Wrapper.mapSpecification (f : TypeSignature → TypeSignature) : Wrapper → Wrapper
  | .modifier kind handle => .modifier kind (handle.mapSpecification f)
  | wrapper => wrapper

namespace TypeSignature

/-- The types right below a node. -/
def types : TypeSignature → List TypeSignature
  | .functionPointer _ method => method.parts
  | .instantiation _ _ _ arguments => arguments
  | .wrapped _ _ next => [next]
  | .primitive _ _ _ | .named _ _ _ | .typeVar _ _ | .methodVar _ _ | .sentinel _ => []

/-- The row behind the handle of a node, if it is a signature. -/
def specifications : TypeSignature → List TypeSignature
  | .named _ _ handle | .instantiation _ _ handle _ => handle.specification?.toList
  | .wrapped _ wrapper _ => wrapper.specifications
  | .primitive _ _ _ | .typeVar _ _ | .methodVar _ _ | .sentinel _ | .functionPointer _ _ => []

theorem components_eq (signature : TypeSignature) :
    signature.components = signature.specifications ++ signature.types := by
  cases signature with
  | named row kind handle => exact (List.append_nil _).symm
  | _ => rfl

theorem nodes_eq (signature : TypeSignature) :
    signature.nodes = signature :: signature.types.flatMap nodes := by
  cases signature with
  | functionPointer row method => rw [nodes, method.nodes_eq, types]
  | instantiation row kind generic arguments => rw [nodes, nodesOfAll_eq, types]
  | wrapped row wrapper next => rw [nodes, types, List.flatMap_singleton]
  | primitive | named | typeVar | methodVar | sentinel => rfl

/-- Induction on a signature that goes through the rows behind handles as well. -/
theorem induction_components {motive : TypeSignature → Prop}
    (node : ∀ signature : TypeSignature, (∀ type ∈ signature.types, motive type) →
      (∀ row ∈ signature.specifications, motive row) → motive signature)
    (signature : TypeSignature) : motive signature := by
  have within (levels : Nat) (signature : TypeSignature)
      (nested : signature.renderedNesting ≤ levels) : motive signature := by
    induction levels generalizing signature with
    | zero => exact absurd nested (Nat.not_le_of_lt signature.renderedNesting_pos)
    | succ levels ih =>
        rw [renderedNesting_le_succ_iff, components_eq, List.forall_mem_append] at nested
        apply node
        · exact fun type mem => ih type (nested.2 type mem)
        · exact fun row mem => ih row (nested.1 row mem)
  exact within _ signature (Nat.le_refl _)

/-- The node with other types right below it and another signature in its row. -/
def mapNode (inside behind : TypeSignature → TypeSignature) : TypeSignature → TypeSignature
  | .named row kind handle => .named row kind (handle.mapSpecification behind)
  | .functionPointer row method => .functionPointer row (method.mapParts inside)
  | .instantiation row kind generic arguments =>
    .instantiation row kind (generic.mapSpecification behind) (arguments.map inside)
  | .wrapped row wrapper next => .wrapped row (wrapper.mapSpecification behind) (inside next)
  | leaf => leaf

end TypeSignature

section

variable {inside behind : TypeSignature → TypeSignature}

namespace TypeHandle

theorem token_mapSpecification (handle : TypeHandle) :
    (handle.mapSpecification behind).token = handle.token := by
  obtain ⟨token, target⟩ := handle
  rcases target with _ | type | type | signature <;> rfl

theorem isResolved_mapSpecification (handle : TypeHandle) :
    (handle.mapSpecification behind).isResolved = handle.isResolved := by
  obtain ⟨token, target⟩ := handle
  rcases target with _ | type | type | signature <;> rfl

theorem denoted_mapSpecification {handle : TypeHandle}
    (h : ∀ row ∈ handle.specification?.toList, (behind row).denoted = row.denoted) :
    (handle.mapSpecification behind).denoted = handle.denoted := by
  obtain ⟨token, target⟩ := handle
  rcases target with _ | type | type | signature
  · rfl
  · rfl
  · rfl
  · exact h signature (List.mem_singleton_self signature)

theorem nameChars_mapSpecification {style : NameStyle} {inner other : TypeSignature → List Char}
    {handle : TypeHandle}
    (h : ∀ row ∈ handle.specification?.toList, inner (behind row) = other row) :
    (handle.mapSpecification behind).nameChars style inner = handle.nameChars style other := by
  obtain ⟨token, target⟩ := handle
  rcases target with _ | type | type | signature
  · rfl
  · rfl
  · rfl
  · exact h signature (List.mem_singleton_self signature)

end TypeHandle

namespace TypeSignature

variable {signature : TypeSignature}

theorem types_mapNode :
    (signature.mapNode inside behind).types = signature.types.map inside := by
  cases signature with
  | functionPointer row method => exact method.parts_mapParts inside
  | _ => rfl

theorem mem_nodes_mapNode {node : TypeSignature} :
    node ∈ (signature.mapNode inside behind).nodes ↔
      node = signature.mapNode inside behind ∨ ∃ type ∈ signature.types, node ∈ (inside type).nodes := by
  rw [nodes_eq, types_mapNode, List.flatMap_map, List.mem_cons, List.mem_flatMap]

theorem nodeKind_mapNode :
    (signature.mapNode inside behind).nodeKind = signature.nodeKind := by
  cases signature with
  | wrapped row wrapper next =>
      cases wrapper with
      | modifier kind handle => cases kind <;> rfl
      | _ => rfl
  | named row kind handle => cases kind <;> rfl
  | _ => rfl

theorem denoted_mapNode (types : ∀ type ∈ signature.types, (inside type).denoted = type.denoted)
    (rows : ∀ row ∈ signature.specifications, (behind row).denoted = row.denoted) :
    (signature.mapNode inside behind).denoted = signature.denoted := by
  cases signature with
  | named row kind handle => exact TypeHandle.denoted_mapSpecification rows
  | instantiation row kind generic arguments => exact TypeHandle.denoted_mapSpecification rows
  | wrapped row wrapper next => exact types next (List.mem_singleton_self next)
  | primitive | typeVar | methodVar | sentinel | functionPointer => rfl

/-- What depends on nothing but what a signature comes down to. -/
theorem owned_of_denoted {other : TypeSignature} (about : signature.denoted = other.denoted) :
    signature.name = other.name ∧
    signature.ns = other.ns ∧
    signature.reflectionName = other.reflectionName ∧
    signature.reflectionNamespace = other.reflectionNamespace ∧
    signature.scope = other.scope ∧
    signature.scopeRow? = other.scopeRow? ∧
    signature.ownerModule? = other.ownerModule? ∧
    signature.assembly? = other.assembly? := by
  have scope_eq : signature.scope = other.scope := by rw [scope, about, scope]
  refine ⟨?_, ?_, ?_, ?_, scope_eq, ?_, ?_, ?_⟩
  · rw [name, about, name]
  · rw [ns, about, ns]
  · rw [reflectionName, about, reflectionName]
  · rw [reflectionNamespace, about, reflectionNamespace]
  · rw [scopeRow?, about, scopeRow?]
  · rw [ownerModule?, scope_eq, ownerModule?]
  · rw [assembly?, scope_eq, assembly?]

theorem assembly?_of_denoted {other : TypeSignature} (about : signature.denoted = other.denoted) :
    signature.assembly? = other.assembly? := by
  obtain ⟨-, -, -, -, -, -, -, assembly⟩ := owned_of_denoted about
  exact assembly

theorem leafToken?_mapNode
    (types : ∀ type ∈ signature.types, (inside type).leafToken? = type.leafToken?) :
    (signature.mapNode inside behind).leafToken? = signature.leafToken? := by
  cases signature with
  | named row kind handle => exact congrArg some handle.token_mapSpecification
  | instantiation row kind generic arguments =>
      exact congrArg some generic.token_mapSpecification
  | wrapped row wrapper next => exact types next (List.mem_singleton_self next)
  | primitive | typeVar | methodVar | sentinel | functionPointer => rfl

end TypeSignature

section

variable {style : NameStyle} {inner other : TypeSignature → List Char}

theorem MethodSignature.nameChars_mapParts {method : MethodSignature}
    (h : ∀ part ∈ method.parts, inner (inside part) = other part) :
    (method.mapParts inside).nameChars inner = method.nameChars other := by
  obtain ⟨hresult, hparams, hvarargs⟩ := forall_parts_iff.mp h
  have params : (method.params.map inside).map inner = method.params.map other := by
    rw [List.map_map]
    exact List.map_congr_left hparams
  have varargs (printed : Bool) : Build.variableChars inner printed
      (method.varargs.map (List.map inside)) = Build.variableChars other printed method.varargs := by
    cases all : method.varargs with
    | none => rfl
    | some varargs =>
        rw [all] at hvarargs
        have written : (varargs.map inside).map inner = varargs.map other := by
          rw [List.map_map]
          exact List.map_congr_left hvarargs
        rw [Option.map_some, Build.variableChars, Build.variableChars, written]
  rw [Build.methodChars_eq, Build.methodChars_eq, mapParts]
  simp only [hresult, params, varargs, List.isEmpty_map]
  rfl

theorem Wrapper.surround_mapSpecification {wrapper : Wrapper}
    (h : ∀ row ∈ wrapper.specifications, inner (behind row) = other row) (name : List Char) :
    (wrapper.mapSpecification behind).surround style (TypeHandle.nameChars style inner) name =
      wrapper.surround style (TypeHandle.nameChars style other) name := by
  cases wrapper with
  | modifier kind handle =>
      cases style with
      | display =>
          have same : (handle.mapSpecification behind).nameChars .display inner =
              handle.nameChars .display other :=
            TypeHandle.nameChars_mapSpecification h
          have back : backChars .display (TypeHandle.nameChars .display inner)
                (.modifier kind (handle.mapSpecification behind)) =
              backChars .display (TypeHandle.nameChars .display other) (.modifier kind handle) :=
            congrArg (fun text => Build.modifierName kind ++ (text ++ [')'])) same
          rw [surround_eq, surround_eq, mapSpecification, back]
          rfl
      | reflection => cases kind <;> rfl
  | pinned => cases style <;> rfl
  | pointer | byRef | vector | array | valueArray | «scoped» => rfl

namespace TypeSignature

theorem argumentChars_map {arguments : List TypeSignature}
    (h : ∀ argument ∈ arguments, inner (inside argument) = other argument)
    (assembly : ∀ argument ∈ arguments, (inside argument).assembly? = argument.assembly?) :
    argumentChars style inner (arguments.map inside) = argumentChars style other arguments := by
  cases style with
  | display =>
      have written : (arguments.map inside).map inner = arguments.map other := by
        rw [List.map_map]
        exact List.map_congr_left h
      rw [argumentChars, argumentChars, written]
  | reflection =>
      have written : (arguments.map inside).map (fun argument =>
            '[' :: qualified (inner argument) argument.assembly? ++ [']']) =
          arguments.map fun argument =>
            '[' :: qualified (other argument) argument.assembly? ++ [']'] := by
        rw [List.map_map]
        apply List.map_congr_left
        intro argument mem
        rw [Function.comp_apply, h argument mem, assembly argument mem]
      rw [argumentChars, argumentChars, written]

/-- A node whose types and row are named as the old ones were, and whose types are in the same
assemblies, has the same name. -/
theorem nodeChars_mapNode {signature : TypeSignature}
    (types : ∀ type ∈ signature.types, inner (inside type) = other type)
    (assembly : ∀ type ∈ signature.types, (inside type).assembly? = type.assembly?)
    (rows : ∀ row ∈ signature.specifications, inner (behind row) = other row) :
    (signature.mapNode inside behind).nodeChars style inner = signature.nodeChars style other := by
  cases signature with
  | primitive row tag type => cases type <;> rfl
  | typeVar | methodVar | sentinel => rfl
  | named row kind handle => exact TypeHandle.nameChars_mapSpecification rows
  | functionPointer row method =>
      cases style with
      | display => exact MethodSignature.nameChars_mapParts fun part mem => types part mem
      | reflection => rfl
  | instantiation row kind generic arguments =>
      have front : (generic.mapSpecification behind).nameChars style inner =
          generic.nameChars style other :=
        TypeHandle.nameChars_mapSpecification rows
      have back : argumentChars style inner (arguments.map inside) =
          argumentChars style other arguments :=
        argumentChars_map types assembly
      show _ ++ argumentChars style inner (arguments.map inside) = _
      rw [front, back]
      rfl
  | wrapped row wrapper next =>
      calc (wrapper.mapSpecification behind).surround style (TypeHandle.nameChars style inner)
              (inner (inside next))
        _ = (wrapper.mapSpecification behind).surround style (TypeHandle.nameChars style inner)
              (other next) := by
          rw [types next (List.mem_singleton_self next)]
        _ = wrapper.surround style (TypeHandle.nameChars style other) (other next) :=
          Wrapper.surround_mapSpecification rows _

end TypeSignature

end

end

end CliMetadata
