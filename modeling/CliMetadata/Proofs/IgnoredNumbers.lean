import CliMetadata.Proofs.RowNumbers
import CliMetadata.Proofs.Writing

/-!
What does not depend on row numbers. A signature without its numbers is written, named and
classified as it is with them, and it is about the same type. The tokens that are asked for are
those of handles, which numbers inside of the rows do not change.
-/

namespace CliMetadata

namespace TypeSignature

/-- The answer to the question is the same without the numbers. -/
def IgnoresNumbers {α : Type} (asked : TypeSignature → α) : Prop :=
  ∀ signature : TypeSignature, asked signature.unnumbered = asked signature

namespace IgnoresNumbers

variable {α : Type} {asked : TypeSignature → α}

theorem congr (h : IgnoresNumbers asked) {signature other : TypeSignature}
    (same : signature.same other) : asked signature = asked other := by
  calc asked signature
    _ = asked signature.unnumbered := (h signature).symm
    _ = asked other.unnumbered := by rw [same_iff_unnumbered.mp same]
    _ = asked other := h other

/-- A question about nodes, for which the number of the root does not matter, and whose answer is
made from the answers for the types and the row of a node. -/
theorem of_mapNode
    (root : ∀ (signature : TypeSignature) (row : Nat),
      asked (signature.withRow row) = asked signature)
    (node : ∀ signature : TypeSignature,
      (∀ type ∈ signature.types, asked type.unnumbered = asked type) →
      (∀ row ∈ signature.specifications, asked row.unnumbered = asked row) →
      asked (signature.mapNode unnumbered unnumbered) = asked signature) :
    IgnoresNumbers asked := by
  intro signature
  induction signature using induction_components with
  | node signature types rows => rw [unnumbered_eq, root, node signature types rows]

end IgnoresNumbers

theorem denoted_withRow (signature : TypeSignature) (row : Nat) :
    (signature.withRow row).denoted = signature.denoted := by
  cases signature with
  | primitive _ tag type => cases type <;> rfl
  | _ => rfl

theorem denoted_ignores : IgnoresNumbers denoted :=
  .of_mapNode denoted_withRow fun _ types rows => denoted_mapNode types rows

theorem leafToken?_withRow (signature : TypeSignature) (row : Nat) :
    (signature.withRow row).leafToken? = signature.leafToken? := by
  cases signature <;> rfl

theorem leafToken?_ignores : IgnoresNumbers leafToken? :=
  .of_mapNode leafToken?_withRow fun _ types _ => leafToken?_mapNode types

theorem tag_ignores : IgnoresNumbers tag := by
  intro signature
  cases signature with
  | wrapped row wrapper next => cases wrapper <;> rfl
  | _ => rfl

theorem nodeChars_withRow (style : NameStyle) (inner : TypeSignature → List Char)
    (signature : TypeSignature) (row : Nat) :
    (signature.withRow row).nodeChars style inner = signature.nodeChars style inner := by
  cases signature with
  | primitive _ tag type => cases type <;> rfl
  | _ => rfl

theorem nameWithin_ignores (style : NameStyle) (levels : Nat) :
    IgnoresNumbers (nameWithin style levels) := by
  -- Types and rows are both written with one level less, so the levels carry the induction.
  induction levels with
  | zero => exact fun _ => rfl
  | succ levels ih =>
      intro signature
      show nodeChars style (nameWithin style levels) signature.unnumbered =
        nodeChars style (nameWithin style levels) signature
      rw [unnumbered_eq, nodeChars_withRow]
      apply nodeChars_mapNode
      · exact fun type _ => ih type
      · exact fun type _ => assembly?_of_denoted (denoted_ignores type)
      · exact fun row _ => ih row

theorem encode_withRow (signature : TypeSignature) (row : Nat) :
    (signature.withRow row).encode = signature.encode := by
  cases signature <;> rfl

theorem encode_mapNode {inside behind : TypeSignature → TypeSignature} {signature : TypeSignature}
    (types : ∀ type ∈ signature.types, (inside type).encode = type.encode) :
    (signature.mapNode inside behind).encode = signature.encode := by
  cases signature with
  | primitive | typeVar | methodVar | sentinel => rfl
  | named row kind handle =>
      rw [mapNode, encode, TypeHandle.encode, handle.token_mapSpecification, encode,
        TypeHandle.encode]
  | functionPointer row method =>
      rw [mapNode, encode, MethodSignature.encode_mapParts types, encode]
  | instantiation row kind generic arguments =>
      have body : encodeAll (arguments.map inside) = encodeAll arguments := by
        rw [encodeAll_eq, encodeAll_eq]
        exact encodeEach_map_congr types
      rw [mapNode, encode, TypeHandle.encode, generic.token_mapSpecification, body,
        List.length_map, encode, TypeHandle.encode]
  | wrapped row wrapper next =>
      have inner : (inside next).encode = next.encode := types next (List.mem_singleton_self next)
      have before : (wrapper.mapSpecification behind).encodeBefore = wrapper.encodeBefore := by
        cases wrapper with
        | modifier kind handle => exact congrArg Compressed.encodeToken handle.token_mapSpecification
        | _ => rfl
      have after : (wrapper.mapSpecification behind).encodeBehind = wrapper.encodeBehind := by
        cases wrapper <;> rfl
      have tag : (wrapper.mapSpecification behind).tag = wrapper.tag := by
        cases wrapper <;> rfl
      rw [mapNode, encode, inner, before, after, tag, encode]

theorem encode_ignores : IgnoresNumbers encode :=
  .of_mapNode encode_withRow fun _ types _ => encode_mapNode types

end TypeSignature

/-- What is known of a handle without looking into its row. -/
def TypeHandle.outside (handle : TypeHandle) : Token × Bool := (handle.token, handle.isResolved)

theorem TypeHandle.outside_mapSpecification {behind : TypeSignature → TypeSignature}
    (handle : TypeHandle) : (handle.mapSpecification behind).outside = handle.outside := by
  rw [outside, token_mapSpecification, isResolved_mapSpecification, outside]

namespace TypeSignature

theorem handles_withRow (signature : TypeSignature) (row : Nat) :
    (signature.withRow row).handles = signature.handles := by
  cases signature <;> rfl

theorem outside_handles_flatMap {inside : TypeSignature → TypeSignature}
    (signatures : List TypeSignature)
    (h : ∀ t ∈ signatures, (inside t).handles.map TypeHandle.outside =
      t.handles.map TypeHandle.outside) :
    ((signatures.map inside).flatMap handles).map TypeHandle.outside =
      (signatures.flatMap handles).map TypeHandle.outside := by
  rw [List.map_flatMap, List.map_flatMap, List.flatMap_map]
  exact List.flatMap_congr h

theorem outside_handles_mapNode {inside behind : TypeSignature → TypeSignature}
    {signature : TypeSignature}
    (types : ∀ type ∈ signature.types, (inside type).handles.map TypeHandle.outside =
      type.handles.map TypeHandle.outside) :
    (signature.mapNode inside behind).handles.map TypeHandle.outside =
      signature.handles.map TypeHandle.outside := by
  cases signature with
  | primitive | typeVar | methodVar | sentinel => rfl
  | named row kind handle => exact congrArg (· :: []) handle.outside_mapSpecification
  | functionPointer row method =>
      have parts := outside_handles_flatMap method.parts types
      rw [mapNode, handles, MethodSignature.handles_eq, MethodSignature.parts_mapParts, parts,
        handles, MethodSignature.handles_eq]
  | instantiation row kind generic arguments =>
      have inner := outside_handles_flatMap arguments types
      rw [mapNode, handles, handlesOfAll_eq, List.map_cons, generic.outside_mapSpecification, inner,
        handles, handlesOfAll_eq, List.map_cons]
  | wrapped row wrapper next =>
      have own : (wrapper.mapSpecification behind).handles.map TypeHandle.outside =
          wrapper.handles.map TypeHandle.outside := by
        cases wrapper with
        | modifier kind handle => exact congrArg (· :: []) handle.outside_mapSpecification
        | _ => rfl
      have inner := types next (List.mem_singleton_self next)
      rw [mapNode, handles, List.map_append, own, inner, handles, List.map_append]

theorem outside_handles_ignores :
    IgnoresNumbers fun signature => signature.handles.map TypeHandle.outside :=
  .of_mapNode (fun signature row => by rw [handles_withRow])
    fun _ types _ => outside_handles_mapNode types

theorem unresolvedTokens_eq (signature : TypeSignature) : signature.unresolvedTokens =
    ((signature.handles.map TypeHandle.outside).filter fun known => !known.2).map Prod.fst := by
  rw [List.filter_map, List.map_map]
  rfl

theorem unresolvedTokens_ignores : IgnoresNumbers unresolvedTokens := by
  intro signature
  have outside : signature.unnumbered.handles.map TypeHandle.outside =
      signature.handles.map TypeHandle.outside := outside_handles_ignores signature
  rw [unresolvedTokens_eq, outside, unresolvedTokens_eq]

theorem withoutModifiers_unnumbered (signature : TypeSignature) :
    signature.unnumbered.withoutModifiers = signature.withoutModifiers.unnumbered := by
  induction signature with
  | wrapped row wrapper next ih =>
      cases wrapper with
      | modifier kind handle => exact ih
      | _ => rfl
  | _ => rfl

theorem withoutPinned_unnumbered (signature : TypeSignature) :
    signature.unnumbered.withoutPinned = signature.withoutPinned.unnumbered := by
  cases signature with
  | wrapped row wrapper next => cases wrapper <;> rfl
  | _ => rfl

theorem core_unnumbered (signature : TypeSignature) :
    signature.unnumbered.core = signature.core.unnumbered := by
  rw [core, withoutModifiers_unnumbered, withoutPinned_unnumbered, withoutModifiers_unnumbered,
    core]

theorem argumentCount_ignores : IgnoresNumbers argumentCount := by
  intro signature
  rw [argumentCount, core_unnumbered, argumentCount]
  cases signature.core with
  | instantiation row kind generic arguments =>
      show (unnumberedAll arguments).length = arguments.length
      rw [unnumberedAll_eq, List.length_map]
  | _ => rfl

theorem isValueType_ignores : IgnoresNumbers isValueType := by
  intro signature
  rw [isValueType, core_unnumbered, isValueType]
  cases signature.core with
  | wrapped row wrapper next => cases wrapper <;> rfl
  | _ => rfl

end TypeSignature

end CliMetadata
