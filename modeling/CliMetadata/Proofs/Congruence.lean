import CliMetadata.Proofs.IgnoredNumbers
import CliMetadata.Signature.Edit

/-!
Sameness is a congruence. Edits commute with taking the row numbers away, one edit and so any run
of them. Signatures that are the same stay the same wherever they are put and whatever is done to
both of them, and nobody can tell them apart but by a row number.
-/

namespace CliMetadata

section

variable {α β : Type}

theorem putAt?_map (f : α → β) (i : Nat) (item : α) (items : List α) :
    putAt? i (f item) (items.map f) = (putAt? i item items).map (List.map f) := by
  rw [putAt?, putAt?, List.length_map]
  split
  · rw [Option.map_some, List.map_set]
  · rfl

end

namespace TypeHandle

theorem specification?_unnumbered (handle : TypeHandle) :
    handle.unnumbered.specification? = handle.specification?.map TypeSignature.unnumbered := by
  obtain ⟨token, target⟩ := handle
  rcases target with _ | type | type | signature <;> rfl

theorem withSpecification?_unnumbered (handle : TypeHandle) (inner : TypeSignature) :
    handle.unnumbered.withSpecification? inner.unnumbered =
      (handle.withSpecification? inner).map unnumbered := by
  obtain ⟨token, target⟩ := handle
  rcases target with _ | type | type | signature <;> rfl

end TypeHandle

/-- The field with the same written into it, but without row numbers. -/
def NodeField.unnumbered : NodeField → NodeField
  | .wrapper new => .wrapper new.unnumbered
  | .type kind handle => .type kind handle.unnumbered
  | .arguments new => .arguments (new.map TypeSignature.unnumbered)
  | .convention new genericCount => .convention new genericCount
  | .params new => .params (new.map TypeSignature.unnumbered)
  | .varargs new => .varargs (new.map (List.map TypeSignature.unnumbered))

namespace TypeSignature

theorem slot?_unnumbered (node : TypeSignature) (slot : Slot) :
    node.unnumbered.slot? slot = (node.slot? slot).map unnumbered := by
  cases node with
  | primitive | typeVar | methodVar | sentinel => cases slot <;> rfl
  | named row kind handle =>
      cases slot with
      | specification => exact handle.specification?_unnumbered
      | _ => rfl
  | functionPointer row method =>
      rw [unnumbered_functionPointer]
      cases slot with
      | param i => exact List.getElem?_map
      | vararg i => cases varargs : method.varargs <;> simp [slot?, MethodSignature.mapParts, varargs]
      | _ => rfl
  | instantiation row kind generic arguments =>
      rw [unnumbered_instantiation]
      cases slot with
      | argument i => exact List.getElem?_map
      | specification => exact generic.specification?_unnumbered
      | _ => rfl
  | wrapped row wrapper next =>
      cases slot with
      | specification =>
          cases wrapper with
          | modifier kind handle => exact handle.specification?_unnumbered
          | _ => rfl
      | _ => rfl

theorem fill?_unnumbered (node : TypeSignature) (slot : Slot) (inner : TypeSignature) :
    node.unnumbered.fill? slot inner.unnumbered = (node.fill? slot inner).map unnumbered := by
  cases node with
  | primitive | typeVar | methodVar | sentinel => cases slot <;> rfl
  | named row kind handle =>
      cases slot with
      | specification =>
          simp only [unnumbered, fill?, handle.withSpecification?_unnumbered, Option.map_map,
            Function.comp_def]
      | _ => rfl
  | functionPointer row method =>
      rw [unnumbered_functionPointer]
      cases slot with
      | result => simp only [fill?, Option.map_some, unnumbered_functionPointer, MethodSignature.mapParts]
      | param i =>
          simp only [fill?, MethodSignature.mapParts, putAt?_map, Option.map_map,
            Function.comp_def, unnumbered_functionPointer]
      | vararg i =>
          cases varargs : method.varargs with
          | none => simp [fill?, MethodSignature.mapParts, varargs]
          | some all =>
              simp [fill?, MethodSignature.mapParts, varargs, putAt?_map, Function.comp_def,
                unnumbered_functionPointer]
      | _ => rfl
  | instantiation row kind generic arguments =>
      rw [unnumbered_instantiation]
      cases slot with
      | argument i =>
          simp only [fill?, putAt?_map, Option.map_map, Function.comp_def, unnumbered_instantiation]
      | specification =>
          simp only [fill?, generic.withSpecification?_unnumbered, Option.map_map,
            Function.comp_def, unnumbered_instantiation]
      | _ => rfl
  | wrapped row wrapper next =>
      cases slot with
      | specification =>
          cases wrapper with
          | modifier kind handle =>
              simp only [unnumbered, Wrapper.unnumbered, fill?,
                handle.withSpecification?_unnumbered, Option.map_map, Function.comp_def]
          | _ => rfl
      | _ => rfl

theorem withField?_unnumbered (field : NodeField) (signature : TypeSignature) :
    signature.unnumbered.withField? field.unnumbered =
      (signature.withField? field).map unnumbered := by
  cases signature with
  | primitive | typeVar | methodVar | sentinel => cases field <;> rfl
  | named row kind handle => cases field <;> rfl
  | functionPointer row method =>
      rw [unnumbered_functionPointer]
      cases field with
      | convention | params | varargs =>
          simp only [withField?, NodeField.unnumbered, MethodSignature.mapParts, Option.map_some,
            unnumbered_functionPointer]
      | wrapper | type | arguments => rfl
  | instantiation row kind generic arguments =>
      rw [unnumbered_instantiation]
      cases field with
      | type | arguments =>
          simp only [withField?, withArguments?, NodeField.unnumbered, Option.map_some,
            unnumbered_instantiation]
      | wrapper | convention | params | varargs => rfl
  | wrapped row wrapper next => cases field <;> rfl

theorem withShape?_unnumbered (alter : ArrayShape → ArrayShape) (signature : TypeSignature) :
    signature.unnumbered.withShape? alter = (signature.withShape? alter).map unnumbered := by
  cases signature with
  | wrapped row wrapper next => cases wrapper <;> rfl
  | _ => rfl

end TypeSignature

namespace Edit

/-- The edit without row numbers in what it brings. -/
def unnumbered : Edit → Edit
  | .setRow _ => .setRow 0
  | .setNode node => .setNode node.unnumbered
  | .setField field => .setField field.unnumbered
  | .setShape alter => .setShape alter
  | .putInto slot node => .putInto slot node.unnumbered
  | .takeFrom slot => .takeFrom slot
  | .inside slot edit => .inside slot edit.unnumbered

/-- Without the numbers an edit does what it does with them. -/
theorem apply_unnumbered (edit : Edit) (signature : TypeSignature) :
    edit.unnumbered.apply signature.unnumbered =
      (edit.apply signature).map TypeSignature.unnumbered := by
  induction edit generalizing signature with
  | setRow row =>
      rw [unnumbered, apply, apply, Option.map_some, signature.withRow_unnumbered,
        signature.unnumbered_withRow]
  | setNode node =>
      rw [unnumbered, apply, apply, Option.map_some, signature.row_unnumbered,
        node.withRow_unnumbered, node.unnumbered_withRow]
  | setField field => exact signature.withField?_unnumbered field
  | setShape alter => exact signature.withShape?_unnumbered alter
  | putInto slot node => exact node.fill?_unnumbered slot signature
  | takeFrom slot => exact signature.slot?_unnumbered slot
  | inside slot edit ih =>
      -- Both sides stop at an empty slot and at an inner edit that is not done.
      simp only [unnumbered, apply, signature.slot?_unnumbered, Option.bind_eq_bind]
      cases signature.slot? slot with
      | none => rfl
      | some inner =>
          simp only [Option.map_some, Option.bind_some, ih]
          cases edit.apply inner with
          | none => rfl
          | some edited => exact signature.fill?_unnumbered slot edited

theorem run_unnumbered (edits : List Edit) (signature : TypeSignature) :
    run (edits.map unnumbered) signature.unnumbered = (run edits signature).unnumbered := by
  induction edits generalizing signature with
  | nil => rfl
  | cons edit rest ih =>
      rw [List.map_cons, run, apply_unnumbered, run, ← ih]
      cases edit.apply signature <;> rfl

variable {a b : TypeSignature}

theorem apply_same (edit : Edit) (same : a.same b) :
    Option.Rel (fun edited other => edited.same other) (edit.apply a) (edit.apply b) := by
  rw [TypeSignature.rel_same_iff_unnumbered, ← apply_unnumbered,
    TypeSignature.same_iff_unnumbered.mp same, apply_unnumbered]

theorem run_same (edits : List Edit) (same : a.same b) : (run edits a).same (run edits b) := by
  rw [TypeSignature.same_iff_unnumbered, ← run_unnumbered,
    TypeSignature.same_iff_unnumbered.mp same, run_unnumbered]

end Edit

namespace TypeSignature

theorem fill?_same {a b node other : TypeSignature} (slot : Slot) (nodes : node.same other)
    (same : a.same b) :
    Option.Rel (fun t t' => t.same t') (node.fill? slot a) (other.fill? slot b) := by
  rw [rel_same_iff_unnumbered, ← fill?_unnumbered, same_iff_unnumbered.mp nodes,
    same_iff_unnumbered.mp same, fill?_unnumbered]

/-- Signatures that differ in nothing but row numbers are written, named and classified alike and
are about the same type. They are the same when they are wrapped or put into slots of nodes that
are the same, and after whatever is done to both of them. -/
theorem indistinguishable_of_same {a b : TypeSignature} (h : a == b) :
    (a.encode = b.encode ∧
      a.name = b.name ∧
      a.ns = b.ns ∧
      a.reflectionName = b.reflectionName ∧
      a.reflectionNamespace = b.reflectionNamespace ∧
      a.fullName = b.fullName ∧
      a.reflectionFullName = b.reflectionFullName ∧
      a.assemblyQualifiedName = b.assemblyQualifiedName ∧
      a.isValueType = b.isValueType ∧
      a.leafToken? = b.leafToken? ∧
      a.tag = b.tag ∧
      a.unresolvedTokens = b.unresolvedTokens ∧
      a.argumentCount = b.argumentCount ∧
      a.scope = b.scope ∧
      a.scopeRow? = b.scopeRow? ∧
      a.ownerModule? = b.ownerModule? ∧
      a.assembly? = b.assembly?) ∧
    (∀ row otherRow wrapper, wrapped row wrapper a == wrapped otherRow wrapper b) ∧
    (∀ (slot : Slot) (node other : TypeSignature), node == other →
      Option.Rel (fun t t' => t == t') (node.fill? slot a) (other.fill? slot b)) ∧
    (∀ edit : Edit, Option.Rel (fun edited other => edited == other) (edit.apply a) (edit.apply b)) ∧
    ∀ edits : List Edit, Edit.run edits a == Edit.run edits b := by
  obtain ⟨name, ns, reflectionName, reflectionNamespace, scope, scopeRow, owner, assembly⟩ :=
    owned_of_denoted (denoted_ignores.congr h)
  have chars (style : NameStyle) : a.nameChars style = b.nameChars style :=
    (nameWithin_ignores style maxNesting).congr h
  refine ⟨⟨encode_ignores.congr h, name, ns, reflectionName, reflectionNamespace, ?_, ?_, ?_,
    isValueType_ignores.congr h, leafToken?_ignores.congr h, tag_ignores.congr h,
    unresolvedTokens_ignores.congr h, argumentCount_ignores.congr h, scope, scopeRow, owner,
    assembly⟩, ?_, ?_, ?_, ?_⟩
  · rw [fullName, chars, fullName]
  · rw [reflectionFullName, chars, reflectionFullName]
  · rw [assemblyQualifiedName, chars, assembly, assemblyQualifiedName]
  · intro row otherRow wrapper
    exact same_iff_unnumbered.mpr (congrArg (wrapped 0 wrapper.unnumbered) (same_iff_unnumbered.mp h))
  · exact fun slot node other nodes => fill?_same slot nodes h
  · exact fun edit => edit.apply_same h
  · exact fun edits => Edit.run_same edits h

/-- A vector of a row that is a pointer, with numbers for the two of them. -/
def numberedVector (vector pointer : Nat) : TypeSignature :=
  .wrapped vector .vector <| .named 0 .valueType
    ⟨⟨0x1B000001⟩, some <| .specification <| .wrapped pointer .pointer (.primitive 0 .i4 none)⟩

theorem indistinguishable_of_same_vectors :
    (numberedVector 1 2 == numberedVector 3 4) ∧
    (numberedVector 1 2).token ≠ (numberedVector 3 4).token ∧
    (numberedVector 1 2).fullName = "System.Int32*[]" ∧
    (numberedVector 3 4).fullName = "System.Int32*[]" ∧
    Edit.run [.takeFrom .next, .takeFrom .specification] (numberedVector 1 2) ==
      Edit.run [.takeFrom .next, .takeFrom .specification] (numberedVector 3 4) := by
  have same : numberedVector 1 2 == numberedVector 3 4 := by decide +kernel
  obtain ⟨⟨-, -, -, -, -, fullName, -⟩, -, -, -, runs⟩ := indistinguishable_of_same same
  have written : (numberedVector 1 2).fullName = "System.Int32*[]" := by decide +kernel
  exact ⟨same, by decide +kernel, written, fullName ▸ written, runs _⟩

end TypeSignature

end CliMetadata
