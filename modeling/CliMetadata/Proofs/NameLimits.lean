import CliMetadata.Proofs.Building
import CliMetadata.Proofs.Reading

/-!
Names are cut at nodes that are nested deeper than the limit, and at no others. A builder with a
limit writes the levels that are left of it, and a builder without a limit writes as many as there
are. What was read where no row is a signature has no more levels in its name than the reader goes
down, so that its name is never cut.
-/

namespace CliMetadata

/-- A signature that was read where no row is a signature is nested no deeper in its names than in
itself. -/
theorem TypeSpelling.renderedNesting_tree_le {resolver : Resolver} {spelling : TypeSpelling}
    {levels : Nat} (noRow : ∀ token, (resolver.handle token).specification? = none)
    (nested : (spelling.tree resolver).nesting ≤ levels) :
    (spelling.tree resolver).renderedNesting ≤ levels := by
  induction levels generalizing spelling with
  | zero => exact absurd nested (Nat.not_le_of_lt (TypeSignature.nesting_pos _))
  | succ levels ih =>
      cases spelling with
      | primitive | typeVar | methodVar | sentinel => exact nested
      | named kind index =>
          simp [tree, TypeSignature.renderedNesting_le_succ_iff, TypeSignature.components, noRow]
      | functionPointer method =>
          rw [tree, TypeSignature.nesting, Nat.add_le_add_iff_right,
            MethodSignature.nesting_le_iff, MethodSpelling.parts_tree,
            List.forall_mem_map] at nested
          rw [tree, TypeSignature.renderedNesting_le_succ_iff, TypeSignature.components,
            MethodSpelling.parts_tree, List.forall_mem_map]
          exact fun part mem => ih (nested part mem)
      | instantiation kind generic count arguments =>
          rw [tree, trees_eq, TypeSignature.nesting, Nat.add_le_add_iff_right,
            TypeSignature.nestingOfAll_le_iff, List.forall_mem_map] at nested
          rw [tree, trees_eq, TypeSignature.renderedNesting_le_succ_iff, TypeSignature.components,
            noRow, Option.toList_none, List.nil_append, List.forall_mem_map]
          exact fun argument mem => ih (nested argument mem)
      | wrapped wrapper next =>
          rw [tree, TypeSignature.nesting, Nat.add_le_add_iff_right] at nested
          have inside := ih nested
          rw [tree, TypeSignature.renderedNesting_le_succ_iff]
          cases wrapper <;>
            simp [WrapperSpelling.wrapper, TypeSignature.components, Wrapper.specifications, noRow,
              inside]

namespace Build

/-- Where a limit leaves so many levels, as many are written. -/
theorem writes_levels {most levels depth : Nat} {style : NameStyle} (left : levels + depth = most)
    (type : TypeSignature) : Writes depth (signature (some most) style type)
      (TypeSignature.nameWithin style levels type) := by
  induction levels generalizing depth type with
  | zero =>
      have full : (some most).any (· ≤ depth) = true := by simp; omega
      cases type with
      | primitive row tag type => cases type <;> exact writes_marker full
      | _ => exact writes_marker full
  | succ levels ih =>
      have room : (some most).any (· ≤ depth) = false := by simp; omega
      exact writes_signature room fun component _ => ih (by omega) component

/-- Without a limit, the levels that there are are written. -/
theorem writes_unlimited {levels depth : Nat} {style : NameStyle} {type : TypeSignature}
    (nested : type.renderedNesting ≤ levels) : Writes depth (signature none style type)
      (TypeSignature.nameWithin style levels type) := by
  induction levels generalizing depth type with
  | zero => exact absurd nested (Nat.not_le_of_lt type.renderedNesting_pos)
  | succ levels ih =>
      have components := TypeSignature.renderedNesting_le_succ_iff.mp nested
      exact writes_signature rfl fun component mem => ih (components component mem)

theorem Writes.unique {depth : Nat} {build : Build Unit} {text text' : List Char}
    (h : Writes depth build text) (h' : Writes depth build text') : text = text' := by
  have same := congrArg (fun result : Unit × NameBuilder => result.2.out) ((h []).symm.trans (h' []))
  exact same

theorem name_eq {limit : Option Nat} {style : NameStyle} {type : TypeSignature} {text : List Char}
    (h : Writes 0 (signature limit style type) text) :
    name limit style type = String.ofList text := by
  rw [name, h []]
  rfl

end Build

/-- More levels than there are make no difference to a name. -/
theorem TypeSignature.nameWithin_of_nested {levels more : Nat} {style : NameStyle}
    {type : TypeSignature} (nested : type.renderedNesting ≤ levels) (le : levels ≤ more) :
    nameWithin style more type = nameWithin style levels type :=
  (Build.writes_unlimited (Nat.le_trans nested le)).unique (@Build.writes_unlimited _ 0 _ _ nested)

open TypeSignature in
/-- A limit of fifty levels cuts no name whose nodes are nested no deeper, and among these are the
names of all signatures that were read where no row is a signature. -/
theorem names_within_limit :
    (∀ type : TypeSignature,
      type.fullName = Build.name (some maxNesting) .display type ∧
      type.reflectionFullName = Build.name (some maxNesting) .reflection type ∧
      (type.renderedNesting ≤ maxNesting →
        type.fullName = Build.name none .display type ∧
        type.reflectionFullName = Build.name none .reflection type)) ∧
    ∀ (resolver : Resolver) (data : Bytes) (type : TypeSignature),
      (∀ token signature, resolver.row? token ≠ some (.specification signature)) →
      decode resolver data = .ok type →
        type.renderedNesting ≤ maxNesting ∧
        type.fullName = Build.name none .display type ∧
        type.reflectionFullName = Build.name none .reflection type := by
  have limited (style : NameStyle) (type : TypeSignature) :
      String.ofList (type.nameChars style) = Build.name (some maxNesting) style type :=
    (Build.name_eq (Build.writes_levels rfl type)).symm
  have unlimited (style : NameStyle) {type : TypeSignature}
      (nested : type.renderedNesting ≤ maxNesting) :
      String.ofList (type.nameChars style) = Build.name none style type :=
    (Build.name_eq (Build.writes_unlimited nested)).symm
  refine ⟨fun type => ⟨limited _ type, limited _ type, fun nested => ?_⟩, ?_⟩
  · exact ⟨unlimited _ nested, unlimited _ nested⟩
  · intro resolver data type noRow decoded
    obtain ⟨spelling, ⟨-, nested⟩, -, rfl⟩ := exists_spelling_of_decode decoded
    have noSpecification (token : Token) : (resolver.handle token).specification? = none := by
      rw [Resolver.handle, TypeHandle.specification?]
      split
      · rename_i found
        exact absurd found (noRow _ _)
      · rfl
    have within := TypeSpelling.renderedNesting_tree_le noSpecification nested
    exact ⟨within, unlimited _ within, unlimited _ within⟩

/-- Pointers to a row that is a vector of vectors; the row is counted below the node that has its
handle. -/
def pointersToRow : TypeSignature :=
  Nat.repeat (.wrapped 0 .pointer) 20 <| .named 0 .classType
    ⟨⟨0x1B000001⟩, some (.specification (Nat.repeat (.wrapped 1 .vector) 28 (.typeVar 0 0)))⟩

theorem names_within_limit_fifty_levels :
    pointersToRow.renderedNesting = TypeSignature.maxNesting ∧
    pointersToRow.fullName = Build.name none .display pointersToRow ∧
    ∃ type, TypeSignature.decode .empty [0x0F, 0x1D, 0x12, 0x05] = .ok type ∧
      type.renderedNesting ≤ TypeSignature.maxNesting := by
  have nested : pointersToRow.renderedNesting = TypeSignature.maxNesting := by decide +kernel
  refine ⟨nested, ((names_within_limit.1 pointersToRow).2.2 (Nat.le_of_eq nested)).1, _, rfl, ?_⟩
  have noRow (token : Token) (signature : TypeSignature) :
      Resolver.empty.row? token ≠ some (.specification signature) :=
    nofun
  exact (names_within_limit.2 .empty [0x0F, 0x1D, 0x12, 0x05] _ noRow rfl).1

end CliMetadata
