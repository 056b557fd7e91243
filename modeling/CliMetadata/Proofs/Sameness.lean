import CliMetadata.Proofs.Nodes
import CliMetadata.Signature.Equality
import Mathlib.Data.List.Forall2
import Mathlib.Order.Lattice

/-!
Signatures that differ in nothing but row numbers. Sameness is reflexive. Both sides are built of
the same constructors with the same data, and so they are nested equally deep. Of the rows behind
handles it matters only that they are the same.
-/

namespace CliMetadata

mutual

theorem TypeSignature.same_refl : ∀ signature : TypeSignature, signature.same signature
  | .primitive _ _ _ => by simp [TypeSignature.same]
  | .named _ _ handle => by simp [TypeSignature.same, handle.same_refl]
  | .typeVar _ _ | .methodVar _ _ => by simp [TypeSignature.same]
  | .sentinel _ => by simp [TypeSignature.same]
  | .functionPointer _ method => by simp [TypeSignature.same, method.same_refl]
  | .instantiation _ _ generic arguments => by
      simp [TypeSignature.same, generic.same_refl, TypeSignature.sameAll_refl arguments]
  | .wrapped _ wrapper next => by simp [TypeSignature.same, wrapper.same_refl, next.same_refl]

theorem Wrapper.same_refl : ∀ wrapper : Wrapper, wrapper.same wrapper
  | .pointer | .byRef | .vector | .pinned | .array _ | .valueArray _ | .scoped _ => by
      simp [Wrapper.same]
  | .modifier _ handle => by simp [Wrapper.same, handle.same_refl]

theorem MethodSignature.same_refl : ∀ method : MethodSignature, method.same method
  | ⟨_, _, result, params, varargs⟩ => by
      simp [MethodSignature.same, result.same_refl, TypeSignature.sameAll_refl params,
        TypeSignature.sameVarargs_refl varargs]

theorem TypeHandle.same_refl : ∀ handle : TypeHandle, handle.same handle
  | ⟨_, target⟩ => by simp [TypeHandle.same, TypeRow.sameTarget_refl target]

theorem TypeRow.sameTarget_refl : ∀ target : Option TypeRow, TypeRow.sameTarget target target
  | none => by simp [TypeRow.sameTarget]
  | some row => by simp [TypeRow.sameTarget, row.same_refl]

theorem TypeRow.same_refl : ∀ row : TypeRow, row.same row
  | .definition _ | .reference _ => by simp [TypeRow.same]
  | .specification signature => by simp [TypeRow.same, signature.same_refl]

theorem TypeSignature.sameAll_refl :
    ∀ signatures : List TypeSignature, TypeSignature.sameAll signatures signatures
  | [] => by simp [TypeSignature.sameAll]
  | signature :: rest => by
      simp [TypeSignature.sameAll, signature.same_refl, TypeSignature.sameAll_refl rest]

theorem TypeSignature.sameVarargs_refl :
    ∀ varargs : Option (List TypeSignature), TypeSignature.sameVarargs varargs varargs
  | none => by simp [TypeSignature.sameVarargs]
  | some signatures => by
      simp [TypeSignature.sameVarargs, TypeSignature.sameAll_refl signatures]

end

theorem TypeHandle.same_iff {handle other : TypeHandle} :
    handle.same other ↔
      handle.token = other.token ∧ TypeRow.sameTarget handle.target other.target := by
  obtain ⟨token, target⟩ := handle
  obtain ⟨otherToken, otherTarget⟩ := other
  simp [TypeHandle.same]

namespace TypeSignature

theorem sameAll_iff {signatures others : List TypeSignature} :
    sameAll signatures others ↔ List.Forall₂ (fun t other => t.same other) signatures others := by
  induction signatures generalizing others with
  | nil => cases others <;> simp [sameAll]
  | cons signature rest ih => cases others <;> simp [sameAll, ih]

theorem exists_same_of_mem {signatures others : List TypeSignature} {t : TypeSignature}
    (same : List.Forall₂ (fun t other => t.same other) signatures others)
    (mem : t ∈ signatures) : ∃ other ∈ others, t.same other := by
  induction same with
  | nil => cases mem
  | cons first _ ih =>
      rcases List.mem_cons.mp mem with rfl | mem
      · exact ⟨_, List.mem_cons_self, first⟩
      · obtain ⟨other, memOther, same⟩ := ih mem
        exact ⟨other, List.mem_cons_of_mem _ memOther, same⟩

theorem sameVarargs_iff {varargs others : Option (List TypeSignature)} :
    sameVarargs varargs others ↔
      Option.Rel (List.Forall₂ fun t other => t.same other) varargs others := by
  cases varargs <;> cases others <;> simp [sameVarargs, sameAll_iff]

section

variable {row : Nat} {tag : ElementType} {type : Option NamedType} {kind : TypeKind}
  {handle : TypeHandle} {index : Nat} {method : MethodSignature} {arguments : List TypeSignature}
  {wrapper : Wrapper} {next other : TypeSignature}

theorem same_primitive_iff :
    (primitive row tag type).same other ↔ ∃ otherRow, other = .primitive otherRow tag type := by
  cases other <;> simp [same, @eq_comm _ tag, @eq_comm _ type]

theorem same_named_iff : (named row kind handle).same other ↔
    ∃ otherRow otherHandle, other = .named otherRow kind otherHandle ∧
      handle.same otherHandle := by
  cases other <;> simp [same, @eq_comm _ kind]

theorem same_typeVar_iff :
    (typeVar row index).same other ↔ ∃ otherRow, other = .typeVar otherRow index := by
  cases other <;> simp [same, @eq_comm _ index]

theorem same_methodVar_iff :
    (methodVar row index).same other ↔ ∃ otherRow, other = .methodVar otherRow index := by
  cases other <;> simp [same, @eq_comm _ index]

theorem same_sentinel_iff :
    (sentinel row).same other ↔ ∃ otherRow, other = .sentinel otherRow := by
  cases other <;> simp [same]

theorem same_functionPointer_iff : (functionPointer row method).same other ↔
    ∃ otherRow otherMethod, other = .functionPointer otherRow otherMethod ∧
      method.same otherMethod := by
  cases other <;> simp [same]

theorem same_instantiation_iff : (instantiation row kind handle arguments).same other ↔
    ∃ otherRow otherHandle others, other = .instantiation otherRow kind otherHandle others ∧
      handle.same otherHandle ∧ List.Forall₂ (fun t other => t.same other) arguments others := by
  cases other <;> simp [same, sameAll_iff, @eq_comm _ kind, and_assoc]

theorem same_wrapped_iff : (wrapped row wrapper next).same other ↔
    ∃ otherRow otherWrapper otherNext, other = .wrapped otherRow otherWrapper otherNext ∧
      wrapper.same otherWrapper ∧ next.same otherNext := by
  cases other <;> simp [same]

end

end TypeSignature

namespace MethodSignature

theorem same_iff {method other : MethodSignature} : method.same other ↔
    method.convention = other.convention ∧ method.genericCount = other.genericCount ∧
      method.result.same other.result ∧
      List.Forall₂ (fun t other => t.same other) method.params other.params ∧
      Option.Rel (List.Forall₂ fun t other => t.same other) method.varargs other.varargs := by
  obtain ⟨convention, genericCount, result, params, varargs⟩ := method
  obtain ⟨otherConvention, otherCount, otherResult, otherParams, otherVarargs⟩ := other
  simp [same, TypeSignature.sameAll_iff, TypeSignature.sameVarargs_iff, and_assoc]

theorem forall₂_parts {method other : MethodSignature} (h : method.same other) :
    List.Forall₂ (fun t other => t.same other) method.parts other.parts := by
  obtain ⟨-, -, result, params, varargs⟩ := same_iff.mp h
  have behind : List.Forall₂ (fun t other => t.same other) (method.varargs.getD [])
      (other.varargs.getD []) := by
    generalize method.varargs = all at varargs
    generalize other.varargs = others at varargs
    cases varargs with
    | none => exact List.Forall₂.nil
    | some all => exact all
  have front : List.Forall₂ (fun t other => t.same other) (method.result :: method.params)
      (other.result :: other.params) := .cons result params
  exact List.rel_append front behind

theorem nesting_eq (method : MethodSignature) :
    method.nesting = TypeSignature.nestingOfAll method.parts :=
  eq_of_forall_ge_iff fun _ => nesting_le_iff.trans TypeSignature.nestingOfAll_le_iff.symm

end MethodSignature

namespace TypeSignature

theorem nestingOfAll_congr {signatures others : List TypeSignature}
    (ih : ∀ t ∈ signatures, ∀ other, t.same other → t.nesting = other.nesting)
    (h : List.Forall₂ (fun t other => t.same other) signatures others) :
    nestingOfAll signatures = nestingOfAll others := by
  induction h with
  | nil => rfl
  | cons head _ tail =>
      obtain ⟨first, rest⟩ := List.forall_mem_cons.mp ih
      rw [nestingOfAll, first _ head, tail rest, nestingOfAll]

theorem nesting_eq_of_same {signature other : TypeSignature} (h : signature.same other) :
    signature.nesting = other.nesting := by
  induction signature generalizing other with
  | primitive row tag type =>
      obtain ⟨_, rfl⟩ := same_primitive_iff.mp h
      rfl
  | named row kind handle =>
      obtain ⟨_, _, rfl, _⟩ := same_named_iff.mp h
      rfl
  | typeVar row index =>
      obtain ⟨_, rfl⟩ := same_typeVar_iff.mp h
      rfl
  | methodVar row index =>
      obtain ⟨_, rfl⟩ := same_methodVar_iff.mp h
      rfl
  | sentinel row =>
      obtain ⟨_, rfl⟩ := same_sentinel_iff.mp h
      rfl
  | functionPointer row method ih =>
      obtain ⟨_, _, rfl, same⟩ := same_functionPointer_iff.mp h
      rw [nesting, nesting, MethodSignature.nesting_eq, MethodSignature.nesting_eq,
        nestingOfAll_congr (fun t mem _ => ih t mem) (MethodSignature.forall₂_parts same)]
  | instantiation row kind generic arguments ih =>
      obtain ⟨_, _, _, rfl, _, same⟩ := same_instantiation_iff.mp h
      rw [nesting, nesting, nestingOfAll_congr (fun t mem _ => ih t mem) same]
  | wrapped row wrapper next ih =>
      obtain ⟨_, _, _, rfl, _, same⟩ := same_wrapped_iff.mp h
      rw [nesting, nesting, ih same]

end TypeSignature

namespace MethodSignature

theorem nesting_eq_of_same {method other : MethodSignature} (h : method.same other) :
    method.nesting = other.nesting := by
  rw [nesting_eq, nesting_eq]
  exact TypeSignature.nestingOfAll_congr (fun _ _ _ => TypeSignature.nesting_eq_of_same)
    (forall₂_parts h)

end MethodSignature

end CliMetadata
