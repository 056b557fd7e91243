import CliMetadata.Proofs.Building
import Mathlib.Algebra.GroupWithZero.Nat

/-!
What lists of generic parameters add to a name. A function pointer writes out as many parameters as
its method has. Without the flag for them the name is the same but for these lists, so that it is
shorter by what they take.
-/

namespace CliMetadata

namespace TypeSignature

def method? : TypeSignature → Option MethodSignature
  | .functionPointer _ method => some method
  | _ => none

/-- The methods of the function pointers in a signature, from left to right. -/
def methods (type : TypeSignature) : List MethodSignature := type.nodes.filterMap method?

section

variable {row : Nat}

theorem methods_functionPointer (method : MethodSignature) :
    (functionPointer row method).methods = method :: method.parts.flatMap methods := by
  have first : method? (functionPointer row method) = some method := rfl
  rw [methods, nodes, MethodSignature.nodes_eq, List.filterMap_cons_some first,
    List.filterMap_flatMap]
  rfl

theorem methods_instantiation (kind : TypeKind) (generic : TypeHandle)
    (arguments : List TypeSignature) :
    (instantiation row kind generic arguments).methods = arguments.flatMap methods := by
  rw [methods, nodes, nodesOfAll_eq, List.filterMap_cons_none rfl, List.filterMap_flatMap]
  rfl

theorem methods_wrapped (wrapper : Wrapper) (next : TypeSignature) :
    (wrapped row wrapper next).methods = next.methods := by
  rw [methods, nodes, List.filterMap_cons_none rfl]
  rfl

end

/-- The sum of what each function pointer of a signature adds. -/
def methodSum (f : MethodSignature → Nat) (type : TypeSignature) : Nat := (type.methods.map f).sum

section

variable {row : Nat} {f : MethodSignature → Nat}

theorem sum_map_flatMap_methods (types : List TypeSignature) :
    ((types.flatMap methods).map f).sum = (types.map (methodSum f)).sum := by
  induction types with
  | nil => rfl
  | cons type rest ih =>
      rw [List.flatMap_cons, List.map_append, List.sum_append, ih, List.map_cons, List.sum_cons]
      rfl

theorem methodSum_functionPointer (method : MethodSignature) :
    (functionPointer row method).methodSum f = f method + (method.parts.map (methodSum f)).sum := by
  rw [methodSum, methods_functionPointer, List.map_cons, List.sum_cons, sum_map_flatMap_methods]

theorem methodSum_instantiation (kind : TypeKind) (generic : TypeHandle)
    (arguments : List TypeSignature) :
    (instantiation row kind generic arguments).methodSum f =
      (arguments.map (methodSum f)).sum := by
  rw [methodSum, methods_instantiation, sum_map_flatMap_methods]

theorem methodSum_wrapped (wrapper : Wrapper) (next : TypeSignature) :
    (wrapped row wrapper next).methodSum f = next.methodSum f := by
  rw [methodSum, methods_wrapped, methodSum]

end

/-- How many characters the lists of generic parameters take in the name of a signature. -/
def genericLength (type : TypeSignature) : Nat :=
  type.methodSum fun method => method.genericChars.length

section

variable {row : Nat}

theorem genericLength_functionPointer (method : MethodSignature) :
    (functionPointer row method).genericLength =
      method.genericChars.length + (method.parts.map genericLength).sum :=
  methodSum_functionPointer method

theorem genericLength_instantiation (kind : TypeKind) (generic : TypeHandle)
    (arguments : List TypeSignature) :
    (instantiation row kind generic arguments).genericLength =
      (arguments.map genericLength).sum :=
  methodSum_instantiation kind generic arguments

theorem genericLength_wrapped (wrapper : Wrapper) (next : TypeSignature) :
    (wrapped row wrapper next).genericLength = next.genericLength :=
  methodSum_wrapped wrapper next

end

end TypeSignature

mutual

/-- The signature with no function pointer generic; rows behind handles stay as they are. -/
def TypeSignature.nonGeneric : TypeSignature → TypeSignature
  | .functionPointer row method => .functionPointer row method.nonGeneric
  | .instantiation row kind generic arguments =>
    .instantiation row kind generic (TypeSignature.nonGenericAll arguments)
  | .wrapped row wrapper next => .wrapped row wrapper next.nonGeneric
  | signature => signature

def MethodSignature.nonGeneric : MethodSignature → MethodSignature
  | ⟨convention, _, result, params, varargs⟩ =>
    ⟨convention &&& 0xEF, 0, result.nonGeneric, TypeSignature.nonGenericAll params,
      TypeSignature.nonGenericVarargs varargs⟩

def TypeSignature.nonGenericAll : List TypeSignature → List TypeSignature
  | [] => []
  | signature :: rest => signature.nonGeneric :: TypeSignature.nonGenericAll rest

def TypeSignature.nonGenericVarargs : Option (List TypeSignature) → Option (List TypeSignature)
  | none => none
  | some signatures => some (TypeSignature.nonGenericAll signatures)

end

namespace TypeSignature

theorem nonGenericAll_eq (signatures : List TypeSignature) :
    nonGenericAll signatures = signatures.map nonGeneric := by
  induction signatures with
  | nil => rfl
  | cons signature rest ih => rw [nonGenericAll, ih, List.map_cons]

end TypeSignature

theorem MethodSignature.genericChars_nonGeneric (method : MethodSignature) :
    method.nonGeneric.genericChars = [] := by
  obtain ⟨convention, genericCount, result, params, varargs⟩ := method
  have noFlag : convention &&& 0xEF &&& 0x10 = 0 := by
    have nothing : (0xEF : UInt8) &&& 0x10 = 0 := by decide
    rw [UInt8.and_assoc, nothing, UInt8.and_zero]
  have notGeneric :
      ¬(nonGeneric ⟨convention, genericCount, result, params, varargs⟩).isGeneric := by
    simp [nonGeneric, isGeneric, noFlag]
  rw [genericChars, if_neg notGeneric]

namespace Build

theorem length_commas (texts : List (List Char)) :
    (commas texts).length = (texts.map fun text => text.length + 1).sum := by
  rw [commas, List.length_flatMap]
  rfl

section

variable {inner : TypeSignature → List Char}

theorem length_variableChars (printed : Bool) (varargs : List TypeSignature) :
    (variableChars inner printed (some varargs)).length =
      (if printed then 1 else 0) + (3 + (varargs.map fun type => (inner type).length + 1).sum) := by
  have dots : "...".toList.length = 3 := rfl
  rw [variableChars, List.length_append, List.length_append, dots, length_commas, List.map_map]
  cases printed <;> rfl

theorem length_methodChars (method : MethodSignature) : (method.nameChars inner).length =
    (inner method.result).length + method.genericChars.length + 11 +
      (([','].intercalate (method.params.map inner)).length +
        (variableChars inner (!method.params.isEmpty) method.varargs).length) := by
  have front : "method ".toList.length = 7 := rfl
  have star : " *".toList.length = 2 := rfl
  rw [methodChars_eq]
  simp only [List.length_append, front, star, List.length_singleton]
  omega

theorem length_argumentChars (arguments : List TypeSignature) :
    (TypeSignature.argumentChars .display inner arguments).length =
      ([','].intercalate (arguments.map inner)).length + 2 := by
  rw [TypeSignature.argumentChars]
  simp only [List.length_append, List.length_cons, List.length_nil]

end

section

variable {inner : TypeSignature → List Char} {types : List TypeSignature}

theorem length_commas_eq (h : ∀ t ∈ types,
    (inner t).length = (inner t.nonGeneric).length + t.genericLength) :
    (commas (types.map inner)).length =
      (commas ((types.map TypeSignature.nonGeneric).map inner)).length +
        (types.map TypeSignature.genericLength).sum := by
  induction types with
  | nil => rfl
  | cons first rest ih =>
      obtain ⟨here, others⟩ := List.forall_mem_cons.mp h
      simp only [List.map_cons, commas_cons, List.length_append, List.sum_cons, here, ih others]
      omega

theorem length_intercalate_eq (h : ∀ t ∈ types,
    (inner t).length = (inner t.nonGeneric).length + t.genericLength) :
    ([','].intercalate (types.map inner)).length =
      ([','].intercalate ((types.map TypeSignature.nonGeneric).map inner)).length +
        (types.map TypeSignature.genericLength).sum := by
  cases types with
  | nil => rfl
  | cons first rest =>
      obtain ⟨here, others⟩ := List.forall_mem_cons.mp h
      simp only [List.map_cons, intercalate_cons, List.length_append, List.sum_cons, here,
        length_commas_eq others]
      omega

theorem length_variableChars_eq (printed : Bool) {varargs : Option (List TypeSignature)}
    (h : ∀ t ∈ varargs.getD [],
      (inner t).length = (inner t.nonGeneric).length + t.genericLength) :
    (variableChars inner printed varargs).length =
      (variableChars inner printed (TypeSignature.nonGenericVarargs varargs)).length +
        ((varargs.getD []).map TypeSignature.genericLength).sum := by
  cases varargs with
  | none => rfl
  | some types =>
      have listed := @length_commas_eq inner types h
      rw [TypeSignature.nonGenericVarargs, TypeSignature.nonGenericAll_eq, variableChars,
        variableChars]
      simp only [List.length_append, listed, Option.getD_some]
      omega

theorem length_methodChars_eq {method : MethodSignature} (h : ∀ part ∈ method.parts,
    (inner part).length = (inner part.nonGeneric).length + part.genericLength) :
    (method.nameChars inner).length = (method.nonGeneric.nameChars inner).length +
      (method.genericChars.length + (method.parts.map TypeSignature.genericLength).sum) := by
  obtain ⟨hresult, hparams, hvarargs⟩ := MethodSignature.forall_parts_iff.mp h
  rw [length_methodChars, length_methodChars, method.genericChars_nonGeneric]
  obtain ⟨convention, genericCount, result, params, varargs⟩ := method
  simp only [MethodSignature.nonGeneric, MethodSignature.parts, TypeSignature.nonGenericAll_eq,
    List.isEmpty_map, List.cons_append, List.map_cons, List.sum_cons, List.map_append,
    List.sum_append, List.length_nil] at hresult hparams hvarargs ⊢
  rw [hresult, length_intercalate_eq hparams, length_variableChars_eq _ hvarargs]
  omega

end

end Build

namespace TypeSignature

section

variable {levels row : Nat}

theorem length_nameWithin_instantiation (kind : TypeKind) (generic : TypeHandle)
    (arguments : List TypeSignature) :
    (nameWithin .display (levels + 1) (.instantiation row kind generic arguments)).length =
      (generic.nameChars .display (nameWithin .display levels)).length +
        (([','].intercalate (arguments.map (nameWithin .display levels))).length + 2) := by
  have whole : nameWithin .display (levels + 1) (.instantiation row kind generic arguments) =
      generic.nameChars .display (nameWithin .display levels) ++
        argumentChars .display (nameWithin .display levels) arguments := rfl
  rw [whole, List.length_append, Build.length_argumentChars]

theorem length_nameWithin_wrapped (wrapper : Wrapper) (next : TypeSignature) :
    (nameWithin .display (levels + 1) (.wrapped row wrapper next)).length =
      wrapper.frontChars.length + ((nameWithin .display levels next).length +
        (wrapper.backChars .display
          (TypeHandle.nameChars .display (nameWithin .display levels))).length) := by
  have whole : nameWithin .display (levels + 1) (.wrapped row wrapper next) =
      wrapper.surround .display (TypeHandle.nameChars .display (nameWithin .display levels))
        (nameWithin .display levels next) := rfl
  rw [whole, Wrapper.surround_eq, List.length_append, List.length_append]

end

/-- What the lists of generic parameters take comes on top of the name without them, as long as no
level is cut. -/
theorem length_nameWithin_eq {levels : Nat} {type : TypeSignature}
    (nested : type.nesting ≤ levels) : (nameWithin .display levels type).length =
      (nameWithin .display levels type.nonGeneric).length + type.genericLength := by
  induction levels generalizing type with
  | zero => exact absurd nested (Nat.not_le_of_lt type.nesting_pos)
  | succ levels ih =>
      cases type with
      | primitive | named | typeVar | methodVar | sentinel => rfl
      | functionPointer row method =>
          rw [nesting, Nat.add_le_add_iff_right, MethodSignature.nesting_le_iff] at nested
          rw [genericLength_functionPointer]
          exact Build.length_methodChars_eq fun part mem => ih (nested part mem)
      | instantiation row kind generic arguments =>
          rw [nesting, Nat.add_le_add_iff_right, nestingOfAll_le_iff] at nested
          have inside := Build.length_intercalate_eq fun t mem => ih (nested t mem)
          rw [genericLength_instantiation, nonGeneric, nonGenericAll_eq,
            length_nameWithin_instantiation, length_nameWithin_instantiation, inside]
          omega
      | wrapped row wrapper next =>
          rw [nesting, Nat.add_le_add_iff_right] at nested
          rw [genericLength_wrapped, nonGeneric, length_nameWithin_wrapped,
            length_nameWithin_wrapped, ih nested]
          omega

end TypeSignature

end CliMetadata
