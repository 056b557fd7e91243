import CliMetadata.Signature.Handles

/-!
The nodes of a signature and how deep they are nested. The types inside a function pointer are one
level below it, and the rows behind handles are not part of the signature. Induction on a signature
gives its claim for all the types right below a node.
-/

namespace CliMetadata

/-- The types of a method in the order in which they are written. -/
def MethodSignature.parts (method : MethodSignature) : List TypeSignature :=
  method.result :: method.params ++ method.varargs.getD []

theorem MethodSignature.forall_parts_iff {method : MethodSignature} {P : TypeSignature → Prop} :
    (∀ part ∈ method.parts, P part) ↔
      P method.result ∧ (∀ param ∈ method.params, P param) ∧
        ∀ vararg ∈ method.varargs.getD [], P vararg := by
  simp only [parts, List.forall_mem_append, List.forall_mem_cons, and_assoc]

/-- The method with another type in the place of each of its types. -/
def MethodSignature.mapParts (f : TypeSignature → TypeSignature) (method : MethodSignature) :
    MethodSignature where
  convention := method.convention
  genericCount := method.genericCount
  result := f method.result
  params := method.params.map f
  varargs := method.varargs.map (List.map f)

@[simp] theorem MethodSignature.parts_mapParts (f : TypeSignature → TypeSignature)
    (method : MethodSignature) : (method.mapParts f).parts = method.parts.map f := by
  cases varargs : method.varargs <;> simp [mapParts, parts, varargs]

@[elab_as_elim, induction_eliminator]
theorem TypeSignature.induction {motive : TypeSignature → Prop}
    (primitive : ∀ row tag type, motive (.primitive row tag type))
    (named : ∀ row kind handle, motive (.named row kind handle))
    (typeVar : ∀ row index, motive (.typeVar row index))
    (methodVar : ∀ row index, motive (.methodVar row index))
    (sentinel : ∀ row, motive (.sentinel row))
    (functionPointer : ∀ row method, (∀ part ∈ method.parts, motive part) →
      motive (.functionPointer row method))
    (instantiation : ∀ row kind generic arguments, (∀ argument ∈ arguments, motive argument) →
      motive (.instantiation row kind generic arguments))
    (wrapped : ∀ row wrapper next, motive next → motive (.wrapped row wrapper next))
    (signature : TypeSignature) : motive signature := by
  -- Rows behind handles are of no interest here, so that their motives are trivial.
  refine @TypeSignature.rec motive (fun _ => True)
    (fun method => ∀ part ∈ method.parts, motive part)
    (fun _ => True) (fun _ => True) (fun all => ∀ t ∈ all, motive t)
    (fun varargs => ∀ t ∈ varargs.getD [], motive t) (fun _ => True)
    primitive (fun row kind handle _ => named row kind handle) typeVar methodVar sentinel
    functionPointer (fun row kind generic arguments _ => instantiation row kind generic arguments)
    (fun row wrapper next _ => wrapped row wrapper next)
    trivial trivial trivial trivial (fun _ => trivial) (fun _ _ _ => trivial) (fun _ => trivial)
    (fun _ => trivial) ?method (fun _ _ _ => trivial) (fun _ => trivial) (fun _ => trivial)
    (fun _ _ => trivial) ?nil ?cons ?none ?some trivial (fun _ _ => trivial) signature
  case method =>
    intro convention genericCount result params varargs hresult hparams hvarargs part mem
    simp only [MethodSignature.parts, List.mem_append, List.mem_cons] at mem
    rcases mem with (rfl | mem) | mem
    · exact hresult
    · exact hparams part mem
    · exact hvarargs part mem
  case nil =>
    intro t mem
    cases mem
  case cons =>
    intro head tail hhead htail
    exact List.forall_mem_cons.mpr ⟨hhead, htail⟩
  case none =>
    intro t mem
    cases mem
  case some => exact fun _ all => all

mutual

/-- The signature itself and all the types inside of it, from left to right. -/
def TypeSignature.nodes : TypeSignature → List TypeSignature
  | .functionPointer row method => .functionPointer row method :: method.nodes
  | .instantiation row kind generic arguments =>
    .instantiation row kind generic arguments :: TypeSignature.nodesOfAll arguments
  | .wrapped row wrapper next => .wrapped row wrapper next :: next.nodes
  | signature => [signature]

def MethodSignature.nodes : MethodSignature → List TypeSignature
  | ⟨_, _, result, params, varargs⟩ =>
    result.nodes ++ TypeSignature.nodesOfAll params ++ TypeSignature.nodesOfVarargs varargs

def TypeSignature.nodesOfAll : List TypeSignature → List TypeSignature
  | [] => []
  | signature :: rest => signature.nodes ++ TypeSignature.nodesOfAll rest

def TypeSignature.nodesOfVarargs : Option (List TypeSignature) → List TypeSignature
  | none => []
  | some signatures => TypeSignature.nodesOfAll signatures

end

mutual

/-- How many nodes lie on the longest way from the root to a leaf. -/
def TypeSignature.nesting : TypeSignature → Nat
  | .functionPointer _ method => method.nesting + 1
  | .instantiation _ _ _ arguments => TypeSignature.nestingOfAll arguments + 1
  | .wrapped _ _ next => next.nesting + 1
  | .primitive _ _ _ | .named _ _ _ | .typeVar _ _ | .methodVar _ _ | .sentinel _ => 1

/-- The nesting of the most deeply nested type of a method. -/
def MethodSignature.nesting : MethodSignature → Nat
  | ⟨_, _, result, params, varargs⟩ =>
    max result.nesting (max (TypeSignature.nestingOfAll params)
      (TypeSignature.nestingOfVarargs varargs))

def TypeSignature.nestingOfAll : List TypeSignature → Nat
  | [] => 0
  | signature :: rest => max signature.nesting (TypeSignature.nestingOfAll rest)

def TypeSignature.nestingOfVarargs : Option (List TypeSignature) → Nat
  | none => 0
  | some signatures => TypeSignature.nestingOfAll signatures

end

namespace TypeSignature

@[simp] theorem nodesOfAll_eq (signatures : List TypeSignature) :
    nodesOfAll signatures = signatures.flatMap nodes := by
  induction signatures with
  | nil => rfl
  | cons signature rest ih => rw [nodesOfAll, ih, List.flatMap_cons]

@[simp] theorem handlesOfAll_eq (signatures : List TypeSignature) :
    handlesOfAll signatures = signatures.flatMap handles := by
  induction signatures with
  | nil => rfl
  | cons signature rest ih => rw [handlesOfAll, ih, List.flatMap_cons]

theorem nestingOfAll_le_iff {signatures : List TypeSignature} {levels : Nat} :
    nestingOfAll signatures ≤ levels ↔ ∀ t ∈ signatures, t.nesting ≤ levels := by
  induction signatures with
  | nil => simp [nestingOfAll]
  | cons signature rest ih => rw [nestingOfAll, Nat.max_le, ih, List.forall_mem_cons]

theorem nesting_pos (signature : TypeSignature) : 0 < signature.nesting := by
  cases signature <;> simp [nesting]

end TypeSignature

namespace MethodSignature

theorem nodes_eq (method : MethodSignature) :
    method.nodes = method.parts.flatMap TypeSignature.nodes := by
  obtain ⟨convention, genericCount, result, params, varargs⟩ := method
  cases varargs <;> simp [nodes, TypeSignature.nodesOfVarargs, parts]

theorem handles_eq (method : MethodSignature) :
    method.handles = method.parts.flatMap TypeSignature.handles := by
  obtain ⟨convention, genericCount, result, params, varargs⟩ := method
  cases varargs <;> simp [handles, TypeSignature.handlesOfVarargs, parts]

theorem nesting_le_iff {method : MethodSignature} {levels : Nat} :
    method.nesting ≤ levels ↔ ∀ part ∈ method.parts, part.nesting ≤ levels := by
  obtain ⟨convention, genericCount, result, params, varargs⟩ := method
  rw [nesting, forall_parts_iff, Nat.max_le, Nat.max_le, TypeSignature.nestingOfAll_le_iff]
  refine and_congr_right' (and_congr_right' ?_)
  cases varargs with
  | none => exact iff_of_true (Nat.zero_le _) nofun
  | some varargs => exact TypeSignature.nestingOfAll_le_iff

end MethodSignature

end CliMetadata
