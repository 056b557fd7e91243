import CliMetadata.Signature.Core

/-!
What is looked through. Every signature is its core in modifiers, at most one mark of a pinned
local among them. What is asked of the core gives the same answer on the wrapped signature, and a
second mark is where looking through ends.
-/

namespace CliMetadata

/-- A modifier as a node that a signature can be put into. -/
structure Modifier where
  row : Nat
  kind : ModifierKind
  handle : TypeHandle

namespace Modifier

def wrap (modifier : Modifier) (next : TypeSignature) : TypeSignature :=
  .wrapped modifier.row (.modifier modifier.kind modifier.handle) next

def wrapAll (modifiers : List Modifier) (next : TypeSignature) : TypeSignature :=
  modifiers.foldr wrap next

end Modifier

open Modifier

/-- Modifiers, the row number of the pinned node behind them if there is one, and the modifiers
behind that. -/
structure Wrapping where
  outer : List Modifier
  pinned : Option Nat
  inner : List Modifier

namespace Wrapping

def apply (w : Wrapping) (core : TypeSignature) : TypeSignature :=
  wrapAll w.outer <|
    match w.pinned with
    | some row => .wrapped row .pinned (wrapAll w.inner core)
    | none => wrapAll w.inner core

end Wrapping

namespace TypeSignature

/-- All that is asked of cores has the same answers on both signatures. -/
structure SameAnswers (a b : TypeSignature) : Prop where
  naming : a.coreNaming? = b.coreNaming?
  named : a.coreNamed? = b.coreNamed?
  classType : a.coreClass? = b.coreClass?
  valueType : a.coreValueType? = b.coreValueType?
  instantiation : a.coreInstantiation? = b.coreInstantiation?
  array : a.coreArray? = b.coreArray?
  vector : a.coreVector? = b.coreVector?
  pointer : a.corePointer? = b.corePointer?
  byRef : a.coreByRef? = b.coreByRef?
  parameter : a.coreParameter? = b.coreParameter?
  typeVar : a.coreTypeVar? = b.coreTypeVar?
  methodVar : a.coreMethodVar? = b.coreMethodVar?
  definition : a.definition? = b.definition?
  reference : a.reference? = b.reference?
  specification : a.specification? = b.specification?
  isValueType : a.isValueType = b.isValueType
  argumentCount : a.argumentCount = b.argumentCount

section

variable {signature : TypeSignature}

theorem isModifier_iff :
    signature.isModifier ↔ ∃ (modifier : Modifier) (next : TypeSignature),
      signature = modifier.wrap next := by
  refine ⟨?_, ?_⟩
  · intro h
    cases signature with
    | wrapped row wrapper next =>
        cases wrapper with
        | modifier kind handle => exact ⟨⟨row, kind, handle⟩, next, rfl⟩
        | pointer | byRef | vector | pinned | array | valueArray | «scoped» => cases h
    | named row kind handle => cases kind <;> cases h
    | primitive | typeVar | methodVar | sentinel | functionPointer | instantiation => cases h
  · rintro ⟨⟨row, kind, handle⟩, next, rfl⟩
    cases kind <;> rfl

theorem isPinned_iff :
    signature.isPinned ↔ ∃ (row : Nat) (next : TypeSignature),
      signature = .wrapped row .pinned next := by
  refine ⟨?_, ?_⟩
  · intro h
    cases signature with
    | wrapped row wrapper next =>
        cases wrapper with
        | pinned => exact ⟨row, next, rfl⟩
        | modifier kind handle => cases kind <;> cases h
        | pointer | byRef | vector | array | valueArray | «scoped» => cases h
    | named row kind handle => cases kind <;> cases h
    | primitive | typeVar | methodVar | sentinel | functionPointer | instantiation => cases h
  · rintro ⟨row, next, rfl⟩
    rfl

theorem withoutModifiers_eq_self (h : signature.isModifier = false) :
    signature.withoutModifiers = signature := by
  rw [withoutModifiers]
  rintro row kind handle next rfl
  cases kind <;> cases h

theorem withoutPinned_eq_self (h : signature.isPinned = false) :
    signature.withoutPinned = signature := by
  rw [withoutPinned]
  rintro row next rfl
  cases h

theorem withoutModifiers_wrapAll (modifiers : List Modifier) (next : TypeSignature) :
    (wrapAll modifiers next).withoutModifiers = next.withoutModifiers := by
  induction modifiers with
  | nil => rfl
  | cons modifier rest ih => exact ih

/-- A signature is what is left without its outer modifiers, in those modifiers. -/
theorem exists_wrapAll (signature : TypeSignature) :
    ∃ modifiers, wrapAll modifiers signature.withoutModifiers = signature := by
  fun_induction withoutModifiers signature with
  | case1 row kind handle next ih =>
      obtain ⟨modifiers, wrapped⟩ := ih
      exact ⟨⟨row, kind, handle⟩ :: modifiers, congrArg (Modifier.wrap _) wrapped⟩
  | case2 signature other => exact ⟨[], rfl⟩

theorem isModifier_withoutModifiers (signature : TypeSignature) :
    signature.withoutModifiers.isModifier = false := by
  fun_induction withoutModifiers signature with
  | case1 row kind handle next ih => exact ih
  | case2 signature other =>
      refine Bool.eq_false_iff.mpr fun h => ?_
      obtain ⟨modifier, next, wrapped⟩ := isModifier_iff.mp h
      exact other _ _ _ _ wrapped

end

section

variable {core : TypeSignature}

theorem core_eq_self (plain : core.isModifier = false) (unpinned : core.isPinned = false) :
    core.core = core := by
  rw [TypeSignature.core, withoutModifiers_eq_self plain, withoutPinned_eq_self unpinned,
    withoutModifiers_eq_self plain]

/-- One mark is looked through, and modifiers on both sides of it. -/
theorem core_apply_pinned (outer inner : List Modifier) (row : Nat) (next : TypeSignature) :
    (Wrapping.apply ⟨outer, some row, inner⟩ next).core = next.withoutModifiers := by
  rw [TypeSignature.core, Wrapping.apply, withoutModifiers_wrapAll]
  exact withoutModifiers_wrapAll inner next

theorem core_apply (w : Wrapping) (plain : core.isModifier = false)
    (unpinned : core.isPinned = false) : (w.apply core).core = core := by
  obtain ⟨outer, pinned, inner⟩ := w
  cases pinned with
  | some row => rw [core_apply_pinned, withoutModifiers_eq_self plain]
  | none =>
      rw [TypeSignature.core, Wrapping.apply, withoutModifiers_wrapAll, withoutModifiers_wrapAll]
      exact core_eq_self plain unpinned

/-- Every signature is its core in a wrapping. -/
theorem exists_wrapping (signature : TypeSignature) :
    ∃ w : Wrapping, w.apply signature.core = signature ∧
      (w.pinned = none → signature.core.isPinned = false) := by
  obtain ⟨outer, outside⟩ := exists_wrapAll signature
  cases pinned : signature.withoutModifiers.isPinned with
  | true =>
      obtain ⟨row, next, marked⟩ := isPinned_iff.mp pinned
      obtain ⟨inner, inside⟩ := exists_wrapAll next
      have core_eq : signature.core = next.withoutModifiers := by
        rw [TypeSignature.core, marked, withoutPinned]
      refine ⟨⟨outer, some row, inner⟩, ?_, nofun⟩
      simp only [Wrapping.apply, core_eq, inside, ← marked, outside]
  | false =>
      have core_eq : signature.core = signature.withoutModifiers := by
        rw [TypeSignature.core, withoutPinned_eq_self pinned,
          withoutModifiers_eq_self (isModifier_withoutModifiers signature)]
      refine ⟨⟨outer, none, []⟩, ?_, fun _ => core_eq ▸ pinned⟩
      rw [Wrapping.apply, core_eq]
      exact outside

end

/-- No question tells signatures with the same core apart. -/
theorem sameAnswers_of_core {a b : TypeSignature} (same : a.core = b.core) : SameAnswers a b := by
  constructor <;>
    simp only [coreNaming?, coreNamed?, coreClass?, coreValueType?, coreInstantiation?, coreArray?,
      coreVector?, corePointer?, coreByRef?, coreParameter?, coreTypeVar?, coreMethodVar?, coreIf,
      definition?, reference?, specification?, coreHandle?, isValueType, argumentCount, same]

/-- What is asked of the core has the same answer in any modifiers with at most one mark of a pinned
local among them, and nothing else is looked through: what is left is no modifier, a second mark
stays, and the signature is the core in a wrapping. -/
theorem core_seen_through :
    (∀ (w : Wrapping) (core : TypeSignature), core.isModifier = false → core.isPinned = false →
      (w.apply core).core = core ∧ SameAnswers (w.apply core) core) ∧
    (∀ signature : TypeSignature, signature.withoutModifiers.isModifier = false) ∧
    (∀ (outer inner : List Modifier) (first second : Nat) (next : TypeSignature),
      (Wrapping.apply ⟨outer, some first, inner⟩ (.wrapped second .pinned next)).core =
        .wrapped second .pinned next) ∧
    ∀ signature : TypeSignature, ∃ w : Wrapping, w.apply signature.core = signature ∧
      signature.core.isModifier = false ∧
      (w.pinned = none → signature.core.isPinned = false) := by
  refine ⟨?_, isModifier_withoutModifiers, ?_, ?_⟩
  · intro w core plain unpinned
    have left := core_apply w plain unpinned
    exact ⟨left, sameAnswers_of_core (left.trans (core_eq_self plain unpinned).symm)⟩
  · intro outer inner first second next
    exact core_apply_pinned outer inner first _
  · intro signature
    obtain ⟨w, wrapped, unpinned⟩ := exists_wrapping signature
    exact ⟨w, wrapped, isModifier_withoutModifiers _, unpinned⟩

/-- Two modifiers, the mark, and a modifier behind it. -/
def wrappingOfLocal : Wrapping where
  outer := [⟨1, .optional, .unresolved ⟨0x01000001⟩⟩, ⟨2, .required, .unresolved ⟨0x01000002⟩⟩]
  pinned := some 3
  inner := [⟨4, .optional, .unresolved ⟨0x01000003⟩⟩]

theorem core_seen_through_local :
    let core := TypeSignature.named 5 .valueType (.unresolved ⟨0x02000005⟩)
    core.isModifier = false ∧ core.isPinned = false ∧
      (wrappingOfLocal.apply core).core = core ∧
      SameAnswers (wrappingOfLocal.apply core) core :=
  ⟨rfl, rfl, core_seen_through.1 wrappingOfLocal _ rfl rfl⟩

/-- Behind two marks a reference is found all the same, since the core is asked for its core. A
definition, a row of a signature and a primitive type are not found there. -/
theorem reference_behind_second_pinned (outer middle inner : List Modifier)
    (first second row : Nat) (kind : TypeKind) (handle : TypeHandle) (tag : ElementType)
    (type : Option NamedType) :
    let twice (next : TypeSignature) : TypeSignature := Wrapping.apply ⟨outer, some first, middle⟩
      (.wrapped second .pinned (wrapAll inner next))
    (twice (.named row kind handle)).reference? = handle.reference? ∧
      (twice (.named row kind handle)).definition? = none ∧
      (twice (.named row kind handle)).specification? = none ∧
      (twice (.primitive row tag type)).reference? = none := by
  intro twice
  have stays (next : TypeSignature) :
      (twice next).core = .wrapped second .pinned (wrapAll inner next) :=
    core_apply_pinned outer middle first _
  have behind (next : TypeSignature) :
      (TypeSignature.wrapped second .pinned (wrapAll inner next)).core = next.withoutModifiers :=
    core_apply_pinned [] inner second next
  refine ⟨?_, ?_, ?_, ?_⟩
  · simp only [reference?, stays, coreHandle?, behind, withoutModifiers, Option.bind_some]
  · simp only [definition?, coreHandle?, stays, Option.bind_none]
  · simp only [specification?, coreHandle?, stays, Option.bind_none]
  · simp only [reference?, stays, coreHandle?, behind, withoutModifiers, Option.bind_none]

end TypeSignature

end CliMetadata
