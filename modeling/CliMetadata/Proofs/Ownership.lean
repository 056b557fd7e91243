import CliMetadata.Description
import CliMetadata.Proofs.Rebuilding
import CliMetadata.Signature.Walks

/-!
Ownership by walks. Where the walks to names, scope and row end, they have found what the signature
is about, so that they agree with each other and with the description of the row.
-/

namespace CliMetadata

/-- What a walk has found at its last leaf when the signature is about this. -/
inductive Lands : NamedLeaf → Denoted → Prop where
  | definition (type : NamedType) : Lands (.named type) (.definition type)
  | reference (type : NamedType) : Lands (.named type) (.reference type)
  | core {tag : ElementType} {name : String} (found : tag.coreName? = some name) :
      Lands (.core name) (.primitive tag)
  | coreless {tag : ElementType} (found : tag.coreName? = none) :
      Lands .unresolved (.primitive tag)
  | typeVar (row index : Nat) : Lands (.other (.typeVar row index)) (.typeVar index)
  | methodVar (row index : Nat) : Lands (.other (.methodVar row index)) (.methodVar index)
  | sentinel (row : Nat) : Lands (.other (.sentinel row)) .sentinel
  | functionPointer (row : Nat) (method : MethodSignature) :
      Lands (.other (.functionPointer row method)) .functionPointer
  | unknown : Lands .unresolved .unknown

namespace Lands

variable {leaf : NamedLeaf} {denoted : Denoted}

theorem name_eq (h : Lands leaf denoted) : leaf.name = denoted.name := by
  cases h with
  | core found | coreless found => simp [NamedLeaf.name, Denoted.name, found]
  | definition | reference | typeVar | methodVar | sentinel | functionPointer | unknown => rfl

theorem ns_eq (h : Lands leaf denoted) : leaf.ns = denoted.ns := by
  cases h with
  | core found | coreless found =>
      simp [NamedLeaf.ns, Denoted.ns, ElementType.isPrimitive, found]
  | definition | reference | typeVar | methodVar | sentinel | functionPointer | unknown => rfl

theorem reflectionName_eq (h : Lands leaf denoted) :
    leaf.reflectionName = denoted.reflectionName := by
  cases h with
  | definition | reference => rfl
  | core found => exact (Lands.core found).name_eq
  | coreless found => exact (Lands.coreless found).name_eq
  | typeVar | methodVar | sentinel | functionPointer | unknown => rfl

theorem reflectionNamespace_eq (h : Lands leaf denoted) :
    leaf.reflectionNamespace = denoted.reflectionNamespace := by
  cases h with
  | definition | reference => rfl
  | core found => exact (Lands.core found).ns_eq
  | coreless found => exact (Lands.coreless found).ns_eq
  | typeVar | methodVar | sentinel | functionPointer | unknown => rfl

theorem scope_eq (h : Lands leaf denoted) :
    leaf.scope = denoted.type?.bind NamedType.scope := by
  cases h <;> rfl

end Lands

namespace Walk

section

variable {α : Type} {read : NamedLeaf → α} {signature inner : TypeSignature}

theorem readOff_specification (found : NamedLeaf.ofSignature signature = .specification inner) :
    readOff read signature = readOff read inner := by
  rw [readOff]
  split
  next again => rw [found] at again; cases again; rfl
  next other => exact absurd found (other inner)

theorem readOff_last (last : ∀ inner, NamedLeaf.ofSignature signature ≠ .specification inner) :
    readOff read signature = read (NamedLeaf.ofSignature signature) := by
  rw [readOff]
  split
  next found => exact absurd found (last _)
  next => rfl

theorem readOff_wrapped (row : Nat) (wrapper : Wrapper) (next : TypeSignature) :
    readOff read (.wrapped row wrapper next) = readOff read next := by
  -- A node has the leaf of what it wraps, so that both walks start at the same one.
  have leaf : NamedLeaf.ofSignature (.wrapped row wrapper next) = NamedLeaf.ofSignature next := rfl
  cases found : NamedLeaf.ofSignature next with
  | specification inner => rw [readOff_specification found, readOff_specification (leaf.trans found)]
  | named | core | other | unresolved =>
      have last : ∀ inner, NamedLeaf.ofSignature next ≠ .specification inner := by simp [found]
      rw [readOff_last last, readOff_last (leaf ▸ last), leaf]

end

/-- All walks from the signature end at one leaf, and it is about this. -/
def Finds (signature : TypeSignature) (denoted : Denoted) : Prop :=
  ∃ leaf, Lands leaf denoted ∧
    ∀ {α : Type} (read : NamedLeaf → α), readOff read signature = read leaf

theorem finds_of_lands {signature : TypeSignature} {denoted : Denoted}
    (h : Lands (NamedLeaf.ofSignature signature) denoted) : Finds signature denoted := by
  refine ⟨_, h, fun read => readOff_last fun inner found => ?_⟩
  rw [found] at h
  cases h

theorem finds_of_handle {signature : TypeSignature} {handle : TypeHandle}
    (leaf : NamedLeaf.ofSignature signature = NamedLeaf.ofHandle handle)
    (rows : ∀ row ∈ handle.specification?.toList, Finds row row.denoted) :
    Finds signature handle.denoted := by
  obtain ⟨token, target⟩ := handle
  rcases target with _ | type | type | inner
  · exact finds_of_lands (leaf ▸ .unknown)
  · exact finds_of_lands (leaf ▸ .definition type)
  · exact finds_of_lands (leaf ▸ .reference type)
  · obtain ⟨last, lands, found⟩ := rows inner (List.mem_singleton_self inner)
    exact ⟨last, lands, fun read => (readOff_specification leaf).trans (found read)⟩

theorem finds_denoted (signature : TypeSignature) : Finds signature signature.denoted := by
  induction signature using TypeSignature.induction_components with
  | node signature types rows =>
      cases signature with
      | primitive row tag type =>
          cases type with
          | some type => exact finds_of_lands (.reference type)
          | none =>
              have leaf : NamedLeaf.ofSignature (.primitive row tag none) =
                  .ofCoreName tag.coreName? := rfl
              cases found : tag.coreName? with
              | none =>
                  rw [found] at leaf
                  exact finds_of_lands (leaf ▸ .coreless found)
              | some name =>
                  rw [found] at leaf
                  exact finds_of_lands (leaf ▸ .core found)
      | named row kind handle => exact finds_of_handle rfl rows
      | typeVar row index => exact finds_of_lands (.typeVar row index)
      | methodVar row index => exact finds_of_lands (.methodVar row index)
      | sentinel row => exact finds_of_lands (.sentinel row)
      | functionPointer row method => exact finds_of_lands (.functionPointer row method)
      | instantiation row kind generic arguments => exact finds_of_handle rfl rows
      | wrapped row wrapper next =>
          obtain ⟨last, lands, found⟩ := types next (List.mem_singleton_self next)
          exact ⟨last, lands, fun read => (readOff_wrapped row wrapper next).trans (found read)⟩

theorem handleRow?_eq {handle : TypeHandle}
    (rows : ∀ row ∈ handle.specification?.toList, scopeRow? row = row.denoted.row?) :
    handleRow? handle = handle.denoted.row? := by
  obtain ⟨token, target⟩ := handle
  unfold handleRow?
  rcases target with _ | type | type | inner
  · rfl
  · rfl
  · rfl
  · exact rows inner (List.mem_singleton_self inner)

theorem scopeRow?_wrapped (row : Nat) (wrapper : Wrapper) (next : TypeSignature) :
    scopeRow? (.wrapped row wrapper next) = scopeRow? next := by
  unfold scopeRow?
  rfl

theorem scopeRow?_eq (signature : TypeSignature) : scopeRow? signature = signature.scopeRow? := by
  induction signature using TypeSignature.induction_components with
  | node signature types rows =>
      cases signature with
      | primitive row tag type => rw [scopeRow?]; cases type <;> rfl
      | named row kind handle => rw [scopeRow?]; exact handleRow?_eq rows
      | typeVar | methodVar | sentinel | functionPointer => rw [scopeRow?]; rfl
      | instantiation row kind generic arguments => rw [scopeRow?]; exact handleRow?_eq rows
      | wrapped row wrapper next =>
          rw [scopeRow?_wrapped]
          exact types next (List.mem_singleton_self next)

/-- What is read off at the end of a walk is what is asked of what the signature is about. -/
theorem readOff_eq {α : Type} {read : NamedLeaf → α} {asked : Denoted → α}
    (h : ∀ leaf denoted, Lands leaf denoted → read leaf = asked denoted)
    (signature : TypeSignature) : readOff read signature = asked signature.denoted := by
  obtain ⟨leaf, lands, found⟩ := finds_denoted signature
  rw [found, h leaf signature.denoted lands]

theorem name_eq (signature : TypeSignature) : name signature = signature.name :=
  readOff_eq (fun _ _ => Lands.name_eq) signature

theorem ns_eq (signature : TypeSignature) : ns signature = signature.ns :=
  readOff_eq (fun _ _ => Lands.ns_eq) signature

theorem reflectionName_eq (signature : TypeSignature) :
    reflectionName signature = signature.reflectionName :=
  readOff_eq (fun _ _ => Lands.reflectionName_eq) signature

theorem reflectionNamespace_eq (signature : TypeSignature) :
    reflectionNamespace signature = signature.reflectionNamespace :=
  readOff_eq (fun _ _ => Lands.reflectionNamespace_eq) signature

theorem scope_eq (signature : TypeSignature) : scope signature = signature.scope :=
  readOff_eq (fun _ _ => Lands.scope_eq) signature

theorem assembly?_eq (signature : TypeSignature) : assembly? signature = signature.assembly? := by
  rw [assembly?, scope_eq, TypeSignature.assembly?]

theorem ownerModule?_eq (signature : TypeSignature) :
    ownerModule? signature = signature.ownerModule? := by
  rw [ownerModule?, scope_eq, TypeSignature.ownerModule?]

end Walk

theorem Scope.module?_eq_some_iff {scope : Scope} {m : ModuleInfo} :
    scope.module? = some m ↔ scope = .inModule m := by
  cases scope <;> simp [module?]

theorem Denoted.row?_eq_some {denoted : Denoted} {row : TypeRow} (found : denoted.row? = some row) :
    (∃ type, denoted = .definition type ∧ row = .definition type) ∨
      ∃ type, denoted = .reference type ∧ row = .reference type := by
  cases denoted with
  | definition type => exact .inl ⟨type, rfl, (Option.some.inj found).symm⟩
  | reference type => exact .inr ⟨type, rfl, (Option.some.inj found).symm⟩
  | primitive | typeVar | methodVar | sentinel | functionPointer | unknown => cases found

theorem Denoted.type?_of_row? {denoted : Denoted} (nothing : denoted.row? = none) :
    denoted.type? = none := by
  cases denoted with
  | definition | reference => cases nothing
  | primitive | typeVar | methodVar | sentinel | functionPointer | unknown => rfl

namespace TypeSignature

/-- The row that a signature comes down to describes it as the signature itself does. -/
theorem description_of_scopeRow? {signature : TypeSignature} {row : TypeRow}
    (found : signature.scopeRow? = some row) :
    (∃ type, row = .definition type ∨ row = .reference type) ∧
    signature.name = row.description.name ∧
    signature.ns = row.description.ns ∧
    signature.reflectionName = row.description.reflectionName ∧
    signature.reflectionNamespace = row.description.reflectionNamespace ∧
    signature.scope = row.description.scope ∧
    signature.assembly? = row.description.assembly := by
  rw [name, ns, reflectionName, reflectionNamespace, assembly?, scope]
  rcases Denoted.row?_eq_some found with ⟨type, about, rfl⟩ | ⟨type, about, rfl⟩
  · rw [about]
    exact ⟨⟨type, .inl rfl⟩, rfl, rfl, rfl, rfl, rfl, rfl⟩
  · rw [about]
    exact ⟨⟨type, .inr rfl⟩, rfl, rfl, rfl, rfl, rfl, rfl⟩

theorem scope_of_scopeRow? {signature : TypeSignature} (nothing : signature.scopeRow? = none) :
    signature.scope = none := by
  rw [scope, Denoted.type?_of_row? nothing, Option.bind_none]

theorem ownerModule?_eq_some_iff {signature : TypeSignature} {m : ModuleInfo} :
    signature.ownerModule? = some m ↔ signature.scope = some (.inModule m) := by
  rw [ownerModule?, Option.bind_eq_some_iff]
  constructor
  · rintro ⟨scope, found, inside⟩
    rw [found, Scope.module?_eq_some_iff.mp inside]
  · intro found
    exact ⟨_, found, rfl⟩

/-- The walks agree with each other. They find a row that describes the type as the signature does,
or nothing that owns it. -/
theorem ownership_agrees (signature : TypeSignature) :
    (Walk.name signature = signature.name ∧
      Walk.ns signature = signature.ns ∧
      Walk.reflectionName signature = signature.reflectionName ∧
      Walk.reflectionNamespace signature = signature.reflectionNamespace ∧
      Walk.scope signature = signature.scope ∧
      Walk.scopeRow? signature = signature.scopeRow? ∧
      Walk.ownerModule? signature = signature.ownerModule? ∧
      Walk.assembly? signature = signature.assembly?) ∧
    (∀ row, signature.scopeRow? = some row →
      (∃ type, row = .definition type ∨ row = .reference type) ∧
      signature.name = row.description.name ∧
      signature.ns = row.description.ns ∧
      signature.reflectionName = row.description.reflectionName ∧
      signature.reflectionNamespace = row.description.reflectionNamespace ∧
      signature.scope = row.description.scope ∧
      signature.assembly? = row.description.assembly) ∧
    (signature.scopeRow? = none →
      signature.scope = none ∧ signature.ownerModule? = none ∧ signature.assembly? = none) ∧
    (∀ m, signature.ownerModule? = some m ↔ signature.scope = some (.inModule m)) ∧
    signature.assembly? = signature.scope.bind Scope.assembly? := by
  refine ⟨⟨Walk.name_eq signature, Walk.ns_eq signature, Walk.reflectionName_eq signature,
    Walk.reflectionNamespace_eq signature, Walk.scope_eq signature, Walk.scopeRow?_eq signature,
    Walk.ownerModule?_eq signature, Walk.assembly?_eq signature⟩,
    fun row => description_of_scopeRow?, fun nothing => ?_, fun m => ownerModule?_eq_some_iff, rfl⟩
  have unowned := scope_of_scopeRow? nothing
  refine ⟨unowned, ?_, ?_⟩
  · rw [ownerModule?, unowned, Option.bind_none]
  · rw [assembly?, unowned, Option.bind_none]

/-- A type nested in one that is in a module without an assembly. -/
def nestedInModule : NamedType :=
  .nested { token := ⟨0x01000002⟩, ns := "Ignored", name := "Inner`1" } <|
    .topLevel { token := ⟨0x01000001⟩, ns := "Space", name := "Outer",
                scope := some (.inModule { name := "part.netmodule" }) }

/-- A pinned row, which is a vector of instances of a nested type. -/
def pinnedInstances : TypeSignature :=
  .wrapped 0 .pinned <| .named 0 .classType
    ⟨⟨0x1B000001⟩, some <| .specification <| .wrapped 1 .vector <|
      .instantiation 0 .classType (.ofRow (.reference nestedInModule)) [.typeVar 0 0]⟩

theorem ownership_agrees_nested :
    pinnedInstances.scopeRow? = some (.reference nestedInModule) ∧
    Walk.name pinnedInstances = "Inner`1" ∧
    Walk.ns pinnedInstances = "Space" ∧
    Walk.ownerModule? pinnedInstances = some { name := "part.netmodule" } ∧
    pinnedInstances.assembly? = none ∧
    (primitive 0 .i4 none).scopeRow? = none ∧ (primitive 0 .i4 none).scope = none := by
  obtain ⟨⟨name, ns, -, -, -, -, owner, -⟩, described, -, -, -⟩ := ownership_agrees pinnedInstances
  have row : pinnedInstances.scopeRow? = some (.reference nestedInModule) := rfl
  obtain ⟨-, named, spaced, -, -, -, assembly⟩ := described _ row
  have unowned := (ownership_agrees (primitive 0 .i4 none)).2.2.1 rfl
  exact ⟨row, name.trans named, ns.trans spaced, owner.trans rfl, assembly, rfl, unowned.1⟩

end TypeSignature

end CliMetadata
