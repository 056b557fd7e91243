import CliMetadata.Signature.Naming

/-!
Ownership by walks. A walk goes down the wrapped types to the leaf and asks the node that it finds
there; where the row behind the handle of that node is a signature, it starts again from the row.
Names and scope are read off at the end of one walk, and another walk finds the row.
-/

namespace CliMetadata

theorem TypeSignature.sizeOf_leaf_le (signature : TypeSignature) :
    sizeOf signature.leaf ≤ sizeOf signature := by
  match signature with
  | .wrapped row wrapper next =>
      have inside := next.sizeOf_leaf_le
      simp only [leaf, wrapped.sizeOf_spec]
      omega
  | .primitive .. | .named .. | .typeVar .. | .methodVar .. | .sentinel ..
  | .functionPointer .. | .instantiation .. => exact Nat.le_refl _

/-- What a walk finds at a leaf: a named type, a row that is a signature, the name of a primitive
type that the core library gave no type for, a node that refers to no type, or nothing. -/
inductive NamedLeaf where
  | named (type : NamedType)
  | specification (inner : TypeSignature)
  | core (name : String)
  | other (node : TypeSignature)
  | unresolved

namespace NamedLeaf

def ofHandle (handle : TypeHandle) : NamedLeaf :=
  match handle.target with
  | some (.definition type) | some (.reference type) => .named type
  | some (.specification inner) => .specification inner
  | none => .unresolved

def ofCoreName : Option String → NamedLeaf
  | some name => .core name
  | none => .unresolved

def ofNode : TypeSignature → NamedLeaf
  | .primitive _ _ (some type) => .named type
  | .primitive _ tag none => ofCoreName tag.coreName?
  | .named _ _ handle | .instantiation _ _ handle _ => ofHandle handle
  | node => .other node

/-- The leaf that names a signature, where an instantiation is named by its generic type. -/
def ofSignature (signature : TypeSignature) : NamedLeaf := ofNode signature.leaf

theorem sizeOf_lt_of_ofHandle {handle : TypeHandle} {inner : TypeSignature}
    (found : ofHandle handle = .specification inner) : sizeOf inner < sizeOf handle := by
  obtain ⟨token, target⟩ := handle
  rcases target with _ | type | type | specification <;> cases found
  simp +arith

theorem sizeOf_lt_of_ofNode {node inner : TypeSignature}
    (found : ofNode node = .specification inner) : sizeOf inner < sizeOf node := by
  cases node with
  | primitive row tag type =>
      cases type with
      | none => cases name : tag.coreName? <;> simp [ofNode, ofCoreName, name] at found
      | some type => cases found
  | named row kind handle =>
      have inside := sizeOf_lt_of_ofHandle found
      simp only [TypeSignature.named.sizeOf_spec]
      omega
  | instantiation row kind generic arguments =>
      have inside := sizeOf_lt_of_ofHandle found
      simp only [TypeSignature.instantiation.sizeOf_spec]
      omega
  | typeVar | methodVar | sentinel | functionPointer | wrapped => cases found

theorem sizeOf_lt_of_ofSignature {signature inner : TypeSignature}
    (found : ofSignature signature = .specification inner) : sizeOf inner < sizeOf signature :=
  Nat.lt_of_lt_of_le (sizeOf_lt_of_ofNode found) signature.sizeOf_leaf_le

def name : NamedLeaf → String
  | .named type => type.name
  | .core name => name
  | .other (.typeVar _ index) => String.ofList ('!' :: Text.decimal index)
  | .other (.methodVar _ index) => String.ofList ('!' :: '!' :: Text.decimal index)
  | .other (.sentinel _) => "<<<SENTINEL>>>"
  | .other (.functionPointer _ _) => "(fnptr)"
  | .other _ | .specification _ | .unresolved => ""

def ns : NamedLeaf → String
  | .named type => type.ns
  | .core _ => ElementType.coreNamespace
  | .other _ | .specification _ | .unresolved => ""

def reflectionName : NamedLeaf → String
  | .named type => type.reflectionName
  | leaf => leaf.name

def reflectionNamespace : NamedLeaf → String
  | .named type => type.reflectionNamespace
  | leaf => leaf.ns

def scope : NamedLeaf → Option Scope
  | .named type => type.scope
  | _ => none

end NamedLeaf

namespace Walk

/-- Walks from leaf to leaf through rows that are signatures, and reads off what is asked for at
the last one. -/
def readOff {α : Type} (read : NamedLeaf → α) (signature : TypeSignature) : α :=
  match _ : NamedLeaf.ofSignature signature with
  | .specification inner => readOff read inner
  | leaf => read leaf
termination_by sizeOf signature
decreasing_by exact NamedLeaf.sizeOf_lt_of_ofSignature ‹_›

def name (signature : TypeSignature) : String := readOff NamedLeaf.name signature

def ns (signature : TypeSignature) : String := readOff NamedLeaf.ns signature

def reflectionName (signature : TypeSignature) : String :=
  readOff NamedLeaf.reflectionName signature

def reflectionNamespace (signature : TypeSignature) : String :=
  readOff NamedLeaf.reflectionNamespace signature

def scope (signature : TypeSignature) : Option Scope := readOff NamedLeaf.scope signature

def assembly? (signature : TypeSignature) : Option AssemblyIdentity :=
  (scope signature).bind Scope.assembly?

def ownerModule? (signature : TypeSignature) : Option ModuleInfo :=
  (scope signature).bind Scope.module?

mutual

/-- Walks to the row of the leaf's type, which is never a signature. -/
def scopeRow? (signature : TypeSignature) : Option TypeRow :=
  match _ : signature.leaf with
  | .primitive _ _ type => type.map .reference
  | .named _ _ handle => handleRow? handle
  | .instantiation _ _ generic _ => handleRow? generic
  | .typeVar _ _ | .methodVar _ _ | .sentinel _ | .functionPointer _ _ | .wrapped _ _ _ => none
termination_by sizeOf signature
decreasing_by
  all_goals
    rename_i at_leaf
    have inside := signature.sizeOf_leaf_le
    simp only [at_leaf, TypeSignature.named.sizeOf_spec,
      TypeSignature.instantiation.sizeOf_spec] at inside
    omega

def handleRow? (handle : TypeHandle) : Option TypeRow :=
  match handle with
  | ⟨_, some (.specification inner)⟩ => scopeRow? inner
  | ⟨_, target⟩ => target
termination_by sizeOf handle

end

end Walk

end CliMetadata
