import CliMetadata.Proofs.Nodes
import CliMetadata.Proofs.Numerals
import CliMetadata.Resolver

/-!
Spellings: signatures as they stand in the bytes. A spelling of a type is a tree like the signature
it stands for, but keeps the form of every number and every coded index. Its lexemes are the bytes
and numerals that it is written with, from left to right. A spelling is valid if its counts are
right and the sentinel of a method stands where the first sentinel is taken for it. Spelling and
resolver together give the signature.
-/

namespace CliMetadata

/-- The smallest parts of a written signature. -/
inductive Lexeme where
  | byte (value : UInt8)
  | unsigned (numeral : Numeral)
  | signed (numeral : Numeral)
  | index (numeral : IndexNumeral)

namespace Lexeme

@[simp] def bytes : Lexeme → Bytes
  | .byte value => [value]
  | .unsigned numeral | .signed numeral => numeral.bytes
  | .index numeral => numeral.bytes

/-- No number could be written shorter, and the row of a coded index has 24 bits. -/
@[simp] def IsCanonical : Lexeme → Prop
  | .byte _ => True
  | .unsigned numeral => numeral.IsShortest
  | .signed numeral => numeral.IsShortestSigned
  | .index numeral => numeral.IsShortest ∧ numeral.raw < 2 ^ 26

def bytesOf (lexemes : List Lexeme) : Bytes := lexemes.flatMap bytes

@[simp] theorem bytesOf_nil : bytesOf [] = [] := rfl

@[simp] theorem bytesOf_cons (lexeme : Lexeme) (rest : List Lexeme) :
    bytesOf (lexeme :: rest) = lexeme.bytes ++ bytesOf rest := rfl

@[simp] theorem bytesOf_append (front back : List Lexeme) :
    bytesOf (front ++ back) = bytesOf front ++ bytesOf back :=
  List.flatMap_append

end Lexeme

theorem length_le_length_flatMap {α : Type} {items : List α} {bytes : α → Bytes}
    (h : ∀ item, 0 < (bytes item).length) : items.length ≤ (items.flatMap bytes).length := by
  induction items with
  | nil => exact Nat.le_refl 0
  | cons item rest ih =>
      have first := h item
      rw [List.flatMap_cons, List.length_append, List.length_cons]
      omega

/-- Items behind their count. -/
structure Counted (σ : Type) where
  count : Numeral
  items : List σ
  count_eq : count.raw = items.length

inductive ShapeSpelling where
  | flat (rank : Numeral) (rank_eq : rank.raw = 0)
  | listed (rank : Numeral) (rank_ne : rank.raw ≠ 0) (sizes lowerBounds : Counted Numeral)

namespace ShapeSpelling

def shape : ShapeSpelling → ArrayShape
  | .flat _ _ => { rank := 0 }
  | .listed rank _ sizes lowerBounds => {
      rank := rank.raw
      sizes := sizes.items.map Numeral.raw
      lowerBounds := lowerBounds.items.map Numeral.signed }

def lexemes : ShapeSpelling → List Lexeme
  | .flat rank _ => [.unsigned rank]
  | .listed rank _ sizes lowerBounds =>
    .unsigned rank :: .unsigned sizes.count :: sizes.items.map .unsigned ++
      .unsigned lowerBounds.count :: lowerBounds.items.map .signed

end ShapeSpelling

/-- The handle that reading a token gives. -/
def Resolver.handle (resolver : Resolver) (token : Token) : TypeHandle :=
  ⟨token, resolver.row? token⟩

inductive WrapperSpelling where
  | pointer
  | byRef
  | vector
  | pinned
  | array (shape : ShapeSpelling)
  | modifier (kind : ModifierKind) (index : IndexNumeral)
  | valueArray (size : Numeral)
  | scoped (index : Numeral)

namespace WrapperSpelling

def wrapper (resolver : Resolver) : WrapperSpelling → Wrapper
  | .pointer => .pointer
  | .byRef => .byRef
  | .vector => .vector
  | .pinned => .pinned
  | .array shape => .array shape.shape
  | .modifier kind index => .modifier kind (resolver.handle index.token)
  | .valueArray size => .valueArray size.raw
  | .scoped index => .scoped index.raw

@[simp] def tag : WrapperSpelling → ElementType
  | .pointer => .ptr
  | .byRef => .byRef
  | .vector => .szArray
  | .pinned => .pinned
  | .array _ => .array
  | .modifier kind _ => kind.tag
  | .valueArray _ => .valueArray
  | .scoped _ => .moduleType

/-- What stands between the tag and the wrapped type. -/
@[simp] def before : WrapperSpelling → List Lexeme
  | .modifier _ index => [.index index]
  | .scoped index => [.unsigned index]
  | _ => []

/-- What stands behind the wrapped type. -/
@[simp] def behind : WrapperSpelling → List Lexeme
  | .array shape => shape.lexemes
  | .valueArray size => [.unsigned size]
  | _ => []

end WrapperSpelling

mutual

inductive TypeSpelling where
  | primitive (tag : ElementType) (isPrimitive : tag.isPrimitive)
  | named (kind : TypeKind) (index : IndexNumeral)
  | typeVar (index : Numeral)
  | methodVar (index : Numeral)
  | sentinel
  | functionPointer (method : MethodSpelling)
  | instantiation (kind : TypeKind) (generic : IndexNumeral) (count : Numeral)
      (arguments : List TypeSpelling)
  | wrapped (wrapper : WrapperSpelling) (next : TypeSpelling)

/-- A method as it is written. The variable parameters follow a sentinel, which is there only if
there are any. -/
structure MethodSpelling where
  convention : UInt8
  generics : Option Numeral
  count : Numeral
  result : TypeSpelling
  params : List TypeSpelling
  varargs : List TypeSpelling

end

/-- The calling conventions of methods, without the flags in the upper half. -/
def MethodSignature.kinds : List Nat := [0, 1, 2, 3, 4, 5, 8, 9, 0xB]

/-- The types of a method in the order in which they are written. -/
def MethodSpelling.parts (method : MethodSpelling) : List TypeSpelling :=
  method.result :: method.params ++ method.varargs

@[elab_as_elim, induction_eliminator]
theorem TypeSpelling.induction {motive : TypeSpelling → Prop}
    (primitive : ∀ tag isPrimitive, motive (.primitive tag isPrimitive))
    (named : ∀ kind index, motive (.named kind index))
    (typeVar : ∀ index, motive (.typeVar index))
    (methodVar : ∀ index, motive (.methodVar index))
    (sentinel : motive .sentinel)
    (functionPointer : ∀ method, (∀ part ∈ method.parts, motive part) →
      motive (.functionPointer method))
    (instantiation : ∀ kind generic count arguments, (∀ argument ∈ arguments, motive argument) →
      motive (.instantiation kind generic count arguments))
    (wrapped : ∀ wrapper next, motive next → motive (.wrapped wrapper next))
    (spelling : TypeSpelling) : motive spelling := by
  refine @TypeSpelling.rec motive (fun method => ∀ part ∈ method.parts, motive part)
    (fun all => ∀ s ∈ all, motive s) primitive named typeVar methodVar sentinel functionPointer
    instantiation wrapped ?method ?nil ?cons spelling
  case method =>
    intro convention generics count result params varargs hresult hparams hvarargs part mem
    simp only [MethodSpelling.parts, List.mem_append, List.mem_cons] at mem
    rcases mem with (rfl | mem) | mem
    · exact hresult
    · exact hparams part mem
    · exact hvarargs part mem
  case nil =>
    intro s mem
    cases mem
  case cons =>
    intro head tail hhead htail
    exact List.forall_mem_cons.mpr ⟨hhead, htail⟩

mutual

/-- The signature that the spelling stands for. -/
def TypeSpelling.tree (resolver : Resolver) : TypeSpelling → TypeSignature
  | .primitive tag _ => .primitive 0 tag (resolver.primitive? tag)
  | .named kind index => .named 0 kind (resolver.handle index.token)
  | .typeVar index => .typeVar 0 index.raw
  | .methodVar index => .methodVar 0 index.raw
  | .sentinel => .sentinel 0
  | .functionPointer method => .functionPointer 0 (method.tree resolver)
  | .instantiation kind generic _ arguments =>
    .instantiation 0 kind (resolver.handle generic.token) (TypeSpelling.trees resolver arguments)
  | .wrapped wrapper next => .wrapped 0 (wrapper.wrapper resolver) (next.tree resolver)

def MethodSpelling.tree (resolver : Resolver) : MethodSpelling → MethodSignature
  | ⟨convention, generics, _, result, params, varargs⟩ => {
      convention
      genericCount := (generics.map Numeral.raw).getD 0
      result := result.tree resolver
      params := TypeSpelling.trees resolver params
      varargs := TypeSpelling.varargTrees resolver varargs }

def TypeSpelling.trees (resolver : Resolver) : List TypeSpelling → List TypeSignature
  | [] => []
  | spelling :: rest => spelling.tree resolver :: TypeSpelling.trees resolver rest

def TypeSpelling.varargTrees (resolver : Resolver) :
    List TypeSpelling → Option (List TypeSignature)
  | [] => none
  | spelling :: rest => some (spelling.tree resolver :: TypeSpelling.trees resolver rest)

end

mutual

def TypeSpelling.lexemes : TypeSpelling → List Lexeme
  | .primitive tag _ => [.byte tag.byte]
  | .named kind index => [.byte kind.tag.byte, .index index]
  | .typeVar index => [.byte ElementType.typeVar.byte, .unsigned index]
  | .methodVar index => [.byte ElementType.methodVar.byte, .unsigned index]
  | .sentinel => [.byte ElementType.sentinel.byte]
  | .functionPointer method => .byte ElementType.fnPtr.byte :: method.lexemes
  | .instantiation kind generic count arguments =>
    .byte ElementType.genericInst.byte :: .byte kind.tag.byte :: .index generic ::
      .unsigned count :: TypeSpelling.allLexemes arguments
  | .wrapped wrapper next =>
    .byte wrapper.tag.byte :: wrapper.before ++ next.lexemes ++ wrapper.behind

def MethodSpelling.lexemes : MethodSpelling → List Lexeme
  | ⟨convention, generics, count, result, params, varargs⟩ =>
    .byte convention :: generics.toList.map .unsigned ++ .unsigned count :: result.lexemes ++
      TypeSpelling.allLexemes params ++ TypeSpelling.varargLexemes varargs

def TypeSpelling.allLexemes : List TypeSpelling → List Lexeme
  | [] => []
  | spelling :: rest => spelling.lexemes ++ TypeSpelling.allLexemes rest

def TypeSpelling.varargLexemes : List TypeSpelling → List Lexeme
  | [] => []
  | spelling :: rest =>
    .byte ElementType.sentinel.byte :: spelling.lexemes ++ TypeSpelling.allLexemes rest

end

mutual

def TypeSpelling.Valid : TypeSpelling → Prop
  | .functionPointer method => method.Valid
  | .instantiation _ _ count arguments =>
    count.raw = arguments.length ∧ TypeSpelling.AllValid arguments
  | .wrapped _ next => next.Valid
  | .primitive _ _ | .named _ _ | .typeVar _ | .methodVar _ | .sentinel => True

/-- The count of generic parameters stands there if the convention has the flag for it. -/
def MethodSpelling.Valid : MethodSpelling → Prop
  | ⟨convention, generics, count, result, params, varargs⟩ =>
    convention.toNat % 16 ∈ MethodSignature.kinds ∧
      (generics.isSome ↔ convention &&& 0x10 ≠ 0) ∧
      count.raw = params.length + varargs.length ∧ TypeSpelling.sentinel ∉ params ∧
      result.Valid ∧ TypeSpelling.AllValid params ∧ TypeSpelling.AllValid varargs

def TypeSpelling.AllValid : List TypeSpelling → Prop
  | [] => True
  | spelling :: rest => spelling.Valid ∧ TypeSpelling.AllValid rest

end

namespace ShapeSpelling

def bytes (shape : ShapeSpelling) : Bytes := Lexeme.bytesOf shape.lexemes

end ShapeSpelling

namespace TypeSpelling

def bytes (spelling : TypeSpelling) : Bytes := Lexeme.bytesOf spelling.lexemes

@[simp] theorem trees_eq (resolver : Resolver) (spellings : List TypeSpelling) :
    trees resolver spellings = spellings.map (tree resolver) := by
  induction spellings with
  | nil => rfl
  | cons spelling rest ih => rw [trees, ih, List.map_cons]

@[simp] theorem allLexemes_eq (spellings : List TypeSpelling) :
    allLexemes spellings = spellings.flatMap lexemes := by
  induction spellings with
  | nil => rfl
  | cons spelling rest ih => rw [allLexemes, ih, List.flatMap_cons]

theorem allValid_iff {spellings : List TypeSpelling} :
    AllValid spellings ↔ ∀ s ∈ spellings, s.Valid := by
  induction spellings with
  | nil => simp [AllValid]
  | cons spelling rest ih => rw [AllValid, ih, List.forall_mem_cons]

theorem bytesOf_flatMap (spellings : List TypeSpelling) :
    Lexeme.bytesOf (spellings.flatMap lexemes) = spellings.flatMap bytes := by
  rw [Lexeme.bytesOf, List.flatMap_assoc]
  rfl

/-- The first byte is the tag of the node. -/
theorem bytes_eq_cons (resolver : Resolver) (spelling : TypeSpelling) :
    ∃ rest, spelling.bytes = (spelling.tree resolver).tag.byte :: rest := by
  cases spelling with
  | wrapped wrapper next => cases wrapper <;> exact ⟨_, rfl⟩
  | _ => exact ⟨_, rfl⟩

end TypeSpelling

namespace MethodSpelling

def bytes (method : MethodSpelling) : Bytes := Lexeme.bytesOf method.lexemes

theorem tree_eq (resolver : Resolver) (method : MethodSpelling) :
    method.tree resolver = {
      convention := method.convention
      genericCount := (method.generics.map Numeral.raw).getD 0
      result := method.result.tree resolver
      params := method.params.map (TypeSpelling.tree resolver)
      varargs := TypeSpelling.varargTrees resolver method.varargs } := by
  obtain ⟨convention, generics, count, result, params, varargs⟩ := method
  rw [tree, TypeSpelling.trees_eq]

theorem parts_tree (resolver : Resolver) (method : MethodSpelling) :
    (method.tree resolver).parts = method.parts.map (TypeSpelling.tree resolver) := by
  obtain ⟨convention, generics, count, result, params, varargs⟩ := method
  cases varargs <;>
    simp [tree, TypeSpelling.varargTrees, parts, MethodSignature.parts]

theorem forall_parts_iff {method : MethodSpelling} {P : TypeSpelling → Prop} :
    (∀ part ∈ method.parts, P part) ↔
      P method.result ∧ (∀ param ∈ method.params, P param) ∧
        ∀ vararg ∈ method.varargs, P vararg := by
  simp [parts, or_imp, forall_and]

theorem bytes_eq (method : MethodSpelling) :
    method.bytes = [method.convention] ++ (Lexeme.bytesOf (method.generics.toList.map .unsigned) ++
      (method.count.bytes ++ (method.result.bytes ++ Lexeme.bytesOf
        (TypeSpelling.allLexemes method.params ++
          TypeSpelling.varargLexemes method.varargs)))) := by
  obtain ⟨convention, generics, count, result, params, varargs⟩ := method
  simp [bytes, lexemes, TypeSpelling.bytes, Lexeme.bytesOf, Lexeme.bytes]

theorem valid_iff {method : MethodSpelling} : method.Valid ↔
    method.convention.toNat % 16 ∈ MethodSignature.kinds ∧
      (method.generics.isSome ↔ method.convention &&& 0x10 ≠ 0) ∧
      method.count.raw = method.params.length + method.varargs.length ∧
      TypeSpelling.sentinel ∉ method.params ∧ ∀ part ∈ method.parts, part.Valid := by
  obtain ⟨convention, generics, count, result, params, varargs⟩ := method
  simp [Valid, parts, TypeSpelling.allValid_iff, or_imp, forall_and]

theorem isGeneric_tree {resolver : Resolver} {method : MethodSpelling} (valid : method.Valid) :
    method.generics.isSome ↔ (method.tree resolver).isGeneric := by
  obtain ⟨-, flag, -⟩ := valid_iff.mp valid
  rw [flag]
  simp [tree_eq, MethodSignature.isGeneric]

end MethodSpelling

/-- The spellings that are read where so many levels are left. -/
def TypeSpelling.Within (resolver : Resolver) (levels : Nat) (spelling : TypeSpelling) : Prop :=
  spelling.Valid ∧ (spelling.tree resolver).nesting ≤ levels

def MethodSpelling.Within (resolver : Resolver) (levels : Nat) (method : MethodSpelling) : Prop :=
  method.Valid ∧ (method.tree resolver).nesting ≤ levels

/-- What readers accept that have so many levels left. -/
abbrev TypeSpelled (resolver : Resolver) (levels : Nat) : Language TypeSignature :=
  Spelled (TypeSpelling.Within resolver levels) TypeSpelling.bytes (TypeSpelling.tree resolver)

abbrev MethodSpelled (resolver : Resolver) (levels : Nat) : Language MethodSignature :=
  Spelled (MethodSpelling.Within resolver levels) MethodSpelling.bytes
    (MethodSpelling.tree resolver)

theorem MethodSpelling.within_iff {resolver : Resolver} {levels : Nat} {method : MethodSpelling} :
    method.Within resolver levels ↔ method.convention.toNat % 16 ∈ MethodSignature.kinds ∧
      (method.generics.isSome ↔ method.convention &&& 0x10 ≠ 0) ∧
      method.count.raw = method.params.length + method.varargs.length ∧
      TypeSpelling.sentinel ∉ method.params ∧
      ∀ part ∈ method.parts, part.Within resolver levels := by
  simp only [Within, TypeSpelling.Within, valid_iff, MethodSignature.nesting_le_iff, parts_tree,
    List.forall_mem_map, forall_and, and_assoc]

namespace TypeSpelling

variable {resolver : Resolver} {levels : Nat}

theorem within_functionPointer_iff {method : MethodSpelling} :
    (functionPointer method).Within resolver (levels + 1) ↔ method.Within resolver levels := by
  simp [Within, MethodSpelling.Within, Valid, tree, TypeSignature.nesting]

theorem within_instantiation_iff {kind : TypeKind} {generic : IndexNumeral} {count : Numeral}
    {arguments : List TypeSpelling} :
    (instantiation kind generic count arguments).Within resolver (levels + 1) ↔
      count.raw = arguments.length ∧ ∀ argument ∈ arguments, argument.Within resolver levels := by
  simp [Within, Valid, tree, TypeSignature.nesting, allValid_iff,
    TypeSignature.nestingOfAll_le_iff, forall_and, and_assoc]

theorem within_wrapped_iff {wrapper : WrapperSpelling} {next : TypeSpelling} :
    (wrapped wrapper next).Within resolver (levels + 1) ↔ next.Within resolver levels := by
  simp [Within, Valid, tree, TypeSignature.nesting]

theorem not_within_zero (spelling : TypeSpelling) : ¬spelling.Within resolver 0 := by
  intro given
  obtain ⟨-, none⟩ := given
  exact Nat.not_lt_of_le none (TypeSignature.nesting_pos _)

theorem bytes_named (kind : TypeKind) (index : IndexNumeral) :
    (named kind index).bytes = kind.tag.byte :: index.bytes := by
  simp [bytes, lexemes]

theorem bytes_typeVar (index : Numeral) :
    (typeVar index).bytes = ElementType.typeVar.byte :: index.bytes := by
  simp [bytes, lexemes]

theorem bytes_methodVar (index : Numeral) :
    (methodVar index).bytes = ElementType.methodVar.byte :: index.bytes := by
  simp [bytes, lexemes]

theorem bytes_wrapped (wrapper : WrapperSpelling) (next : TypeSpelling) :
    (wrapped wrapper next).bytes = wrapper.tag.byte ::
      (Lexeme.bytesOf wrapper.before ++ (next.bytes ++ Lexeme.bytesOf wrapper.behind)) := by
  simp [bytes, lexemes, Lexeme.bytesOf, Lexeme.bytes]

theorem bytes_instantiation (kind : TypeKind) (generic : IndexNumeral) (count : Numeral)
    (arguments : List TypeSpelling) :
    (instantiation kind generic count arguments).bytes = ElementType.genericInst.byte ::
      ([kind.tag.byte] ++ (generic.bytes ++ (count.bytes ++ arguments.flatMap bytes))) := by
  simp [bytes, lexemes, Lexeme.bytesOf, Lexeme.bytes, ← bytesOf_flatMap]

end TypeSpelling

end CliMetadata
