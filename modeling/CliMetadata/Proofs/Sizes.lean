import CliMetadata.Proofs.Canonical
import CliMetadata.Proofs.Encodability
import Mathlib.Algebra.GroupWithZero.Nat
import Mathlib.Data.List.Forall2

/-!
How large a signature can be that was read from given bytes. Every node and every entry of the lists
of an array stands for a lexeme of its own, and every lexeme has a byte, so that counts in the bytes
never make the signature larger than the bytes. The lexemes and the fields of the signature stand in
the same order, and no field is written in more bytes than the lexeme that it was read from.
-/

namespace CliMetadata

/-- How many sizes and lower bounds the wrapper has. -/
def Wrapper.entries : Wrapper → Nat
  | .array shape => shape.sizes.length + shape.lowerBounds.length
  | _ => 0

namespace TypeSignature

/-- How many sizes and lower bounds the node itself has. -/
def entries : TypeSignature → Nat
  | .wrapped _ wrapper _ => wrapper.entries
  | .primitive _ _ _ | .named _ _ _ | .typeVar _ _ | .methodVar _ _ | .sentinel _
  | .functionPointer _ _ | .instantiation _ _ _ _ => 0

/-- The number of the nodes and of all their sizes and lower bounds. -/
def sizeOfAll (nodes : List TypeSignature) : Nat := nodes.length + (nodes.map entries).sum

theorem sizeOfAll_cons (node : TypeSignature) (rest : List TypeSignature) :
    sizeOfAll (node :: rest) = 1 + node.entries + sizeOfAll rest := by
  simp only [sizeOfAll, List.length_cons, List.map_cons, List.sum_cons]
  omega

theorem sizeOfAll_append (front back : List TypeSignature) :
    sizeOfAll (front ++ back) = sizeOfAll front + sizeOfAll back := by
  simp only [sizeOfAll, List.length_append, List.map_append, List.sum_append]
  omega

end TypeSignature

open TypeSignature

variable {resolver : Resolver}

namespace Lexeme

theorem length_bytes_pos (lexeme : Lexeme) : 0 < lexeme.bytes.length := by
  cases lexeme with
  | byte value => exact Nat.one_pos
  | unsigned numeral | signed numeral => exact numeral.length_bytes_pos
  | index numeral => exact numeral.length_bytes_pos

theorem length_le_length_bytesOf (lexemes : List Lexeme) :
    lexemes.length ≤ (bytesOf lexemes).length :=
  length_le_length_flatMap length_bytes_pos

end Lexeme

theorem ShapeSpelling.entries_le (shape : ShapeSpelling) :
    shape.shape.sizes.length + shape.shape.lowerBounds.length ≤ shape.lexemes.length := by
  cases shape with
  | flat rank rank_eq => exact Nat.zero_le _
  | listed rank rank_ne sizes lowerBounds =>
      simp only [ShapeSpelling.shape, lexemes, List.length_map, List.length_append,
        List.length_cons]
      omega

theorem WrapperSpelling.entries_le (resolver : Resolver) (wrapper : WrapperSpelling) :
    (wrapper.wrapper resolver).entries ≤ wrapper.behind.length := by
  cases wrapper with
  | array shape => exact shape.entries_le
  | _ => exact Nat.zero_le _

theorem sizeOfAll_trees_le {spellings : List TypeSpelling}
    (h : ∀ s ∈ spellings, sizeOfAll (s.tree resolver).nodes ≤ s.lexemes.length) :
    sizeOfAll ((spellings.map (TypeSpelling.tree resolver)).flatMap nodes) ≤
      (spellings.flatMap TypeSpelling.lexemes).length := by
  induction spellings with
  | nil => exact Nat.zero_le _
  | cons spelling rest ih =>
      obtain ⟨first, others⟩ := List.forall_mem_cons.mp h
      rw [List.map_cons, List.flatMap_cons, List.flatMap_cons, sizeOfAll_append,
        List.length_append]
      exact Nat.add_le_add first (ih others)

namespace MethodSpelling

theorem lexemes_eq (method : MethodSpelling) :
    method.lexemes = .byte method.convention :: method.generics.toList.map .unsigned ++
      .unsigned method.count :: method.result.lexemes ++ TypeSpelling.allLexemes method.params ++
        TypeSpelling.varargLexemes method.varargs := by
  obtain ⟨convention, generics, count, result, params, varargs⟩ := method
  rw [lexemes]

/-- Besides its types a method has the convention and the count of its parameters. -/
theorem length_lexemes_ge (method : MethodSpelling) :
    2 + (method.parts.flatMap TypeSpelling.lexemes).length ≤ method.lexemes.length := by
  have varargs : (method.varargs.flatMap TypeSpelling.lexemes).length ≤
      (TypeSpelling.varargLexemes method.varargs).length := by
    cases method.varargs with
    | nil => exact Nat.le_refl 0
    | cons first rest =>
        rw [TypeSpelling.varargLexemes, TypeSpelling.allLexemes_eq, List.flatMap_cons]
        exact Nat.le_succ _
  rw [lexemes_eq, parts, TypeSpelling.allLexemes_eq]
  simp only [List.cons_append, List.flatMap_cons, List.flatMap_append, List.length_append,
    List.length_cons]
  omega

theorem size_le_of_parts {method : MethodSpelling}
    (h : ∀ part ∈ method.parts, sizeOfAll (part.tree resolver).nodes ≤ part.lexemes.length) :
    2 + sizeOfAll (method.tree resolver).nodes ≤ method.lexemes.length := by
  rw [MethodSignature.nodes_eq, parts_tree]
  exact Nat.le_trans (Nat.add_le_add_left (sizeOfAll_trees_le h) 2) method.length_lexemes_ge

end MethodSpelling

/-- Every node has a tag and every entry a number. -/
theorem TypeSpelling.size_le (resolver : Resolver) (spelling : TypeSpelling) :
    sizeOfAll (spelling.tree resolver).nodes ≤ spelling.lexemes.length := by
  induction spelling with
  | primitive tag isPrimitive => exact Nat.le_refl 1
  | named kind index => exact Nat.le_succ 1
  | typeVar index | methodVar index => exact Nat.le_succ 1
  | sentinel => exact Nat.le_refl 1
  | functionPointer method ih =>
      have inside := MethodSpelling.size_le_of_parts ih
      rw [tree, nodes, sizeOfAll_cons, entries, lexemes, List.length_cons]
      omega
  | instantiation kind generic count arguments ih =>
      have inside := sizeOfAll_trees_le ih
      rw [tree, trees_eq, nodes, nodesOfAll_eq, sizeOfAll_cons, entries, lexemes, allLexemes_eq]
      simp only [List.length_cons]
      omega
  | wrapped wrapper next ih =>
      have own := wrapper.entries_le resolver
      rw [tree, nodes, sizeOfAll_cons, entries, lexemes]
      simp only [List.length_cons, List.length_append]
      omega

theorem MethodSpelling.size_le (resolver : Resolver) (method : MethodSpelling) :
    2 + sizeOfAll (method.tree resolver).nodes ≤ method.lexemes.length :=
  size_le_of_parts fun part _ => part.size_le resolver

namespace Numeral

theorem IsShortest.length_le {least numeral : Numeral} (shortest : least.IsShortest)
    (raw_eq : least.raw = numeral.raw) : least.bytes.length ≤ numeral.bytes.length := by
  rw [bytes, bytes, Compressed.Form.length_bytes, Compressed.Form.length_bytes]
  exact shortest numeral raw_eq.symm

theorem IsShortestSigned.length_le {least numeral : Numeral} (shortest : least.IsShortestSigned)
    (signed_eq : least.signed = numeral.signed) : least.bytes.length ≤ numeral.bytes.length := by
  rw [bytes, bytes, Compressed.Form.length_bytes, Compressed.Form.length_bytes]
  exact shortest numeral signed_eq.symm

/-- A number of more than 26 bits takes the longest form. -/
theorem length_le_of_large {numeral other : Numeral} (large : 2 ^ 26 ≤ numeral.raw) :
    other.bytes.length ≤ numeral.bytes.length := by
  have fits := numeral.raw_lt
  rw [bytes, bytes, Compressed.Form.length_bytes, Compressed.Form.length_bytes]
  cases form_eq : numeral.form with
  | short | medium =>
      rw [form_eq, Compressed.Form.capacity] at fits
      omega
  | long => cases other.form <;> decide

end Numeral

namespace Lexeme

/-- The field has no encoding that is longer than the lexeme. -/
def Covers (lexeme : Lexeme) (field : Field) : Prop :=
  ∀ written, field.encode = .ok written → written.length ≤ lexeme.bytes.length

theorem covers_byte (value : UInt8) : (byte value).Covers (.byte value) := by
  rintro _ ⟨⟩
  exact Nat.le_refl 1

theorem covers_primitive (tag : ElementType) : (byte tag.byte).Covers (.primitive tag) := by
  intro written encoded
  by_cases isPrimitive : tag.isPrimitive
  · rw [Field.encode, if_pos isPrimitive] at encoded
    cases encoded
    exact Nat.le_refl 1
  · rw [Field.encode, if_neg isPrimitive] at encoded
    cases encoded

theorem covers_unsigned (numeral : Numeral) : (unsigned numeral).Covers (.unsigned numeral.raw) := by
  intro written encoded
  obtain ⟨least, shortest, rfl, raw_eq⟩ := Compressed.encodeUnsigned_eq_ok_iff.mp encoded
  exact shortest.length_le raw_eq

theorem covers_signed (numeral : Numeral) : (signed numeral).Covers (.signed numeral.signed) := by
  intro written encoded
  obtain ⟨least, shortest, rfl, signed_eq⟩ := Compressed.encodeSigned_eq_ok_iff.mp encoded
  exact shortest.length_le signed_eq

theorem covers_count {numeral : Numeral} {count : Nat} (count_eq : numeral.raw = count) :
    (unsigned numeral).Covers (.count count) := by
  intro written encoded
  obtain ⟨least, shortest, rfl, raw_eq⟩ := encodeCount_eq_ok_iff.mp encoded
  exact shortest.length_le (raw_eq.trans count_eq.symm)

/-- The index of the token is the one that was read, unless that had more than 26 bits. -/
theorem covers_index (numeral : IndexNumeral) : (index numeral).Covers (.token numeral.token) := by
  intro written encoded
  obtain ⟨least, ⟨shortest, small⟩, rfl, token_eq⟩ :=
    Compressed.encodeToken_eq_ok_iff.mp encoded
  rcases Nat.lt_or_ge numeral.raw (2 ^ 26) with fits | large
  · have found := Token.codedIndex?_eq_some_iff.mpr ⟨fits, numeral.token_eq⟩
    have again := Token.codedIndex?_eq_some_iff.mpr ⟨small, least.token_eq⟩
    rw [token_eq, found] at again
    exact shortest.length_le (Option.some.inj again).symm
  · exact Numeral.length_le_of_large large

theorem length_le_of_covers {lexemes : List Lexeme} {fields : List Field}
    (covers : List.Forall₂ Covers lexemes fields) {written : Bytes}
    (encoded : encodeEach Field.encode fields = .ok written) :
    written.length ≤ (bytesOf lexemes).length := by
  induction covers generalizing written with
  | nil =>
      cases encodeEach_nil_iff.mp encoded
      exact Nat.le_refl 0
  | cons first others ih =>
      obtain ⟨front, hfront, back, hback, rfl⟩ := encodeEach_cons_iff.mp encoded
      rw [bytesOf_cons, List.length_append, List.length_append]
      exact Nat.add_le_add (first front hfront) (ih hback)

theorem covers_map {α : Type} {lexeme : α → Lexeme} {field : α → Field}
    (h : ∀ item, (lexeme item).Covers (field item)) (items : List α) :
    List.Forall₂ Covers (items.map lexeme) (items.map field) := by
  rw [List.forall₂_map_left_iff, List.forall₂_map_right_iff, List.forall₂_same]
  exact fun item _ => h item

theorem covers_flatMap {spellings : List TypeSpelling}
    (h : ∀ s ∈ spellings, List.Forall₂ Covers s.lexemes (s.tree resolver).fields) :
    List.Forall₂ Covers (spellings.flatMap TypeSpelling.lexemes)
      ((spellings.map (TypeSpelling.tree resolver)).flatMap TypeSignature.fields) := by
  induction spellings with
  | nil => exact .nil
  | cons spelling rest ih =>
      obtain ⟨first, others⟩ := List.forall_mem_cons.mp h
      exact List.rel_append first (ih others)

end Lexeme

open Lexeme

theorem ShapeSpelling.covers (shape : ShapeSpelling) :
    List.Forall₂ Covers shape.lexemes shape.shape.fields := by
  cases shape with
  | flat rank rank_eq =>
      have first := covers_unsigned rank
      rw [rank_eq] at first
      exact .cons first .nil
  | listed rank rank_ne sizes lowerBounds =>
      have sizesCount := sizes.count_eq.trans (List.length_map Numeral.raw).symm
      have boundsCount := lowerBounds.count_eq.trans (List.length_map Numeral.signed).symm
      rw [lexemes, ShapeSpelling.shape, ArrayShape.fields, if_neg rank_ne, List.map_map,
        List.map_map]
      exact .cons (covers_unsigned rank) (.cons (covers_count sizesCount)
        (List.rel_append (covers_map covers_unsigned sizes.items)
          (.cons (covers_count boundsCount) (covers_map covers_signed lowerBounds.items))))

theorem MethodSignature.fields_eq (method : MethodSignature) :
    method.fields = method.headFields ++ method.result.fields ++
      TypeSignature.fieldsOfAll method.params ++
        TypeSignature.fieldsOfVarargs method.varargs := by
  obtain ⟨convention, genericCount, result, params, varargs⟩ := method
  rw [fields]

namespace WrapperSpelling

theorem covers_before (wrapper : WrapperSpelling) :
    List.Forall₂ Covers wrapper.before (wrapper.wrapper resolver).fieldsBefore := by
  cases wrapper with
  | modifier kind index => exact .cons (covers_index index) .nil
  | «scoped» index => exact .cons (covers_unsigned index) .nil
  | _ => exact .nil

theorem covers_behind (wrapper : WrapperSpelling) :
    List.Forall₂ Covers wrapper.behind (wrapper.wrapper resolver).fieldsBehind := by
  cases wrapper with
  | array shape => exact shape.covers
  | valueArray size => exact .cons (covers_unsigned size) .nil
  | _ => exact .nil

end WrapperSpelling

namespace MethodSpelling

variable {method : MethodSpelling}

theorem covers_generics (resolver : Resolver) (valid : method.Valid) :
    List.Forall₂ Covers (method.generics.toList.map .unsigned)
      (if (method.tree resolver).isGeneric then
        [.unsigned (method.tree resolver).genericCount] else []) := by
  have flag : _ ↔ (method.tree resolver).isGeneric := isGeneric_tree valid
  cases generics? : method.generics with
  | none =>
      rw [generics?] at flag
      rw [if_neg (mt flag.mpr Bool.false_ne_true)]
      exact .nil
  | some numeral =>
      rw [generics?] at flag
      rw [if_pos (flag.mp rfl), tree_eq, generics?]
      exact .cons (covers_unsigned numeral) .nil

theorem covers_varargs {varargs : List TypeSpelling}
    (h : ∀ s ∈ varargs, List.Forall₂ Covers s.lexemes (s.tree resolver).fields) :
    List.Forall₂ Covers (TypeSpelling.varargLexemes varargs)
      (TypeSignature.fieldsOfVarargs (TypeSpelling.varargTrees resolver varargs)) := by
  cases varargs with
  | nil => exact .nil
  | cons first rest =>
      rw [TypeSpelling.varargLexemes, TypeSpelling.varargTrees, TypeSignature.fieldsOfVarargs,
        TypeSpelling.allLexemes_eq, TypeSpelling.trees_eq, TypeSignature.fieldsOfAll_eq]
      exact .cons (covers_byte _) (covers_flatMap h)

theorem covers_of_parts (valid : method.Valid)
    (h : ∀ part ∈ method.parts, List.Forall₂ Covers part.lexemes (part.tree resolver).fields) :
    List.Forall₂ Covers method.lexemes (method.tree resolver).fields := by
  obtain ⟨result, params, varargs⟩ := forall_parts_iff.mp h
  have count_eq : method.count.raw = (method.tree resolver).paramCount := paramCount_tree valid
  have generics := covers_generics resolver valid
  have count := covers_count count_eq
  rw [tree_eq] at generics count ⊢
  rw [lexemes_eq, MethodSignature.fields_eq, MethodSignature.headFields,
    TypeSpelling.allLexemes_eq, TypeSignature.fieldsOfAll_eq]
  simp only [List.cons_append, List.append_assoc, List.nil_append]
  exact .cons (covers_byte _) (List.rel_append generics (.cons count
    (List.rel_append result (List.rel_append (covers_flatMap params) (covers_varargs varargs)))))

end MethodSpelling

/-- The lexemes of a spelling stand for the fields of its signature, one for one. -/
theorem TypeSpelling.covers {spelling : TypeSpelling} (valid : spelling.Valid) :
    List.Forall₂ Covers spelling.lexemes (spelling.tree resolver).fields := by
  induction spelling with
  | primitive tag isPrimitive => exact .cons (covers_primitive tag) .nil
  | named kind index => exact .cons (covers_byte _) (.cons (covers_index index) .nil)
  | typeVar index | methodVar index =>
      exact .cons (covers_byte _) (.cons (covers_unsigned index) .nil)
  | sentinel => exact .cons (covers_byte _) .nil
  | functionPointer method ih =>
      have parts := (MethodSpelling.valid_iff.mp valid).2.2.2.2
      exact .cons (covers_byte _)
        (MethodSpelling.covers_of_parts valid fun part mem => ih part mem (parts part mem))
  | instantiation kind generic count arguments ih =>
      obtain ⟨count_eq, argumentsValid⟩ := valid
      rw [allValid_iff] at argumentsValid
      have countCovers := covers_count (count_eq.trans (List.length_map (tree resolver)).symm)
      have inside := covers_flatMap fun s mem => ih s mem (argumentsValid s mem)
      rw [tree, trees_eq, lexemes, allLexemes_eq, fields, fieldsOfAll_eq]
      exact .cons (covers_byte _) (.cons (covers_byte _)
        (.cons (covers_index generic) (.cons countCovers inside)))
  | wrapped wrapper next ih =>
      rw [tree, lexemes, fields, WrapperSpelling.tag_wrapper]
      exact .cons (covers_byte _)
        (List.rel_append (List.rel_append wrapper.covers_before (ih valid)) wrapper.covers_behind)

theorem MethodSpelling.covers {method : MethodSpelling} (valid : method.Valid) :
    List.Forall₂ Covers method.lexemes (method.tree resolver).fields := by
  have parts := (MethodSpelling.valid_iff.mp valid).2.2.2.2
  exact covers_of_parts valid fun part mem => TypeSpelling.covers (parts part mem)

namespace Read

/-- A signature that was read has no more nodes, sizes and lower bounds than bytes were read, and
its encoding, if it has one, is not longer. A method has two bytes more than that, its convention
and the count of its parameters. -/
theorem size_le_consumed (resolver : Resolver) (cursor stopped : Cursor) :
    (∀ t, type resolver cursor = .ok t stopped → ∃ n, cursor.advance n = stopped ∧
      sizeOfAll t.nodes ≤ n ∧ ∀ written, t.encode = .ok written → written.length ≤ n) ∧
    ∀ m, method resolver cursor = .ok m stopped → ∃ n, cursor.advance n = stopped ∧
      2 + sizeOfAll m.nodes ≤ n ∧ ∀ written, m.encode = .ok written → written.length ≤ n := by
  refine ⟨?_, ?_⟩
  · intro t done
    obtain ⟨_, ⟨s, ⟨valid, -⟩, rfl, rfl⟩, -, rfl⟩ := (accepts_type resolver _ _ _).mp done
    refine ⟨s.bytes.length, rfl, ?_, ?_⟩
    · exact Nat.le_trans (s.size_le resolver) (length_le_length_bytesOf s.lexemes)
    · intro written encoded
      rw [TypeSignature.encode_eq_fields] at encoded
      exact length_le_of_covers (TypeSpelling.covers valid) encoded
  · intro m done
    obtain ⟨_, ⟨s, ⟨valid, -⟩, rfl, rfl⟩, -, rfl⟩ := (accepts_method resolver _ _ _).mp done
    refine ⟨s.bytes.length, rfl, ?_, ?_⟩
    · exact Nat.le_trans (s.size_le resolver) (length_le_length_bytesOf s.lexemes)
    · intro written encoded
      rw [MethodSignature.encode_eq_fields] at encoded
      exact length_le_of_covers (MethodSpelling.covers valid) encoded

/-- An array of two dimensions with its numbers in longer forms, and a byte behind it. -/
def wideArray : Bytes :=
  [0x14, 0x08, 0x80, 0x02, 0x01, 0xC0, 0x00, 0x00, 0x03, 0x01, 0x80, 0x01, 0xFF]

/-- A parameter whose coded index has 28 bits and stands for the same token as the index 4. -/
def spilledMethod : Bytes := [0x00, 0x01, 0x01, 0x12, 0xC8, 0x00, 0x00, 0x04]

theorem size_le_consumed_wide :
    (∃ t, type .empty { data := wideArray } = .ok t ⟨wideArray, 12⟩ ∧ sizeOfAll t.nodes = 4 ∧
      t.encode = .ok [0x14, 0x08, 0x02, 0x01, 0x03, 0x01, 0x80, 0x01] ∧
      ∃ n, Cursor.advance { data := wideArray } n = ⟨wideArray, 12⟩ ∧ 4 ≤ n ∧ 8 ≤ n) ∧
    ∃ m, method .empty { data := spilledMethod } = .ok m ⟨spilledMethod, 8⟩ ∧
      sizeOfAll m.nodes = 2 ∧ m.encode = .ok [0x00, 0x01, 0x01, 0x12, 0x04] ∧
      ∃ n, Cursor.advance { data := spilledMethod } n = ⟨spilledMethod, 8⟩ ∧ 4 ≤ n ∧ 5 ≤ n := by
  refine ⟨⟨_, rfl, rfl, rfl, ?_⟩, _, rfl, rfl, rfl, ?_⟩
  · obtain ⟨n, stopped_eq, size, length⟩ :=
      (size_le_consumed .empty { data := wideArray } ⟨wideArray, 12⟩).1 _ rfl
    exact ⟨n, stopped_eq, size, length _ rfl⟩
  · obtain ⟨n, stopped_eq, size, length⟩ :=
      (size_le_consumed .empty { data := spilledMethod } ⟨spilledMethod, 8⟩).2 _ rfl
    exact ⟨n, stopped_eq, size, length _ rfl⟩

end Read

end CliMetadata
