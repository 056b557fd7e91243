import CliMetadata.Proofs.GenericParameters
import CliMetadata.Proofs.Reading
import Mathlib.Algebra.Order.BigOperators.Group.List
import Mathlib.Algebra.Order.Group.Nat

/-!
How long the name of a signature can be that was read from given bytes. Every part of a name stands
for bytes, and no byte stands for more than 22 characters, with one exception: a function pointer
writes out as many generic parameters as it has, whatever their number.
-/

namespace CliMetadata

namespace Text

theorem length_decimal_le {n : Nat} (small : n < 10 ^ 9) : (decimal n).length ≤ 9 :=
  (Nat.length_toDigits_le_iff (by decide) (by decide)).mpr small

theorem length_signedDecimal_le {i : Int} (small : i.natAbs < 10 ^ 9) :
    (signedDecimal i).length ≤ 10 := by
  have digits := length_decimal_le small
  rw [signedDecimal]
  split
  · exact Nat.succ_le_succ digits
  · exact Nat.le_succ_of_le digits

end Text

namespace Numeral

theorem raw_lt_pow (numeral : Numeral) : numeral.raw < 2 ^ 29 :=
  Nat.lt_of_lt_of_le numeral.raw_lt (by cases numeral.form <;> decide)

theorem natAbs_signed_le (numeral : Numeral) : numeral.signed.natAbs ≤ 2 ^ 28 := by
  obtain ⟨low, high⟩ := Compressed.Form.holdsSigned_unrotate numeral.raw_lt
  have half : numeral.form.capacity / 2 ≤ 2 ^ 28 := by cases numeral.form <;> decide
  rw [signed]
  omega

theorem length_decimal_raw_le (numeral : Numeral) : (Text.decimal numeral.raw).length ≤ 9 :=
  Text.length_decimal_le (Nat.lt_trans numeral.raw_lt_pow (by decide))

end Numeral

namespace Build

theorem length_intercalate_le (texts : List (List Char)) :
    ([','].intercalate texts).length ≤ (texts.map fun text => text.length + 1).sum := by
  cases texts with
  | nil => exact Nat.zero_le _
  | cons first rest =>
      rw [intercalate_cons, List.length_append, length_commas, List.map_cons, List.sum_cons]
      omega

section

variable {inner : TypeSignature → List Char}

theorem length_intercalate_names_le (types : List TypeSignature) :
    ([','].intercalate (types.map inner)).length ≤
      (types.map fun type => (inner type).length + 1).sum := by
  have texts := length_intercalate_le (types.map inner)
  rwa [List.map_map] at texts

theorem length_variableChars_le (printed : Bool) (varargs : Option (List TypeSignature)) :
    (variableChars inner printed varargs).length ≤
      ((varargs.getD []).map fun type => (inner type).length + 1).sum +
        if varargs.isSome then 4 else 0 := by
  cases varargs with
  | none => exact Nat.zero_le _
  | some types =>
      rw [length_variableChars, Option.getD_some, Option.isSome_some, if_pos rfl]
      split <;> omega

/-- What a method adds to the names of its types; dots stand there only if there are variable
parameters. -/
theorem length_methodChars_le (method : MethodSignature) :
    (method.nameChars inner).length + 1 ≤ 11 + method.genericChars.length +
      (method.parts.map fun part => (inner part).length + 1).sum +
        if method.varargs.isSome then 4 else 0 := by
  have params := @length_intercalate_names_le inner method.params
  have varargs := @length_variableChars_le inner (!method.params.isEmpty) method.varargs
  rw [length_methodChars, MethodSignature.parts, List.cons_append, List.map_cons, List.sum_cons,
    List.map_append, List.sum_append]
  omega

end

end Build

theorem sum_range_le {f : Nat → Nat} {c k : Nat} (h : ∀ i, f i ≤ if i < k then c else 0) (n : Nat) :
    ((List.range n).map f).sum ≤ c * min n k := by
  induction n with
  | zero => exact Nat.zero_le _
  | succ n ih =>
      have here := h n
      rw [List.range_succ, List.map_append, List.sum_append, List.map_singleton, List.sum_singleton]
      by_cases inside : n < k
      · rw [if_pos inside] at here
        have both : min (n + 1) k = min n k + 1 := by omega
        rw [both, Nat.mul_add_one]
        omega
      · rw [if_neg inside] at here
        have both : min (n + 1) k = min n k := by omega
        rw [both]
        omega

namespace ShapeSpelling

variable {shape : ShapeSpelling}

theorem natAbs_le_of_mem_lowerBounds {lower : Int} (mem : lower ∈ shape.shape.lowerBounds) :
    lower.natAbs ≤ 2 ^ 28 := by
  cases shape with
  | flat rank rank_eq => cases mem
  | listed rank rank_ne sizes lowerBounds =>
      obtain ⟨numeral, _, rfl⟩ := List.mem_map.mp mem
      exact numeral.natAbs_signed_le

theorem lt_of_mem_sizes {size : Nat} (mem : size ∈ shape.shape.sizes) : size < 2 ^ 29 := by
  cases shape with
  | flat rank rank_eq => cases mem
  | listed rank rank_ne sizes lowerBounds =>
      obtain ⟨numeral, _, rfl⟩ := List.mem_map.mp mem
      exact numeral.raw_lt_pow

/-- A dimension has two numbers of ten characters and two dots, if it has a lower bound. -/
theorem length_dimension_le (shape : ShapeSpelling) (i : Nat) :
    (shape.shape.dimension i).length ≤ if i < shape.shape.lowerBounds.length then 22 else 0 := by
  rw [ArrayShape.dimension]
  cases bound : shape.shape.lowerBounds[i]? with
  | none => exact Nat.zero_le _
  | some lower =>
      obtain ⟨inside, _⟩ := List.getElem?_eq_some_iff.mp bound
      have small := natAbs_le_of_mem_lowerBounds (List.mem_of_getElem? bound)
      have first := Text.length_signedDecimal_le (i := lower) (by omega)
      rw [if_pos inside]
      cases size? : shape.shape.sizes[i]? with
      | none =>
          have dots : "...".toList.length = 3 := rfl
          simp only [List.length_append, dots]
          omega
      | some size =>
          have sizeSmall := lt_of_mem_sizes (List.mem_of_getElem? size?)
          have last := Text.length_signedDecimal_le (i := lower + size - 1) (by omega)
          have dots : "..".toList.length = 2 := rfl
          simp only [List.length_append, dots]
          omega

/-- Of the commas and the mark for more dimensions there are 43 characters at most. -/
theorem length_dimensions_le (shape : ShapeSpelling) :
    ([','].intercalate (shape.shape.dimensions .display)).length ≤
      22 * shape.shape.lowerBounds.length + 43 := by
  have texts := Build.length_intercalate_le (shape.shape.dimensions .display)
  have bounds := sum_range_le shape.length_dimension_le
    (min shape.shape.rank ArrayShape.maxWritten)
  have few : min shape.shape.rank ArrayShape.maxWritten ≤ 32 := Nat.min_le_right _ _
  have marker : ((if ArrayShape.maxWritten < shape.shape.rank then
      ["<<<RANK>>>".toList] else []).map fun text => text.length + 1).sum ≤ 11 := by
    split <;> decide
  have commas (n : Nat) : ((List.range n).map fun i => (shape.shape.dimension i).length + 1).sum =
      ((List.range n).map fun i => (shape.shape.dimension i).length).sum + n := by
    rw [List.sum_map_add]
    simp
  rw [ArrayShape.dimensions_eq, List.map_append, List.sum_append, List.map_map] at texts
  have leading := texts.trans (Nat.add_le_add (Nat.le_of_eq (commas _)) marker)
  rw [ArrayShape.dimensions_eq]
  omega

theorem length_chars_le (shape : ShapeSpelling) :
    (shape.shape.chars .display).length ≤ 22 * shape.shape.lowerBounds.length + 45 := by
  have several := shape.length_dimensions_le
  rw [ArrayShape.chars]
  split
  · exact Nat.le_add_left_of_le (by decide)
  · exact Nat.le_add_left_of_le (by decide)
  · rw [List.length_append, List.length_cons, List.length_singleton]
    omega

/-- Every lower bound takes a byte, and so do the rank and the two counts. -/
theorem length_chars_le_bytes (shape : ShapeSpelling) :
    (shape.shape.chars .display).length ≤ 22 * (shape.bytes.length + 1) := by
  have written := shape.length_chars_le
  cases shape with
  | flat rank rank_eq =>
      have whole : ((flat rank rank_eq).shape.chars .display).length = 9 := rfl
      rw [whole]
      omega
  | listed rank rank_ne sizes lowerBounds =>
      have bounds : lowerBounds.items.length ≤ (lowerBounds.items.flatMap Numeral.bytes).length :=
        length_le_length_flatMap Numeral.length_bytes_pos
      have counts : 3 ≤ rank.bytes.length + sizes.count.bytes.length +
          lowerBounds.count.bytes.length :=
        Nat.add_le_add (Nat.add_le_add rank.length_bytes_pos sizes.count.length_bytes_pos)
          lowerBounds.count.length_bytes_pos
      have bounds_eq : (listed rank rank_ne sizes lowerBounds).shape.lowerBounds.length =
          lowerBounds.items.length := List.length_map _
      rw [bounds_eq] at written
      rw [Read.bytes_listed]
      simp only [List.length_append]
      omega

end ShapeSpelling

/-- What a wrapper adds to a name, against the bytes of the wrapper. -/
theorem WrapperSpelling.length_texts_le (wrapper : WrapperSpelling)
    (inner : TypeSignature → List Char) :
    (wrapper.wrapper .empty).frontChars.length +
        ((wrapper.wrapper .empty).backChars .display (TypeHandle.nameChars .display inner)).length ≤
      22 * (1 + (Lexeme.bytesOf wrapper.before).length +
        (Lexeme.bytesOf wrapper.behind).length) := by
  cases wrapper with
  | pointer | byRef | vector | pinned => exact Nat.le_of_ble_eq_true rfl
  | array shape =>
      have written := shape.length_chars_le_bytes
      have texts : ((array shape).wrapper .empty).frontChars.length +
          (((array shape).wrapper .empty).backChars .display
            (TypeHandle.nameChars .display inner)).length =
              0 + (shape.shape.chars .display).length := rfl
      have bytes_eq : Lexeme.bytesOf (array shape).behind = shape.bytes := rfl
      rw [texts, bytes_eq]
      omega
  | modifier kind index =>
      have texts : ((modifier kind index).wrapper .empty).frontChars.length +
          (((modifier kind index).wrapper .empty).backChars .display
            (TypeHandle.nameChars .display inner)).length = 9 := by
        cases kind <;> rfl
      rw [texts]
      omega
  | valueArray size =>
      have digits := size.length_decimal_raw_le
      have texts : ((valueArray size).wrapper .empty).frontChars.length +
          (((valueArray size).wrapper .empty).backChars .display
            (TypeHandle.nameChars .display inner)).length =
              0 + (" ValueArray(".toList ++ (Text.decimal size.raw ++ [')'])).length := rfl
      have opening : " ValueArray(".toList.length = 12 := rfl
      rw [texts]
      simp only [List.length_append, opening, List.length_singleton]
      omega
  | «scoped» index =>
      have digits := index.length_decimal_raw_le
      have texts : ((«scoped» index).wrapper .empty).frontChars.length +
          (((«scoped» index).wrapper .empty).backChars .display
            (TypeHandle.nameChars .display inner)).length =
              ("[module:".toList ++ (Text.decimal index.raw ++ [']'])).length := rfl
      have opening : "[module:".toList.length = 8 := rfl
      rw [texts]
      simp only [List.length_append, opening, List.length_singleton]
      omega

namespace MethodSpelling

/-- The bytes of a method besides those of its types: the convention and the count, the number of
generic parameters, and the sentinel. -/
theorem le_length_bytes (method : MethodSpelling) :
    2 + method.generics.toList.length + (method.parts.map fun part => part.bytes.length).sum +
      (if method.varargs = [] then 0 else 1) ≤ method.bytes.length := by
  have generics : method.generics.toList.length ≤
      (Lexeme.bytesOf (method.generics.toList.map .unsigned)).length := by
    rw [Lexeme.bytesOf, List.flatMap_map]
    exact length_le_length_flatMap Numeral.length_bytes_pos
  have varargs : (Lexeme.bytesOf (TypeSpelling.varargLexemes method.varargs)).length =
      (method.varargs.map fun vararg => vararg.bytes.length).sum +
        if method.varargs = [] then 0 else 1 := by
    cases method.varargs with
    | nil => rfl
    | cons first rest =>
        rw [bytesOf_varargs, List.length_cons, List.length_flatMap]
        rfl
  have count := method.count.length_bytes_pos
  rw [bytes_eq, parts, List.cons_append, List.map_cons, List.sum_cons, List.map_append,
    List.sum_append, Lexeme.bytesOf_append, TypeSpelling.allLexemes_eq,
    TypeSpelling.bytesOf_flatMap]
  simp only [List.length_append, List.length_singleton, List.length_flatMap, varargs]
  omega

theorem isSome_varargs_tree (resolver : Resolver) (method : MethodSpelling) :
    (method.tree resolver).varargs.isSome ↔ method.varargs ≠ [] := by
  rw [tree_eq]
  cases method.varargs <;> simp [TypeSpelling.varargTrees]

end MethodSpelling

namespace TypeSignature

theorem nodeChars_primitive (inner : TypeSignature → List Char) (row : Nat) (tag : ElementType)
    (type : Option NamedType) : nodeChars .display inner (.primitive row tag type) =
      nodeChars .display (fun _ => []) (.primitive row tag type) := by
  cases type <;> rfl

/-- The longest name of a primitive type is that of typed references. -/
theorem length_primitive_le (tag : ElementType) :
    (nodeChars .display (fun _ => []) (.primitive 0 tag (Resolver.empty.primitive? tag))).length ≤
      21 := by
  cases tag <;> decide +kernel

end TypeSignature

namespace TypeSpelling

open TypeSignature

variable {w : Nat} {extra : MethodSignature → Nat}

/-- The names of types, each with a comma, against their bytes and what their methods add. -/
theorem sum_names_le {levels : Nat} {types : List TypeSpelling}
    (h : ∀ s ∈ types, (nameWithin .display levels (s.tree .empty)).length + 1 ≤
      w * s.bytes.length + (s.tree .empty).methodSum extra) :
    ((types.map (tree .empty)).map fun t => (nameWithin .display levels t).length + 1).sum ≤
      w * (types.map fun s => s.bytes.length).sum +
        ((types.map (tree .empty)).map (methodSum extra)).sum := by
  induction types with
  | nil => exact Nat.zero_le _
  | cons first rest ih =>
      obtain ⟨here, others⟩ := List.forall_mem_cons.mp h
      have behind := ih others
      simp only [List.map_cons, List.sum_cons, Nat.mul_add]
      omega

/-- A function pointer and the types of its method against the bytes. -/
theorem length_functionPointer_le (wide : 22 ≤ w) {levels : Nat} {method : MethodSpelling}
    (valid : method.Valid) (enough : 11 + (method.tree .empty).genericChars.length ≤
      4 * w + extra (method.tree .empty))
    (h : ∀ part ∈ method.parts, (nameWithin .display levels (part.tree .empty)).length + 1 ≤
      w * part.bytes.length + (part.tree .empty).methodSum extra) :
    ((method.tree .empty).nameChars (nameWithin .display levels)).length + 1 ≤
      w * (functionPointer method).bytes.length +
        ((functionPointer method).tree .empty).methodSum extra := by
  have names := sum_names_le h
  have written := @Build.length_methodChars_le (nameWithin .display levels) (method.tree .empty)
  have whole : (functionPointer method).bytes.length = method.bytes.length + 1 := rfl
  have bytes := Nat.mul_le_mul_left w method.le_length_bytes
  have dots : (if (method.tree .empty).varargs.isSome then 4 else 0) ≤
      w * if method.varargs = [] then 0 else 1 := by
    by_cases none : method.varargs = []
    · rw [if_neg (mt (MethodSpelling.isSome_varargs_tree .empty method).mp (not_not_intro none))]
      exact Nat.zero_le _
    · rw [if_pos ((MethodSpelling.isSome_varargs_tree .empty method).mpr none), if_neg none]
      omega
  have list : 11 + (method.tree .empty).genericChars.length ≤
      w * (3 + method.generics.toList.length) + extra (method.tree .empty) := by
    cases generics : method.generics with
    | some count =>
        have four : w * (3 + (some count).toList.length) = 4 * w := Nat.mul_comm w 4
        rwa [four]
    | none =>
        have notGeneric : ¬(method.tree .empty).isGeneric = true := by
          rw [← MethodSpelling.isGeneric_tree valid, generics]
          exact Bool.false_ne_true
        have plain : (method.tree .empty).genericChars = [] := by
          rw [MethodSignature.genericChars, if_neg notGeneric]
        have three : w * (3 + (none : Option Numeral).toList.length) = 3 * w := Nat.mul_comm w 3
        rw [plain, three, List.length_nil]
        omega
  rw [← MethodSpelling.parts_tree] at names
  rw [tree, methodSum_functionPointer, whole]
  simp only [Nat.mul_add] at bytes list ⊢
  omega

/-- With a number of characters for each byte and something extra for each list of generic
parameters, there is room for every name and a comma. -/
theorem length_name_le (wide : 22 ≤ w) {levels : Nat} {spelling : TypeSpelling}
    (valid : spelling.Valid) (enough : ∀ method ∈ (spelling.tree .empty).methods,
      11 + method.genericChars.length ≤ 4 * w + extra method) :
    (nameWithin .display levels (spelling.tree .empty)).length + 1 ≤
      w * spelling.bytes.length + (spelling.tree .empty).methodSum extra := by
  -- Every spelling has a byte, which is enough for all nodes that have no types inside of them.
  have room (s : TypeSpelling) (name : List Char) (short : name.length ≤ 21) :
      name.length + 1 ≤ w * s.bytes.length + (s.tree .empty).methodSum extra := by
    have byte := Nat.mul_le_mul wide (List.length_pos_iff.mpr s.bytes_ne_nil)
    omega
  induction levels generalizing spelling with
  | zero => exact room spelling "<<<INFRECURSION>>>".toList (by decide)
  | succ levels ih =>
      cases spelling with
      | primitive tag isPrimitive =>
          have same : nameWithin .display (levels + 1) ((primitive tag isPrimitive).tree .empty) =
              nodeChars .display (fun _ => []) (.primitive 0 tag (Resolver.empty.primitive? tag)) :=
            nodeChars_primitive _ _ _ _
          rw [same]
          exact room _ _ (length_primitive_le tag)
      | named kind index => exact room _ [] (Nat.zero_le _)
      | typeVar index =>
          have shown := Nat.succ_le_succ index.length_decimal_raw_le
          exact room _ _ (Nat.le_trans shown (by decide))
      | methodVar index =>
          have shown := Nat.succ_le_succ (Nat.succ_le_succ index.length_decimal_raw_le)
          exact room _ _ (Nat.le_trans shown (by decide))
      | sentinel => exact room .sentinel "<<<SENTINEL>>>".toList (by decide)
      | functionPointer method =>
          have partsValid := (MethodSpelling.valid_iff.mp valid).2.2.2.2
          rw [tree, methods_functionPointer, MethodSpelling.parts_tree] at enough
          obtain ⟨here, inside⟩ := List.forall_mem_cons.mp enough
          refine length_functionPointer_le wide valid here fun part mem => ?_
          refine ih (partsValid part mem) fun inner there => ?_
          exact inside inner (List.mem_flatMap.mpr ⟨_, List.mem_map_of_mem mem, there⟩)
      | instantiation kind generic count arguments =>
          have argumentsValid := allValid_iff.mp valid.2
          rw [tree, methods_instantiation, trees_eq] at enough
          have names := sum_names_le fun argument mem => ih (argumentsValid argument mem)
            fun inner there =>
              enough inner (List.mem_flatMap.mpr ⟨_, List.mem_map_of_mem mem, there⟩)
          have commas := @Build.length_intercalate_names_le (nameWithin .display levels)
            (arguments.map (tree .empty))
          have nothing : (Resolver.empty.handle generic.token).nameChars .display
              (nameWithin .display levels) = [] := rfl
          rw [tree, trees_eq, length_nameWithin_instantiation, nothing, methodSum_instantiation,
            bytes_instantiation]
          simp only [List.length_append, List.length_cons, List.length_nil, List.length_flatMap,
            Nat.mul_add]
          omega
      | wrapped wrapper next =>
          rw [tree, methods_wrapped] at enough
          have inside := @ih next valid enough
          have texts := wrapper.length_texts_le (nameWithin .display levels)
          have lexemes := Nat.mul_le_mul_right (1 + (Lexeme.bytesOf wrapper.before).length +
            (Lexeme.bytesOf wrapper.behind).length) wide
          rw [tree, length_nameWithin_wrapped, methodSum_wrapped, bytes_wrapped]
          simp only [List.length_append, List.length_cons, Nat.mul_add] at texts lexemes ⊢
          omega

end TypeSpelling

/-- A list of generic parameters by its number. -/
theorem MethodSignature.length_genericChars_le {method : MethodSignature}
    (few : method.genericCount ≤ 50) : method.genericChars.length ≤ 241 := by
  have all : ∀ count < 51, ('<' :: [','].intercalate
      ((List.range count).map fun i => "!!".toList ++ Text.decimal i) ++ ['>']).length ≤ 241 := by
    decide +kernel
  rw [genericChars]
  split
  · exact all _ (Nat.lt_succ_of_le few)
  · exact Nat.zero_le _

namespace TypeSignature

theorem length_fullName (type : TypeSignature) :
    type.fullName.length = (nameWithin .display maxNesting type).length :=
  String.length_ofList

variable {data : Bytes} {type : TypeSignature}

/-- No level of what was read is cut, so that the lists of generic parameters are in its name. -/
theorem length_fullName_eq (decoded : decode .empty data = .ok type) :
    type.fullName.length = type.nonGeneric.fullName.length + type.genericLength := by
  obtain ⟨spelling, ⟨-, nested⟩, -, rfl⟩ := exists_spelling_of_decode decoded
  rw [length_fullName, length_fullName]
  exact length_nameWithin_eq nested

theorem length_fullName_le (decoded : decode .empty data = .ok type) :
    type.fullName.length ≤ 22 * data.length + type.genericLength := by
  obtain ⟨spelling, ⟨valid, -⟩, leads, rfl⟩ := exists_spelling_of_decode decoded
  have name := @TypeSpelling.length_name_le 22 (fun method => method.genericChars.length)
    (Nat.le_refl 22) maxNesting spelling valid fun method _ => by omega
  have bytes := Nat.mul_le_mul_left 22 leads.length_le
  rw [length_fullName, genericLength]
  omega

theorem length_fullName_le_of_few (decoded : decode .empty data = .ok type)
    (few : ∀ method ∈ type.methods, method.genericCount ≤ 50) :
    type.fullName.length ≤ 64 * data.length := by
  obtain ⟨spelling, ⟨valid, -⟩, leads, rfl⟩ := exists_spelling_of_decode decoded
  have enough : ∀ method ∈ (spelling.tree .empty).methods,
      11 + method.genericChars.length ≤ 4 * 64 + 0 := by
    intro method mem
    have list := MethodSignature.length_genericChars_le (few method mem)
    omega
  have name := @TypeSpelling.length_name_le 64 (fun _ => 0) (by decide) maxNesting spelling valid
    enough
  have nothing : (spelling.tree .empty).methodSum (fun _ => 0) = 0 := by
    simp [methodSum]
  have bytes := Nat.mul_le_mul_left 64 leads.length_le
  rw [length_fullName]
  omega

end TypeSignature

open TypeSignature in
/-- Without its lists of generic parameters, the name of what was read has no more than 22
characters for each byte. The lists come on top of that: there are 64 characters for each byte if
and only if the lists leave room for the rest, which they do with as many as fifty parameters each.
-/
theorem name_length_bounds {data : Bytes} {type : TypeSignature}
    (decoded : decode .empty data = .ok type) :
    type.fullName.length = type.nonGeneric.fullName.length + type.genericLength ∧
    type.nonGeneric.fullName.length ≤ 22 * data.length ∧
    (type.fullName.length ≤ 64 * data.length ↔
      type.genericLength ≤ 64 * data.length - type.nonGeneric.fullName.length) ∧
    ((∀ method ∈ type.methods, method.genericCount ≤ 50) →
      type.fullName.length ≤ 64 * data.length) := by
  have parts := length_fullName_eq decoded
  have whole := length_fullName_le decoded
  have rest : type.nonGeneric.fullName.length ≤ 22 * data.length := by omega
  refine ⟨parts, rest, ?_, length_fullName_le_of_few decoded⟩
  omega

/-- A pointer to a method that has so many generic parameters and gives nothing. -/
def genericPointer (count : UInt8) : TypeSignature :=
  .functionPointer 0
    ⟨0x10, count.toNat, .primitive 0 .void (Resolver.empty.primitive? .void), [], none⟩

/-- The bytes of the pointer, for counts of one byte. -/
def genericPointerBytes (count : UInt8) : Bytes := [0x1B, 0x10, count, 0x00, 0x01]

theorem name_length_bounds_fifty_parameters :
    TypeSignature.decode .empty (genericPointerBytes 50) = .ok (genericPointer 50) ∧
    (genericPointer 50).nonGeneric.fullName.length ≤ 22 * (genericPointerBytes 50).length ∧
    (genericPointer 50).fullName.length ≤ 64 * (genericPointerBytes 50).length := by
  have decoded : TypeSignature.decode .empty (genericPointerBytes 50) = .ok (genericPointer 50) :=
    rfl
  have few : ∀ method ∈ (genericPointer 50).methods, method.genericCount ≤ 50 :=
    List.forall_mem_singleton.mpr (Nat.le_refl 50)
  obtain ⟨-, rest, -, all⟩ := name_length_bounds decoded
  exact ⟨decoded, rest, all few⟩

/-- Names of what was read are not proportional to the bytes: one byte can stand for 127 generic
parameters. -/
theorem name_length_not_proportional :
    ¬∀ (data : Bytes) (type : TypeSignature), TypeSignature.decode .empty data = .ok type →
      type.fullName.length ≤ 64 * data.length := by
  intro bounded
  have name := bounded (genericPointerBytes 127) (genericPointer 127) rfl
  have long : ((genericPointer 127).nameChars .display).length = 675 := by decide +kernel
  rw [TypeSignature.fullName, String.length_ofList, long] at name
  exact absurd name (by decide)

/-- A method with 51 generic parameters and no other ones. -/
def genericMethod (result : TypeSpelling) : MethodSpelling where
  convention := 0x10
  generics := some ⟨.short, 51, by decide⟩
  count := ⟨.short, 0, by decide⟩
  result := result
  params := []
  varargs := []

/-- Function pointers that give one another; the innermost one gives a typed reference. -/
def nestedPointers : Nat → TypeSpelling
  | 0 => .primitive .typedByRef rfl
  | n + 1 => .functionPointer (genericMethod (nestedPointers n))

namespace NestedPointers

open TypeSignature

theorem valid (n : Nat) : (nestedPointers n).Valid := by
  induction n with
  | zero => trivial
  | succ n ih =>
      have kind : (0x10 : UInt8).toNat % 16 ∈ MethodSignature.kinds := by decide
      have flag : true = true ↔ (0x10 : UInt8) &&& 0x10 ≠ 0 := by decide
      refine MethodSpelling.valid_iff.mpr ⟨kind, flag, rfl, List.not_mem_nil, ?_⟩
      exact List.forall_mem_singleton.mpr ih

theorem nesting_eq (n : Nat) : ((nestedPointers n).tree .empty).nesting = n + 1 := by
  induction n with
  | zero => rfl
  | succ n ih =>
      have result : ((nestedPointers (n + 1)).tree .empty).nesting =
          max ((nestedPointers n).tree .empty).nesting 0 + 1 := rfl
      rw [result, ih, Nat.max_zero]

theorem length_bytes (n : Nat) : (nestedPointers n).bytes.length = 4 * n + 1 := by
  induction n with
  | zero => rfl
  | succ n ih =>
      have method : (genericMethod (nestedPointers n)).bytes.length =
          1 + (1 + (1 + ((nestedPointers n).bytes.length + 0))) := by
        rw [MethodSpelling.bytes_eq, List.length_append, List.length_append, List.length_append,
          List.length_append]
        rfl
      have whole : (nestedPointers (n + 1)).bytes.length =
          (genericMethod (nestedPointers n)).bytes.length + 1 := rfl
      rw [whole, method, ih]
      omega

theorem genericCount_eq (n : Nat) :
    ∀ method ∈ ((nestedPointers n).tree .empty).methods, method.genericCount = 51 := by
  induction n with
  | zero => exact fun method mem => nomatch mem
  | succ n ih =>
      rw [nestedPointers, TypeSpelling.tree, methods_functionPointer, MethodSpelling.parts_tree]
      refine List.forall_mem_cons.mpr ⟨rfl, ?_⟩
      simpa [MethodSpelling.parts, genericMethod] using ih

theorem length_name {n levels : Nat} (within : n < levels) :
    (nameWithin .display levels ((nestedPointers n).tree .empty)).length = 257 * n + 21 := by
  induction n generalizing levels with
  | zero =>
      obtain ⟨below, rfl⟩ := Nat.exists_eq_add_one_of_ne_zero (Nat.ne_of_gt within)
      rfl
  | succ n ih =>
      obtain ⟨below, rfl⟩ := Nat.exists_eq_add_one_of_ne_zero (Nat.ne_zero_of_lt within)
      have whole : nameWithin .display (below + 1) ((nestedPointers (n + 1)).tree .empty) =
          ((genericMethod (nestedPointers n)).tree .empty).nameChars
            (nameWithin .display below) := rfl
      have list : ((genericMethod (nestedPointers n)).tree .empty).genericChars.length = 246 := by
        have texts : ('<' :: [','].intercalate
            ((List.range 51).map fun i => "!!".toList ++ Text.decimal i) ++ ['>']).length =
              246 := by
          decide +kernel
        have generic : ((genericMethod (nestedPointers n)).tree .empty).isGeneric = true :=
          (MethodSpelling.isGeneric_tree (valid (n + 1))).mp rfl
        rw [MethodSignature.genericChars, if_pos generic]
        exact texts
      have result : ((genericMethod (nestedPointers n)).tree .empty).result =
          (nestedPointers n).tree .empty := rfl
      rw [whole, Build.length_methodChars, list, result, ih (Nat.lt_of_succ_lt_succ within)]
      change 257 * n + 21 + 246 + 11 + (0 + 0) = 257 * (n + 1) + 21
      omega

end NestedPointers

open TypeSignature in
/-- Fifty parameters in each list is the most with which there are always 64 characters for each
byte. -/
theorem fifty_parameters_most (most : Nat) :
    (∀ (data : Bytes) (type : TypeSignature), decode .empty data = .ok type →
      (∀ method ∈ type.methods, method.genericCount ≤ most) →
        type.fullName.length ≤ 64 * data.length) ↔ most ≤ 50 := by
  refine ⟨?_, ?_⟩
  · intro bounded
    by_contra more
    have decoded : decode .empty (nestedPointers 49).bytes =
        .ok ((nestedPointers 49).tree .empty) := by
      refine Read.run?_eq_ok_iff.mpr ⟨_, (Read.accepts_type .empty).read_whole ⟨?_, ?_⟩⟩
      · exact NestedPointers.valid 49
      · exact Nat.le_of_eq (NestedPointers.nesting_eq 49)
    have name := bounded _ _ decoded fun method mem => by
      rw [NestedPointers.genericCount_eq 49 method mem]
      omega
    rw [length_fullName, NestedPointers.length_name (by decide),
      NestedPointers.length_bytes] at name
    exact absurd name (by decide)
  · intro few data type decoded counts
    exact length_fullName_le_of_few decoded fun method mem => (counts method mem).trans few

end CliMetadata
