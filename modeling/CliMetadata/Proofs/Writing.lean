import CliMetadata.Proofs.Spelling
import CliMetadata.Signature.Encoding

/-!
What is written for a signature. A node has an encoding if and only if its parts have one, and the
encoding is that of the parts behind the tag. The signature of a canonical spelling is written as
that spelling; for the signature of any other spelling only the tables of its tokens matter.
-/

namespace CliMetadata

section

variable {α σ : Type} {encode : α → Except EncodingFault Bytes} {written : Bytes}

theorem encodeEach_nil_iff : encodeEach encode [] = .ok written ↔ [] = written := by
  simp [encodeEach]

theorem encodeEach_cons_iff {item : α} {rest : List α} :
    encodeEach encode (item :: rest) = .ok written ↔
      ∃ first, encode item = .ok first ∧ ∃ others, encodeEach encode rest = .ok others ∧
        first ++ others = written := by
  simp only [encodeEach, bind_ok_iff, pure_ok_iff]

/-- If the items are written as spellings of a kind, a list is written as spellings one behind the
other. -/
theorem encodeEach_eq_ok_iff {valid : σ → Prop} {bytes : σ → Bytes} {value : σ → α}
    (h : ∀ item part, encode item = .ok part ↔ Spelled valid bytes value part item)
    {items : List α} : encodeEach encode items = .ok written ↔
      Spelled (fun spellings : List σ => ∀ s ∈ spellings, valid s) (List.flatMap bytes)
        (List.map value) written items := by
  induction items generalizing written with
  | nil =>
      rw [encodeEach_nil_iff]
      refine ⟨?_, ?_⟩
      · rintro rfl
        exact ⟨[], by simp, rfl, rfl⟩
      · intro given
        obtain ⟨spellings, _, rfl, none⟩ := given
        rw [List.map_eq_nil_iff.mp none, List.flatMap_nil]
  | cons item rest ih =>
      simp only [encodeEach_cons_iff, h, ih]
      refine ⟨?_, ?_⟩
      · intro given
        obtain ⟨_, ⟨s, hs, rfl, rfl⟩, _, ⟨spellings, all, rfl, rfl⟩, rfl⟩ := given
        exact ⟨s :: spellings, List.forall_mem_cons.mpr ⟨hs, all⟩, rfl, rfl⟩
      · intro given
        obtain ⟨_ | ⟨s, spellings⟩, all, rfl, values⟩ := given
        · cases values
        obtain ⟨rfl, rfl⟩ := List.cons.inj values
        obtain ⟨hs, all⟩ := List.forall_mem_cons.mp all
        exact ⟨_, ⟨s, hs, rfl, rfl⟩, _, ⟨spellings, all, rfl, rfl⟩, rfl⟩

theorem encodeEach_map {bytes : σ → Bytes} {value : σ → α} {spellings : List σ}
    (h : ∀ s ∈ spellings, encode (value s) = .ok (bytes s)) :
    encodeEach encode (spellings.map value) = .ok (spellings.flatMap bytes) := by
  induction spellings with
  | nil => rfl
  | cons s rest ih =>
      obtain ⟨hs, hrest⟩ := List.forall_mem_cons.mp h
      exact encodeEach_cons_iff.mpr ⟨_, hs, _, ih hrest, rfl⟩

/-- Items that are written as the old ones were, in their places. -/
theorem encodeEach_map_congr {f : α → α} {items : List α}
    (h : ∀ item ∈ items, encode (f item) = encode item) :
    encodeEach encode (items.map f) = encodeEach encode items := by
  induction items with
  | nil => rfl
  | cons item rest ih =>
      obtain ⟨first, others⟩ := List.forall_mem_cons.mp h
      rw [List.map_cons, encodeEach, encodeEach, first, ih others]

theorem exists_encodeEach_iff {items : List α} :
    (∃ written, encodeEach encode items = .ok written) ↔
      ∀ item ∈ items, ∃ written, encode item = .ok written := by
  induction items with
  | nil => simp [encodeEach]
  | cons item rest ih =>
      rw [List.forall_mem_cons, ← ih]
      refine ⟨?_, ?_⟩
      · intro given
        obtain ⟨_, first⟩ := given
        obtain ⟨_, first, _, others, _⟩ := encodeEach_cons_iff.mp first
        exact ⟨⟨_, first⟩, _, others⟩
      · intro given
        obtain ⟨⟨_, first⟩, _, others⟩ := given
        exact ⟨_, encodeEach_cons_iff.mpr ⟨_, first, _, others, rfl⟩⟩

end

/-- A number with an encoding fits into 32 bits anyway. -/
theorem encodeCount_eq_ok_iff {count : Nat} {written : Bytes} : encodeCount count = .ok written ↔
    Spelled Numeral.IsShortest Numeral.bytes Numeral.raw written count := by
  rw [← Compressed.encodeUnsigned_eq_ok_iff, encodeCount]
  by_cases fits : count < 0x100000000
  · rw [if_pos fits]
  · rw [if_neg fits]
    refine iff_of_false (by simp) ?_
    intro unsigned
    obtain ⟨numeral, _, _, rfl⟩ := Compressed.encodeUnsigned_eq_ok_iff.mp unsigned
    have := numeral.raw_lt
    cases form : numeral.form <;> simp only [form, Compressed.Form.capacity] at this <;> omega

theorem encodeCount_of_shortest {numeral : Numeral} {count : Nat} (h : numeral.IsShortest)
    (count_eq : numeral.raw = count) : encodeCount count = .ok numeral.bytes :=
  encodeCount_eq_ok_iff.mpr ⟨numeral, h, rfl, count_eq⟩

theorem exists_encodeCount (numeral : Numeral) :
    ∃ written, encodeCount numeral.raw = .ok written := by
  obtain ⟨written, unsigned⟩ := Compressed.exists_encodeUnsigned numeral
  exact ⟨written, encodeCount_eq_ok_iff.mpr (Compressed.encodeUnsigned_eq_ok_iff.mp unsigned)⟩

namespace Lexeme

/-- What a canonical spelling is written with. -/
def AllCanonical (lexemes : List Lexeme) : Prop := ∀ lexeme ∈ lexemes, lexeme.IsCanonical

@[simp] theorem allCanonical_nil : AllCanonical [] := by
  simp [AllCanonical]

@[simp] theorem allCanonical_cons {lexeme : Lexeme} {rest : List Lexeme} :
    AllCanonical (lexeme :: rest) ↔ lexeme.IsCanonical ∧ AllCanonical rest :=
  List.forall_mem_cons

@[simp] theorem allCanonical_append {front back : List Lexeme} :
    AllCanonical (front ++ back) ↔ AllCanonical front ∧ AllCanonical back :=
  List.forall_mem_append

@[simp] theorem allCanonical_map_unsigned {numerals : List Numeral} :
    AllCanonical (numerals.map .unsigned) ↔ ∀ numeral ∈ numerals, numeral.IsShortest := by
  simp [AllCanonical]

@[simp] theorem allCanonical_map_signed {numerals : List Numeral} :
    AllCanonical (numerals.map .signed) ↔ ∀ numeral ∈ numerals, numeral.IsShortestSigned := by
  simp [AllCanonical]

@[simp] theorem allCanonical_flatMap {spellings : List TypeSpelling} :
    AllCanonical (spellings.flatMap TypeSpelling.lexemes) ↔
      ∀ s ∈ spellings, AllCanonical s.lexemes := by
  simp only [AllCanonical, List.mem_flatMap, forall_exists_index, and_imp]
  exact ⟨fun h s mem lexeme => h lexeme s mem, fun h lexeme s mem => h s mem lexeme⟩

end Lexeme

open Lexeme

namespace ArrayShape

/-- A shape without dimensions has no lists. -/
def IsRegular (shape : ArrayShape) : Prop :=
  shape.rank = 0 → shape.sizes = [] ∧ shape.lowerBounds = []

theorem encode_flat_iff {shape : ArrayShape} {written : Bytes} (flat : shape.rank = 0) :
    shape.encode = .ok written ↔ Compressed.encodeUnsigned shape.rank = .ok written := by
  simp only [encode, if_pos flat, bind_ok_iff, pure_ok_iff]
  exact exists_eq_right

theorem encode_listed_iff {shape : ArrayShape} {written : Bytes} (nonflat : shape.rank ≠ 0) :
    shape.encode = .ok written ↔
      ∃ rank, Compressed.encodeUnsigned shape.rank = .ok rank ∧
        ∃ sizeCount, encodeCount shape.sizes.length = .ok sizeCount ∧
        ∃ sizes, encodeEach Compressed.encodeUnsigned shape.sizes = .ok sizes ∧
        ∃ boundCount, encodeCount shape.lowerBounds.length = .ok boundCount ∧
        ∃ bounds, encodeEach Compressed.encodeSigned shape.lowerBounds = .ok bounds ∧
          rank ++ sizeCount ++ sizes ++ boundCount ++ bounds = written := by
  simp only [encode, if_neg nonflat, bind_ok_iff, pure_ok_iff]

theorem exists_spelling {shape : ArrayShape} {written : Bytes} (fits : shape.IsRegular)
    (encoded : shape.encode = .ok written) :
    Spelled (fun spelling : ShapeSpelling => AllCanonical spelling.lexemes) ShapeSpelling.bytes
      ShapeSpelling.shape written shape := by
  obtain ⟨count, sizes, bounds⟩ := shape
  by_cases flat : count = 0
  · obtain ⟨rfl, rfl⟩ := fits flat
    obtain ⟨rank, shortest, rfl, rank_eq⟩ :=
      Compressed.encodeUnsigned_eq_ok_iff.mp ((encode_flat_iff flat).mp encoded)
    refine ⟨.flat rank (rank_eq.trans flat), ?_, ?_, ?_⟩
    · simpa [ShapeSpelling.lexemes] using shortest
    · simp [ShapeSpelling.bytes, ShapeSpelling.lexemes]
    · rw [ShapeSpelling.shape, flat]
  · obtain ⟨_, hrank, _, hsizeCount, _, hsizes, _, hboundCount, _, hbounds, rfl⟩ :=
      (encode_listed_iff flat).mp encoded
    obtain ⟨rank, rankShortest, rfl, rfl⟩ := Compressed.encodeUnsigned_eq_ok_iff.mp hrank
    obtain ⟨sizeCount, sizeCountShortest, rfl, sizeCount_eq⟩ :=
      encodeCount_eq_ok_iff.mp hsizeCount
    obtain ⟨boundCount, boundCountShortest, rfl, boundCount_eq⟩ :=
      encodeCount_eq_ok_iff.mp hboundCount
    obtain ⟨sizes, sizesShortest, rfl, rfl⟩ :=
      (encodeEach_eq_ok_iff fun _ _ => Compressed.encodeUnsigned_eq_ok_iff).mp hsizes
    obtain ⟨bounds, boundsShortest, rfl, rfl⟩ :=
      (encodeEach_eq_ok_iff fun _ _ => Compressed.encodeSigned_eq_ok_iff).mp hbounds
    rw [List.length_map] at sizeCount_eq boundCount_eq
    refine ⟨.listed rank flat ⟨sizeCount, sizes, sizeCount_eq⟩
      ⟨boundCount, bounds, boundCount_eq⟩, ?_, ?_, rfl⟩
    · simp only [ShapeSpelling.lexemes, List.cons_append, allCanonical_cons, allCanonical_append,
        allCanonical_map_unsigned, allCanonical_map_signed, IsCanonical]
      exact ⟨rankShortest, sizeCountShortest, sizesShortest, boundCountShortest, boundsShortest⟩
    · simp [ShapeSpelling.bytes, ShapeSpelling.lexemes, Lexeme.bytesOf, Lexeme.bytes,
        List.flatMap_map]

end ArrayShape

namespace ShapeSpelling

theorem shape_isRegular (spelling : ShapeSpelling) : spelling.shape.IsRegular := by
  cases spelling with
  | flat rank rank_eq => exact fun _ => ⟨rfl, rfl⟩
  | listed rank rank_ne sizes bounds => exact fun flat => absurd flat rank_ne

theorem encode_shape {spelling : ShapeSpelling} (canonical : AllCanonical spelling.lexemes) :
    spelling.shape.encode = .ok spelling.bytes := by
  cases spelling with
  | flat rank rank_eq =>
      have shortest : rank.IsShortest := by simpa [lexemes] using canonical
      have written := Compressed.encodeUnsigned_of_shortest shortest
      rw [rank_eq] at written
      rw [ArrayShape.encode_flat_iff rfl, bytes, lexemes, bytesOf_cons, bytesOf_nil,
        List.append_nil]
      exact written
  | listed rank rank_ne sizes bounds =>
      simp only [lexemes, List.cons_append, allCanonical_cons, allCanonical_append,
        allCanonical_map_unsigned, allCanonical_map_signed, IsCanonical] at canonical
      obtain ⟨rankShortest, sizeCountShortest, sizesShortest, boundCountShortest,
        boundsShortest⟩ := canonical
      have hrank := Compressed.encodeUnsigned_of_shortest rankShortest
      have hsizeCount := encodeCount_of_shortest sizeCountShortest
        (sizes.count_eq.trans (List.length_map Numeral.raw).symm)
      have hsizes := encodeEach_map fun numeral mem =>
        Compressed.encodeUnsigned_of_shortest (sizesShortest numeral mem)
      have hboundCount := encodeCount_of_shortest boundCountShortest
        (bounds.count_eq.trans (List.length_map Numeral.signed).symm)
      have hbounds := encodeEach_map fun numeral mem =>
        Compressed.encodeSigned_of_shortest (boundsShortest numeral mem)
      refine (ArrayShape.encode_listed_iff rank_ne).mpr ⟨_, hrank, _, hsizeCount, _, hsizes,
        _, hboundCount, _, hbounds, ?_⟩
      simp [bytes, lexemes, Lexeme.bytesOf, Lexeme.bytes, List.flatMap_map]

/-- The dimensions that were read are written again, if not always as they stood there. -/
theorem exists_encode_shape (spelling : ShapeSpelling) :
    ∃ written, spelling.shape.encode = .ok written := by
  cases spelling with
  | flat rank rank_eq =>
      obtain ⟨written, encoded⟩ := Compressed.exists_encodeUnsigned rank
      rw [rank_eq] at encoded
      exact ⟨written, (ArrayShape.encode_flat_iff rfl).mpr encoded⟩
  | listed rank rank_ne sizes bounds =>
      obtain ⟨_, hrank⟩ := Compressed.exists_encodeUnsigned rank
      obtain ⟨_, hsizeCount⟩ := exists_encodeCount sizes.count
      obtain ⟨_, hboundCount⟩ := exists_encodeCount bounds.count
      obtain ⟨_, hsizes⟩ := exists_encodeEach_iff.mpr
        (List.forall_mem_map.mpr fun numeral (_ : numeral ∈ sizes.items) =>
          Compressed.exists_encodeUnsigned numeral)
      obtain ⟨_, hbounds⟩ := exists_encodeEach_iff.mpr
        (List.forall_mem_map.mpr fun numeral (_ : numeral ∈ bounds.items) =>
          Compressed.exists_encodeSigned numeral)
      rw [sizes.count_eq, ← List.length_map Numeral.raw] at hsizeCount
      rw [bounds.count_eq, ← List.length_map Numeral.signed] at hboundCount
      exact ⟨_, (ArrayShape.encode_listed_iff rank_ne).mpr
        ⟨_, hrank, _, hsizeCount, _, hsizes, _, hboundCount, _, hbounds, rfl⟩⟩

end ShapeSpelling

namespace TypeSignature

variable {written : Bytes}

theorem encodeAll_eq (signatures : List TypeSignature) :
    encodeAll signatures = encodeEach encode signatures := by
  induction signatures with
  | nil => rfl
  | cons signature rest ih => rw [encodeAll, encodeEach, ih]

theorem encode_primitive_iff {row : Nat} {tag : ElementType} {type : Option NamedType} :
    (primitive row tag type).encode = .ok written ↔ tag.isPrimitive ∧ [tag.byte] = written := by
  by_cases isPrimitive : tag.isPrimitive <;> simp [encode, isPrimitive]

theorem encode_named_iff {row : Nat} {kind : TypeKind} {handle : TypeHandle} :
    (named row kind handle).encode = .ok written ↔
      ∃ reference, handle.encode = .ok reference ∧ kind.tag.byte :: reference = written := by
  simp only [encode, bind_ok_iff, pure_ok_iff]

theorem encode_typeVar_iff {row index : Nat} :
    (typeVar row index).encode = .ok written ↔
      ∃ number, Compressed.encodeUnsigned index = .ok number ∧
        ElementType.typeVar.byte :: number = written := by
  simp only [encode, bind_ok_iff, pure_ok_iff]

theorem encode_methodVar_iff {row index : Nat} :
    (methodVar row index).encode = .ok written ↔
      ∃ number, Compressed.encodeUnsigned index = .ok number ∧
        ElementType.methodVar.byte :: number = written := by
  simp only [encode, bind_ok_iff, pure_ok_iff]

theorem encode_sentinel_iff {row : Nat} :
    (sentinel row).encode = .ok written ↔ [ElementType.sentinel.byte] = written := by
  simp only [encode, Except.ok.injEq]

theorem encode_functionPointer_iff {row : Nat} {method : MethodSignature} :
    (functionPointer row method).encode = .ok written ↔
      ∃ body, method.encode = .ok body ∧ ElementType.fnPtr.byte :: body = written := by
  simp only [encode, bind_ok_iff, pure_ok_iff]

theorem encode_instantiation_iff {row : Nat} {kind : TypeKind} {generic : TypeHandle}
    {arguments : List TypeSignature} :
    (instantiation row kind generic arguments).encode = .ok written ↔
      ∃ reference, generic.encode = .ok reference ∧
        ∃ count, encodeCount arguments.length = .ok count ∧
        ∃ body, encodeEach encode arguments = .ok body ∧
          ElementType.genericInst.byte :: kind.tag.byte :: reference ++ count ++ body =
            written := by
  simp only [encode, encodeAll_eq, bind_ok_iff, pure_ok_iff]

theorem encode_wrapped_iff {row : Nat} {wrapper : Wrapper} {next : TypeSignature} :
    (wrapped row wrapper next).encode = .ok written ↔
      ∃ before, wrapper.encodeBefore = .ok before ∧ ∃ inner, next.encode = .ok inner ∧
        ∃ behind, wrapper.encodeBehind = .ok behind ∧
          wrapper.tag.byte :: before ++ inner ++ behind = written := by
  simp only [encode, bind_ok_iff, pure_ok_iff]

/-- The parameters behind a sentinel, if there are any. -/
theorem encodeVarargs_cons_iff {signature : TypeSignature} {rest : List TypeSignature} :
    encodeVarargs (some (signature :: rest)) = .ok written ↔
      ∃ body, encodeEach encode (signature :: rest) = .ok body ∧
        ElementType.sentinel.byte :: body = written := by
  simp only [encodeVarargs, encodeEach, encodeAll_eq, bind_ok_iff, pure_ok_iff]
  refine ⟨?_, ?_⟩
  · intro given
    obtain ⟨first, hfirst, others, hothers, rfl⟩ := given
    exact ⟨_, ⟨first, hfirst, others, hothers, rfl⟩, rfl⟩
  · intro given
    obtain ⟨_, ⟨first, hfirst, others, hothers, rfl⟩, rfl⟩ := given
    exact ⟨first, hfirst, others, hothers, rfl⟩

end TypeSignature

namespace MethodSignature

variable {written : Bytes}

/-- The count of generic parameters is written only if the convention has the flag for it. -/
theorem encodeHead_iff {method : MethodSignature} :
    method.encodeHead = .ok written ↔
      ∃ (generics : Option Numeral) (count : Numeral),
        (generics.isSome ↔ method.isGeneric) ∧
        (∀ numeral ∈ generics, numeral.IsShortest ∧ numeral.raw = method.genericCount) ∧
        count.IsShortest ∧ count.raw = method.paramCount ∧
        [method.convention] ++ (bytesOf (generics.toList.map .unsigned) ++ count.bytes) =
          written := by
  by_cases isGeneric : method.isGeneric
  · simp only [encodeHead, if_pos isGeneric, bind_ok_iff, pure_ok_iff,
      Compressed.encodeUnsigned_eq_ok_iff, encodeCount_eq_ok_iff]
    refine ⟨?_, ?_⟩
    · intro given
      obtain ⟨_, ⟨generics, genericsShortest, rfl, generics_eq⟩, _, ⟨count, countShortest, rfl,
        count_eq⟩, rfl⟩ := given
      exact ⟨some generics, count, by simp [isGeneric], by simp [genericsShortest, generics_eq],
        countShortest, count_eq, by simp⟩
    · intro given
      obtain ⟨_ | generics, count, flag, all, countShortest, count_eq, rfl⟩ := given
      · simp [isGeneric] at flag
      obtain ⟨genericsShortest, generics_eq⟩ := all generics rfl
      exact ⟨_, ⟨generics, genericsShortest, rfl, generics_eq⟩, _,
        ⟨count, countShortest, rfl, count_eq⟩, by simp⟩
  · simp only [encodeHead, if_neg isGeneric, bind_ok_iff, pure_ok_iff,
      encodeCount_eq_ok_iff]
    refine ⟨?_, ?_⟩
    · intro given
      obtain ⟨_, rfl, _, ⟨count, countShortest, rfl, count_eq⟩, rfl⟩ := given
      exact ⟨none, count, by simp [isGeneric], by simp, countShortest, count_eq, rfl⟩
    · intro given
      obtain ⟨_ | generics, count, flag, -, countShortest, count_eq, rfl⟩ := given
      · exact ⟨[], rfl, _, ⟨count, countShortest, rfl, count_eq⟩, rfl⟩
      · simp [isGeneric] at flag

section

variable {f : TypeSignature → TypeSignature}

theorem encodeHead_mapParts (method : MethodSignature) :
    (method.mapParts f).encodeHead = method.encodeHead := by
  have paramCount : (method.mapParts f).paramCount = method.paramCount := by
    rw [mapParts, MethodSignature.paramCount, MethodSignature.paramCount]
    cases method.varargs <;> simp
  have isGeneric : (method.mapParts f).isGeneric = method.isGeneric := rfl
  rw [encodeHead, encodeHead, paramCount, isGeneric, mapParts]

theorem encodeVarargs_map {varargs : Option (List TypeSignature)}
    (h : ∀ vararg ∈ varargs.getD [], (f vararg).encode = vararg.encode) :
    TypeSignature.encodeVarargs (varargs.map (List.map f)) =
      TypeSignature.encodeVarargs varargs := by
  rcases varargs with _ | _ | ⟨signature, rest⟩
  · rfl
  · rfl
  · obtain ⟨first, others⟩ := List.forall_mem_cons.mp h
    simp only [Option.map_some, List.map_cons, TypeSignature.encodeVarargs,
      TypeSignature.encodeAll_eq, first, encodeEach_map_congr others]

/-- The types of a method can be others, if they are written in the same way. -/
theorem encode_mapParts {method : MethodSignature}
    (h : ∀ part ∈ method.parts, (f part).encode = part.encode) :
    (method.mapParts f).encode = method.encode := by
  have head := method.encodeHead_mapParts (f := f)
  obtain ⟨result, params, varargs⟩ := forall_parts_iff.mp h
  obtain ⟨convention, genericCount, _, _, _⟩ := method
  rw [mapParts] at head ⊢
  simp only [encode, head, TypeSignature.encodeAll_eq, result, encodeEach_map_congr params,
    encodeVarargs_map varargs]

end

theorem encode_iff {method : MethodSignature} :
    method.encode = .ok written ↔
      ∃ head, method.encodeHead = .ok head ∧ ∃ result, method.result.encode = .ok result ∧
        ∃ params, encodeEach TypeSignature.encode method.params = .ok params ∧
        ∃ varargs, TypeSignature.encodeVarargs method.varargs = .ok varargs ∧
          head ++ result ++ params ++ varargs = written := by
  obtain ⟨convention, genericCount, result, params, varargs⟩ := method
  simp only [encode, TypeSignature.encodeAll_eq, bind_ok_iff, pure_ok_iff]

end MethodSignature

end CliMetadata
