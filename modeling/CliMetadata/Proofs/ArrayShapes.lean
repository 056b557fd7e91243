import CliMetadata.Signature.ShapeWords
import CliMetadata.Proofs.Texts

/-!
What the name of an array tells of its dimensions. A shape is held in words of 32 bits, and the
upper bound of a dimension is computed in 64 bits, where it is exact. From the dimensions of a name
their number, the lower bounds and the sizes behind them can be read off; a size without a lower
bound is not written.
-/

namespace CliMetadata

open Text

namespace ArrayShape

variable {a b : ArrayShape} {i : Nat}

theorem comma_not_mem_dimension (shape : ArrayShape) (i : Nat) : ',' ∉ shape.dimension i := by
  have bound (j : Int) : ',' ∉ signedDecimal j := not_mem_signedDecimal (by decide) (by decide)
  rw [dimension]
  split <;> simp [bound]

/-- What stands behind the first dot of a dimension. -/
def upperChars (lower : Int) : Option Nat → List Char
  | none => "..".toList
  | some size => '.' :: signedDecimal (lower + size - 1)

theorem upperChars_injective {lower : Int} {size size' : Option Nat}
    (same : upperChars lower size = upperChars lower size') : size = size' := by
  have dot (i : Int) : signedDecimal i ≠ ['.'] := fun dotted =>
    not_mem_signedDecimal (by decide) (by decide) (dotted ▸ List.mem_singleton_self '.')
  cases size with
  | none =>
      cases size' with
      | none => rfl
      | some size' => exact absurd (List.cons.inj same).2.symm (dot _)
  | some size =>
      cases size' with
      | none => exact absurd (List.cons.inj same).2 (dot _)
      | some size' =>
          have upper := signedDecimal_injective (List.cons.inj same).2
          exact congrArg some (by omega)

theorem dimension_of_unbounded {shape : ArrayShape} (free : shape.lowerBounds[i]? = none) :
    shape.dimension i = [] := by
  rw [dimension, free]

theorem dimension_of_bounded {shape : ArrayShape} {lower : Int}
    (bound : shape.lowerBounds[i]? = some lower) :
    shape.dimension i = signedDecimal lower ++ '.' :: upperChars lower shape.sizes[i]? := by
  rw [dimension, bound]
  cases shape.sizes[i]? <;> simp [upperChars]

/-- Dimensions with the same text have the same lower bound, or none, and behind a lower bound the
same size, or none. -/
theorem dimension_eq_iff : a.dimension i = b.dimension i ↔
    a.lowerBounds[i]? = b.lowerBounds[i]? ∧
      (a.lowerBounds[i]?.isSome → a.sizes[i]? = b.sizes[i]?) := by
  cases first : a.lowerBounds[i]? with
  | none =>
      rw [dimension_of_unbounded first]
      cases second : b.lowerBounds[i]? with
      | none => simp [dimension_of_unbounded second]
      | some lower => simp [dimension_of_bounded second]
  | some lower =>
      rw [dimension_of_bounded first]
      cases second : b.lowerBounds[i]? with
      | none => simp [dimension_of_unbounded second]
      | some lower' =>
          rw [dimension_of_bounded second]
          have dotless (j : Int) : '.' ∉ signedDecimal j :=
            not_mem_signedDecimal (by decide) (by decide)
          refine ⟨?_, ?_⟩
          · intro same
            -- The first dot ends the lower bound on both sides.
            have cut := congrArg (splitFirst? '.') same
            rw [splitFirst?_append_cons (dotless lower), splitFirst?_append_cons (dotless lower'),
              Option.some.injEq, Prod.mk.injEq] at cut
            obtain rfl := signedDecimal_injective cut.1
            exact ⟨rfl, fun _ => upperChars_injective cut.2⟩
          · rintro ⟨bounds, sizes⟩
            rw [Option.some.inj bounds, sizes rfl]

theorem dimensions_display {shape : ArrayShape} (few : shape.rank ≤ maxWritten) :
    shape.dimensions .display = (List.range shape.rank).map shape.dimension := by
  rw [dimensions, if_pos few, Nat.min_eq_left few]

theorem chars_display {shape : ArrayShape} (several : 2 ≤ shape.rank)
    (few : shape.rank ≤ maxWritten) : shape.chars .display =
      '[' :: [','].intercalate ((List.range shape.rank).map shape.dimension) ++ [']'] := by
  rw [chars.eq_def]
  split
  · omega
  · omega
  · rw [dimensions_display few]

/-- The texts of two shapes are the same if and only if their dimensions are. -/
theorem chars_eq_iff (several : 2 ≤ a.rank) (few : a.rank ≤ maxWritten) (several' : 2 ≤ b.rank)
    (few' : b.rank ≤ maxWritten) : a.chars .display = b.chars .display ↔
      a.rank = b.rank ∧ ∀ i < a.rank, a.dimension i = b.dimension i := by
  have separate (shape : ArrayShape) (h : 2 ≤ shape.rank) :
      split ',' ([','].intercalate ((List.range shape.rank).map shape.dimension)) =
        (List.range shape.rank).map shape.dimension := by
    refine split_intercalate ?_ ?_
    · simp only [ne_eq, List.map_eq_nil_iff, List.range_eq_nil]
      omega
    · intro part mem
      obtain ⟨i, -, rfl⟩ := List.mem_map.mp mem
      exact shape.comma_not_mem_dimension i
  rw [chars_display several few, chars_display several' few']
  refine ⟨?_, ?_⟩
  · intro same
    have joined := (List.cons.inj (List.append_cancel_right same)).2
    have parts := congrArg (split ',') joined
    rw [separate a several, separate b several'] at parts
    have ranks : a.rank = b.rank := by simpa using congrArg List.length parts
    refine ⟨ranks, fun i inside => ?_⟩
    rw [← ranks] at parts
    exact List.map_inj_left.mp parts i (List.mem_range.mpr inside)
  · rintro ⟨ranks, same⟩
    rw [← ranks, List.map_inj_left.mpr fun i mem => same i (List.mem_range.mp mem)]

end ArrayShape

namespace ShapeWords

variable {words : ShapeWords} {lower : Int32} {size : UInt32} {i : Nat}

/-- The sum of a bound and a size stays far inside of 64 bits. -/
theorem toInt_sum (lower : Int32) (size : UInt32) :
    (lower.toInt64 + size.toUInt64.toInt64).toInt = lower.toInt + size.toNat := by
  have low := lower.le_toInt
  have high := lower.toInt_lt
  have small := size.toNat_lt
  have extended : size.toUInt64.toInt64.toInt = size.toNat := by
    rw [Int64.toInt, UInt64.toInt64, Int64.toBitVec, BitVec.toInt_eq_toNat_of_lt]
    · simp
    · simp
      omega
  rw [Int64.toInt_add, Int32.toInt_toInt64, extended, Int.bmod_eq_of_le (by omega) (by omega)]

theorem toInt_upperBound (lower : Int32) (size : UInt32) :
    (upperBound lower size).toInt = lower.toInt + size.toNat - 1 := by
  have low := lower.le_toInt
  have high := lower.toInt_lt
  have small := size.toNat_lt
  have one : (1 : Int64).toInt = 1 := rfl
  rw [upperBound, Int64.toInt_sub, toInt_sum, one, Int.bmod_eq_of_le (by omega) (by omega)]

theorem dimension_shape (words : ShapeWords) (i : Nat) :
    words.shape.dimension i = words.dimension i := by
  simp only [ArrayShape.dimension, dimension, shape, List.getElem?_map]
  cases words.lowerBounds[i]? with
  | none => rfl
  | some lower =>
      cases words.sizes[i]? with
      | none => rfl
      | some size => simp only [Option.map_some, toInt_upperBound]

theorem lowerBounds_shape_eq_iff {a b : ShapeWords} :
    a.shape.lowerBounds[i]? = b.shape.lowerBounds[i]? ↔ a.lowerBounds[i]? = b.lowerBounds[i]? := by
  simp only [shape, List.getElem?_map]
  exact (Option.map_injective fun _ _ => Int32.toInt_inj.mp).eq_iff

theorem sizes_shape_eq_iff {a b : ShapeWords} :
    a.shape.sizes[i]? = b.shape.sizes[i]? ↔ a.sizes[i]? = b.sizes[i]? := by
  simp only [shape, List.getElem?_map]
  exact (Option.map_injective fun _ _ => UInt32.toNat_inj.mp).eq_iff

end ShapeWords

namespace TypeSignature

theorem nameChars_array (row : Nat) (shape : ArrayShape) (element : TypeSignature) :
    (wrapped row (.array shape) element).nameChars .display =
      nameWithin .display 49 element ++ shape.chars .display := rfl

theorem fullName_array_eq_iff {row row' : Nat} {a b : ArrayShape} {element : TypeSignature} :
    (wrapped row (.array a) element).fullName = (wrapped row' (.array b) element).fullName ↔
      a.chars .display = b.chars .display := by
  rw [fullName, fullName, nameChars_array, nameChars_array, String.ofList_inj,
    List.append_cancel_left_eq]

/-- Arrays of two to 32 dimensions over one element type have the same name if and only if they have
as many dimensions and each of these has the same lower bound, or none, and behind a lower bound the
same size, or none. What is written of a bound and a size are the bound and the exact upper bound,
since no sum on the way leaves 64 bits. -/
theorem array_names_faithful :
    (∀ (element : TypeSignature) (row row' : Nat) (a b : ShapeWords),
      2 ≤ a.rank → a.rank ≤ 32 → 2 ≤ b.rank → b.rank ≤ 32 →
      ((wrapped row (.array a.shape) element).fullName =
          (wrapped row' (.array b.shape) element).fullName ↔
        a.rank = b.rank ∧ ∀ i < a.rank.toNat, a.lowerBounds[i]? = b.lowerBounds[i]? ∧
          (a.lowerBounds[i]?.isSome → a.sizes[i]? = b.sizes[i]?))) ∧
    (∀ (element : TypeSignature) (row : Nat) (a : ShapeWords), 2 ≤ a.rank → a.rank ≤ 32 →
      (wrapped row (.array a.shape) element).fullName =
        String.ofList (nameWithin .display 49 element ++
          '[' :: [','].intercalate ((List.range a.rank.toNat).map a.dimension) ++ [']'])) ∧
    ∀ (a : ShapeWords) (i : Nat) (lower : Int32) (size : UInt32),
      a.lowerBounds[i]? = some lower → a.sizes[i]? = some size →
      (lower.toInt64 + size.toUInt64.toInt64).toInt = lower.toInt + size.toNat ∧
      (ShapeWords.upperBound lower size).toInt = lower.toInt + size.toNat - 1 ∧
      a.dimension i = signedDecimal lower.toInt ++ "..".toList ++
        signedDecimal (lower.toInt + size.toNat - 1) := by
  refine ⟨?_, ?_, ?_⟩
  · intro element row row' a b several few several' few'
    rw [UInt32.le_iff_toNat_le] at several few several' few'
    rw [fullName_array_eq_iff,
      ArrayShape.chars_eq_iff (a := a.shape) (b := b.shape) several few several' few']
    refine and_congr UInt32.toNat_inj (forall₂_congr fun i inside => ?_)
    rw [ArrayShape.dimension_eq_iff, ShapeWords.lowerBounds_shape_eq_iff,
      ShapeWords.sizes_shape_eq_iff]
    simp only [ShapeWords.shape, List.getElem?_map, Option.isSome_map]
  · intro element row a several few
    rw [UInt32.le_iff_toNat_le] at several few
    have texts : a.shape.dimension = a.dimension := funext a.dimension_shape
    have chars_eq : a.shape.chars .display = _ := ArrayShape.chars_display several few
    rw [fullName, nameChars_array, chars_eq, texts, ← List.append_assoc]
    rfl
  · intro a i lower size bound sized
    refine ⟨ShapeWords.toInt_sum lower size, ShapeWords.toInt_upperBound lower size, ?_⟩
    rw [ShapeWords.dimension, bound, sized, ← ShapeWords.toInt_upperBound]

/-- The least lower bound without elements, and the greatest with as many as there can be. -/
def extremeBounds : ShapeWords where
  rank := 2
  sizes := [0, 0xFFFFFFFF]
  lowerBounds := [-0x80000000, 0x7FFFFFFF]

/-- The same with a size for which there is no dimension. -/
def extremeBoundsAndMore : ShapeWords where
  rank := 2
  sizes := [0, 0xFFFFFFFF, 4]
  lowerBounds := [-0x80000000, 0x7FFFFFFF]

theorem array_names_faithful_extreme :
    (wrapped 7 (.array extremeBounds.shape) (.typeVar 0 0)).fullName =
      "!0[-2147483648..-2147483649,2147483647..6442450941]" ∧
    (wrapped 7 (.array extremeBounds.shape) (.typeVar 0 0)).fullName =
      (wrapped 8 (.array extremeBoundsAndMore.shape) (.typeVar 0 0)).fullName ∧
    (ShapeWords.upperBound 0x7FFFFFFF 0xFFFFFFFF).toInt = 6442450941 := by
  obtain ⟨same_iff, written, exact_bound⟩ := array_names_faithful
  refine ⟨?_, ?_, ?_⟩
  · rw [written (.typeVar 0 0) 7 extremeBounds (by decide) (by decide)]
    decide
  · refine (same_iff _ 7 8 extremeBounds extremeBoundsAndMore (by decide) (by decide) (by decide)
      (by decide)).mpr ⟨rfl, ?_⟩
    decide
  · exact (exact_bound extremeBounds 1 0x7FFFFFFF 0xFFFFFFFF rfl rfl).2.1

end TypeSignature

end CliMetadata
