import CliMetadata.Signature.Naming

/-!
Array dimensions in words of 32 bits, as they are held. The upper bound of a dimension is computed
in words of 64 bits.
-/

namespace CliMetadata

structure ShapeWords where
  rank : UInt32
  sizes : List UInt32 := []
  lowerBounds : List Int32 := []
deriving DecidableEq, Repr

namespace ShapeWords

/-- The numbers that the words hold. -/
def shape (words : ShapeWords) : ArrayShape where
  rank := words.rank.toNat
  sizes := words.sizes.map UInt32.toNat
  lowerBounds := words.lowerBounds.map Int32.toInt

/-- The bound and the size without its sign, put together before one is taken away. -/
def upperBound (lower : Int32) (size : UInt32) : Int64 :=
  lower.toInt64 + size.toUInt64.toInt64 - 1

/-- One dimension of a display name. -/
def dimension (words : ShapeWords) (i : Nat) : List Char :=
  match words.lowerBounds[i]?, words.sizes[i]? with
  | none, _ => []
  | some lower, none => Text.signedDecimal lower.toInt ++ "...".toList
  | some lower, some size =>
    Text.signedDecimal lower.toInt ++ "..".toList ++
      Text.signedDecimal (upperBound lower size).toInt

end ShapeWords

end CliMetadata
