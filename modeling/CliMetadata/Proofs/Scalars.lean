import CliMetadata.Scalar
import CliMetadata.Proofs.Numerals
import Mathlib.Algebra.Group.Int.Defs

/-!
Numbers of a fixed width in bytes. All bytes of the width of a type are a value of it, which gives
them again when it is written; a signed number stands in them in two's complement.
-/

namespace CliMetadata

/-- What a remainder keeps of the digits above the first factor. -/
theorem emod_mul_ediv {low : Int} (positive : 0 < low) (value high : Int) :
    value % (low * high) / low = value / low % high := by
  rw [Int.emod_def value, Int.emod_def (value / low), Int.mul_assoc,
    Int.sub_mul_ediv_left _ _ (by omega), Int.ediv_ediv_of_nonneg (by omega)]

namespace ScalarType

variable {type : ScalarType} {pattern : Nat} {value : Int} {bytes : Bytes}

theorem patterns_eq (type : ScalarType) : type.patterns = 256 ^ type.width := by
  cases type <;> rfl

/-- Half of the bit patterns of a signed type are negative numbers. -/
theorem even_patterns (type : ScalarType) : type.patterns % 2 = 0 := by
  cases type <;> decide

theorem patterns_pos (type : ScalarType) : 0 < type.patterns := by
  rw [patterns_eq]
  exact Nat.pow_pos (by decide)

theorem holds_ofPattern (small : pattern < type.patterns) : type.Holds (type.ofPattern pattern) := by
  have even := type.even_patterns
  have positive := type.patterns_pos
  by_cases signed : type.isSigned
  · simp only [Holds, ofPattern, if_pos signed]
    have low := Int.le_bmod (x := pattern) positive
    have high := Int.bmod_lt (x := pattern) positive
    omega
  · simp only [Holds, ofPattern, if_neg signed]
    omega

theorem toPattern_ofPattern (small : pattern < type.patterns) :
    type.toPattern (type.ofPattern pattern) = pattern := by
  have same : type.ofPattern pattern % type.patterns = (pattern : Int) % type.patterns := by
    by_cases signed : type.isSigned
    · rw [ofPattern, if_pos signed, Int.bmod_emod]
    · rw [ofPattern, if_neg signed]
  rw [toPattern, same, ← Int.natCast_emod, Int.toNat_natCast, Nat.mod_eq_of_lt small]

theorem natCast_toPattern (type : ScalarType) (value : Int) :
    (type.toPattern value : Int) = value % type.patterns := by
  have positive := type.patterns_pos
  exact Int.toNat_of_nonneg (Int.emod_nonneg value (by omega))

theorem toPattern_lt (type : ScalarType) (value : Int) : type.toPattern value < type.patterns := by
  have positive := type.patterns_pos
  have below : value % type.patterns < type.patterns := Int.emod_lt_of_pos value (by omega)
  rw [← natCast_toPattern] at below
  omega

theorem ofPattern_toPattern (holds : type.Holds value) :
    type.ofPattern (type.toPattern value) = value := by
  have even := type.even_patterns
  by_cases signed : type.isSigned
  · rw [Holds, if_pos signed] at holds
    rw [ofPattern, if_pos signed, natCast_toPattern, Int.emod_bmod]
    exact Int.bmod_eq_of_le (by omega) (by omega)
  · rw [Holds, if_neg signed] at holds
    rw [ofPattern, if_neg signed, natCast_toPattern, Int.emod_eq_of_lt holds.1 holds.2]

theorem toNatLE_lt_patterns (length_eq : bytes.length = type.width) :
    Bytes.toNatLE bytes < type.patterns := by
  rw [patterns_eq, ← length_eq]
  exact Bytes.toNatLE_lt bytes

theorem holds_ofBytesLE (length_eq : bytes.length = type.width) :
    type.Holds (type.ofBytesLE bytes) :=
  holds_ofPattern (toNatLE_lt_patterns length_eq)

theorem toBytesLE_ofBytesLE (length_eq : bytes.length = type.width) :
    type.toBytesLE (type.ofBytesLE bytes) = bytes := by
  rw [toBytesLE, ofBytesLE, toPattern_ofPattern (toNatLE_lt_patterns length_eq), ← length_eq,
    Bytes.ofNatLE_toNatLE]

@[simp] theorem length_toBytesLE (type : ScalarType) (value : Int) :
    (type.toBytesLE value).length = type.width :=
  Bytes.length_ofNatLE _ _

theorem ofBytesLE_toBytesLE (holds : type.Holds value) :
    type.ofBytesLE (type.toBytesLE value) = value := by
  rw [ofBytesLE, toBytesLE, Bytes.toNatLE_ofNatLE, ← patterns_eq,
    Nat.mod_eq_of_lt (type.toPattern_lt value), ofPattern_toPattern holds]

/-- The bytes of a value are its digits to the base 256, least significant first; for a negative
value the quotients are rounded down. -/
theorem toBytesLE_digit (value : Int) {place : Nat} (inside : place < type.width) :
    ∃ byte, (type.toBytesLE value)[place]? = some byte ∧
      (byte.toNat : Int) = value / 256 ^ place % 256 := by
  obtain ⟨further, width_eq⟩ := Nat.exists_eq_add_of_lt inside
  have whole : (type.patterns : Int) = 256 ^ place * (256 ^ further * 256) := by
    rw [patterns_eq, width_eq, Int.natCast_pow, Int.pow_succ, Int.pow_add, Int.mul_assoc]
    rfl
  have low : (0 : Int) < 256 ^ place := Int.pow_pos (by decide)
  refine ⟨_, Bytes.getElem?_ofNatLE inside, ?_⟩
  rw [UInt8.toNat_ofNat', Int.natCast_emod, Int.natCast_ediv, Int.natCast_pow, natCast_toPattern,
    whole]
  calc
    _ = value / 256 ^ place % (256 ^ further * 256) % 256 :=
      congrArg (· % 256) (emod_mul_ediv low value _)
    _ = _ := Int.emod_emod_of_dvd _ (Int.dvd_mul_left _ 256)

end ScalarType

end CliMetadata
