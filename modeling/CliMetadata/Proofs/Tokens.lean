import CliMetadata.Token
import Mathlib.Algebra.Group.Nat.Defs

/-!
Tokens and their coded indexes. An index below 2 ^ 26 has a row of no more than 24 bits, and is the
coded index of the token it stands for. Above that the row spills into the table number: the token
keeps the low 24 bits of the row, and the bits above them are merged into the number of the table.
-/

namespace CliMetadata

namespace TypeTable

theorem ofNumber?_eq_some_iff {number : Nat} {table : TypeTable} :
    ofNumber? number = some table ↔ table.number = number := by
  refine ⟨?_, ?_⟩
  · intro h
    unfold ofNumber? at h
    split at h <;> cases h <;> rfl
  · rintro rfl
    cases table <;> rfl

theorem ofTag?_eq_some_iff {tag : Nat} {table : TypeTable} :
    ofTag? tag = some table ↔ table.tag = tag := by
  refine ⟨?_, ?_⟩
  · intro h
    unfold ofTag? at h
    split at h <;> cases h <;> rfl
  · rintro rfl
    cases table <;> rfl

end TypeTable

namespace Token

theorem or_row_eq_add {number row : Nat} (h : row < 2 ^ 24) :
    number * 0x1000000 ||| row = number * 2 ^ 24 + row := by
  rw [Nat.mul_comm, Nat.mul_comm number]
  exact (Nat.two_pow_add_eq_or_of_lt h number).symm

/-- A row of 24 bits leaves the table number as it is. -/
theorem ofCodedIndex?_eq_some_iff {index : Nat} {token : Token} (small : index < 2 ^ 26) :
    ofCodedIndex? index = some token ↔ ∃ table : TypeTable, table.tag = index % 4 ∧
      token.value.toNat = table.number * 2 ^ 24 + index / 4 := by
  have row_lt : index / 4 < 2 ^ 24 := by omega
  rw [ofCodedIndex?, Option.map_eq_some_iff]
  refine ⟨?_, ?_⟩
  · intro given
    obtain ⟨table, tag_eq, rfl⟩ := given
    refine ⟨table, TypeTable.ofTag?_eq_some_iff.mp tag_eq, ?_⟩
    rw [or_row_eq_add row_lt]
    apply UInt32.toNat_ofNat_of_lt
    cases table <;> simp only [TypeTable.number, UInt32.size] <;> omega
  · intro given
    obtain ⟨table, tag_eq, value_eq⟩ := given
    refine ⟨table, TypeTable.ofTag?_eq_some_iff.mpr tag_eq, ?_⟩
    rw [or_row_eq_add row_lt, ← value_eq]
    simp

theorem ofCodedIndex?_eq_none_iff {index : Nat} : ofCodedIndex? index = none ↔ index % 4 = 3 := by
  have tag_lt : index % 4 < 4 := Nat.mod_lt _ (by decide)
  rw [ofCodedIndex?, Option.map_eq_none_iff]
  obtain tag | tag | tag | tag :
      index % 4 = 0 ∨ index % 4 = 1 ∨ index % 4 = 2 ∨ index % 4 = 3 := by omega
  all_goals simp [tag, TypeTable.ofTag?]

theorem or_row_eq (number row : Nat) :
    number * 0x1000000 ||| row = (number ||| row / 2 ^ 24) * 2 ^ 24 + row % 2 ^ 24 := by
  have low : row % 2 ^ 24 < 2 ^ 24 := Nat.mod_lt _ (by decide)
  have high : 2 ^ 24 * (number ||| row / 2 ^ 24) =
      2 ^ 24 * number ||| 2 ^ 24 * (row / 2 ^ 24) := by
    simp only [Nat.mul_comm (2 ^ 24), ← Nat.shiftLeft_eq, Nat.shiftLeft_or_distrib]
  have whole : 2 ^ 24 * (row / 2 ^ 24) ||| row % 2 ^ 24 = row := by
    rw [← Nat.two_pow_add_eq_or_of_lt low]
    exact Nat.div_add_mod row (2 ^ 24)
  have shifted : number * 0x1000000 = 2 ^ 24 * number := Nat.mul_comm _ _
  rw [Nat.mul_comm _ (2 ^ 24), Nat.two_pow_add_eq_or_of_lt low, high, Nat.or_assoc, whole, shifted]

/-- The parts of the token that a coded index of no more than 29 bits stands for. -/
theorem parts_of_ofCodedIndex? {index : Nat} {token : Token} (index_lt : index < 2 ^ 29)
    (found : ofCodedIndex? index = some token) :
    ∃ table : TypeTable, TypeTable.ofTag? (index % 4) = some table ∧
      token.table = (table.number ||| index / 2 ^ 26) ∧ token.row = index / 4 % 2 ^ 24 := by
  obtain ⟨table, tag?, rfl⟩ := Option.map_eq_some_iff.mp found
  have number_lt : table.number < 2 ^ 5 := by cases table <;> decide
  have merged_lt : (table.number ||| index / 2 ^ 26) < 2 ^ 5 :=
    Nat.or_lt_two_pow number_lt (by omega)
  have high_eq : index / 4 / 2 ^ 24 = index / 2 ^ 26 := by omega
  have value_eq : (UInt32.ofNat (table.number * 0x1000000 ||| index / 4)).toNat =
      (table.number ||| index / 2 ^ 26) * 2 ^ 24 + index / 4 % 2 ^ 24 := by
    rw [or_row_eq, high_eq]
    apply UInt32.toNat_ofNat_of_lt
    simp only [UInt32.size]
    omega
  refine ⟨table, tag?, ?_, ?_⟩
  · rw [Token.table, value_eq]
    omega
  · rw [Token.row, value_eq]
    omega

theorem codedIndex?_eq_some_iff {token : Token} {index : Nat} :
    token.codedIndex? = some index ↔ index < 2 ^ 26 ∧ ofCodedIndex? index = some token := by
  have split_value : token.value.toNat = token.table * 2 ^ 24 + token.row := by
    simp only [Token.table, Token.row]
    omega
  have row_lt : token.row < 2 ^ 24 := Nat.mod_lt _ (by decide)
  rw [codedIndex?, Option.map_eq_some_iff]
  simp only [typeTable?, TypeTable.ofNumber?_eq_some_iff]
  refine ⟨?_, ?_⟩
  · intro given
    obtain ⟨table, number_eq, rfl⟩ := given
    have tag_lt : table.tag < 4 := by cases table <;> decide
    have small : token.row * 4 + table.tag < 2 ^ 26 := by omega
    refine ⟨small, (ofCodedIndex?_eq_some_iff small).mpr ⟨table, by omega, ?_⟩⟩
    rw [split_value, number_eq]
    omega
  · intro given
    obtain ⟨small, token_eq⟩ := given
    obtain ⟨table, tag_eq, value_eq⟩ := (ofCodedIndex?_eq_some_iff small).mp token_eq
    exact ⟨table, by omega, by omega⟩

end Token

end CliMetadata
