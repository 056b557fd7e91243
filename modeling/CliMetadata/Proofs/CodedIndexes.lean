import CliMetadata.Proofs.Numerals

/-!
Coded indexes in the bytes and the tokens they are read as. An index below 2 ^ 26 and its token
determine each other, and every token that has a coded index is read again from where it is written.
A greater index is read as well, but never is the index of its token: it stands for the same token
as an index below, or for one of a table that coded indexes do not point into.
-/

namespace CliMetadata

namespace Read

variable {cursor stopped between : Cursor} {index : Nat} {token : Token}

theorem unsigned_lt (read : unsigned cursor = .ok index stopped) : index < 2 ^ 29 := by
  obtain ⟨_, ⟨numeral, -, -, rfl⟩, -, -⟩ := (accepts_unsigned _ _ _).mp read
  have fits := numeral.raw_lt
  have capacity_le : numeral.form.capacity ≤ 2 ^ 29 := by cases numeral.form <;> decide
  omega

/-- A token is what the compressed integer at its place stands for. -/
theorem ofCodedIndex?_of_reads (readIndex : unsigned cursor = .ok index between)
    (readToken : Read.token cursor = .ok token stopped) :
    Token.ofCodedIndex? index = some token := by
  obtain ⟨_, _, first, second⟩ := bind_eq_ok.mp readToken
  rw [readIndex] at first
  obtain ⟨rfl, rfl⟩ := EStateM.Result.ok.inj first
  obtain ⟨_, ⟨-, found⟩, -⟩ := (accepts_ofOption _ _ _ _ _).mp second
  exact found

end Read

namespace Token

theorem codedIndex_eq_ok_iff {token : Token} {index : Nat} :
    token.codedIndex = .ok index ↔ token.codedIndex? = some index := by
  rw [codedIndex]
  cases token.codedIndex? <;> simp

/-- An index keeps its table and its row, and is the coded index of its token, if and only if its
row has no bits above the 24th. -/
theorem isCodedIndex_iff {index : Nat} {token : Token} {table : TypeTable}
    (found : ofCodedIndex? index = some token)
    (table_eq : token.table = (table.number ||| index / 2 ^ 26))
    (row_eq : token.row = index / 4 % 2 ^ 24) :
    token.typeTable? = some table ∧ token.row = index / 4 ∧ token.codedIndex = .ok index ↔
      index < 2 ^ 26 := by
  refine ⟨?_, ?_⟩
  · intro given
    obtain ⟨-, -, written⟩ := given
    exact (codedIndex?_eq_some_iff.mp (codedIndex_eq_ok_iff.mp written)).1
  · intro small
    have noSpill : index / 2 ^ 26 = 0 := Nat.div_eq_of_lt small
    rw [noSpill, Nat.or_zero] at table_eq
    refine ⟨TypeTable.ofNumber?_eq_some_iff.mpr table_eq.symm, ?_, ?_⟩
    · rw [row_eq]
      exact Nat.mod_eq_of_lt (by omega)
    · exact codedIndex_eq_ok_iff.mpr (codedIndex?_eq_some_iff.mpr ⟨small, found⟩)

/-- Of the indexes that stand for one token only one is below 2 ^ 26. -/
theorem ofCodedIndex?_injOn {index other : Nat} {token : Token} (small : index < 2 ^ 26)
    (otherSmall : other < 2 ^ 26) (found : ofCodedIndex? index = some token)
    (otherFound : ofCodedIndex? other = some token) : index = other := by
  have written := codedIndex?_eq_some_iff.mpr ⟨small, found⟩
  rw [codedIndex?_eq_some_iff.mpr ⟨otherSmall, otherFound⟩] at written
  exact (Option.some.inj written).symm

theorem exists_ofCodedIndex? {token : Token} (known : token.typeTable?.isSome) :
    ∃ index < 2 ^ 26, ofCodedIndex? index = some token := by
  obtain ⟨table, table?⟩ := Option.isSome_iff_exists.mp known
  refine ⟨token.row * 4 + table.tag, codedIndex?_eq_some_iff.mp ?_⟩
  rw [codedIndex?, table?, Option.map_some]

theorem read_encodeToken {token : Token} (known : token.typeTable?.isSome) :
    ∃ bytes, Compressed.encodeToken token = .ok bytes ∧ ∀ rest,
      Read.token { data := bytes ++ rest } = .ok token ⟨bytes ++ rest, bytes.length⟩ := by
  obtain ⟨bytes, written⟩ := Compressed.exists_encodeToken_iff.mpr known
  refine ⟨bytes, written, fun rest => ?_⟩
  obtain ⟨index, -, rfl, rfl⟩ := Compressed.encodeToken_eq_ok_iff.mp written
  have here : ({ data := index.bytes ++ rest } : Cursor).unread = index.bytes ++ rest := rfl
  rw [Read.accepts_token.read_spelling index trivial here, Cursor.advance, Nat.zero_add]

end Token

namespace Read

/-- An index that is read as a token gives it the low 24 bits of its row, and the table of its tag if
its row has no further bits. Exactly then it is the coded index of the token, so that no two of
these indexes are read as one token. Further bits give a token of another index, or of no table with
a tag. A token with a coded index is read again from where it is written. -/
theorem coded_index_exact (token : Token) :
    (∀ cursor between stopped index, unsigned cursor = .ok index between →
      Read.token cursor = .ok token stopped →
      ∃ table, TypeTable.ofTag? (index % 4) = some table ∧
        token.table = (table.number ||| index / 2 ^ 26) ∧ token.row = index / 4 % 2 ^ 24 ∧
        (token.typeTable? = some table ∧ token.row = index / 4 ∧ token.codedIndex = .ok index ↔
          index < 2 ^ 26) ∧
        (2 ^ 26 ≤ index → token.typeTable?.isSome →
          ∃ other < 2 ^ 26, Token.ofCodedIndex? other = some token)) ∧
    (∀ cursor cursor' between between' stopped stopped' index index',
      unsigned cursor = .ok index between → Read.token cursor = .ok token stopped →
      unsigned cursor' = .ok index' between' → Read.token cursor' = .ok token stopped' →
      index < 2 ^ 26 → index' < 2 ^ 26 → index = index') ∧
    (token.typeTable?.isSome → ∃ bytes, Compressed.encodeToken token = .ok bytes ∧
      ∀ rest, Read.token { data := bytes ++ rest } = .ok token ⟨bytes ++ rest, bytes.length⟩) := by
  refine ⟨?_, ?_, Token.read_encodeToken⟩
  · intro cursor between stopped index readIndex readToken
    have found := ofCodedIndex?_of_reads readIndex readToken
    obtain ⟨table, tag?, table_eq, row_eq⟩ :=
      Token.parts_of_ofCodedIndex? (unsigned_lt readIndex) found
    exact ⟨table, tag?, table_eq, row_eq, Token.isCodedIndex_iff found table_eq row_eq,
      fun _ known => Token.exists_ofCodedIndex? known⟩
  · intro cursor cursor' between between' stopped stopped' index index' readIndex readToken
      readIndex' readToken' small small'
    exact Token.ofCodedIndex?_injOn small small' (ofCodedIndex?_of_reads readIndex readToken)
      (ofCodedIndex?_of_reads readIndex' readToken')

theorem coded_index_exact_spilled :
    unsigned { data := [0xC8, 0, 0, 4] } = .ok 0x08000004 ⟨[0xC8, 0, 0, 4], 4⟩ ∧
    Read.token { data := [0xC8, 0, 0, 4] } = .ok ⟨0x02000001⟩ ⟨[0xC8, 0, 0, 4], 4⟩ ∧
    (∃ other < 2 ^ 26, Token.ofCodedIndex? other = some ⟨0x02000001⟩) ∧
    (∀ index between stopped, unsigned { data := [0x80, 0x04] } = .ok index between →
      Read.token { data := [0x80, 0x04] } = .ok ⟨0x02000001⟩ stopped → index < 2 ^ 26 → 4 = index) ∧
    ∃ bytes, Compressed.encodeToken ⟨0x1B000001⟩ = .ok bytes ∧
      Read.token { data := bytes ++ [0xFF] } = .ok ⟨0x1B000001⟩ ⟨bytes ++ [0xFF], bytes.length⟩ := by
  refine ⟨rfl, rfl, ?_, ?_, ?_⟩
  · obtain ⟨_, _, _, _, _, aliased⟩ :=
      (coded_index_exact ⟨0x02000001⟩).1 { data := [0xC8, 0, 0, 4] } _ _ 0x08000004 rfl rfl
    exact aliased (by decide) rfl
  · intro index between stopped readIndex readToken small
    exact (coded_index_exact ⟨0x02000001⟩).2.1 { data := [0x04] } _ _ _ _ _ 4 index rfl rfl
      readIndex readToken (by decide) small
  · obtain ⟨bytes, written, readAgain⟩ := (coded_index_exact ⟨0x1B000001⟩).2.2 rfl
    exact ⟨bytes, written, readAgain [0xFF]⟩

/-- A row of 26 bits is read as row 1, which has an index of its own. -/
theorem not_coded_index_bijective :
    (Read.token { data := [0x04] } = .ok ⟨0x02000001⟩ ⟨[0x04], 1⟩ ∧
      Read.token { data := [0xC8, 0, 0, 4] } = .ok ⟨0x02000001⟩ ⟨[0xC8, 0, 0, 4], 4⟩) ∧
    ¬∀ cursor stopped index token, unsigned cursor = .ok index stopped →
      Read.token cursor = .ok token stopped →
      (∃ table, TypeTable.ofTag? (index % 4) = some table ∧ token.typeTable? = some table) ∧
        token.row = index / 4 ∧ token.codedIndex = .ok index := by
  refine ⟨⟨rfl, rfl⟩, ?_⟩
  intro law
  obtain ⟨-, row_eq, -⟩ := law { data := [0xC8, 0, 0, 4] } _ 0x08000004 ⟨0x02000001⟩ rfl rfl
  exact absurd row_eq (by decide)

end Read

end CliMetadata
