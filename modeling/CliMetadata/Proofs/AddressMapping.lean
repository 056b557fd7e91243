import CliMetadata.Section.Guarded
import Mathlib.Order.CompletePartialOrder
import Mathlib.Order.Interval.Set.Disjoint

/-!
Addresses and file offsets. Where the sections share neither addresses nor bytes of the file, an
address and the file offset it is mapped to lead to each other. The two directions differ only
above 2 ^ 32: an address may be mapped to an offset there, which has no way back. No table whatever
makes one of the sums and differences leave its word.
-/

namespace CliMetadata

namespace SectionHeader

/-- The addresses of a section, those without raw data among them. -/
def addresses (header : SectionHeader) : Set Nat :=
  Set.Ico header.virtualAddress.toNat (header.virtualAddress.toNat + header.virtualExtent)

/-- The offsets of the raw data of a section. -/
def rawOffsets (header : SectionHeader) : Set Nat :=
  Set.Ico header.rawOffset.toNat (header.rawOffset.toNat + header.rawSize.toNat)

theorem containsRva_iff {header : SectionHeader} {rva : Nat} :
    header.containsRva rva ↔ rva ∈ header.addresses := by
  simp [containsRva, addresses]

theorem containsOffset_iff {header : SectionHeader} {offset : Nat} :
    header.containsOffset offset ↔ offset ∈ header.rawOffsets := by
  simp [containsOffset, rawOffsets]

theorem rawSize_le_virtualExtent (header : SectionHeader) :
    header.rawSize.toNat ≤ header.virtualExtent :=
  Nat.le_max_right _ _

theorem virtualExtent_lt (header : SectionHeader) : header.virtualExtent < 2 ^ 32 :=
  Nat.max_lt.mpr ⟨header.virtualSize.toNat_lt, header.rawSize.toNat_lt⟩

end SectionHeader

/-- Of tests that no place passes for two items of a list, the one that is passed finds its item. -/
theorem find?_eq_some_of_disjoint {α : Type} {test : α → Bool} {range : α → Set Nat} {place : Nat}
    {items : List α} (test_iff : ∀ item, test item ↔ place ∈ range item)
    (apart : items.Pairwise fun a b => Disjoint (range a) (range b)) {item : α}
    (mem : item ∈ items) (inside : place ∈ range item) : items.find? test = some item := by
  induction apart with
  | nil => cases mem
  | cons first _ ih =>
      rcases List.mem_cons.mp mem with rfl | later
      · exact List.find?_cons_of_pos ((test_iff _).mpr inside)
      · have outside : ¬test _ = true := fun passed =>
          Set.disjoint_left.mp (first _ later) ((test_iff _).mp passed) inside
        rw [List.find?_cons_of_neg outside]
        exact ih later

namespace SectionTable

/-- No two sections share an address or a byte of the file. -/
structure IsDisjoint (table : SectionTable) : Prop where
  addresses : table.sections.Pairwise fun a b => Disjoint a.addresses b.addresses
  rawOffsets : table.sections.Pairwise fun a b => Disjoint a.rawOffsets b.rawOffsets

section

variable {table : SectionTable} {header : SectionHeader} {rva offset : Nat}

theorem sectionByRva?_some (found : table.sectionByRva? rva = some header) :
    header ∈ table.sections ∧ rva ∈ header.addresses := by
  rw [sectionByRva?] at found
  have contains := List.find?_some found
  exact ⟨List.mem_of_find?_eq_some found, SectionHeader.containsRva_iff.mp contains⟩

theorem sectionByOffset?_some (found : table.sectionByOffset? offset = some header) :
    header ∈ table.sections ∧ offset ∈ header.rawOffsets := by
  rw [sectionByOffset?] at found
  have contains := List.find?_some found
  exact ⟨List.mem_of_find?_eq_some found, SectionHeader.containsOffset_iff.mp contains⟩

theorem IsDisjoint.sectionByRva?_eq (apart : table.IsDisjoint) (mem : header ∈ table.sections)
    (inside : rva ∈ header.addresses) : table.sectionByRva? rva = some header :=
  find?_eq_some_of_disjoint (fun _ => SectionHeader.containsRva_iff) apart.addresses mem inside

theorem IsDisjoint.sectionByOffset?_eq (apart : table.IsDisjoint) (mem : header ∈ table.sections)
    (inside : offset ∈ header.rawOffsets) : table.sectionByOffset? offset = some header :=
  find?_eq_some_of_disjoint (fun _ => SectionHeader.containsOffset_iff) apart.rawOffsets mem inside

/-- An address has a file offset as far behind the start of the raw data as it lies behind the
start of its section, if the raw data are long enough. -/
theorem offsetOfRva_ok_iff : table.offsetOfRva rva = .ok offset ↔
    ∃ header delta, table.sectionByRva? rva = some header ∧ delta < header.rawSize.toNat ∧
      rva = header.virtualAddress.toNat + delta ∧ offset = header.rawOffset.toNat + delta := by
  rw [offsetOfRva]
  cases found : table.sectionByRva? rva with
  | none => simp
  | some header =>
      obtain ⟨-, start_le, -⟩ := sectionByRva?_some found
      by_cases backed : rva - header.virtualAddress.toNat < header.rawSize.toNat
      · simp only [if_pos backed, Except.ok.injEq]
        refine ⟨?_, ?_⟩
        · rintro rfl
          exact ⟨header, _, rfl, backed, by omega, rfl⟩
        · rintro ⟨_, delta, ⟨⟩, -, rfl, rfl⟩
          rw [Nat.add_sub_cancel_left]
      · simp only [if_neg backed, reduceCtorEq, false_iff]
        rintro ⟨_, delta, ⟨⟩, small, rfl, -⟩
        rw [Nat.add_sub_cancel_left] at backed
        exact backed small

theorem rvaOfOffset_ok_iff : table.rvaOfOffset offset = .ok rva ↔
    offset < 2 ^ 32 ∧ rva < 2 ^ 32 ∧
      ∃ header delta, table.sectionByOffset? offset = some header ∧
        delta < header.rawSize.toNat ∧ offset = header.rawOffset.toNat + delta ∧
        rva = header.virtualAddress.toNat + delta := by
  rw [rvaOfOffset]
  by_cases small : offset < 0x100000000
  · rw [if_pos small]
    cases found : table.sectionByOffset? offset with
    | none => simp
    | some header =>
        obtain ⟨-, start_le, lt_end⟩ := sectionByOffset?_some found
        by_cases fits :
            offset - header.rawOffset.toNat + header.virtualAddress.toNat < 0x100000000
        · simp only [if_pos fits, Except.ok.injEq]
          refine ⟨?_, ?_⟩
          · rintro rfl
            exact ⟨small, fits, header, _, rfl, by omega, by omega, Nat.add_comm _ _⟩
          · rintro ⟨-, -, _, delta, ⟨⟩, -, rfl, rfl⟩
            rw [Nat.add_sub_cancel_left, Nat.add_comm]
        · simp only [if_neg fits, reduceCtorEq, false_iff]
          rintro ⟨-, low, _, delta, ⟨⟩, -, rfl, rfl⟩
          omega
  · rw [if_neg small]
    refine iff_of_false (fun done => nomatch done) ?_
    rintro ⟨low, -⟩
    exact small low

theorem IsDisjoint.rvaOfOffset_eq (apart : table.IsDisjoint) (rva_lt : rva < 2 ^ 32)
    (mapped : table.offsetOfRva rva = .ok offset) (offset_lt : offset < 2 ^ 32) :
    table.rvaOfOffset offset = .ok rva := by
  obtain ⟨header, delta, found, backed, rfl, rfl⟩ := offsetOfRva_ok_iff.mp mapped
  obtain ⟨mem, -⟩ := sectionByRva?_some found
  have inside : header.rawOffset.toNat + delta ∈ header.rawOffsets :=
    ⟨Nat.le_add_right _ _, Nat.add_lt_add_left backed _⟩
  exact rvaOfOffset_ok_iff.mpr ⟨offset_lt, rva_lt, header, delta,
    apart.sectionByOffset?_eq mem inside, backed, rfl, rfl⟩

theorem IsDisjoint.offsetOfRva_eq (apart : table.IsDisjoint)
    (mapped : table.rvaOfOffset offset = .ok rva) : table.offsetOfRva rva = .ok offset := by
  obtain ⟨-, -, header, delta, found, backed, rfl, rfl⟩ := rvaOfOffset_ok_iff.mp mapped
  obtain ⟨mem, -⟩ := sectionByOffset?_some found
  have inside : header.virtualAddress.toNat + delta ∈ header.addresses :=
    ⟨Nat.le_add_right _ _,
      Nat.add_lt_add_left (Nat.lt_of_lt_of_le backed header.rawSize_le_virtualExtent) _⟩
  exact offsetOfRva_ok_iff.mpr
    ⟨header, delta, apart.sectionByRva?_eq mem inside, backed, rfl, rfl⟩

end

theorem findM?_contains {table : SectionTable} {place : Nat} {start length : SectionHeader → Nat}
    (fits : ∀ header, start header + length header < 2 ^ 64) :
    (table.sections.findM? fun header => Guarded.contains (start header) (length header) place) =
      .ok (table.sections.find? fun header =>
        start header ≤ place && place < start header + length header) := by
  have checked (header : SectionHeader) :
      Guarded.contains (start header) (length header) place =
        pure (start header ≤ place && place < start header + length header) := by
    rw [Guarded.contains, Guarded.add, if_pos (fits header)]
    rfl
  simp only [checked]
  exact List.findM?_pure _ _

/-- The sums of 64 bits have room for two numbers of 32 bits, and a place is not before the start of
the section in which it was found. -/
theorem guardedOffsetOfRva_eq (table : SectionTable) (rva : Nat) :
    table.guardedOffsetOfRva rva =
      (table.offsetOfRva rva).mapError fun cause => .fault (.malformed cause) := by
  have fits (header : SectionHeader) :
      header.virtualAddress.toNat + header.virtualExtent < 2 ^ 64 := by
    have := header.virtualAddress.toNat_lt
    have := header.virtualExtent_lt
    omega
  have searched : (table.sections.findM? fun header =>
      Guarded.contains header.virtualAddress.toNat header.virtualExtent rva) =
        .ok (table.sectionByRva? rva) := findM?_contains fits
  rw [guardedOffsetOfRva, searched, offsetOfRva]
  cases found : table.sectionByRva? rva with
  | none => rfl
  | some header =>
      obtain ⟨-, start_le, -⟩ := sectionByRva?_some found
      simp only [bind, Except.bind, Guarded.sub, if_pos start_le]
      by_cases backed : rva - header.virtualAddress.toNat < header.rawSize.toNat
      · have sum_lt :
            header.rawOffset.toNat + (rva - header.virtualAddress.toNat) < 2 ^ 64 := by
          have := header.rawOffset.toNat_lt
          have := header.rawSize.toNat_lt
          omega
        simp only [if_pos backed, Guarded.add, if_pos sum_lt]
        rfl
      · simp only [if_neg backed]
        rfl

theorem guardedRvaOfOffset_eq (table : SectionTable) (offset : Nat) :
    table.guardedRvaOfOffset offset =
      (table.rvaOfOffset offset).mapError fun cause => .fault (.malformed cause) := by
  have fits (header : SectionHeader) : header.rawOffset.toNat + header.rawSize.toNat < 2 ^ 64 := by
    have := header.rawOffset.toNat_lt
    have := header.rawSize.toNat_lt
    omega
  have searched : (table.sections.findM? fun header =>
      Guarded.contains header.rawOffset.toNat header.rawSize.toNat offset) =
        .ok (table.sectionByOffset? offset) := findM?_contains fits
  rw [guardedRvaOfOffset, rvaOfOffset]
  by_cases small : offset < 0x100000000
  · rw [if_pos small, if_pos small, searched]
    cases found : table.sectionByOffset? offset with
    | none => rfl
    | some header =>
        obtain ⟨-, start_le, -⟩ := sectionByOffset?_some found
        simp only [bind, Except.bind, Guarded.sub, if_pos start_le]
        by_cases low :
            offset - header.rawOffset.toNat + header.virtualAddress.toNat < 0x100000000
        · simp only [if_pos low]
          rfl
        · simp only [if_neg low]
          rfl
  · rw [if_neg small, if_neg small]
    rfl

/-- Where the sections are disjoint, addresses and file offsets below 2 ^ 32 are mapped to each other
in both directions. In every table the sums and differences on the way stay inside their words, and
so does the address that is found. -/
theorem mapping_inverse (table : SectionTable) :
    (table.IsDisjoint →
      (∀ (rva : UInt32) (offset : Nat), table.offsetOfRva rva.toNat = .ok offset →
        offset < 2 ^ 32 → table.rvaOfOffset offset = .ok rva.toNat) ∧
      ∀ offset rva : Nat, table.rvaOfOffset offset = .ok rva → table.offsetOfRva rva = .ok offset) ∧
    (∀ rva, table.guardedOffsetOfRva rva =
      (table.offsetOfRva rva).mapError fun cause => .fault (.malformed cause)) ∧
    (∀ offset, table.guardedRvaOfOffset offset =
      (table.rvaOfOffset offset).mapError fun cause => .fault (.malformed cause)) ∧
    ∀ offset rva, table.rvaOfOffset offset = .ok rva → rva < 2 ^ 32 := by
  refine ⟨?_, table.guardedOffsetOfRva_eq, table.guardedRvaOfOffset_eq, ?_⟩
  · intro apart
    refine ⟨?_, ?_⟩
    · intro rva offset mapped offset_lt
      exact apart.rvaOfOffset_eq rva.toNat_lt mapped offset_lt
    · intro offset rva mapped
      exact apart.offsetOfRva_eq mapped
  · intro offset rva mapped
    exact (rvaOfOffset_ok_iff.mp mapped).2.1

/-- A section, and one that ends behind the last address of 32 bits. -/
def nearLimit : SectionTable where
  sections := [
    { name := .ofBytes [], virtualSize := 0x300, virtualAddress := 0x2000, rawSize := 0x200
      rawOffset := 0x200 },
    { name := .ofBytes [], virtualSize := 0x100, virtualAddress := 0xFFFFFF00, rawSize := 0x200
      rawOffset := 0x400 }]

theorem isDisjoint_nearLimit : nearLimit.IsDisjoint := by
  refine ⟨?_, ?_⟩
  · simp [nearLimit, SectionHeader.addresses, SectionHeader.virtualExtent]
  · simp [nearLimit, SectionHeader.rawOffsets]

theorem mapping_inverse_near_limit :
    nearLimit.IsDisjoint ∧ nearLimit.offsetOfRva 0xFFFFFF10 = .ok 0x410 ∧
      nearLimit.rvaOfOffset 0x410 = .ok 0xFFFFFF10 ∧
      nearLimit.rvaOfOffset 0x2FF = .ok 0x20FF ∧ nearLimit.offsetOfRva 0x20FF = .ok 0x2FF ∧
      (0xFFFFFF10 : Nat) < 2 ^ 32 := by
  obtain ⟨there, back⟩ := (mapping_inverse nearLimit).1 isDisjoint_nearLimit
  have mapped : nearLimit.offsetOfRva 0xFFFFFF10 = .ok 0x410 := by decide
  have mappedBack : nearLimit.rvaOfOffset 0x2FF = .ok 0x20FF := by decide
  have returned := there 0xFFFFFF10 0x410 mapped (by decide)
  exact ⟨isDisjoint_nearLimit, mapped, returned, mappedBack, back 0x2FF 0x20FF mappedBack,
    (mapping_inverse nearLimit).2.2.2 _ _ returned⟩

end SectionTable

end CliMetadata
