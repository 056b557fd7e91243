import CliMetadata.Section
import CliMetadata.Proofs.Directory

/-!
Section tables in bytes. A header takes forty bytes, and any forty bytes are one header, which gives
them again when it is written. So a table of headers is read as it was written, a table that was
read is written as it stood there, and where the data end inside of a header the reader stops in
front of it.
-/

namespace CliMetadata

namespace Bytes

theorem exists_append {bytes : Bytes} (width count : Nat) (h : bytes.length = width + count) :
    ∃ front back, front.length = width ∧ back.length = count ∧ front ++ back = bytes := by
  refine ⟨bytes.take width, bytes.drop width, ?_, ?_, List.take_append_drop width bytes⟩
  · rw [List.length_take, h, Nat.min_eq_left (Nat.le_add_right width count)]
  · rw [List.length_drop, h, Nat.add_sub_cancel_left]

/-- The first bytes are a number of this width. -/
theorem exists_number {bytes : Bytes} (width count : Nat) (h : bytes.length = width + count) :
    ∃ n rest, n < 256 ^ width ∧ rest.length = count ∧ ofNatLE width n ++ rest = bytes := by
  obtain ⟨front, rest, rfl, length_eq, written⟩ := exists_append width count h
  exact ⟨toNatLE front, rest, toNatLE_lt front, length_eq, by rw [ofNatLE_toNatLE, written]⟩

theorem exists_uint16 {bytes : Bytes} (count : Nat) (h : bytes.length = 2 + count) :
    ∃ (n : UInt16) (rest : Bytes), rest.length = count ∧ ofNatLE 2 n.toNat ++ rest = bytes := by
  obtain ⟨n, rest, small, length_eq, written⟩ := exists_number 2 count h
  exact ⟨UInt16.ofNat n, rest, length_eq, by rwa [UInt16.toNat_ofNat_of_lt' small]⟩

theorem exists_uint32 {bytes : Bytes} (count : Nat) (h : bytes.length = 4 + count) :
    ∃ (n : UInt32) (rest : Bytes), rest.length = count ∧ ofNatLE 4 n.toNat ++ rest = bytes := by
  obtain ⟨n, rest, small, length_eq, written⟩ := exists_number 4 count h
  exact ⟨UInt32.ofNat n, rest, length_eq, by rwa [UInt32.toNat_ofNat_of_lt' small]⟩

end Bytes

theorem SectionName.ofBytes_bytes (name : SectionName) : ofBytes name.bytes = name := by
  obtain ⟨bytes, length_eq⟩ := name
  have kept : (bytes ++ List.replicate 8 0).take 8 = bytes := by
    rw [← length_eq, List.take_left]
  simp only [ofBytes, kept]

namespace SectionHeader

@[simp] theorem length_encode (header : SectionHeader) : header.encode.length = width := by
  simp [encode, header.name.length_bytes, width]

/-- All strings of forty bytes are headers. -/
theorem exists_encode {bytes : Bytes} (h : bytes.length = width) :
    ∃ header : SectionHeader, header.encode = bytes := by
  obtain ⟨name, fields, length_bytes, left, written⟩ := Bytes.exists_append 8 32 h
  obtain ⟨virtualSize, fields, left, written⟩ := Bytes.exists_uint32 28 left
  obtain ⟨virtualAddress, fields, left, written⟩ := Bytes.exists_uint32 24 left
  obtain ⟨rawSize, fields, left, written⟩ := Bytes.exists_uint32 20 left
  obtain ⟨rawOffset, fields, left, written⟩ := Bytes.exists_uint32 16 left
  obtain ⟨relocationsOffset, fields, left, written⟩ := Bytes.exists_uint32 12 left
  obtain ⟨lineNumbersOffset, fields, left, written⟩ := Bytes.exists_uint32 8 left
  obtain ⟨relocationCount, fields, left, written⟩ := Bytes.exists_uint16 6 left
  obtain ⟨lineNumberCount, fields, left, written⟩ := Bytes.exists_uint16 4 left
  obtain ⟨characteristics, fields, left, written⟩ := Bytes.exists_uint32 0 left
  obtain rfl := List.length_eq_zero_iff.mp left
  subst_vars
  exact ⟨⟨⟨name, length_bytes⟩, virtualSize, virtualAddress, rawSize, rawOffset, relocationsOffset,
    lineNumbersOffset, relocationCount, lineNumberCount, characteristics⟩, by simp [encode]⟩

end SectionHeader

theorem Cursor.remaining_advance (cursor : Cursor) (count : Nat) :
    (cursor.advance count).remaining = cursor.remaining - count :=
  (Nat.sub_sub _ _ _).symm

namespace Read

theorem require_bind {α : Type} (count : Nat) (next : Unit → Read α) (cursor : Cursor) :
    (require count >>= next) cursor =
      if count ≤ cursor.remaining then next () cursor else .error .outOfBounds cursor := by
  simp only [bind, EStateM.bind, require]
  by_cases room : count ≤ cursor.remaining
  · rw [if_pos room, if_pos room]
  · rw [if_neg room, if_neg room]

theorem reads_sectionHeader (data : Bytes) (header : SectionHeader) :
    Reads data sectionHeader header.encode header := by
  intro front rest whole
  have room : SectionHeader.width ≤ (⟨data, front.length⟩ : Cursor).remaining := by
    rw [Cursor.remaining, ← whole]
    simp
  rw [sectionHeader, require_bind, if_pos room]
  refine (?_ : Reads data _ header.encode header) front rest whole
  have name : Reads data (take 8) header.name.bytes header.name.bytes := by
    have taken : Reads data (take header.name.bytes.length) _ _ := reads_take header.name.bytes
    rwa [header.name.length_bytes] at taken
  have kept := header.name.ofBytes_bytes
  rw [SectionHeader.encode]
  simp only [List.append_assoc]
  refine reads_bind name (reads_bind (reads_uint32 _) (reads_bind (reads_uint32 _) ?_))
  refine reads_bind (reads_uint32 _) (reads_bind (reads_uint32 _) (reads_bind (reads_uint32 _) ?_))
  refine reads_bind (reads_uint32 _) (reads_bind (reads_uint16 _) (reads_bind (reads_uint16 _) ?_))
  simpa only [kept] using reads_map (reads_uint32 header.characteristics) fun characteristics =>
    ({ header with name := SectionName.ofBytes header.name.bytes, characteristics } : SectionHeader)

section

variable {cursor : Cursor} {count : Nat}

/-- Where there are forty bytes they are read. -/
theorem sectionHeader_ok (room : SectionHeader.width ≤ cursor.remaining) :
    ∃ header : SectionHeader, header.encode = cursor.unread.take SectionHeader.width ∧
      sectionHeader cursor = .ok header (cursor.advance SectionHeader.width) := by
  have inside : cursor.pos ≤ cursor.data.length := by
    rw [Cursor.remaining, SectionHeader.width] at room
    omega
  have length_eq : (cursor.unread.take SectionHeader.width).length = SectionHeader.width := by
    rw [List.length_take, Cursor.unread, List.length_drop]
    exact Nat.min_eq_left room
  obtain ⟨header, written⟩ := SectionHeader.exists_encode length_eq
  refine ⟨header, written, ?_⟩
  have whole : cursor.data.take cursor.pos ++ (header.encode ++
      cursor.unread.drop SectionHeader.width) = cursor.data := by
    rw [written, List.take_append_drop, Cursor.unread, List.take_append_drop]
  have done := reads_sectionHeader cursor.data header _ _ whole
  rwa [List.length_append, header.length_encode, List.length_take, Nat.min_eq_left inside] at done

/-- Where there are fewer the cursor stays. -/
theorem sectionHeader_short (short : cursor.remaining < SectionHeader.width) :
    sectionHeader cursor = .error .outOfBounds cursor := by
  rw [sectionHeader, require_bind, if_neg (Nat.not_le_of_lt short)]

theorem times_sectionHeader_ok (room : SectionHeader.width * count ≤ cursor.remaining) :
    ∃ headers : List SectionHeader, headers.length = count ∧
      headers.flatMap SectionHeader.encode = cursor.unread.take (SectionHeader.width * count) ∧
      times sectionHeader count cursor =
        .ok headers (cursor.advance (SectionHeader.width * count)) := by
  induction count generalizing cursor with
  | zero => exact ⟨[], rfl, rfl, rfl⟩
  | succ count ih =>
      have further : SectionHeader.width * (count + 1) =
          SectionHeader.width + SectionHeader.width * count := by
        rw [Nat.mul_succ, Nat.add_comm]
      rw [further] at room ⊢
      obtain ⟨header, written, read⟩ := sectionHeader_ok (Nat.le_of_add_right_le room)
      have left : SectionHeader.width * count ≤
          (cursor.advance SectionHeader.width).remaining := by
        rw [Cursor.remaining_advance]
        omega
      obtain ⟨headers, rfl, othersWritten, done⟩ := ih left
      refine ⟨header :: headers, rfl, ?_, ?_⟩
      · rw [List.flatMap_cons, written, othersWritten, Cursor.unread_advance, List.take_add]
      · simp only [times, bind, EStateM.bind, read, done, Cursor.advance_advance]
        rfl

/-- A run of headers that there are not enough bytes for stops behind the last header that is
whole. -/
theorem times_sectionHeader_short (short : cursor.remaining < SectionHeader.width * count) :
    times sectionHeader count cursor = .error .outOfBounds
      (cursor.advance (SectionHeader.width * (cursor.remaining / SectionHeader.width))) := by
  induction count generalizing cursor with
  | zero => cases Nat.not_lt_zero _ short
  | succ count ih =>
      simp only [times, bind, EStateM.bind]
      by_cases room : SectionHeader.width ≤ cursor.remaining
      · obtain ⟨header, _, read⟩ := sectionHeader_ok room
        have left : (cursor.advance SectionHeader.width).remaining <
            SectionHeader.width * count := by
          rw [Nat.mul_succ] at short
          rw [Cursor.remaining_advance]
          omega
        have whole : SectionHeader.width * (cursor.remaining / SectionHeader.width) =
            SectionHeader.width + SectionHeader.width *
              ((cursor.remaining - SectionHeader.width) / SectionHeader.width) := by
          rw [Nat.div_eq_sub_div (by decide) room, Nat.mul_succ, Nat.add_comm]
        rw [read, whole, ← Cursor.remaining_advance, ← Cursor.advance_advance]
        simp only [ih left]
      · have none := Nat.lt_of_not_le room
        rw [sectionHeader_short none, Nat.div_eq_of_lt none]
        rfl

end

/-- Headers take forty bytes each and are read as they were written, wherever they stand. A table is
read if and only if there are forty bytes for each of its headers, and these bytes are what its
headers are written as; otherwise the reader stops behind the last forty bytes that are whole. -/
theorem section_table_exact :
    (∀ header : SectionHeader, header.encode.length = 40) ∧
    (∀ (headers : List SectionHeader) (front rest : Bytes),
      let data := front ++ (headers.flatMap SectionHeader.encode ++ rest)
      sectionTable headers.length ⟨data, front.length⟩ =
        .ok ⟨headers⟩ ⟨data, front.length + 40 * headers.length⟩) ∧
    ∀ (cursor : Cursor) (count : Nat),
      (40 * count ≤ cursor.remaining → ∃ headers : List SectionHeader, headers.length = count ∧
        headers.flatMap SectionHeader.encode = cursor.unread.take (40 * count) ∧
        sectionTable count cursor = .ok ⟨headers⟩ (cursor.advance (40 * count))) ∧
      (cursor.remaining < 40 * count → sectionTable count cursor =
        .error .outOfBounds (cursor.advance (40 * (cursor.remaining / 40)))) := by
  refine ⟨SectionHeader.length_encode, ?_, ?_⟩
  · intro headers front rest data
    have written : (headers.flatMap SectionHeader.encode).length = 40 * headers.length := by
      simp [List.length_flatMap, SectionHeader.width, Nat.mul_comm]
    have table := reads_map (reads_times fun header (_ : header ∈ headers) =>
      reads_sectionHeader data header) SectionTable.mk
    have done := table front rest rfl
    rwa [List.map_id', List.length_append, written] at done
  · intro cursor count
    refine ⟨?_, ?_⟩
    · intro enough
      obtain ⟨headers, length_eq, written, done⟩ := times_sectionHeader_ok enough
      refine ⟨headers, length_eq, written, ?_⟩
      simp only [sectionTable, bind, EStateM.bind, done]
      rfl
    · intro short
      simp only [sectionTable, bind, EStateM.bind, times_sectionHeader_short short]
      rfl

/-- The header of a section of code. -/
def codeSection : SectionHeader where
  name := SectionName.ofBytes [0x2E, 0x74, 0x65, 0x78, 0x74]
  virtualSize := 0x1800
  virtualAddress := 0x2000
  rawSize := 0x1000
  rawOffset := 0x200
  characteristics := 0x60000020

/-- One byte, a header, and not all of the bytes of a second one. -/
def cutTable : Bytes :=
  [0xFF] ++ ([codeSection].flatMap SectionHeader.encode ++ List.replicate 39 0x00)

theorem section_table_exact_cut_table :
    sectionTable 1 ⟨cutTable, 1⟩ = .ok ⟨[codeSection]⟩ ⟨cutTable, 41⟩ ∧
      sectionTable 2 ⟨cutTable, 1⟩ = .error .outOfBounds ⟨cutTable, 41⟩ := by
  have left : (⟨cutTable, 1⟩ : Cursor).remaining = 79 := by decide
  have short : (⟨cutTable, 1⟩ : Cursor).remaining < 40 * 2 := by decide
  refine ⟨section_table_exact.2.1 [codeSection] [0xFF] (List.replicate 39 0x00), ?_⟩
  rw [(section_table_exact.2.2 ⟨cutTable, 1⟩ 2).2 short, left]
  rfl

end Read

end CliMetadata
