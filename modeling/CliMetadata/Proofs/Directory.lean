import CliMetadata.MetadataRoot
import CliMetadata.Proofs.Numerals

/-!
The directory of the streams as it is laid out: offset, size and name of each stream, the name with
a zero byte behind it and padded to a multiple of four bytes. The reader counts a name as UTF-8
text, in which the bytes of 0x80 and above take two units each. It is at the end of the padding
exactly if the name has a multiple of four of these bytes, and takes only shorter names if there are
any. Where all names are like this, whatever the other bytes are, the directory is read as it is
laid out.
-/

namespace CliMetadata

namespace Bytes

/-- How many of the bytes take two units of UTF-8 text. -/
def wide (bytes : Bytes) : Nat := bytes.countP (0x80 ≤ ·)

/-- How many units of UTF-8 text a byte takes. -/
def units (byte : UInt8) : Nat := if byte < 0x80 then 1 else 2

theorem wide_cons (byte : UInt8) (rest : Bytes) :
    units byte + (rest.length + wide rest) = (byte :: rest).length + wide (byte :: rest) := by
  rw [units, wide, wide, List.countP_cons, List.length_cons]
  by_cases narrow : byte < 0x80
  · rw [if_pos narrow, if_neg (by simpa using narrow)]
    omega
  · rw [if_neg narrow, if_pos (by simpa using narrow)]
    omega

theorem utf8Size_ofNat (byte : UInt8) : (Char.ofNat byte.toNat).utf8Size = units byte := by
  have all : ∀ n : Fin 256, (Char.ofNat n).utf8Size = if n.val < 0x80 then 1 else 2 := by
    decide +kernel
  exact all ⟨byte.toNat, byte.toNat_lt⟩

theorem utf8ByteSize_toText (bytes : Bytes) :
    (toText bytes).utf8ByteSize = bytes.length + wide bytes := by
  induction bytes with
  | nil => rfl
  | cons byte rest ih =>
      rw [toText] at ih
      rw [toText, List.map_cons, String.ofList_cons, String.utf8ByteSize_append,
        String.utf8ByteSize_singleton, utf8Size_ofNat, ih, wide_cons]

end Bytes

namespace Read

section

variable {α β : Type} {data : Bytes}

/-- Wherever the bytes stand in the data, the reader gives the value and stops behind them. -/
def Reads (data : Bytes) (read : Read α) (bytes : Bytes) (a : α) : Prop :=
  ∀ front rest, front ++ (bytes ++ rest) = data →
    read ⟨data, front.length⟩ = .ok a ⟨data, (front ++ bytes).length⟩

theorem Reads.bind_at {read : Read α} {bytes front rest : Bytes} {a : α}
    (h : Reads data read bytes a) (whole : front ++ (bytes ++ rest) = data) (next : α → Read β) :
    (read >>= next) ⟨data, front.length⟩ = next a ⟨data, (front ++ bytes).length⟩ := by
  simp only [bind, EStateM.bind, h front rest whole]

theorem Reads.run?_eq {read : Read α} {bytes rest : Bytes} {a : α} (h : Reads data read bytes a)
    (whole : bytes ++ rest = data) : read.run? data = .ok a := by
  have done := h [] rest whole
  rw [List.length_nil] at done
  rw [run?, done]

theorem reads_pure (a : α) : Reads data (pure a) [] a := by
  intro front rest whole
  rw [List.append_nil]
  rfl

theorem reads_bind {read : Read α} {next : α → Read β} {bytes others : Bytes} {a : α} {b : β}
    (h : Reads data read bytes a) (hnext : Reads data (next a) others b) :
    Reads data (read >>= next) (bytes ++ others) b := by
  intro front rest whole
  rw [List.append_assoc] at whole
  rw [h.bind_at whole, ← List.append_assoc]
  exact hnext (front ++ bytes) rest (by rw [List.append_assoc, whole])

theorem reads_map {read : Read α} {bytes : Bytes} {a : α} (h : Reads data read bytes a)
    (f : α → β) : Reads data (read >>= fun a => pure (f a)) bytes (f a) := by
  have mapped : Reads data (read >>= fun a => pure (f a)) (bytes ++ []) (f a) :=
    reads_bind h (reads_pure (f a))
  rwa [List.append_nil] at mapped

theorem reads_take (bytes : Bytes) : Reads data (take bytes.length) bytes bytes := by
  intro front rest whole
  subst whole
  refine take_eq_ok.mpr ⟨by simp, ?_, by rw [List.length_append]⟩
  rw [Cursor.unread, List.drop_left, List.take_left]

theorem reads_number {width n : Nat} (fits : n < 256 ^ width) (f : Nat → α) :
    Reads data (take width >>= fun bytes => pure (f (Bytes.toNatLE bytes)))
      (Bytes.ofNatLE width n) (f n) := by
  have taken : Reads data (take width) (Bytes.ofNatLE width n) (Bytes.ofNatLE width n) := by
    simpa only [Bytes.length_ofNatLE] using reads_take (Bytes.ofNatLE width n)
  have number := reads_map taken fun bytes => f (Bytes.toNatLE bytes)
  rwa [Bytes.toNatLE_ofNatLE, Nat.mod_eq_of_lt fits] at number

theorem reads_uint16 (n : UInt16) : Reads data uint16 (Bytes.ofNatLE 2 n.toNat) n := by
  have fits : n.toNat < 256 ^ 2 := n.toNat_lt
  simpa only [uint16, UInt16.ofNat_toNat] using reads_number fits UInt16.ofNat

theorem reads_uint32 (n : UInt32) : Reads data uint32 (Bytes.ofNatLE 4 n.toNat) n := by
  have fits : n.toNat < 256 ^ 4 := n.toNat_lt
  simpa only [uint32, UInt32.ofNat_toNat] using reads_number fits UInt32.ofNat

theorem reads_times {items : List β} {read : Read α} {bytes : β → Bytes} {value : β → α}
    (h : ∀ item ∈ items, Reads data read (bytes item) (value item)) :
    Reads data (times read items.length) (items.flatMap bytes) (items.map value) := by
  induction items with
  | nil => exact reads_pure []
  | cons item rest ih =>
      obtain ⟨first, others⟩ := List.forall_mem_cons.mp h
      rw [List.flatMap_cons, List.length_cons, times]
      exact reads_bind first (reads_map (ih others) (value item :: ·))

theorem reads_byte (value : UInt8) : Reads data byte [value] value := by
  intro front rest whole
  subst whole
  simp [byte, Cursor.unread]

end

/-- Before the last byte of a name there is room for one more unit. -/
def HasRoom (room : Nat) (name : Bytes) : Prop :=
  name = [] ∨ name.dropLast.length + Bytes.wide name.dropLast < room

instance (room : Nat) (name : Bytes) : Decidable (HasRoom room name) :=
  inferInstanceAs (Decidable (_ ∨ _))

theorem hasRoom_cons_iff {room : Nat} {value : UInt8} {name : Bytes} :
    HasRoom room (value :: name) ↔ 0 < room ∧ HasRoom (room - Bytes.units value) name := by
  cases name with
  | nil => simp [HasRoom, Bytes.wide]
  | cons second others =>
      have front := Bytes.wide_cons value (second :: others).dropLast
      simp only [HasRoom, List.dropLast_cons_cons, reduceCtorEq, false_or]
      omega

theorem streamName_eq (room : Nat) (name : Bytes) :
    streamName room name = byte >>= fun next =>
      if next = 0 then pure name
      else if room = 0 then throw (.malformed (.streamNameTooLong (Bytes.toText name)))
      else streamName (room - Bytes.units next) (name ++ [next]) := by
  match room with
  | 0 => rw [streamName]; rfl
  | 1 =>
      -- A wide byte overdraws the last unit, and what is left is none either way.
      rw [streamName]
      refine congrArg _ (funext fun next => ?_)
      have full : 1 - Bytes.units next = 0 := by
        rw [Bytes.units]
        split <;> rfl
      rw [full, if_neg Nat.one_ne_zero]
  | room + 2 =>
      rw [streamName]
      refine congrArg _ (funext fun next => ?_)
      rw [Bytes.units, if_neg (Nat.succ_ne_zero (room + 1))]
      split
      · rfl
      · split <;> rfl

theorem streamName_ok_iff {data front name rest found : Bytes} {stopped : Cursor} (room : Nat)
    (before : Bytes) (solid : 0 ∉ name) (whole : front ++ (name ++ 0 :: rest) = data) :
    streamName room before ⟨data, front.length⟩ = .ok found stopped ↔
      HasRoom room name ∧ before ++ name = found ∧
        ⟨data, (front ++ (name ++ [0])).length⟩ = stopped := by
  induction name generalizing front room before with
  | nil =>
      rw [streamName_eq, (reads_byte 0).bind_at whole, if_pos rfl, pure_eq_ok, List.append_nil]
      exact ⟨fun done => ⟨.inl rfl, done⟩, fun given => given.2⟩
  | cons value name ih =>
      obtain ⟨value_ne, others⟩ := not_or.mp (List.mem_cons.not.mp solid)
      have moved : front ++ [value] ++ (name ++ 0 :: rest) = data := by
        rw [← whole, List.append_assoc]
        rfl
      have behind := ih (room - Bytes.units value) (before ++ [value]) others moved
      rw [List.append_assoc, List.append_assoc, List.singleton_append, List.singleton_append]
        at behind
      have here : front ++ ([value] ++ (name ++ 0 :: rest)) = data := whole
      rw [streamName_eq, (reads_byte value).bind_at here, if_neg (Ne.symm value_ne),
        hasRoom_cons_iff]
      by_cases full : room = 0
      · rw [if_pos full]
        refine iff_of_false (fun done => nomatch done) fun given => ?_
        exact absurd full (Nat.ne_of_gt given.1.1)
      · rw [if_neg full, behind]
        simp only [Nat.pos_of_ne_zero full, true_and, List.cons_append]

theorem skip_ok_iff {count : Nat} {cursor stopped : Cursor} :
    skip count cursor = .ok () stopped ↔
      cursor.pos + count ≤ cursor.data.length ∧ cursor.advance count = stopped := by
  by_cases room : cursor.pos + count ≤ cursor.data.length <;> simp [skip, room, Cursor.advance]

end Read

/-- A stream as it stands in the directory. -/
structure DirectoryEntry where
  offset : UInt32
  size : UInt32
  name : Bytes
  solid : 0 ∉ name := by decide
  length_le : name.length ≤ 31 := by decide

namespace DirectoryEntry

def bytes (entry : DirectoryEntry) : Bytes :=
  Bytes.ofNatLE 4 entry.offset.toNat ++ (Bytes.ofNatLE 4 entry.size.toNat ++ (entry.name ++
    0 :: List.replicate (StreamHeader.padding entry.name.length) 0))

def header (entry : DirectoryEntry) : StreamHeader where
  offset := entry.offset
  size := entry.size
  name := Bytes.toText entry.name

/-- As UTF-8 text the name has the same padding, and room for it. -/
def IsReadRight (entry : DirectoryEntry) : Prop :=
  Bytes.wide entry.name % 4 = 0 ∧ Read.HasRoom StreamHeader.maxName entry.name

instance (entry : DirectoryEntry) : Decidable entry.IsReadRight :=
  inferInstanceAs (Decidable (_ ∧ _))

theorem length_bytes (entry : DirectoryEntry) :
    entry.bytes.length = 8 + (entry.name.length + 1 + 3) / 4 * 4 := by
  simp only [bytes, StreamHeader.padding, List.length_append, Bytes.length_ofNatLE,
    List.length_cons, List.length_replicate]
  omega

/-- Wide bytes change the padding unless there is a multiple of four of them. -/
theorem padding_eq_iff {length wide : Nat} :
    StreamHeader.padding (length + wide) = StreamHeader.padding length ↔ wide % 4 = 0 := by
  rw [StreamHeader.padding, StreamHeader.padding]
  omega

theorem streamHeader_ok_iff {data front rest : Bytes} (entry : DirectoryEntry)
    (whole : front ++ (entry.bytes ++ rest) = data) :
    Read.streamHeader ⟨data, front.length⟩ =
        .ok entry.header ⟨data, (front ++ entry.bytes).length⟩ ↔ entry.IsReadRight := by
  -- The same data from the places of the three fields on.
  have atOffset : front ++ (Bytes.ofNatLE 4 entry.offset.toNat ++
      (Bytes.ofNatLE 4 entry.size.toNat ++ (entry.name ++ 0 ::
        (List.replicate (StreamHeader.padding entry.name.length) 0 ++ rest)))) = data := by
    simpa only [bytes, List.append_assoc, List.cons_append] using whole
  have atSize := atOffset
  rw [← List.append_assoc] at atSize
  have atName := atSize
  rw [← List.append_assoc] at atName
  have leads : front ++ entry.bytes <+: data := ⟨rest, by rw [List.append_assoc, whole]⟩
  have padded : (front ++ Bytes.ofNatLE 4 entry.offset.toNat ++
      Bytes.ofNatLE 4 entry.size.toNat ++ (entry.name ++ [0])).length +
        StreamHeader.padding entry.name.length = (front ++ entry.bytes).length := by
    simp only [bytes, List.length_append, List.length_cons, List.length_nil, List.length_replicate]
    omega
  rw [Read.streamHeader, (Read.reads_uint32 entry.offset).bind_at atOffset,
    (Read.reads_uint32 entry.size).bind_at atSize, Read.bind_eq_ok]
  refine ⟨?_, ?_⟩
  · intro given
    obtain ⟨name, between, found, behind⟩ := given
    obtain ⟨hasRoom, rfl, rfl⟩ := (Read.streamName_ok_iff _ _ entry.solid atName).mp found
    obtain ⟨_, reached, skipped, done⟩ := Read.bind_eq_ok.mp behind
    obtain ⟨-, rfl⟩ := Read.skip_ok_iff.mp skipped
    have stopped := congrArg Cursor.pos (Read.pure_eq_ok.mp done).2
    rw [Cursor.advance, List.nil_append, Bytes.utf8ByteSize_toText, ← padded] at stopped
    exact ⟨padding_eq_iff.mp (Nat.add_left_cancel stopped), hasRoom⟩
  · intro right
    obtain ⟨wide, hasRoom⟩ := right
    have same : StreamHeader.padding (entry.name.length + Bytes.wide entry.name) =
        StreamHeader.padding entry.name.length := padding_eq_iff.mpr wide
    refine ⟨entry.name, _, (Read.streamName_ok_iff _ _ entry.solid atName).mpr
      ⟨hasRoom, rfl, rfl⟩, ?_⟩
    refine Read.bind_eq_ok.mpr ⟨(), _, Read.skip_ok_iff.mpr ⟨?_, rfl⟩, ?_⟩
    · rw [Bytes.utf8ByteSize_toText, same, padded]
      exact leads.length_le
    · rw [Cursor.advance, Bytes.utf8ByteSize_toText, same, padded]
      exact Read.pure_eq_ok.mpr ⟨rfl, rfl⟩

/-- A header that is read right and whose stream lies inside the data. -/
theorem reads_streamInside {data : Bytes} {entry : DirectoryEntry} (right : entry.IsReadRight)
    (small : data.length < 0x100000000)
    (inside : entry.offset.toNat + entry.size.toNat ≤ data.length) :
    Read.Reads data Read.streamInside entry.bytes entry.header := by
  intro front rest whole
  have header := (entry.streamHeader_ok_iff whole).mpr right
  rw [Read.streamInside]
  refine Read.bind_eq_ok.mpr ⟨_, _, header, ?_⟩
  refine Read.bind_eq_ok.mpr ⟨_, _, rfl, ?_⟩
  have fits : entry.offset.toNat + entry.size.toNat < 0x100000000 ∧
      entry.offset.toNat + entry.size.toNat ≤ data.length := ⟨by omega, inside⟩
  exact congrFun (if_pos fits) _

end DirectoryEntry

/-- The metadata root up to the end of its directory. -/
structure RootLayout where
  majorVersion : UInt16
  minorVersion : UInt16
  reserved : UInt32
  version : Bytes
  flags : UInt16
  entries : List DirectoryEntry
  count_lt : entries.length < 0x10000 := by decide

namespace RootLayout

/-- What stands in front of the directory. -/
def front (layout : RootLayout) : Bytes :=
  Bytes.ofNatLE 4 MetadataRoot.expectedSignature.toNat ++
    (Bytes.ofNatLE 2 layout.majorVersion.toNat ++ (Bytes.ofNatLE 2 layout.minorVersion.toNat ++
      (Bytes.ofNatLE 4 layout.reserved.toNat ++ (Bytes.ofNatLE 4 layout.version.length ++
        (layout.version ++ (Bytes.ofNatLE 2 layout.flags.toNat ++
          Bytes.ofNatLE 2 layout.entries.length))))))

def bytes (layout : RootLayout) : Bytes :=
  layout.front ++ layout.entries.flatMap DirectoryEntry.bytes

def root (layout : RootLayout) : MetadataRoot where
  signature := MetadataRoot.expectedSignature
  majorVersion := layout.majorVersion
  minorVersion := layout.minorVersion
  reserved := layout.reserved
  length := UInt32.ofNat layout.version.length
  version := Bytes.toText (Bytes.untilZero layout.version)
  flags := layout.flags
  streams := layout.entries.map DirectoryEntry.header

theorem reads_metadataRoot {data : Bytes} (layout : RootLayout)
    (small : layout.version.length < 0x100000000)
    (right : ∀ entry ∈ layout.entries,
      Read.Reads data Read.streamInside entry.bytes entry.header) :
    Read.Reads data Read.metadataRoot layout.bytes layout.root := by
  have length : Read.Reads data Read.uint32 (Bytes.ofNatLE 4 layout.version.length)
      (UInt32.ofNat layout.version.length) := Read.reads_number small UInt32.ofNat
  have length_eq : (UInt32.ofNat layout.version.length).toNat = layout.version.length :=
    UInt32.toNat_ofNat_of_lt' small
  have count : Read.Reads data Read.uint16 (Bytes.ofNatLE 2 layout.entries.length)
      (UInt16.ofNat layout.entries.length) := Read.reads_number layout.count_lt UInt16.ofNat
  have count_eq : (UInt16.ofNat layout.entries.length).toNat = layout.entries.length :=
    UInt16.toNat_ofNat_of_lt' layout.count_lt
  rw [bytes, front]
  simp only [List.append_assoc]
  refine Read.reads_bind (Read.reads_uint32 _) ?_
  rw [if_neg (not_not_intro rfl)]
  refine Read.reads_bind (Read.reads_uint16 _) (Read.reads_bind (Read.reads_uint16 _) ?_)
  refine Read.reads_bind (Read.reads_uint32 _) (Read.reads_bind length ?_)
  rw [length_eq]
  refine Read.reads_bind (Read.reads_take _) (Read.reads_bind (Read.reads_uint16 _) ?_)
  refine Read.reads_bind count ?_
  rw [count_eq]
  exact Read.reads_map (Read.reads_times right) _

/-- A directory is read as it is laid out, each header up to the end of its padding, if and only if
all of its names are read right. -/
theorem directory_read_iff (layout : RootLayout) (rest : Bytes)
    (small : (layout.bytes ++ rest).length < 0x100000000)
    (inside : ∀ entry ∈ layout.entries,
      entry.offset.toNat + entry.size.toNat ≤ (layout.bytes ++ rest).length) :
    (Read.metadataRoot.run? (layout.bytes ++ rest) = .ok layout.root ∧
      ∀ before entry behind, layout.entries = before ++ entry :: behind →
        let start := (layout.front ++ before.flatMap DirectoryEntry.bytes).length
        Read.streamHeader ⟨layout.bytes ++ rest, start⟩ = .ok entry.header
          ⟨layout.bytes ++ rest, start + (8 + (entry.name.length + 1 + 3) / 4 * 4)⟩) ↔
    ∀ entry ∈ layout.entries, entry.IsReadRight := by
  have header {before : List DirectoryEntry} {entry : DirectoryEntry}
      {behind : List DirectoryEntry} (split : layout.entries = before ++ entry :: behind) :
      Read.streamHeader ⟨layout.bytes ++ rest,
          (layout.front ++ before.flatMap DirectoryEntry.bytes).length⟩ = .ok entry.header
        ⟨layout.bytes ++ rest, (layout.front ++ before.flatMap DirectoryEntry.bytes).length +
          (8 + (entry.name.length + 1 + 3) / 4 * 4)⟩ ↔ entry.IsReadRight := by
    have whole : layout.front ++ before.flatMap DirectoryEntry.bytes ++ (entry.bytes ++
        (behind.flatMap DirectoryEntry.bytes ++ rest)) = layout.bytes ++ rest := by
      simp only [bytes, split, List.flatMap_append, List.flatMap_cons, List.append_assoc]
    have length_eq : (layout.front ++ before.flatMap DirectoryEntry.bytes ++ entry.bytes).length =
        (layout.front ++ before.flatMap DirectoryEntry.bytes).length +
          (8 + (entry.name.length + 1 + 3) / 4 * 4) := by
      rw [← entry.length_bytes, List.length_append]
    rw [← length_eq]
    exact entry.streamHeader_ok_iff whole
  refine ⟨?_, ?_⟩
  · intro given entry mem
    obtain ⟨before, behind, split⟩ := List.append_of_mem mem
    exact (header split).mp (given.2 before entry behind split)
  · intro right
    refine ⟨?_, fun before entry behind split => (header split).mpr (right entry ?_)⟩
    · have headers : ∀ entry ∈ layout.entries,
          Read.Reads (layout.bytes ++ rest) Read.streamInside entry.bytes entry.header := by
        intro entry mem
        exact DirectoryEntry.reads_streamInside (right entry mem) small (inside entry mem)
      have version : layout.version.length < 0x100000000 := by
        refine Nat.lt_of_le_of_lt ?_ small
        simp only [bytes, front, List.length_append]
        omega
      exact (layout.reads_metadataRoot version headers).run?_eq rfl
    · rw [split]
      exact List.mem_append_right before List.mem_cons_self

/-- A name of four wide bytes and one of none. -/
def fourWide : RootLayout where
  majorVersion := 1
  minorVersion := 1
  reserved := 0
  version := [0x76, 0x34, 0, 0]
  flags := 0
  entries := [
    { offset := 0, size := 4, name := [0xC4, 0xD6, 0xDC, 0xDF] },
    { offset := 56, size := 4, name := [0x23, 0x42, 0x6C, 0x6F, 0x62] }]

theorem directory_read_iff_four_wide :
    (fourWide.bytes ++ [0, 2, 0x1D, 0x08]).length < 0x100000000 ∧
    (∀ entry ∈ fourWide.entries, entry.offset.toNat + entry.size.toNat ≤
      (fourWide.bytes ++ [0, 2, 0x1D, 0x08]).length) ∧
    Read.metadataRoot.run? (fourWide.bytes ++ [0, 2, 0x1D, 0x08]) = .ok fourWide.root := by
  have small : (fourWide.bytes ++ [0, 2, 0x1D, 0x08]).length < 0x100000000 := by decide
  have inside : ∀ entry ∈ fourWide.entries, entry.offset.toNat + entry.size.toNat ≤
      (fourWide.bytes ++ [0, 2, 0x1D, 0x08]).length := by decide
  exact ⟨small, inside, ((directory_read_iff fourWide _ small inside).mpr (by decide)).1⟩

/-- A name of one wide byte in front of a name of none. -/
def oneWide : RootLayout where
  majorVersion := 1
  minorVersion := 1
  reserved := 0
  version := []
  flags := 0
  entries := [
    { offset := 0, size := 0, name := [0x80] },
    { offset := 44, size := 4, name := [0x23, 0x42, 0x6C, 0x6F, 0x62] }]

/-- The second header is read from the last byte of the padding of the first one. -/
theorem not_read_as_laid_out :
    oneWide.bytes.length < 0x100000000 ∧
    (∀ entry ∈ oneWide.entries,
      entry.offset.toNat + entry.size.toNat ≤ oneWide.bytes.length) ∧
    Read.metadataRoot.run? oneWide.bytes =
      .error (.malformed (.streamOutOfRange "" 0x2C00 0x400)) ∧
    Read.metadataRoot.run? oneWide.bytes ≠ .ok oneWide.root := by
  have misread : Read.metadataRoot.run? oneWide.bytes =
      .error (.malformed (.streamOutOfRange "" 0x2C00 0x400)) := by decide +kernel
  refine ⟨by decide, by decide, misread, ?_⟩
  rw [misread]
  exact fun same => nomatch same

end RootLayout

end CliMetadata
