import CliMetadata.Image.Guarded
import CliMetadata.Proofs.Numerals
import CliMetadata.Proofs.Relocation

/-!
The way to the blob heap. None of its unchecked operations is ever left without a result, whatever
the bytes of the image, its sections and its runtime header are: the checks before each of them are
enough. The range of the blob heap in particular was checked when the metadata root was read.
-/

namespace CliMetadata

instance : LawfulMonadLift Read GuardedRead where
  monadLift_pure _ := rfl
  monadLift_bind read next := by
    funext cursor
    simp only [MonadLift.monadLift, bind, EStateM.bind]
    cases read cursor <;> rfl

instance : LawfulMonadLift (Except Fault) Guarded where
  monadLift_pure _ := rfl
  monadLift_bind outcome next := by cases outcome <;> rfl

namespace GuardedRead

section

variable {α : Type}

theorem liftM_throw (fault : Fault) :
    (liftM (throw fault : Read α) : GuardedRead α) = throw (.fault fault) := rfl

theorem liftM_get : (liftM (get : Read Cursor) : GuardedRead Cursor) = get := rfl

theorem liftM_ite {c : Prop} [Decidable c] (read other : Read α) :
    (liftM (if c then read else other) : GuardedRead α) =
      if c then liftM read else liftM other := by
  by_cases holds : c
  · rw [if_pos holds, if_pos holds]
  · rw [if_neg holds, if_neg holds]

theorem get_at (cursor : Cursor) : (get : GuardedRead Cursor) cursor = .ok cursor cursor := rfl

theorem take_eq (count : Nat) : take count = liftM (Read.take count) := by
  funext cursor
  simp only [take, Read.take, Read.endAfter, liftM, monadLift, MonadLift.monadLift, bind,
    EStateM.bind]
  by_cases room : cursor.pos + count ≤ cursor.data.length
  · simp only [if_pos room, get_at, Guarded.range]
    rw [if_pos ⟨Nat.le_add_right _ _, room⟩, Nat.add_sub_cancel_left]
    rfl
  · simp only [if_neg room]

theorem byte_eq : byte = liftM Read.byte := by
  rw [byte, take_eq]
  funext cursor
  have room_iff : cursor.pos + 1 ≤ cursor.data.length ↔ cursor.unread ≠ [] := by
    rw [Cursor.unread, ne_eq, List.drop_eq_nil_iff]
    omega
  simp only [Read.take, Read.byte, room_iff, liftM, monadLift, MonadLift.monadLift, bind,
    EStateM.bind]
  cases unread : cursor.unread with
  | nil => simp only [ne_eq, not_true_eq_false, if_false]
  | cons first rest =>
      simp only [if_pos (List.cons_ne_nil first rest), List.take_succ_cons, List.take_zero]
      rfl

theorem uint16_eq : uint16 = liftM Read.uint16 := by
  rw [uint16, Read.uint16, take_eq, liftM_bind]
  simp only [liftM_pure]

theorem uint32_eq : uint32 = liftM Read.uint32 := by
  rw [uint32, Read.uint32, take_eq, liftM_bind]
  simp only [liftM_pure]

theorem times_eq {guarded : GuardedRead α} {read : Read α} (same : guarded = liftM read)
    (count : Nat) : times guarded count = liftM (Read.times read count) := by
  induction count with
  | zero => exact (liftM_pure []).symm
  | succ count ih =>
      rw [times, Read.times, ih, same]
      simp only [liftM_bind, liftM_pure]

theorem run?_liftM (read : Read α) (data : Bytes) :
    (liftM read : GuardedRead α).run? data = liftM (read.run? data) := by
  simp only [run?, Read.run?, liftM, monadLift, MonadLift.monadLift]
  cases read { data } <;> rfl

end

theorem runtimeHeader_eq : runtimeHeader = liftM Read.runtimeHeader := by
  simp only [runtimeHeader, Read.runtimeHeader, uint16_eq, uint32_eq, liftM_bind, liftM_pure,
    liftM_ite, liftM_throw]

theorem streamName_eq (room : Nat) (name : Bytes) :
    streamName room name = liftM (Read.streamName room name) := by
  induction room, name using Read.streamName.induct with
  | case1 name =>
      rw [streamName, Read.streamName]
      simp only [byte_eq, liftM_bind, liftM_ite, liftM_pure, liftM_throw]
  | case2 name ih =>
      rw [streamName, Read.streamName]
      simp only [byte_eq, liftM_bind, liftM_ite, liftM_pure, ih]
  | case3 room name ih ihWide =>
      rw [streamName, Read.streamName]
      simp only [byte_eq, liftM_bind, liftM_ite, liftM_pure, ih, ihWide]

/-- A name and its zero byte are not longer than what they are padded to. -/
theorem streamHeader_eq : streamHeader = liftM Read.streamHeader := by
  have padding (units : Nat) : Guarded.sub ((units + 4) / 4 * 4) (units + 1) =
      .ok (StreamHeader.padding units) := if_pos (by omega)
  simp only [streamHeader, Read.streamHeader, uint32_eq, streamName_eq, padding, liftM_bind,
    liftM_pure]
  rfl

theorem streamInside_eq : streamInside = liftM Read.streamInside := by
  simp only [streamInside, Read.streamInside, streamHeader_eq, liftM_bind, liftM_get, liftM_ite,
    liftM_pure, liftM_throw]

theorem metadataRoot_eq : metadataRoot = liftM Read.metadataRoot := by
  simp only [metadataRoot, Read.metadataRoot, uint16_eq, uint32_eq, take_eq,
    times_eq streamInside_eq, liftM_bind, liftM_pure, liftM_ite, liftM_throw]

end GuardedRead

namespace Read

section

variable {α β : Type} {data : Bytes}

/-- Where the reader gives a value it stays in the data, and the value has the property. -/
def Gives (data : Bytes) (read : Read α) (property : α → Prop) : Prop :=
  ∀ cursor a stopped, cursor.data = data → read cursor = .ok a stopped →
    stopped.data = data ∧ property a

theorem StaysInside.gives {read : Read α} (h : StaysInside read) :
    Gives data read fun _ => True := by
  intro cursor a reached here done
  have inside := (h cursor).1
  rw [done] at inside
  exact ⟨inside.trans here, trivial⟩

theorem gives_bind {read : Read α} {next : α → Read β} {property : α → Prop}
    {property' : β → Prop} (h : Gives data read property)
    (hnext : ∀ a, property a → Gives data (next a) property') :
    Gives data (read >>= next) property' := by
  intro cursor b stopped here done
  obtain ⟨a, between, first, second⟩ := bind_eq_ok.mp done
  obtain ⟨there, given⟩ := h cursor a between here first
  exact hnext a given between b stopped there second

theorem gives_pure {property : α → Prop} {a : α} (given : property a) :
    Gives data (pure a) property := by
  intro cursor b stopped here done
  obtain ⟨rfl, rfl⟩ := pure_eq_ok.mp done
  exact ⟨here, given⟩

theorem gives_throw {property : α → Prop} (fault : Fault) :
    Gives data (throw fault : Read α) property := by
  intro cursor a stopped here done
  cases done

theorem gives_ite {c : Prop} [Decidable c] {read other : Read α} {property : α → Prop}
    (h : c → Gives data read property) (hother : Gives data other property) :
    Gives data (if c then read else other) property := by
  by_cases holds : c
  · rw [if_pos holds]
    exact h holds
  · rwa [if_neg holds]

theorem gives_times {read : Read α} {property : α → Prop} (h : Gives data read property)
    (count : Nat) : Gives data (times read count) fun values => ∀ a ∈ values, property a := by
  induction count with
  | zero => exact gives_pure (List.forall_mem_nil property)
  | succ count ih =>
      refine gives_bind h fun value given => gives_bind ih fun values all => gives_pure ?_
      exact List.forall_mem_cons.mpr ⟨given, all⟩

end

theorem shifted_streamName (count room : Nat) (name : Bytes) :
    Shifted count (streamName room name) (streamName room name) := by
  induction room, name using streamName.induct with
  | case1 name =>
      rw [streamName]
      refine .bind shifted_byte fun next => shifted_ite (.pure name) ?_
      exact .throw (.malformed (.streamNameTooLong (Bytes.toText name)))
  | case2 name ih =>
      rw [streamName]
      exact .bind shifted_byte fun next => shifted_ite (.pure name) (ih next)
  | case3 room name ih ihWide =>
      rw [streamName]
      refine .bind shifted_byte fun next => shifted_ite (.pure name) ?_
      exact shifted_ite (ih next) (ihWide next)

theorem shifted_streamHeader (count : Nat) : Shifted count streamHeader streamHeader := by
  refine .bind (Shifted.take 4).map fun offset => .bind (Shifted.take 4).map fun size => ?_
  refine .bind (shifted_streamName count _ []) fun name => ?_
  exact (shifted_skip _).map

/-- The streams of a metadata root lie inside the data: each was checked when it was read. -/
theorem gives_streamInside (data : Bytes) : Gives data streamInside fun header =>
    header.offset.toNat + header.size.toNat ≤ data.length := by
  have get_gives : Gives data (get : Read Cursor) fun cursor => cursor.data = data := by
    intro cursor a stopped here done
    cases done
    exact ⟨here, here⟩
  refine gives_bind (shifted_streamHeader 0).staysInside.gives fun header _ => ?_
  refine gives_bind get_gives fun cursor here => ?_
  subst here
  exact gives_ite (fun fits => gives_pure fits.2) (gives_throw _)

theorem gives_metadataRoot (data : Bytes) : Gives data metadataRoot fun root =>
    ∀ header ∈ root.streams, header.offset.toNat + header.size.toNat ≤ data.length := by
  have field {α : Type} (width : Nat) (f : Bytes → α) :
      Gives data (take width >>= fun bytes => pure (f bytes)) fun _ => True :=
    (staysInside_bind (staysInside_take width) fun bytes => staysInside_pure (f bytes)).gives
  have stop (fault : Fault) : Gives data (throw fault : Read Unit) fun _ => False :=
    gives_throw fault
  refine gives_bind (field 4 _) fun signature _ => ?_
  refine gives_ite (fun _ => gives_bind (stop _) fun _ given => given.elim) ?_
  refine gives_bind (field 2 _) fun majorVersion _ => ?_
  refine gives_bind (field 2 _) fun minorVersion _ => ?_
  refine gives_bind (field 4 _) fun reserved _ => gives_bind (field 4 _) fun length _ => ?_
  refine gives_bind (staysInside_take _).gives fun version _ => ?_
  refine gives_bind (field 2 _) fun flags _ => gives_bind (field 2 _) fun count _ => ?_
  exact gives_bind (gives_times (gives_streamInside data) _) fun streams all => gives_pure all

theorem metadataRoot_inside {data : Bytes} {root : MetadataRoot}
    (read : metadataRoot.run? data = .ok root) :
    ∀ header ∈ root.streams, header.offset.toNat + header.size.toNat ≤ data.length := by
  rw [run?] at read
  split at read
  · rename_i value stopped done
    cases read
    exact (gives_metadataRoot data _ _ _ rfl done).2
  · cases read

end Read

namespace Guarded

/-- A section that contains an address does not begin behind it. -/
theorem offsetOfRva_eq (image : Image) (rva : Nat) :
    offsetOfRva image rva = liftM (image.offsetOfRva rva) := by
  rw [offsetOfRva, Image.offsetOfRva, SectionTable.offsetOfRva]
  cases found : image.sections.sectionByRva? rva with
  | none => rfl
  | some header =>
      have contains := List.find?_some found
      simp only [SectionHeader.containsRva, Bool.and_eq_true, decide_eq_true_eq] at contains
      simp only [sub, if_pos contains.1]
      by_cases backed : rva - header.virtualAddress.toNat < header.rawSize.toNat
      · rw [if_pos backed]
        simp only [bind, Except.bind, if_pos backed]
        rfl
      · rw [if_neg backed]
        simp only [bind, Except.bind, if_neg backed]
        rfl

theorem runtimeHeader_eq (image : Image) : runtimeHeader image = liftM image.runtimeHeader := by
  rw [runtimeHeader, Image.runtimeHeader]
  cases image.runtime with
  | none => rfl
  | some directory =>
      simp only [offsetOfRva_eq, GuardedRead.runtimeHeader_eq, GuardedRead.run?_liftM, liftM_bind]

theorem metadata_eq (image : Image) : metadata image = liftM image.metadata := by
  simp only [metadata, Image.metadata, runtimeHeader_eq, offsetOfRva_eq, liftM_bind]

theorem metadataRoot_eq (image : Image) : metadataRoot image = liftM image.metadataRoot := by
  simp only [metadataRoot, Image.metadataRoot, metadata_eq, GuardedRead.metadataRoot_eq,
    GuardedRead.run?_liftM, liftM_bind]

theorem range_eq_ok {bytes : Bytes} {start length : Nat} (inside : start + length ≤ bytes.length) :
    range bytes start (start + length) = .ok ((bytes.drop start).take length) := by
  rw [range, if_pos ⟨Nat.le_add_right _ _, inside⟩, Nat.add_sub_cancel_left]

/-- The stream that is found is one of those that were checked. -/
theorem blobHeap_eq (image : Image) : blobHeap image = liftM image.blobHeap := by
  simp only [blobHeap, Image.blobHeap, metadata_eq, GuardedRead.metadataRoot_eq,
    GuardedRead.run?_liftM, liftM_bind]
  refine congrArg _ (funext fun metadata => ?_)
  cases read : Read.metadataRoot.run? metadata with
  | error fault => rfl
  | ok root =>
      -- The only check of the range is the one that was made for each stream of the root.
      have inside := Read.metadataRoot_inside read
      simp only [liftM, monadLift, MonadLift.monadLift, Except.mapError, bind, Except.bind]
      cases found : root.stream? "#Blob" with
      | none => rfl
      | some stream =>
          simp only [range_eq_ok (inside stream (List.mem_of_find?_eq_some found))]
          cases BlobHeap.ofBytes _ <;> rfl

end Guarded

namespace Bytes

theorem slice?_eq_some_iff {bytes found : Bytes} {start length : Nat} :
    bytes.slice? start length = some found ↔
      start + length ≤ bytes.length ∧ (bytes.drop start).take length = found := by
  by_cases inside : start + length ≤ bytes.length <;> simp [slice?, inside]

theorem slice?_inside {bytes part : Bytes} {start length first count : Nat}
    (found : bytes.slice? start length = some part) (inside : first + count ≤ length) :
    bytes.slice? (start + first) count = some ((part.drop first).take count) := by
  obtain ⟨room, rfl⟩ := slice?_eq_some_iff.mp found
  refine slice?_eq_some_iff.mpr ⟨by omega, ?_⟩
  rw [List.drop_take, List.take_take, List.drop_drop, Nat.min_eq_left (by omega)]

theorem length_of_slice? {bytes part : Bytes} {start length : Nat}
    (found : bytes.slice? start length = some part) : part.length = length := by
  obtain ⟨room, rfl⟩ := slice?_eq_some_iff.mp found
  rw [List.length_take, List.length_drop]
  omega

end Bytes

namespace BlobHeap

theorem slice?_of_counted {data bytes : Bytes} {place : Nat} {stopped : Cursor}
    (read : Read.counted { data := data.drop place } = .ok bytes stopped) :
    ∃ start, place < start ∧ start ≤ place + 4 ∧
      data.slice? start bytes.length = some bytes := by
  obtain ⟨count, between, number, taken⟩ := Read.bind_eq_ok.mp read
  obtain ⟨_, ⟨numeral, -, rfl, rfl⟩, -, rfl⟩ := (Read.accepts_unsigned _ _ _).mp number
  obtain ⟨room, rfl, -⟩ := Read.take_eq_ok.mp taken
  have width : 0 < numeral.bytes.length ∧ numeral.bytes.length ≤ 4 := by
    rw [Numeral.bytes, Compressed.Form.length_bytes]
    cases numeral.form <;> decide
  simp only [Cursor.advance, List.length_drop, Nat.zero_add] at room
  refine ⟨place + numeral.bytes.length, by omega, by omega, ?_⟩
  rw [Cursor.unread_advance, List.length_take]
  refine Bytes.slice?_eq_some_iff.mpr ⟨?_, ?_⟩
  · simp only [Cursor.unread, List.length_drop]
    omega
  · simp [Cursor.unread, List.drop_drop]

/-- Blobs stand in the heap, right behind their lengths. -/
theorem slice?_of_mem_entriesFrom {data bytes : Bytes} {offset place : Nat}
    (mem : .ok (place, bytes) ∈ entriesFrom data offset) :
    ∃ start, place < start ∧ start ≤ place + 4 ∧
      data.slice? start bytes.length = some bytes := by
  fun_induction entriesFrom data offset with
  | case1 offset inside found stopped read forward ih =>
      rcases List.mem_cons.mp mem with here | later
      · cases here
        exact slice?_of_counted read
      · exact ih later
  | case2 offset inside fault stopped read => cases List.mem_singleton.mp mem
  | case3 offset outside => cases mem

end BlobHeap

namespace Image

theorem slice_ok_iff {image : Image} {offset length : Nat} {bytes : Bytes} :
    image.slice offset length = .ok bytes ↔ image.data.slice? offset length = some bytes := by
  rw [slice, Bytes.slice]
  cases image.data.slice? offset length <;> simp

theorem metadata_ok_iff {image : Image} {metadata : Bytes} :
    image.metadata = .ok metadata ↔
      ∃ header, image.runtimeHeader = .ok header ∧
        ∃ m, image.offsetOfRva header.metadataRva.toNat = .ok m ∧
          image.data.slice? m header.metadataSize.toNat = some metadata := by
  simp only [Image.metadata, bind_ok_iff, slice_ok_iff]

theorem blobHeap_ok_iff {image : Image} {heap : BlobHeap} :
    image.blobHeap = .ok heap ↔
      ∃ metadata, image.metadata = .ok metadata ∧
        ∃ root, Read.metadataRoot.run? metadata = .ok root ∧
          ∃ stream, root.stream? "#Blob" = some stream ∧
            (metadata.drop stream.offset.toNat).take stream.size.toNat = heap.data ∧
            heap.data.head? = some 0 := by
  have heap_iff (bytes : Bytes) : (BlobHeap.ofBytes bytes).mapError Fault.malformed = .ok heap ↔
      bytes = heap.data ∧ heap.data.head? = some 0 := by
    obtain ⟨data⟩ := heap
    by_cases start : bytes.head? = some 0
    · simp only [BlobHeap.ofBytes, if_pos start, Except.mapError, Except.ok.injEq,
        BlobHeap.mk.injEq]
      exact ⟨fun same => ⟨same, same ▸ start⟩, fun given => given.1⟩
    · simp only [BlobHeap.ofBytes, if_neg start, Except.mapError, reduceCtorEq, false_iff]
      rintro ⟨rfl, start'⟩
      exact start start'
  simp only [blobHeap, bind_ok_iff]
  refine exists_congr fun metadata => and_congr_right fun _ => exists_congr fun root =>
    and_congr_right fun _ => ?_
  cases root.stream? "#Blob" with
  | none => simp
  | some stream => simp [heap_iff]

/-- The way to the blob heap never crashes: with its unchecked operations laid open each step gives
what it gives without, a value or a fault. Where a blob heap is found it is the range of the image
that the runtime header and the metadata root say, and the blobs in it are ranges of the heap. -/
theorem blob_heap_located (image : Image) :
    (Guarded.runtimeHeader image = image.runtimeHeader.mapError .fault ∧
      Guarded.metadata image = image.metadata.mapError .fault ∧
      Guarded.metadataRoot image = image.metadataRoot.mapError .fault ∧
      Guarded.blobHeap image = image.blobHeap.mapError .fault) ∧
    ∀ heap, image.blobHeap = .ok heap →
      ∃ header, image.runtimeHeader = .ok header ∧
      ∃ m, image.offsetOfRva header.metadataRva.toNat = .ok m ∧
      ∃ root, image.metadataRoot = .ok root ∧
      ∃ stream, root.stream? "#Blob" = some stream ∧
        stream.offset.toNat + stream.size.toNat ≤ header.metadataSize.toNat ∧
        m + header.metadataSize.toNat ≤ image.data.length ∧
        image.data.slice? (m + stream.offset.toNat) stream.size.toNat = some heap.data ∧
        heap.data.head? = some 0 ∧
        ∀ place bytes, .ok (place, bytes) ∈ heap.entries →
          ∃ start, place < start ∧ start ≤ place + 4 ∧
            heap.data.slice? start bytes.length = some bytes := by
  refine ⟨⟨Guarded.runtimeHeader_eq image, Guarded.metadata_eq image,
    Guarded.metadataRoot_eq image, Guarded.blobHeap_eq image⟩, ?_⟩
  intro heap located
  obtain ⟨metadata, metadata_eq, root, read, stream, found, range, start⟩ :=
    blobHeap_ok_iff.mp located
  obtain ⟨header, header_eq, m, mapped, slice⟩ := metadata_ok_iff.mp metadata_eq
  have inside : stream.offset.toNat + stream.size.toNat ≤ header.metadataSize.toNat := by
    rw [← Bytes.length_of_slice? slice]
    exact Read.metadataRoot_inside read stream (List.mem_of_find?_eq_some found)
  refine ⟨header, header_eq, m, mapped, root, ?_, stream, found, inside, ?_, ?_, start, ?_⟩
  · rw [metadataRoot, metadata_eq]
    exact read
  · exact (Bytes.slice?_eq_some_iff.mp slice).1
  · rw [Bytes.slice?_inside slice inside, range]
  · exact fun place bytes mem => BlobHeap.slice?_of_mem_entriesFrom mem

/-- One section, which has a runtime header and behind it metadata with a blob of two bytes. -/
def withBlob : Image where
  data :=
    [0x48, 0, 0, 0, 2, 0, 5, 0, 0x48, 0x10, 0, 0, 40, 0, 0, 0] ++ List.replicate 56 0 ++
      [0x42, 0x53, 0x4A, 0x42, 1, 0, 1, 0, 0, 0, 0, 0, 0, 0, 0, 0, 0, 0, 1, 0,
        36, 0, 0, 0, 4, 0, 0, 0, 0x23, 0x42, 0x6C, 0x6F, 0x62, 0, 0, 0, 0, 2, 0xAA, 0xBB]
  sections := ⟨[{
    name := .ofBytes [], virtualAddress := 0x1000, virtualSize := 0x100, rawSize := 0x100 }]⟩
  runtime := some { rva := 0x1000, size := 72 }

theorem blob_heap_located_two_bytes :
    withBlob.blobHeap = .ok ⟨[0, 2, 0xAA, 0xBB]⟩ ∧
    .ok (1, [0xAA, 0xBB]) ∈ BlobHeap.entries ⟨[0, 2, 0xAA, 0xBB]⟩ ∧
    ∃ start, 1 < start ∧ start ≤ 5 ∧
      Bytes.slice? [0, 2, 0xAA, 0xBB] start 2 = some [0xAA, 0xBB] := by
  have located : withBlob.blobHeap = .ok ⟨[0, 2, 0xAA, 0xBB]⟩ := by decide +kernel
  have entry : .ok (1, [0xAA, 0xBB]) ∈ BlobHeap.entries ⟨[0, 2, 0xAA, 0xBB]⟩ := by
    rw [BlobHeap.entries, BlobHeap.entriesFrom, if_pos (by decide)]
    split
    · rename_i bytes stopped read
      cases read
      exact List.mem_cons_self
    · rename_i read
      cases read
  obtain ⟨_, _, _, _, _, _, _, _, _, _, _, _, blobs⟩ := (blob_heap_located withBlob).2 _ located
  exact ⟨located, entry, blobs 1 _ entry⟩

end Image

end CliMetadata
