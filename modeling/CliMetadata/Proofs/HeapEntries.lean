import CliMetadata.BlobHeap
import CliMetadata.Proofs.Writing

/-!
Blobs of a heap by offset and in order. A blob stands in the data behind its length, which may be
written in any form. The blobs that a visit finds follow each other without a gap, from the first
offset to the end of the heap or to an offset without a blob, and each of them is what is found at
its offset. In particular a heap of written blobs is visited as it was written.
-/

namespace CliMetadata

namespace BlobHeap

/-- A blob as it is written: its length and its bytes. -/
def encodeBlob (blob : Bytes) : Except EncodingFault Bytes := do
  let length ← Compressed.encodeUnsigned blob.length
  return length ++ blob

/-- The heap of the given blobs, behind the empty one. -/
def encode (blobs : List Bytes) : Except EncodingFault Bytes := do
  let body ← encodeEach encodeBlob blobs
  return 0 :: body

/-- At an offset stands the length of the blob, in any form, and the blob right behind it. -/
def StandsAt (data : Bytes) (offset : Nat) (blob : Bytes) (behind : Nat) : Prop :=
  ∃ length : Numeral, length.raw = blob.length ∧ length.bytes ++ blob <+: data.drop offset ∧
    offset + (length.bytes ++ blob).length = behind

/-- Blobs that stand in the data one behind the other, from one offset to another. -/
inductive Tiles (data : Bytes) : Nat → List (Nat × Bytes) → Nat → Prop where
  | nil (offset : Nat) : Tiles data offset [] offset
  | cons {offset behind stop : Nat} {blob : Bytes} {rest : List (Nat × Bytes)} :
    StandsAt data offset blob behind → Tiles data behind rest stop →
    Tiles data offset ((offset, blob) :: rest) stop

section

variable {data blob : Bytes} {offset behind stop : Nat} {found : List (Nat × Bytes)}

theorem counted_ok_iff : StandsAt data offset blob behind ↔
    ∃ stopped, Read.counted { data := data.drop offset } = .ok blob stopped ∧
      offset + stopped.pos = behind := by
  simp only [Read.accepts_counted _ _ _]
  refine ⟨?_, ?_⟩
  · intro stands
    obtain ⟨length, raw_eq, leads, rfl⟩ := stands
    exact ⟨_, ⟨_, ⟨length, raw_eq, rfl⟩, leads, rfl⟩, by simp [Cursor.advance]⟩
  · intro given
    obtain ⟨_, ⟨_, ⟨length, raw_eq, rfl⟩, leads, rfl⟩, rfl⟩ := given
    exact ⟨length, raw_eq, leads, by simp [Cursor.advance]⟩

theorem StandsAt.lt_behind (stands : StandsAt data offset blob behind) : offset < behind := by
  obtain ⟨length, -, -, rfl⟩ := stands
  have positive := List.length_pos_iff.mpr length.bytes_ne_nil
  rw [List.length_append]
  omega

theorem StandsAt.behind_le (stands : StandsAt data offset blob behind) : behind ≤ data.length := by
  have forward := stands.lt_behind
  obtain ⟨length, -, leads, rfl⟩ := stands
  have fits := leads.length_le
  rw [List.length_drop] at fits
  omega

/-- What stands at an offset is found there. -/
theorem StandsAt.get_eq (stands : StandsAt data offset blob behind) :
    get ⟨data⟩ offset = .ok blob := by
  have inside : offset ≤ data.length := by
    have := stands.lt_behind
    have := stands.behind_le
    omega
  obtain ⟨stopped, read, -⟩ := counted_ok_iff.mp stands
  rw [get, if_pos inside, Read.run?, read]

theorem Tiles.get_eq (tiles : Tiles data offset found stop) :
    ∀ entry ∈ found, get ⟨data⟩ entry.1 = .ok entry.2 := by
  induction tiles with
  | nil _ => exact List.forall_mem_nil _
  | cons stands _ ih => exact List.forall_mem_cons.mpr ⟨stands.get_eq, ih⟩

/-- Each blob takes a byte at least. -/
theorem Tiles.length_le (tiles : Tiles data offset found stop) :
    offset + found.length ≤ stop := by
  induction tiles with
  | nil _ => exact Nat.le_refl _
  | cons stands _ ih =>
      have := stands.lt_behind
      rw [List.length_cons]
      omega

theorem Tiles.stop_le (tiles : Tiles data offset found stop) (inside : offset ≤ data.length) :
    stop ≤ data.length := by
  induction tiles with
  | nil _ => exact inside
  | cons stands _ ih => exact ih stands.behind_le

/-- One step of a visit: the blob at the offset, and what is found behind it. -/
theorem entriesFrom_of_standsAt (stands : StandsAt data offset blob behind) :
    entriesFrom data offset = .ok (offset, blob) :: entriesFrom data behind := by
  have inside : offset < data.length := Nat.lt_of_lt_of_le stands.lt_behind stands.behind_le
  obtain ⟨stopped, read, rfl⟩ := counted_ok_iff.mp stands
  rw [entriesFrom, if_pos inside]
  split
  · rename_i bytes reached done
    rw [read] at done
    cases done
    rfl
  · rename_i fault reached failed
    rw [read] at failed
    cases failed

/-- Blobs up to the end of the data are all that a visit finds. -/
theorem Tiles.entriesFrom_eq (tiles : Tiles data offset found data.length) :
    entriesFrom data offset = found.map .ok := by
  generalize here : data.length = stop at tiles
  induction tiles with
  | nil _ =>
      rw [entriesFrom, if_neg (Nat.not_lt_of_le (Nat.le_of_eq here))]
      rfl
  | cons stands _ ih => rw [entriesFrom_of_standsAt stands, ih here, List.map_cons]

end

/-- A visit finds blobs one behind the other, up to the end or to an offset without a blob. -/
theorem entriesFrom_tiles (data : Bytes) (offset : Nat) (inside : offset ≤ data.length) :
    ∃ found stop, Tiles data offset found stop ∧
      ((entriesFrom data offset = found.map .ok ∧ stop = data.length) ∨
        ∃ fault, entriesFrom data offset = found.map .ok ++ [.error fault] ∧
          stop < data.length ∧ get ⟨data⟩ stop = .error fault) := by
  fun_induction entriesFrom data offset with
  | case1 offset before blob stopped read forward ih =>
      have stands : StandsAt data offset blob (offset + stopped.pos) :=
        counted_ok_iff.mpr ⟨stopped, read, rfl⟩
      obtain ⟨found, stop, tiles, ending⟩ := ih stands.behind_le
      refine ⟨(offset, blob) :: found, stop, .cons stands tiles, ?_⟩
      obtain ⟨all, ends⟩ | ⟨fault, all, early, failed⟩ := ending
      · exact .inl ⟨by rw [all, List.map_cons], ends⟩
      · exact .inr ⟨fault, by rw [all, List.map_cons, List.cons_append], early, failed⟩
  | case2 offset before fault stopped read =>
      have failed : get ⟨data⟩ offset = .error fault := by rw [get, if_pos inside, Read.run?, read]
      exact ⟨[], offset, .nil offset, .inr ⟨fault, rfl, before, failed⟩⟩
  | case3 offset outside =>
      have ends : offset = data.length := Nat.le_antisymm inside (Nat.le_of_not_lt outside)
      exact ⟨[], offset, .nil offset, .inl ⟨rfl, ends⟩⟩

theorem encodeBlob_ok_iff {blob written : Bytes} : encodeBlob blob = .ok written ↔
    ∃ length : Numeral, length.IsShortest ∧ length.raw = blob.length ∧
      length.bytes ++ blob = written := by
  simp only [encodeBlob, bind_ok_iff, pure_ok_iff, Compressed.encodeUnsigned_eq_ok_iff]
  refine ⟨?_, ?_⟩
  · intro given
    obtain ⟨_, ⟨length, shortest, rfl, raw_eq⟩, rfl⟩ := given
    exact ⟨length, shortest, raw_eq, rfl⟩
  · intro given
    obtain ⟨length, shortest, raw_eq, rfl⟩ := given
    exact ⟨_, ⟨length, shortest, rfl, raw_eq⟩, rfl⟩

/-- A blob has an encoding if its length fits into 29 bits. -/
theorem exists_encodeBlob {blob : Bytes} (short : blob.length < 2 ^ 29) :
    ∃ written, encodeBlob blob = .ok written := by
  obtain ⟨length, written⟩ := Compressed.exists_encodeUnsigned ⟨.long, blob.length, short⟩
  exact ⟨length ++ blob, bind_ok_iff.mpr ⟨length, written, rfl⟩⟩

/-- Behind whatever is written already, written blobs stand one behind the other. -/
theorem exists_tiles_of_encodeEach {blobs : List Bytes} {body : Bytes}
    (written : encodeEach encodeBlob blobs = .ok body) (front : Bytes) :
    ∃ found, found.map Prod.snd = blobs ∧
      Tiles (front ++ body) front.length found (front ++ body).length := by
  induction blobs generalizing front body with
  | nil =>
      obtain rfl := encodeEach_nil_iff.mp written
      rw [List.append_nil]
      exact ⟨[], rfl, .nil _⟩
  | cons blob rest ih =>
      obtain ⟨_, first, others, behind, rfl⟩ := encodeEach_cons_iff.mp written
      obtain ⟨length, -, raw_eq, rfl⟩ := encodeBlob_ok_iff.mp first
      obtain ⟨found, rfl, tiles⟩ := ih behind (front ++ (length.bytes ++ blob))
      rw [List.append_assoc] at tiles
      refine ⟨(front.length, blob) :: found, rfl, .cons ⟨length, raw_eq, ?_, ?_⟩ tiles⟩
      · rw [List.drop_left]
        exact List.prefix_append _ _
      · rw [← List.length_append]

theorem ofBytes_ok_iff {data : Bytes} {heap : BlobHeap} :
    ofBytes data = .ok heap ↔ data.head? = some 0 ∧ heap = ⟨data⟩ := by
  rw [ofBytes]
  by_cases start : data.head? = some 0
  · simp [start, eq_comm]
  · simp [start]

/-- Written blobs are visited in their order, each under the offset of its length, and are found
there. Every heap is visited in fewer steps than it has bytes. The blobs that are visited follow each
other from the first offset on and are found under their offsets; behind them the heap ends, or the
visit ends with the fault that is given for the offset there. -/
theorem entries_agree_with_get :
    (∀ blobs : List Bytes, (∀ blob ∈ blobs, blob.length < 2 ^ 29) →
      ∃ data found, encode blobs = .ok data ∧ ofBytes data = .ok ⟨data⟩ ∧
        found.map Prod.snd = blobs ∧ Tiles data 1 found data.length ∧
        entries ⟨data⟩ = found.map .ok ∧ ∀ entry ∈ found, get ⟨data⟩ entry.1 = .ok entry.2) ∧
    ∀ data heap, ofBytes data = .ok heap → heap.data = data ∧ heap.entries.length < data.length ∧
      ∃ found stop, Tiles data 1 found stop ∧
        (∀ entry ∈ found, heap.get entry.1 = .ok entry.2) ∧
        ((heap.entries = found.map .ok ∧ stop = data.length) ∨
          ∃ fault, heap.entries = found.map .ok ++ [.error fault] ∧ stop < data.length ∧
            heap.get stop = .error fault) := by
  refine ⟨?_, ?_⟩
  · intro blobs short
    obtain ⟨body, written⟩ :=
      exists_encodeEach_iff.mpr fun blob mem => exists_encodeBlob (short blob mem)
    obtain ⟨found, blobs_eq, tiles⟩ := exists_tiles_of_encodeEach written [0]
    exact ⟨0 :: body, found, bind_ok_iff.mpr ⟨body, written, rfl⟩, rfl, blobs_eq, tiles,
      tiles.entriesFrom_eq, tiles.get_eq⟩
  · intro data heap accepted
    obtain ⟨start, rfl⟩ := ofBytes_ok_iff.mp accepted
    have inside : 1 ≤ data.length := by
      cases data with
      | nil => cases start
      | cons _ _ => exact Nat.le_add_left _ _
    obtain ⟨found, stop, tiles, ending⟩ := entriesFrom_tiles data 1 inside
    refine ⟨rfl, ?_, found, stop, tiles, tiles.get_eq, ending⟩
    have count := tiles.length_le
    have bound := tiles.stop_le inside
    rw [entries]
    obtain ⟨all, -⟩ | ⟨fault, all, early, -⟩ := ending
    · rw [all, List.length_map]
      omega
    · rw [all, List.length_append, List.length_map, List.length_singleton]
      omega

theorem entries_agree_with_get_two_blobs :
    (∀ blob ∈ ([[0x1D, 0x08], []] : List Bytes), blob.length < 2 ^ 29) ∧
    (∃ found : List (Nat × Bytes), entries ⟨[0, 2, 0x1D, 0x08, 0]⟩ = found.map .ok ∧
      found.map Prod.snd = [[0x1D, 0x08], []] ∧
      ∀ entry ∈ found, get ⟨[0, 2, 0x1D, 0x08, 0]⟩ entry.1 = .ok entry.2) ∧
    ofBytes [0, 1, 0xAA, 0xE0] = .ok ⟨[0, 1, 0xAA, 0xE0]⟩ ∧
    (entries ⟨[0, 1, 0xAA, 0xE0]⟩).length < 4 := by
  have short : ∀ blob ∈ ([[0x1D, 0x08], []] : List Bytes), blob.length < 2 ^ 29 := by decide
  obtain ⟨data, found, written, -, blobs_eq, -, visited, gets⟩ := entries_agree_with_get.1 _ short
  cases written
  exact ⟨short, ⟨found, visited, blobs_eq, gets⟩, rfl,
    (entries_agree_with_get.2 [0, 1, 0xAA, 0xE0] _ rfl).2.1⟩

end BlobHeap

end CliMetadata
