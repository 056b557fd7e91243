import CliMetadata.Compressed

/-!
The blob heap: byte strings, each behind its length as a compressed integer. A heap starts with a
zero byte, which is the empty blob at offset zero. Blobs are found by offset or visited in order;
a visit ends at the first offset without a blob.
-/

namespace CliMetadata

structure BlobHeap where
  data : Bytes
deriving DecidableEq, Repr

namespace BlobHeap

def ofBytes (data : Bytes) : Except Malformation BlobHeap :=
  if data.head? = some 0 then .ok ⟨data⟩ else .error .blobHeapStart

/-- The blob at an offset. -/
def get (heap : BlobHeap) (offset : Nat) : Except Fault Bytes :=
  if offset ≤ heap.data.length then Read.counted.run? (heap.data.drop offset)
  else .error .outOfBounds

/-- The blobs from an offset on, each with its offset. -/
def entriesFrom (data : Bytes) (offset : Nat) : List (Except Fault (Nat × Bytes)) :=
  if offset < data.length then
    match h : Read.counted { data := data.drop offset } with
    | .ok bytes stopped =>
      have : 0 < stopped.pos := Read.pos_lt_of_counted h
      .ok (offset, bytes) :: entriesFrom data (offset + stopped.pos)
    | .error fault _ => [.error fault]
  else []
termination_by data.length - offset

def entries (heap : BlobHeap) : List (Except Fault (Nat × Bytes)) := entriesFrom heap.data 1

end BlobHeap

end CliMetadata
