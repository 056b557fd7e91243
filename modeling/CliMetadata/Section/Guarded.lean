import CliMetadata.Image.Guarded
import Mathlib.Algebra.Group.Nat.Defs

/-!
Address mapping with its unchecked operations laid open. The ends of the ranges are sums of 64 bits,
the distance from the start of a range is a difference, and a file offset is a sum of 64 bits again.
Where the exact result does not fit, the operation has none.
-/

namespace CliMetadata

namespace Guarded

/-- A sum, which has to fit into so many bits. -/
def add (bits a b : Nat) : Guarded Nat :=
  if a + b < 2 ^ bits then .ok (a + b) else .error .crash

/-- Whether a place lies in the range that starts and is as long as given. -/
def contains (start length place : Nat) : Guarded Bool := do
  let behind ← add 64 start length
  return start ≤ place && place < behind

end Guarded

namespace SectionTable

def guardedOffsetOfRva (table : SectionTable) (rva : Nat) : Guarded Nat := do
  let found ← table.sections.findM? fun header =>
    Guarded.contains header.virtualAddress.toNat header.virtualExtent rva
  match found with
  | none => throw (.fault (.malformed (.unmappedRva rva)))
  | some header => do
    let delta ← Guarded.sub rva header.virtualAddress.toNat
    if delta < header.rawSize.toNat then Guarded.add 64 header.rawOffset.toNat delta
    else throw (.fault (.malformed (.uninitializedTail rva header.displayName)))

/-- The last sum is one of 32 bits that is checked, so that it gives a fault. -/
def guardedRvaOfOffset (table : SectionTable) (offset : Nat) : Guarded Nat :=
  if offset < 0x100000000 then do
    let found ← table.sections.findM? fun header =>
      Guarded.contains header.rawOffset.toNat header.rawSize.toNat offset
    match found with
    | none => throw (.fault (.malformed (.unmappedOffset offset)))
    | some header => do
      let delta ← Guarded.sub offset header.rawOffset.toNat
      let rva := delta + header.virtualAddress.toNat
      if rva < 0x100000000 then return rva
      else throw (.fault (.malformed (.addressOverflow offset header.displayName)))
  else throw (.fault (.malformed (.offsetTooLarge offset)))

end SectionTable

end CliMetadata
