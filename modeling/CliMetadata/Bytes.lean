/-!
Byte strings and the numbers they spell. A number is written in a fixed count of base-256 digits,
least significant first (`LE`) or most significant first (`BE`); digits beyond the count are lost.
-/

namespace CliMetadata

abbrev Bytes := List UInt8

namespace Bytes

/-- The number spelled by the bytes, least significant first. -/
def toNatLE : Bytes → Nat
  | [] => 0
  | byte :: rest => byte.toNat + 256 * toNatLE rest

/-- The low `width` base-256 digits of a number, least significant first. -/
def ofNatLE : (width : Nat) → Nat → Bytes
  | 0, _ => []
  | width + 1, n => UInt8.ofNat n :: ofNatLE width (n / 256)

def toNatBE (bytes : Bytes) : Nat := toNatLE bytes.reverse

def ofNatBE (width n : Nat) : Bytes := (ofNatLE width n).reverse

/-- The bytes in `[start, start + length)`, if all of them exist. -/
def slice? (bytes : Bytes) (start length : Nat) : Option Bytes :=
  if start + length ≤ bytes.length then some ((bytes.drop start).take length) else none

/-- One character per byte: the code point of the same value. -/
def toText (bytes : Bytes) : String :=
  String.ofList (bytes.map fun byte => Char.ofNat byte.toNat)

/-- The bytes before the first zero byte, or all of them if there is none. -/
def untilZero (bytes : Bytes) : Bytes := bytes.takeWhile (· != 0)

@[simp] theorem length_ofNatLE (width n : Nat) : (ofNatLE width n).length = width := by
  induction width generalizing n with
  | zero => rfl
  | succ width ih => simp [ofNatLE, ih]

@[simp] theorem length_ofNatBE (width n : Nat) : (ofNatBE width n).length = width := by
  simp [ofNatBE]

end Bytes

end CliMetadata
