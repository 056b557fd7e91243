import CliMetadata.Scalar
import CliMetadata.Section.Guarded
import CliMetadata.Compressed.Words

/-!
What can be asked of a cursor, as data. Places and counts are words of 64 bits, also those far
behind the end. Beside the readers stand the ones with their arithmetic laid open: the end of what
is read is a sum of 64 bits that is checked and gives a fault, while the sum that moves the position
and the range of bytes are relied on.
-/

namespace CliMetadata

namespace GuardedRead

/-- The position after further bytes; a sum that does not fit into 64 bits is out of bounds too. -/
def endAfter (count : Nat) : GuardedRead Nat := do
  let cursor ← get
  if cursor.pos + count < 2 ^ 64 ∧ cursor.pos + count ≤ cursor.data.length then
    return cursor.pos + count
  else throw (.fault .outOfBounds)

def moveTo (target : Nat) : GuardedRead Unit := modify fun cursor => { cursor with pos := target }

def skip (count : Nat) : GuardedRead Unit := do
  let behind ← endAfter count
  moveTo behind

/-- The bytes that follow, without a step over them. -/
def window (count : Nat) : GuardedRead Bytes := do
  let behind ← endAfter count
  let cursor ← get
  Guarded.range cursor.data cursor.pos behind

def bytes (count : Nat) : GuardedRead Bytes := do
  let behind ← endAfter count
  let cursor ← get
  let found ← Guarded.range cursor.data cursor.pos behind
  moveTo behind
  return found

/-- The bytes of a value of fixed width. The position is moved by a sum of its own. -/
def fixed (width : Nat) : GuardedRead Bytes := do
  let found ← window width
  let start ← Read.position
  let behind ← Guarded.add 64 start width
  moveTo behind
  return found

def peek {α : Type} (read : GuardedRead α) : GuardedRead α := fun cursor =>
  match read cursor with
  | .ok value _ => .ok value cursor
  | .error stop _ => .error stop cursor

open Compressed

/-- The bytes of a form whose first byte is known. The one of the short form is not read a second
time. -/
def formBytes (form : Form) (first : UInt8) : GuardedRead Bytes := do
  let start ← Read.position
  let found ← match form with
    | .short => pure [first]
    | .medium | .long => bytes form.width
  let behind ← Guarded.add 64 start form.width
  moveTo behind
  return found

/-- The form at the position and the word it holds. -/
def word : GuardedRead (Form × UInt32) := do
  let start ← Read.position
  let first ← Read.peekByte
  match Form.ofLeadingBits? first with
  | none => throw (.fault (.invalidCompressedInteger first start))
  | some form => return (form, form.word (← formBytes form first))

def unsigned : GuardedRead Nat := do
  return (← word).2.toNat

def signed : GuardedRead Int := do
  let (form, raw) ← word
  return (form.unrotateWord raw).toInt

def token : GuardedRead Token := do
  let index ← unsigned
  Read.ofOption (Token.ofCodedIndex? index) (.malformed (.reservedIndexTag index))

def scalarLE (type : ScalarType) : GuardedRead Int := do
  return type.ofBytesLE (← fixed type.width)

def scalarBE (type : ScalarType) : GuardedRead Int := do
  return type.ofBytesBE (← fixed type.width)

def sectionHeader : GuardedRead SectionHeader := do
  Read.require SectionHeader.width
  let name ← bytes 8
  let uint32 := do return UInt32.ofNat (Bytes.toNatLE (← fixed 4))
  let uint16 := do return UInt16.ofNat (Bytes.toNatLE (← fixed 2))
  return {
    name := SectionName.ofBytes name
    virtualSize := ← uint32
    virtualAddress := ← uint32
    rawSize := ← uint32
    rawOffset := ← uint32
    relocationsOffset := ← uint32
    lineNumbersOffset := ← uint32
    relocationCount := ← uint16
    lineNumberCount := ← uint16
    characteristics := ← uint32 }

end GuardedRead

namespace Cursor

inductive Operation where
  | seek (target : UInt64)
  | advance
  | advanceBy (count : UInt64)
  | require (count : UInt64)
  | endAfter (count : UInt64)
  | peekByte
  | peekLE (type : ScalarType)
  | readLE (type : ScalarType)
  | readBE (type : ScalarType)
  | bytes (count : UInt64)
  | unsigned
  | signed
  | token
  | sectionHeader
deriving DecidableEq, Repr

inductive Answer where
  | done
  | place (target : Nat)
  | byte (value : UInt8)
  | number (value : Int)
  | bytes (found : Bytes)
  | token (token : Token)
  | header (header : SectionHeader)
deriving DecidableEq

namespace Operation

def read : Operation → Read Answer
  | .seek target => do Read.seek target.toNat; return .done
  | .advance => do Read.skip 1; return .done
  | .advanceBy count => do Read.skip count.toNat; return .done
  | .require count => do Read.require count.toNat; return .done
  | .endAfter count => do return .place (← Read.endAfter count.toNat)
  | .peekByte => do return .byte (← Read.peekByte)
  | .peekLE type => do return .number (← Read.peek (Read.scalarLE type))
  | .readLE type => do return .number (← Read.scalarLE type)
  | .readBE type => do return .number (← Read.scalarBE type)
  | .bytes count => do return .bytes (← Read.take count.toNat)
  | .unsigned => do return .number (← Read.unsigned)
  | .signed => do return .number (← Read.signed)
  | .token => do return .token (← Read.token)
  | .sectionHeader => do return .header (← Read.sectionHeader)

/-- The same with the arithmetic of the position laid open. -/
def guarded : Operation → GuardedRead Answer
  | .seek target => do Read.seek target.toNat; return .done
  | .advance => do GuardedRead.skip 1; return .done
  | .advanceBy count => do GuardedRead.skip count.toNat; return .done
  | .require count => do Read.require count.toNat; return .done
  | .endAfter count => do return .place (← GuardedRead.endAfter count.toNat)
  | .peekByte => do return .byte (← Read.peekByte)
  | .peekLE type => do return .number (← GuardedRead.peek (GuardedRead.scalarLE type))
  | .readLE type => do return .number (← GuardedRead.scalarLE type)
  | .readBE type => do return .number (← GuardedRead.scalarBE type)
  | .bytes count => do return .bytes (← GuardedRead.bytes count.toNat)
  | .unsigned => do return .number (← GuardedRead.unsigned)
  | .signed => do return .number (← GuardedRead.signed)
  | .token => do return .token (← GuardedRead.token)
  | .sectionHeader => do return .header (← GuardedRead.sectionHeader)

end Operation

end Cursor

end CliMetadata
