import CliMetadata.Buffer

/-!
Compressed integers in words of 32 bits. The number is shifted and masked within a word, and the
bytes of its form are appended to a buffer one by one, in place: beside a fault stands the buffer
that it leaves behind.
-/

namespace CliMetadata

namespace Compressed.Form

/-- The form that the leading bits of a byte mark. -/
def ofLeadingBits? (first : UInt8) : Option Form :=
  if first &&& 0x80 = 0 then some .short
  else if first &&& 0xC0 = 0x80 then some .medium
  else if first &&& 0xE0 = 0xC0 then some .long
  else none

/-- The bits of a word that a number in the form can have. -/
def mask : Form → UInt32
  | .short => 0x7F
  | .medium => 0x3FFF
  | .long => 0x1FFFFFFF

/-- The bits that stand in front of a negative number of the form. -/
def signBits : Form → UInt32
  | .short => 0xFFFFFFC0
  | .medium => 0xFFFFE000
  | .long => 0xF0000000

/-- The number in the bytes of the form, without the bits that mark it. -/
def word : Form → Bytes → UInt32
  | .short, [a] => a.toUInt32
  | .medium, [a, b] => (a &&& 0x3F).toUInt32 <<< 8 ||| b.toUInt32
  | .long, [a, b, c, d] =>
    (a &&& 0x1F).toUInt32 <<< 24 ||| b.toUInt32 <<< 16 ||| c.toUInt32 <<< 8 ||| d.toUInt32
  | _, _ => 0

/-- A signed number with its sign in the lowest bit of the form. -/
def rotateWord (form : Form) (i : Int32) : UInt32 :=
  (i.toUInt32 <<< 1 &&& form.mask) ||| if i < 0 then 1 else 0

def unrotateWord (form : Form) (raw : UInt32) : Int32 :=
  let magnitude := raw >>> 1
  if raw &&& 1 = 0 then magnitude.toInt32 else (magnitude ||| form.signBits).toInt32

end Compressed.Form

open Compressed

abbrev Append := EStateM EncodingFault Buffer

/-- The buffer with bytes behind its own; the offset stays. -/
def Buffer.extend (buffer : Buffer) (bytes : Bytes) : Buffer :=
  { buffer with data := buffer.data ++ bytes }

namespace Append

/-- The buffer that is left behind without a fault. -/
def run? (append : Append Unit) (buffer : Buffer) : Except EncodingFault Buffer :=
  match append buffer with
  | .ok () written => .ok written
  | .error fault _ => .error fault

def byte (value : UInt8) : Append Unit := fun buffer => .ok () (buffer.extend [value])

def word : Form → UInt32 → Append Unit
  | .short, raw => byte raw.toUInt8
  | .medium, raw => do
    byte ((raw >>> 8).toUInt8 ||| 0x80)
    byte raw.toUInt8
  | .long, raw => do
    byte ((raw >>> 24).toUInt8 ||| 0xC0)
    byte (raw >>> 16).toUInt8
    byte (raw >>> 8).toUInt8
    byte raw.toUInt8

def unsigned (n : UInt32) : Append Unit :=
  match Form.ofUnsigned? n.toNat with
  | some form => word form n
  | none => throw (.unsignedTooLarge n.toNat)

def signed (i : Int32) : Append Unit :=
  match Form.ofSigned? i.toInt with
  | some form => word form (form.rotateWord i)
  | none => throw (.signedOutOfRange i.toInt)

end Append

namespace Read

def word : Read (Form × UInt32) := do
  let start ← position
  let first ← peekByte
  match Form.ofLeadingBits? first with
  | none => throw (.invalidCompressedInteger first start)
  | some form => return (form, form.word (← take form.width))

def unsignedWord : Read UInt32 := do
  return (← word).2

def signedWord : Read Int32 := do
  let (form, raw) ← word
  return form.unrotateWord raw

end Read

end CliMetadata
