import CliMetadata.Compressed
import CliMetadata.Scalar

/-!
Buffers: bytes with an offset. Numbers of a fixed width are read and written at the offset, which
moves behind them; an access that leaves the bytes changes neither the bytes nor the offset.
Compressed integers are appended at the end and leave the offset where it is.
-/

namespace CliMetadata

structure Buffer where
  data : Bytes
  offset : Nat := 0
deriving DecidableEq, Repr

namespace Buffer

/-- The bytes from the offset that a value of the type takes. -/
def window (buffer : Buffer) (type : ScalarType) : Except Fault Bytes :=
  buffer.data.slice buffer.offset type.width

/-- The value at the offset, and the buffer with the offset behind it. -/
def readLE (buffer : Buffer) (type : ScalarType) : Except Fault (Int × Buffer) := do
  let bytes ← buffer.window type
  return (type.ofBytesLE bytes, { buffer with offset := buffer.offset + type.width })

def readBE (buffer : Buffer) (type : ScalarType) : Except Fault (Int × Buffer) := do
  let bytes ← buffer.window type
  return (type.ofBytesBE bytes, { buffer with offset := buffer.offset + type.width })

/-- The value at the start of the data. -/
def first (buffer : Buffer) (type : ScalarType) : Except Fault Int :=
  (buffer.data.slice 0 type.width).map type.ofBytesLE

/-- The buffer with a value written over the bytes at the offset, and the offset behind it. -/
def writeLE (buffer : Buffer) (type : ScalarType) (value : Int) : Except Fault Buffer := do
  let _ ← buffer.window type
  return {
    data := buffer.data.take buffer.offset ++ type.toBytesLE value ++
      buffer.data.drop (buffer.offset + type.width)
    offset := buffer.offset + type.width }

def appendUnsigned (buffer : Buffer) (n : Nat) : Except EncodingFault Buffer :=
  (Compressed.encodeUnsigned n).map fun bytes => { buffer with data := buffer.data ++ bytes }

def appendSigned (buffer : Buffer) (i : Int) : Except EncodingFault Buffer :=
  (Compressed.encodeSigned i).map fun bytes => { buffer with data := buffer.data ++ bytes }

end Buffer

end CliMetadata
