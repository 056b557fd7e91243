import CliMetadata.Buffer
import CliMetadata.Cursor.Operation

/-!
Accesses to a buffer with the arithmetic of the offset laid open. The end of the bytes is a sum of
64 bits that is checked and gives a fault, before anything is written; the range that a write goes
to is relied on to exist and to be as long as what is copied into it.
-/

namespace CliMetadata

/-- A value together with its type. -/
structure Scalar where
  type : ScalarType
  value : Int
  holds : type.Holds value

/-- The bytes of the value, least significant first. -/
def Scalar.bytes (scalar : Scalar) : Bytes := scalar.type.toBytesLE scalar.value

/-- The data with bytes copied over the ones in `[start, behind)`. -/
def Guarded.overwrite (data : Bytes) (start behind : Nat) (bytes : Bytes) : Guarded Bytes :=
  if start ≤ behind ∧ behind ≤ data.length ∧ bytes.length = behind - start then
    .ok (data.take start ++ bytes ++ data.drop behind)
  else .error .crash

abbrev Access := EStateM Stop Buffer

instance : MonadLift Guarded Access where
  monadLift outcome := fun buffer =>
    match outcome with
    | .ok a => .ok a buffer
    | .error stop => .error stop buffer

namespace Access

/-- Reads at the offset, which moves to where the reader stops. -/
def reading {α : Type} (read : GuardedRead α) : Access α := fun buffer =>
  match read { data := buffer.data, pos := buffer.offset } with
  | .ok value stopped => .ok value { buffer with offset := stopped.pos }
  | .error stop stopped => .error stop { buffer with offset := stopped.pos }

def readLE (type : ScalarType) : Access Int := reading (GuardedRead.scalarLE type)

def readBE (type : ScalarType) : Access Int := reading (GuardedRead.scalarBE type)

def writeLE (scalar : Scalar) : Access Unit := do
  let behind ← reading (GuardedRead.endAfter scalar.type.width)
  let buffer ← get
  let data ← Guarded.overwrite buffer.data buffer.offset behind scalar.bytes
  set { data, offset := behind : Buffer }

/-- Reads or writes a buffer that stays as it is if there is a fault. -/
def ofBuffer {α : Type} (step : Buffer → Except Fault (α × Buffer)) : Access α := fun buffer =>
  match step buffer with
  | .ok (value, stepped) => .ok value stepped
  | .error fault => .error (.fault fault) buffer

end Access

end CliMetadata
