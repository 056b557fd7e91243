import CliMetadata.Cursor

/-!
Numbers of a fixed width. A value of a scalar type is an integer; a floating point value is
represented by its bit pattern.
-/

namespace CliMetadata

inductive ScalarType where
  | u8 | i8 | u16 | i16 | u32 | i32 | u64 | i64 | f32 | f64
deriving DecidableEq, Repr

namespace ScalarType

def all : List ScalarType := [.u8, .i8, .u16, .i16, .u32, .i32, .u64, .i64, .f32, .f64]

def name : ScalarType → String
  | .u8 => "u8"
  | .i8 => "i8"
  | .u16 => "u16"
  | .i16 => "i16"
  | .u32 => "u32"
  | .i32 => "i32"
  | .u64 => "u64"
  | .i64 => "i64"
  | .f32 => "f32"
  | .f64 => "f64"

def ofName? (name : String) : Option ScalarType := all.find? fun type => type.name = name

/-- The width in bytes. -/
def width : ScalarType → Nat
  | .u8 | .i8 => 1
  | .u16 | .i16 => 2
  | .u32 | .i32 | .f32 => 4
  | .u64 | .i64 | .f64 => 8

def isSigned : ScalarType → Bool
  | .i8 | .i16 | .i32 | .i64 => true
  | _ => false

/-- The number of bit patterns of the type. -/
def patterns (type : ScalarType) : Nat := 1 <<< (8 * type.width)

/-- Whether the type has the value. -/
def Holds (type : ScalarType) (value : Int) : Prop :=
  if type.isSigned then -(type.patterns / 2 : Int) ≤ value ∧ value < (type.patterns / 2 : Int)
  else 0 ≤ value ∧ value < type.patterns

instance (type : ScalarType) (value : Int) : Decidable (type.Holds value) :=
  inferInstanceAs (Decidable (if type.isSigned then
      -(type.patterns / 2 : Int) ≤ value ∧ value < (type.patterns / 2 : Int)
    else 0 ≤ value ∧ value < type.patterns))

/-- The value with the given bit pattern, in two's complement for the signed types. -/
def ofPattern (type : ScalarType) (pattern : Nat) : Int :=
  if type.isSigned then Int.bmod pattern type.patterns else pattern

/-- The bit pattern of a value. -/
def toPattern (type : ScalarType) (value : Int) : Nat := (value % type.patterns).toNat

def ofBytesLE (type : ScalarType) (bytes : Bytes) : Int := type.ofPattern (Bytes.toNatLE bytes)

def ofBytesBE (type : ScalarType) (bytes : Bytes) : Int := type.ofPattern (Bytes.toNatBE bytes)

def toBytesLE (type : ScalarType) (value : Int) : Bytes :=
  Bytes.ofNatLE type.width (type.toPattern value)

end ScalarType

namespace Read

def scalarLE (type : ScalarType) : Read Int := do
  return type.ofBytesLE (← take type.width)

def scalarBE (type : ScalarType) : Read Int := do
  return type.ofBytesBE (← take type.width)

end Read

end CliMetadata
