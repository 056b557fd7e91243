/-!
Element types, the tag bytes that open every node of a signature (ECMA-335 II.23.1.16). A tag is
primitive if the core library has a type for it.
-/

namespace CliMetadata

inductive ElementType where
  | endMarker | void | boolean | char | i1 | u1 | i2 | u2 | i4 | u4 | i8 | u8 | r4 | r8 | string
  | ptr | byRef | valueType | classType | typeVar | array | genericInst | typedByRef | valueArray
  | i | u | r | fnPtr | object | szArray | methodVar | modReqd | modOpt | internal | moduleType
  | sentinel | pinned
deriving DecidableEq, Repr

namespace ElementType

/-- Every element type, in ascending order of the tag bytes. -/
def all : List ElementType :=
  [.endMarker, .void, .boolean, .char, .i1, .u1, .i2, .u2, .i4, .u4, .i8, .u8, .r4, .r8,
   .string, .ptr, .byRef, .valueType, .classType, .typeVar, .array, .genericInst, .typedByRef,
   .valueArray, .i, .u, .r, .fnPtr, .object, .szArray, .methodVar, .modReqd, .modOpt,
   .internal, .moduleType, .sentinel, .pinned]

def byte : ElementType → UInt8
  | .endMarker => 0x00
  | .void => 0x01
  | .boolean => 0x02
  | .char => 0x03
  | .i1 => 0x04
  | .u1 => 0x05
  | .i2 => 0x06
  | .u2 => 0x07
  | .i4 => 0x08
  | .u4 => 0x09
  | .i8 => 0x0A
  | .u8 => 0x0B
  | .r4 => 0x0C
  | .r8 => 0x0D
  | .string => 0x0E
  | .ptr => 0x0F
  | .byRef => 0x10
  | .valueType => 0x11
  | .classType => 0x12
  | .typeVar => 0x13
  | .array => 0x14
  | .genericInst => 0x15
  | .typedByRef => 0x16
  | .valueArray => 0x17
  | .i => 0x18
  | .u => 0x19
  | .r => 0x1A
  | .fnPtr => 0x1B
  | .object => 0x1C
  | .szArray => 0x1D
  | .methodVar => 0x1E
  | .modReqd => 0x1F
  | .modOpt => 0x20
  | .internal => 0x21
  | .moduleType => 0x3F
  | .sentinel => 0x41
  | .pinned => 0x45

/-- The name a tag has in reports. -/
def name : ElementType → String
  | .endMarker => "End"
  | .void => "Void"
  | .boolean => "Boolean"
  | .char => "Char"
  | .i1 => "I1"
  | .u1 => "U1"
  | .i2 => "I2"
  | .u2 => "U2"
  | .i4 => "I4"
  | .u4 => "U4"
  | .i8 => "I8"
  | .u8 => "U8"
  | .r4 => "R4"
  | .r8 => "R8"
  | .string => "String"
  | .ptr => "Ptr"
  | .byRef => "ByRef"
  | .valueType => "ValueType"
  | .classType => "Class"
  | .typeVar => "Var"
  | .array => "Array"
  | .genericInst => "GenericInst"
  | .typedByRef => "TypedByRef"
  | .valueArray => "ValueArray"
  | .i => "I"
  | .u => "U"
  | .r => "R"
  | .fnPtr => "FnPtr"
  | .object => "Object"
  | .szArray => "SzArray"
  | .methodVar => "MVar"
  | .modReqd => "CModReqd"
  | .modOpt => "CModOpt"
  | .internal => "Internal"
  | .moduleType => "Module"
  | .sentinel => "Sentinel"
  | .pinned => "Pinned"

/-- The tag with the given byte, if the byte is one. -/
def ofByte? (value : UInt8) : Option ElementType :=
  all.find? fun tag => tag.byte == value

/-- The simple name of the core library type a tag stands for; all of them are in `System`. -/
def coreName? : ElementType → Option String
  | .void => some "Void"
  | .boolean => some "Boolean"
  | .char => some "Char"
  | .i1 => some "SByte"
  | .u1 => some "Byte"
  | .i2 => some "Int16"
  | .u2 => some "UInt16"
  | .i4 => some "Int32"
  | .u4 => some "UInt32"
  | .i8 => some "Int64"
  | .u8 => some "UInt64"
  | .r4 => some "Single"
  | .r8 => some "Double"
  | .string => some "String"
  | .typedByRef => some "TypedReference"
  | .i => some "IntPtr"
  | .u => some "UIntPtr"
  | .object => some "Object"
  | _ => none

def coreNamespace : String := "System"

def isPrimitive (tag : ElementType) : Bool := tag.coreName?.isSome

/-- Whether a node may open with the tag. -/
def isNodeTag : ElementType → Bool
  | .endMarker | .r | .internal => false
  | _ => true

/-- Whether a node with the tag holds no further type that it wraps. -/
def isLeaf : ElementType → Bool
  | .valueType | .classType | .typeVar | .methodVar | .sentinel | .fnPtr | .genericInst => true
  | tag => tag.isPrimitive

/-- Whether the tag alone marks a type stored by value. -/
def isValueType : ElementType → Bool
  | .void | .boolean | .char | .i1 | .u1 | .i2 | .u2 | .i4 | .u4 | .i8 | .u8 | .r4 | .r8
  | .valueType | .valueArray | .typedByRef | .i | .u | .r => true
  | _ => false

theorem ofByte?_byte (tag : ElementType) : ofByte? tag.byte = some tag := by
  cases tag <;> decide

theorem byte_of_ofByte? {value : UInt8} {tag : ElementType} (h : ofByte? value = some tag) :
    tag.byte = value := by
  simpa using List.find?_some h

end ElementType

end CliMetadata
