import CliMetadata.CoreLibrary
import CliMetadata.Signature

/-!
Finding the rows behind tokens, and the core library types behind primitive tags. A row map holds
rows under their own tokens; of two rows with one token the later one stays. Rows are entered as
they are, or they are made from a type, or from a signature and its row number.
-/

namespace CliMetadata

structure Resolver where
  row? : Token → Option TypeRow
  primitive? : ElementType → Option NamedType

namespace Resolver

/-- Knows no rows, and the primitive types of the standard core library. -/
def empty : Resolver where
  row? _ := none
  primitive? := CoreLibrary.standard.type?

/-- The resolver without primitive types. -/
def withoutPrimitives (resolver : Resolver) : Resolver :=
  { resolver with primitive? := fun _ => none }

end Resolver

structure RowMap where
  rows : List TypeRow := []
  library : CoreLibrary := .standard

namespace RowMap

def insert (map : RowMap) (row : TypeRow) : RowMap :=
  { map with rows := row :: map.rows.filter fun other => other.token ≠ row.token }

def find? (map : RowMap) (token : Token) : Option TypeRow :=
  map.rows.find? fun row => row.token = token

/-- How many tokens have a row. -/
def size (map : RowMap) : Nat := map.rows.length

def isEmpty (map : RowMap) : Bool := map.rows.isEmpty

def ofList (rows : List TypeRow) (library : CoreLibrary) : RowMap :=
  rows.foldl insert { library }

def resolver (map : RowMap) : Resolver where
  row? := map.find?
  primitive? := map.library.type?

end RowMap

/-- What can be entered into a row map. -/
inductive Registration where
  | given (row : TypeRow)
  | definition (type : NamedType)
  | reference (type : NamedType)
  | specification (number : Nat) (signature : TypeSignature)

namespace Registration

/-- The row that is inserted. -/
def toRow : Registration → TypeRow
  | .given row => row
  | .definition type => .definition type
  | .reference type => .reference type
  | .specification number signature => .ofSignature number signature

end Registration

/-- The map with one registration after the other. -/
def RowMap.register (map : RowMap) (registrations : List Registration) : RowMap :=
  registrations.foldl (fun map registration => map.insert registration.toRow) map

end CliMetadata
