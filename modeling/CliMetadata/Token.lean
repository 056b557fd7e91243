import CliMetadata.Text.Hex

/-!
Metadata tokens: 32-bit words with a table number in the high byte and a row number in the low
24 bits. Signatures name types by tokens of three tables only, packed as coded indexes
(ECMA-335 II.23.2.8): the row shifted left by two bits, with the table's tag below it.
-/

namespace CliMetadata

/-- The tables a coded index can point into. -/
inductive TypeTable where
  | typeDef
  | typeRef
  | typeSpec
deriving DecidableEq, Repr

namespace TypeTable

def number : TypeTable → Nat
  | .typeDef => 0x02
  | .typeRef => 0x01
  | .typeSpec => 0x1B

def tag : TypeTable → Nat
  | .typeDef => 0
  | .typeRef => 1
  | .typeSpec => 2

def ofNumber? : Nat → Option TypeTable
  | 0x02 => some .typeDef
  | 0x01 => some .typeRef
  | 0x1B => some .typeSpec
  | _ => none

/-- The table with the given tag; the tag 3 is reserved. -/
def ofTag? : Nat → Option TypeTable
  | 0 => some .typeDef
  | 1 => some .typeRef
  | 2 => some .typeSpec
  | _ => none

end TypeTable

structure Token where
  value : UInt32
deriving DecidableEq, Repr

namespace Token

/-- The token of a row, of which only the low 24 bits are kept. -/
def ofParts (table row : Nat) : Token :=
  ⟨UInt32.ofNat (table % 0x100 * 0x1000000 + row % 0x1000000)⟩

def table (token : Token) : Nat := token.value.toNat / 0x1000000

def row (token : Token) : Nat := token.value.toNat % 0x1000000

def isNull (token : Token) : Bool := token.value == 0

/-- The table of the token, if a coded index can point into it. -/
def typeTable? (token : Token) : Option TypeTable := TypeTable.ofNumber? token.table

/-- The coded index of the token; none if its table has no tag. -/
def codedIndex? (token : Token) : Option Nat :=
  token.typeTable?.map fun table => token.row * 4 + table.tag

/-- The token a coded index stands for; none if the tag is reserved. Row bits above the 24th are
merged into the table number. -/
def ofCodedIndex? (index : Nat) : Option Token :=
  (TypeTable.ofTag? (index % 4)).map fun table =>
    ⟨UInt32.ofNat (table.number * 0x1000000 ||| index / 4)⟩

/-- The eight hexadecimal digits of the token. -/
def text (token : Token) : String := "0x" ++ Text.hex .lower 8 token.value.toNat

/-- The token with its parts spelled out. -/
def details (token : Token) : String :=
  "Token(" ++ token.text ++ ", table: 0x" ++ Text.hex .lower 2 token.table ++ ", row: " ++
    toString token.row ++ ")"

instance : ToString Token := ⟨text⟩

instance : LE Token := ⟨fun a b => a.value ≤ b.value⟩

instance : DecidableLE Token := fun a b => inferInstanceAs (Decidable (a.value ≤ b.value))

end Token

end CliMetadata
