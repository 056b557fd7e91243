import CliMetadata.Bytes

/-!
Hexadecimal text: a number as digits, padded with zeros on the left to a least width, and bytes as
pairs of digits.
-/

namespace CliMetadata.Text

inductive LetterCase where
  | lower
  | upper
deriving DecidableEq, Repr

/-- The digit for a value below sixteen; larger values have the digit of their last four bits. -/
def hexDigit (letters : LetterCase) (n : Nat) : Char :=
  let d := n % 16
  if d < 10 then Char.ofNat (48 + d)
  else match letters with
    | .lower => Char.ofNat (87 + d)
    | .upper => Char.ofNat (55 + d)

/-- The last `width` digits of a number. -/
def hexDigits (letters : LetterCase) : (width : Nat) → Nat → List Char
  | 0, _ => []
  | width + 1, n => hexDigits letters width (n / 16) ++ [hexDigit letters n]

/-- How many hexadecimal digits a number has without leading zeros; zero has one. -/
def hexLength (n : Nat) : Nat := n.log2 / 4 + 1

/-- At least `width` digits, and as many more as the number needs. -/
def hex (letters : LetterCase) (width n : Nat) : String :=
  String.ofList (hexDigits letters (max width (hexLength n)) n)

/-- The value of one hexadecimal digit, in either letter case. -/
def hexValue? (c : Char) : Option Nat :=
  if '0' ≤ c ∧ c ≤ '9' then some (c.toNat - 48)
  else if 'a' ≤ c ∧ c ≤ 'f' then some (c.toNat - 87)
  else if 'A' ≤ c ∧ c ≤ 'F' then some (c.toNat - 55)
  else none

end CliMetadata.Text

namespace CliMetadata.Bytes

/-- Two digits for each byte. -/
def toHex (bytes : Bytes) : String :=
  String.ofList (bytes.flatMap fun byte => Text.hexDigits .lower 2 byte.toNat)

/-- The bytes spelled by pairs of digits. -/
def ofHex? : List Char → Option Bytes
  | [] => some []
  | first :: second :: rest => do
    let high ← Text.hexValue? first
    let low ← Text.hexValue? second
    return UInt8.ofNat (16 * high + low) :: (← ofHex? rest)
  | [_] => none

end CliMetadata.Bytes
