/-!
Decimal text. A number is written without leading zeros; reading takes any leading zeros and one
leading plus sign.
-/

namespace CliMetadata.Text

def decimal (n : Nat) : List Char := Nat.toDigits 10 n

/-- A minus sign stands before the digits of a negative number. -/
def signedDecimal (i : Int) : List Char :=
  if i < 0 then '-' :: decimal i.natAbs else decimal i.natAbs

/-- The value of an ASCII digit. -/
def digitValue? (c : Char) : Option Nat :=
  if '0' ≤ c ∧ c ≤ '9' then some (c.toNat - 48) else none

/-- The number spelled by ASCII digits that follow digits of the value `high`. -/
def digitsFrom? (high : Nat) : List Char → Option Nat
  | [] => some high
  | c :: rest => (digitValue? c).bind fun d => digitsFrom? (10 * high + d) rest

/-- The number spelled by at least one ASCII digit and nothing else. -/
def digits? : List Char → Option Nat
  | [] => none
  | text => digitsFrom? 0 text

/-- The number spelled by digits, after a plus sign or none. -/
def decimal? : List Char → Option Nat
  | '+' :: rest => digits? rest
  | text => digits? text

end CliMetadata.Text
