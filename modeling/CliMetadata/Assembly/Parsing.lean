import CliMetadata.Assembly
import CliMetadata.Fault
import CliMetadata.Text.Blank
import CliMetadata.Text.Split

/-!
Reading versions and display names. A display name is a list of parts between commas. The first
part is the name; a later part sets a component if it has the form `key=value` with a known key,
and is passed over otherwise. Where a key is repeated the last part counts.
-/

namespace CliMetadata

namespace AssemblyVersion

/-- One number of a version. -/
def number? (part : List Char) : Except Malformation UInt16 :=
  match (Text.decimal? (Text.trim part)).filter (· < 0x10000) with
  | some n => .ok (UInt16.ofNat n)
  | none => .error (.versionNumber (String.ofList part))

/-- The version spelled by one to four numbers between dots; missing numbers are zero. -/
def ofChars (text : List Char) : Except Malformation AssemblyVersion :=
  let parts := Text.split '.' text
  if parts.length ≤ 4 then do
    let numbers ← parts.mapM number?
    return {
      major := numbers.getD 0 0
      minor := numbers.getD 1 0
      build := numbers.getD 2 0
      revision := numbers.getD 3 0 }
  else .error (.versionParts (String.ofList text))

def ofString (text : String) : Except Malformation AssemblyVersion := ofChars text.toList

end AssemblyVersion

namespace AssemblyIdentity

/-- The byte spelled by two hexadecimal digits, or by a plus sign and one digit. -/
def keyByte? (first second : Char) : Option Nat :=
  if first = '+' then Text.hexValue? second
  else (Text.hexValue? first).bind fun high => (Text.hexValue? second).map (16 * high + ·)

/-- The bytes spelled by pairs of characters, as digits that follow the value `high`. -/
def keyBytesFrom? (high : Nat) : List Char → Option Nat
  | first :: second :: rest =>
    (keyByte? first second).bind fun byte => keyBytesFrom? (256 * high + byte) rest
  | [] => some high
  | [_] => none

/-- The key token spelled by sixteen digits; the empty text and `null` spell none. -/
def keyTokenOfChars (text : List Char) : Except Malformation (Option UInt64) :=
  if text = [] ∨ text.map Char.toLower = "null".toList then .ok none
  else if text.length = 16 ∧ text.all (·.toNat < 128) then
    match keyBytesFrom? 0 text with
    | some token => .ok (some (UInt64.ofNat token))
    | none => .error (.keyTokenDigits (String.ofList text))
  else .error (.keyTokenLength (String.ofList text))

/-- The identity with the component set that a part of a display name names. -/
def withComponent (identity : AssemblyIdentity) (part : List Char) :
    Except Malformation AssemblyIdentity :=
  match Text.splitFirst? '=' part with
  | none => .ok identity
  | some (key, value) =>
    let key := String.ofList (Text.trim key)
    let value := Text.trim value
    if key = "Version" then do
      return { identity with version := ← AssemblyVersion.ofChars value }
    else if key = "Culture" then .ok (identity.withCulture (String.ofList value))
    else if key = "PublicKeyToken" then do
      return { identity with publicKeyToken := ← keyTokenOfChars value }
    else .ok identity

/-- The identity that a display name spells. -/
def ofChars (text : List Char) : Except Malformation AssemblyIdentity :=
  match (Text.split ',' text).map Text.trim with
  | [] | [] :: _ => .error .emptyAssemblyName
  | name :: parts => parts.foldlM withComponent { name := String.ofList name }

def ofString (text : String) : Except Malformation AssemblyIdentity := ofChars text.toList

end AssemblyIdentity

end CliMetadata
