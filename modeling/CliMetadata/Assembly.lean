import CliMetadata.Text.Decimal
import CliMetadata.Text.Hex

/-!
Assemblies are known by a name, a version of four numbers, a culture and the token of a public
key. The display name writes all four in this order; `neutral` and `null` stand for an absent
culture and an absent key token.
-/

namespace CliMetadata

structure AssemblyVersion where
  major : UInt16 := 0
  minor : UInt16 := 0
  build : UInt16 := 0
  revision : UInt16 := 0
deriving DecidableEq, Repr

namespace AssemblyVersion

/-- The four numbers as digits of one number, so that versions compare by their first difference.
-/
def rank (version : AssemblyVersion) : Nat :=
  ((version.major.toNat * 0x10000 + version.minor.toNat) * 0x10000 + version.build.toNat) *
    0x10000 + version.revision.toNat

instance : LE AssemblyVersion := ⟨fun a b => a.rank ≤ b.rank⟩

instance : DecidableLE AssemblyVersion := fun a b =>
  inferInstanceAs (Decidable (a.rank ≤ b.rank))

def chars (version : AssemblyVersion) : List Char :=
  Text.decimal version.major.toNat ++ '.' :: Text.decimal version.minor.toNat ++
    '.' :: Text.decimal version.build.toNat ++ '.' :: Text.decimal version.revision.toNat

instance : ToString AssemblyVersion := ⟨fun version => String.ofList version.chars⟩

end AssemblyVersion

structure AssemblyIdentity where
  name : String
  version : AssemblyVersion := {}
  culture : Option String := none
  /-- The key token as one number, its first byte the most significant. -/
  publicKeyToken : Option UInt64 := none
deriving DecidableEq, Repr

namespace AssemblyIdentity

/-- The identity with another culture; the empty and the neutral culture are none. -/
def withCulture (identity : AssemblyIdentity) (culture : String) : AssemblyIdentity :=
  { identity with culture := if culture = "" ∨ culture = "neutral" then none else some culture }

def withPublicKeyToken (identity : AssemblyIdentity) (token : UInt64) : AssemblyIdentity :=
  { identity with publicKeyToken := some token }

def cultureChars (identity : AssemblyIdentity) : List Char :=
  (identity.culture.getD "neutral").toList

def keyTokenChars (identity : AssemblyIdentity) : List Char :=
  match identity.publicKeyToken with
  | some token => Text.hexDigits .lower 16 token.toNat
  | none => "null".toList

def displayChars (identity : AssemblyIdentity) : List Char :=
  identity.name.toList ++ ", Version=".toList ++ identity.version.chars ++
    ", Culture=".toList ++ identity.cultureChars ++
    ", PublicKeyToken=".toList ++ identity.keyTokenChars

def displayName (identity : AssemblyIdentity) : String := String.ofList identity.displayChars

end AssemblyIdentity

end CliMetadata
