import CliMetadata.Assembly.Parsing
import CliMetadata.Proofs.Texts

/-!
Display names that are refused. The number, version and key token readers are each given the texts
they take. A component is left at the last value of its key and refuses the name by any of its
values, since each part changes one component and looks at no other. The format of key tokens is
documented without the plus sign that is taken for the first digit of a pair, and texts with such a
sign are all that the documentation refuses and the reader does not.
-/

namespace CliMetadata

section

variable {ε α β : Type}

theorem exists_mapM_iff {f : α → Except ε β} {items : List α} :
    (∃ results, items.mapM f = .ok results) ↔ ∀ item ∈ items, ∃ b, f item = .ok b := by
  induction items with
  | nil => exact iff_of_true ⟨[], rfl⟩ (by simp)
  | cons item rest ih =>
      rw [List.forall_mem_cons, ← ih]
      simp only [List.mapM_cons, bind_ok_iff, pure_ok_iff]
      refine ⟨?_, ?_⟩
      · intro given
        obtain ⟨_, b, first, results, others, rfl⟩ := given
        exact ⟨⟨b, first⟩, results, others⟩
      · intro given
        obtain ⟨⟨b, first⟩, results, others⟩ := given
        exact ⟨_, b, first, results, others, rfl⟩

end

namespace AssemblyVersion

/-- A number of 16 bits between blanks or none. -/
def IsNumber (part : List Char) : Prop := ∃ n < 0x10000, Text.IsDecimal (Text.trim part) n

/-- One to four numbers between dots. -/
def IsVersion (text : List Char) : Prop :=
  (Text.split '.' text).length ≤ 4 ∧ ∀ part ∈ Text.split '.' text, IsNumber part

theorem exists_number?_iff {part : List Char} : (∃ n, number? part = .ok n) ↔ IsNumber part := by
  rw [number?, IsNumber]
  simp only [← Text.decimal?_eq_some_iff]
  cases Text.decimal? (Text.trim part) with
  | none => simp
  | some n => by_cases small : n < 0x10000 <;> simp [Option.filter_some, small]

theorem exists_ofChars_iff {text : List Char} :
    (∃ version, ofChars text = .ok version) ↔ IsVersion text := by
  simp only [IsVersion, ← exists_number?_iff, ← exists_mapM_iff]
  by_cases few : (Text.split '.' text).length ≤ 4
  · rw [and_iff_right few]
    simp only [ofChars, if_pos few, bind_ok_iff, pure_ok_iff]
    refine ⟨?_, ?_⟩
    · intro given
      obtain ⟨_, numbers, read, _⟩ := given
      exact ⟨numbers, read⟩
    · intro given
      obtain ⟨numbers, read⟩ := given
      exact ⟨_, numbers, read, rfl⟩
  · simp [ofChars, few]

end AssemblyVersion

namespace AssemblyIdentity

/-- A key token as it is documented: none, or sixteen hexadecimal digits. -/
def IsKeyToken (text : List Char) : Prop :=
  text = [] ∨ text.map Char.toLower = "null".toList ∨
    text.length = 16 ∧ ∀ c ∈ text, Text.IsHexDigit c

/-- Pairs of hexadecimal digits, where a plus sign may stand for the first one. -/
def IsSignedPairs : List Char → Prop
  | [] => True
  | [_] => False
  | first :: second :: rest =>
    (first = '+' ∨ Text.IsHexDigit first) ∧ Text.IsHexDigit second ∧ IsSignedPairs rest

/-- A key token as it is taken. -/
def IsSignedKeyToken (text : List Char) : Prop :=
  text = [] ∨ text.map Char.toLower = "null".toList ∨ text.length = 16 ∧ IsSignedPairs text

theorem keyByte?_isSome_iff {first second : Char} : (keyByte? first second).isSome ↔
    (first = '+' ∨ Text.IsHexDigit first) ∧ Text.IsHexDigit second := by
  rw [keyByte?, ← Text.hexValue?_isSome_iff, ← Text.hexValue?_isSome_iff]
  by_cases sign : first = '+'
  · simp [sign]
  · cases Text.hexValue? first <;> simp [sign]

theorem keyBytesFrom?_isSome_iff (high : Nat) {text : List Char} :
    (keyBytesFrom? high text).isSome ↔ IsSignedPairs text := by
  fun_induction IsSignedPairs text generalizing high with
  | case1 => simp [keyBytesFrom?]
  | case2 => simp [keyBytesFrom?]
  | case3 first second rest ih =>
      rw [keyBytesFrom?, ← and_assoc, ← keyByte?_isSome_iff]
      cases keyByte? first second with
      | none => simp
      | some byte => simp [ih]

theorem IsSignedPairs.ascii {text : List Char} (pairs : IsSignedPairs text) :
    ∀ c ∈ text, c.toNat < 128 := by
  fun_induction IsSignedPairs text with
  | case1 => simp
  | case2 => cases pairs
  | case3 first second rest ih =>
      obtain ⟨sign | digit, other, others⟩ := pairs
      · simpa [sign] using ⟨other.ascii, ih others⟩
      · simpa using ⟨digit.ascii, other.ascii, ih others⟩

theorem exists_keyTokenOfChars_iff {text : List Char} :
    (∃ token, keyTokenOfChars text = .ok token) ↔ IsSignedKeyToken text := by
  rw [keyTokenOfChars, IsSignedKeyToken, ← or_assoc]
  by_cases absent : text = [] ∨ text.map Char.toLower = "null".toList
  · rw [if_pos absent]
    exact iff_of_true ⟨none, rfl⟩ (.inl absent)
  rw [if_neg absent, or_iff_right absent]
  refine ⟨?_, ?_⟩
  · intro given
    obtain ⟨token, read⟩ := given
    split at read
    · next long =>
      refine ⟨long.1, (keyBytesFrom?_isSome_iff 0).mp ?_⟩
      cases spelled : keyBytesFrom? 0 text with
      | none => simp [spelled] at read
      | some value => rfl
    · cases read
  · intro given
    obtain ⟨long, pairs⟩ := given
    have ascii : (text.all fun c => decide (c.toNat < 128)) = true := by
      simpa using pairs.ascii
    obtain ⟨value, spelled⟩ :=
      Option.isSome_iff_exists.mp ((keyBytesFrom?_isSome_iff 0).mpr pairs)
    rw [if_pos ⟨long, ascii⟩, spelled]
    exact ⟨_, rfl⟩

theorem isSignedPairs_of_isHexDigit {text : List Char} (even : text.length % 2 = 0)
    (digits : ∀ c ∈ text, Text.IsHexDigit c) : IsSignedPairs text := by
  fun_induction IsSignedPairs text with
  | case1 => trivial
  | case2 => cases even
  | case3 first second rest ih =>
      obtain ⟨opening, others⟩ := List.forall_mem_cons.mp digits
      obtain ⟨closing, others⟩ := List.forall_mem_cons.mp others
      rw [List.length_cons, List.length_cons, Nat.add_assoc, Nat.add_mod_right] at even
      exact ⟨.inr opening, closing, ih even others⟩

theorem IsSignedPairs.isHexDigit {text : List Char} (pairs : IsSignedPairs text)
    (unsigned : '+' ∉ text) : ∀ c ∈ text, Text.IsHexDigit c := by
  fun_induction IsSignedPairs text with
  | case1 => simp
  | case2 => cases pairs
  | case3 first second rest ih =>
      obtain ⟨sign | opening, closing, others⟩ := pairs
      · exact absurd (sign ▸ List.mem_cons_self) unsigned
      · have behind : '+' ∉ rest := fun mem =>
          unsigned (List.mem_cons_of_mem first (List.mem_cons_of_mem second mem))
        refine List.forall_mem_cons.mpr ⟨opening, ?_⟩
        exact List.forall_mem_cons.mpr ⟨closing, ih others behind⟩

/-- What is taken without being documented is what has a plus sign. -/
theorem isKeyToken_iff {text : List Char} :
    IsKeyToken text ↔ IsSignedKeyToken text ∧ '+' ∉ text := by
  refine ⟨?_, ?_⟩
  · intro token
    obtain rfl | null | ⟨long, digits⟩ := token
    · exact ⟨.inl rfl, List.not_mem_nil⟩
    · refine ⟨.inr (.inl null), fun sign => ?_⟩
      have lowered : '+' ∈ text.map Char.toLower := List.mem_map_of_mem (f := Char.toLower) sign
      rw [null] at lowered
      exact absurd lowered (by decide)
    · have even : text.length % 2 = 0 := by rw [long]
      exact ⟨.inr (.inr ⟨long, isSignedPairs_of_isHexDigit even digits⟩),
        fun sign => Text.not_isHexDigit_plus (digits '+' sign)⟩
  · intro given
    obtain ⟨taken, unsigned⟩ := given
    exact taken.imp_right fun taken => taken.imp_right fun ⟨long, pairs⟩ =>
      ⟨long, pairs.isHexDigit unsigned⟩

/-- The parts of a display name, the name first. -/
def parts (text : List Char) : List (List Char) := (Text.split ',' text).map Text.trim

/-- The value that a part gives to a key. -/
def value? (key : String) (part : List Char) : Option (List Char) :=
  (Text.splitFirst? '=' part).bind fun sides =>
    if Text.trim sides.1 = key.toList then some (Text.trim sides.2) else none

/-- The values that the parts behind the name give to a key. -/
def values (key : String) (text : List Char) : List (List Char) :=
  (parts text).tail.filterMap (value? key)

/-- The culture of this name; the empty and the neutral culture are none. -/
def cultureOfChars (value : List Char) : Option String :=
  if value = [] ∨ value = "neutral".toList then none else some (String.ofList value)

theorem ofList_eq_iff {text : List Char} {name : String} :
    String.ofList text = name ↔ text = name.toList := by
  rw [← String.toList_inj, String.toList_ofList]

theorem withCulture_ofList (identity : AssemblyIdentity) (value : List Char) :
    identity.withCulture (String.ofList value) =
      { identity with culture := cultureOfChars value } := by
  simp only [withCulture, ofList_eq_iff, cultureOfChars]
  rfl

/-- What a part leaves a component at that the key sets. -/
def setBy {α : Type} (key : String) (read : List Char → Except Malformation α) (start : α)
    (part : List Char) : Except Malformation α :=
  (value? key part).elim (.ok start) read

/-- Each key sets a component of its own. -/
theorem withComponent_eq (identity : AssemblyIdentity) (part : List Char) :
    identity.withComponent part = do
      let version ← setBy "Version" AssemblyVersion.ofChars identity.version part
      let culture ← setBy "Culture" (.ok ∘ cultureOfChars) identity.culture part
      let keyToken ← setBy "PublicKeyToken" keyTokenOfChars identity.publicKeyToken part
      return ⟨identity.name, version, culture, keyToken⟩ := by
  rw [withComponent, setBy, setBy, setBy]
  cases found : Text.splitFirst? '=' part with
  | none =>
      have absent (key : String) : value? key part = none := by rw [value?, found, Option.bind_none]
      rw [absent, absent, absent]
      rfl
  | some sides =>
      obtain ⟨key, value⟩ := sides
      have here (name : String) (same : Text.trim key = name.toList) :
          value? name part = some (Text.trim value) := by
        rw [value?, found]
        exact if_pos same
      have absent (name : String) (other : Text.trim key ≠ name.toList) :
          value? name part = none := by
        rw [value?, found]
        exact if_neg other
      simp only [ofList_eq_iff]
      by_cases ofVersion : Text.trim key = "Version".toList
      · rw [if_pos ofVersion, here _ ofVersion, absent "Culture" (ofVersion.trans_ne (by decide)),
          absent "PublicKeyToken" (ofVersion.trans_ne (by decide))]
        rfl
      rw [if_neg ofVersion, absent _ ofVersion]
      by_cases ofCulture : Text.trim key = "Culture".toList
      · rw [if_pos ofCulture, here _ ofCulture,
          absent "PublicKeyToken" (ofCulture.trans_ne (by decide)), withCulture_ofList]
        rfl
      rw [if_neg ofCulture, absent _ ofCulture]
      by_cases ofKeyToken : Text.trim key = "PublicKeyToken".toList
      · rw [if_pos ofKeyToken, here _ ofKeyToken]
        rfl
      · rw [if_neg ofKeyToken, absent _ ofKeyToken]
        rfl

section

variable {α : Type} {read : List Char → Except Malformation α} {start result : α}

/-- All the values can be read, and the component is left at the last one, or at its start. -/
def Settles (read : List Char → Except Malformation α) (start : α) (values : List (List Char))
    (result : α) : Prop :=
  (∀ value ∈ values, ∃ a, read value = .ok a) ∧
    values.getLast?.elim (.ok start) read = .ok result

theorem settles_nil_iff : Settles read start [] result ↔ start = result := by
  simp [Settles]

theorem settles_cons_iff {value : List Char} {others : List (List Char)} :
    Settles read start (value :: others) result ↔
      ∃ a, read value = .ok a ∧ Settles read a others result := by
  -- Where there are other values the start does not matter.
  cases others with
  | nil =>
      simp only [settles_nil_iff, exists_eq_right]
      exact and_iff_right_of_imp fun done => List.forall_mem_singleton.mpr ⟨result, done⟩
  | cons second rest =>
      rw [Settles, List.forall_mem_cons, List.getLast?_cons_cons, and_assoc]
      exact exists_and_right.symm

/-- The parts set the component one after the other. -/
theorem settles_filterMap_cons_iff {key : String} {part : List Char} {rest : List (List Char)} :
    Settles read start ((part :: rest).filterMap (value? key)) result ↔
      ∃ a, setBy key read start part = .ok a ∧
        Settles read a (rest.filterMap (value? key)) result := by
  rw [setBy]
  cases found : value? key part with
  | none =>
      rw [List.filterMap_cons_none found]
      simp
  | some value =>
      rw [List.filterMap_cons_some found, settles_cons_iff]
      rfl

theorem exists_settles_iff (start : α) {values : List (List Char)} :
    (∃ result, Settles read start values result) ↔ ∀ value ∈ values, ∃ a, read value = .ok a := by
  refine ⟨?_, ?_⟩
  · intro given
    obtain ⟨_, all, _⟩ := given
    exact all
  · intro all
    cases last : values.getLast? with
    | none => exact ⟨start, all, by rw [last]; rfl⟩
    | some value =>
        obtain ⟨a, done⟩ := all value (List.mem_of_getLast? last)
        exact ⟨a, all, by rw [last]; exact done⟩

end

/-- What the parts behind the name leave of an identity. -/
theorem withComponents_ok_iff {identity changed : AssemblyIdentity} {others : List (List Char)} :
    others.foldlM withComponent identity = .ok changed ↔ identity.name = changed.name ∧
      Settles AssemblyVersion.ofChars identity.version (others.filterMap (value? "Version"))
        changed.version ∧
      Settles (.ok ∘ cultureOfChars) identity.culture (others.filterMap (value? "Culture"))
        changed.culture ∧
      Settles keyTokenOfChars identity.publicKeyToken
        (others.filterMap (value? "PublicKeyToken")) changed.publicKeyToken := by
  induction others generalizing identity with
  | nil =>
      obtain ⟨name, version, culture, keyToken⟩ := identity
      obtain ⟨name', version', culture', keyToken'⟩ := changed
      simp [settles_nil_iff, pure_ok_iff]
  | cons part rest ih =>
      simp only [List.foldlM_cons, withComponent_eq, bind_ok_iff, pure_ok_iff, ih,
        settles_filterMap_cons_iff]
      refine ⟨?_, ?_⟩
      · intro given
        obtain ⟨_, ⟨version, hversion, culture, hculture, keyToken, hkeyToken, rfl⟩, name, versions,
          cultures, keyTokens⟩ := given
        exact ⟨name, ⟨version, hversion, versions⟩, ⟨culture, hculture, cultures⟩,
          keyToken, hkeyToken, keyTokens⟩
      · intro given
        obtain ⟨name, ⟨version, hversion, versions⟩, ⟨culture, hculture, cultures⟩, keyToken,
          hkeyToken, keyTokens⟩ := given
        exact ⟨_, ⟨version, hversion, culture, hculture, keyToken, hkeyToken, rfl⟩, name, versions,
          cultures, keyTokens⟩

/-- The name, which stands in front of the first comma. -/
def namePart (text : List Char) : List Char := (parts text).headD []

theorem ofChars_ok_iff {text : List Char} {identity : AssemblyIdentity} :
    ofChars text = .ok identity ↔ namePart text ≠ [] ∧
      String.ofList (namePart text) = identity.name ∧
      Settles AssemblyVersion.ofChars {} (values "Version" text) identity.version ∧
      Settles (.ok ∘ cultureOfChars) none (values "Culture" text) identity.culture ∧
      Settles keyTokenOfChars none (values "PublicKeyToken" text) identity.publicKeyToken := by
  rw [ofChars, ← parts, namePart, values, values, values]
  split
  · next all => simp [all]
  · next others all => simp [all]
  · next name others nonempty all =>
    rw [all, List.headD_cons, List.tail_cons, and_iff_right nonempty, withComponents_ok_iff]

/-- The display name breaks its format, where key tokens are what is given. -/
def IsMalformed (isKeyToken : List Char → Prop) (text : List Char) : Prop :=
  namePart text = [] ∨ (∃ value ∈ values "Version" text, ¬AssemblyVersion.IsVersion value) ∨
    ∃ value ∈ values "PublicKeyToken" text, ¬isKeyToken value

theorem not_isMalformed_iff {isKeyToken : List Char → Prop} {text : List Char} :
    ¬IsMalformed isKeyToken text ↔ namePart text ≠ [] ∧
      (∀ value ∈ values "Version" text, AssemblyVersion.IsVersion value) ∧
      ∀ value ∈ values "PublicKeyToken" text, isKeyToken value := by
  simp [IsMalformed]

/-- The identity is named as the text is, and each other component is at the last value that the
text gives to it. -/
structure HasLastValues (text : List Char) (identity : AssemblyIdentity) : Prop where
  name : String.ofList (namePart text) = identity.name
  version : (values "Version" text).getLast?.elim (.ok {}) AssemblyVersion.ofChars =
    .ok identity.version
  culture : (values "Culture" text).getLast?.bind cultureOfChars = identity.culture
  keyToken : (values "PublicKeyToken" text).getLast?.elim (.ok none) keyTokenOfChars =
    .ok identity.publicKeyToken

theorem settles_culture_iff {values : List (List Char)} {result : Option String} :
    Settles (.ok ∘ cultureOfChars) none values result ↔
      values.getLast?.bind cultureOfChars = result := by
  have all : ∀ value ∈ values, ∃ culture, (.ok ∘ cultureOfChars) value =
      (.ok culture : Except Malformation (Option String)) := fun value _ => ⟨_, rfl⟩
  rw [Settles, and_iff_right all]
  cases values.getLast? <;> simp

theorem ofChars_ok_iff_hasLastValues {text : List Char} {identity : AssemblyIdentity} :
    ofChars text = .ok identity ↔
      ¬IsMalformed IsSignedKeyToken text ∧ HasLastValues text identity := by
  rw [ofChars_ok_iff, not_isMalformed_iff, settles_culture_iff, Settles, Settles]
  simp only [AssemblyVersion.exists_ofChars_iff, exists_keyTokenOfChars_iff]
  refine ⟨?_, ?_⟩
  · intro given
    obtain ⟨nonempty, name, ⟨versions, version⟩, culture, keyTokens, keyToken⟩ := given
    exact ⟨⟨nonempty, versions, keyTokens⟩, name, version, culture, keyToken⟩
  · intro given
    obtain ⟨⟨nonempty, versions, keyTokens⟩, name, version, culture, keyToken⟩ := given
    exact ⟨nonempty, name, ⟨versions, version⟩, culture, keyTokens, keyToken⟩

theorem exists_ofChars_iff {text : List Char} :
    (∃ identity, ofChars text = .ok identity) ↔ ¬IsMalformed IsSignedKeyToken text := by
  refine ⟨?_, ?_⟩
  · intro given
    obtain ⟨identity, read⟩ := given
    exact (ofChars_ok_iff_hasLastValues.mp read).1
  · intro sound
    obtain ⟨nonempty, versions, keyTokens⟩ := not_isMalformed_iff.mp sound
    simp only [← AssemblyVersion.exists_ofChars_iff] at versions
    simp only [← exists_keyTokenOfChars_iff] at keyTokens
    obtain ⟨version, hversion⟩ := (exists_settles_iff {}).mpr versions
    obtain ⟨keyToken, hkeyToken⟩ := (exists_settles_iff none).mpr keyTokens
    exact ⟨⟨_, version, _, keyToken⟩, ofChars_ok_iff.mpr
      ⟨nonempty, rfl, hversion, settles_culture_iff.mpr rfl, hkeyToken⟩⟩

theorem exists_error_iff {text : List Char} :
    (∃ cause, ofChars text = .error cause) ↔ IsMalformed IsSignedKeyToken text := by
  rw [← not_iff_not, ← exists_ofChars_iff]
  cases ofChars text <;> simp

/-- The documented format refuses as well what is read with a plus sign in a key token. -/
theorem not_isMalformed_isKeyToken_iff {text : List Char} :
    ¬IsMalformed IsKeyToken text ↔ ¬IsMalformed IsSignedKeyToken text ∧
      ∀ value ∈ values "PublicKeyToken" text, '+' ∉ value := by
  simp only [not_isMalformed_iff, isKeyToken_iff, forall₂_and, and_assoc]

/-- A display name is refused if and only if it breaks its format, where a plus sign may stand for
the first digit of a pair in a key token. So the documented format, which has no plus signs there,
decides about a text if and only if the text is not read with one. What is read has of each key the
last value. -/
theorem ofString_malformed_exact (text : String) :
    ((∃ cause, ofString text = .error cause) ↔ IsMalformed IsSignedKeyToken text.toList) ∧
    (((∃ cause, ofString text = .error cause) ↔ IsMalformed IsKeyToken text.toList) ↔
      ∀ identity, ofString text = .ok identity →
        ∀ value ∈ values "PublicKeyToken" text.toList, '+' ∉ value) ∧
    ∀ identity, ofString text = .ok identity ↔
      ¬IsMalformed IsSignedKeyToken text.toList ∧ HasLastValues text.toList identity := by
  have refused : (∃ cause, ofString text = .error cause) ↔
      IsMalformed IsSignedKeyToken text.toList := exists_error_iff
  have taken : (∃ identity, ofString text = .ok identity) ↔
      ¬IsMalformed IsSignedKeyToken text.toList := exists_ofChars_iff
  refine ⟨refused, ?_, fun identity => ofChars_ok_iff_hasLastValues⟩
  have compared : (IsMalformed IsSignedKeyToken text.toList ↔ IsMalformed IsKeyToken text.toList) ↔
      ((∃ identity, ofString text = .ok identity) →
        ∀ value ∈ values "PublicKeyToken" text.toList, '+' ∉ value) := by
    rw [taken, ← iff_self_and, ← not_isMalformed_isKeyToken_iff, not_iff_not]
  rw [refused, compared, forall_exists_index]

/-- A repeated key, an absent key token in other letters, and parts that say nothing. -/
theorem ofString_malformed_exact_repeated_keys :
    ofString "Lib, Version=1, PublicKeyToken=NULL, Other=x, Version = +2.0 , y" =
      .ok { name := "Lib", version := { major := 2 } } ∧
    ((∃ cause, ofString "Lib, Version=1, PublicKeyToken=NULL, Other=x, Version = +2.0 , y" =
        .error cause) ↔
      IsMalformed IsKeyToken
        "Lib, Version=1, PublicKeyToken=NULL, Other=x, Version = +2.0 , y".toList) := by
  have read : ofString "Lib, Version=1, PublicKeyToken=NULL, Other=x, Version = +2.0 , y" =
      .ok { name := "Lib", version := { major := 2 } } := by rfl
  refine ⟨read, (ofString_malformed_exact _).2.1.mpr fun _ _ => ?_⟩
  decide

/-- A sign that is read as the first digit of a key token, which the documented format refuses. -/
theorem not_malformed_as_documented :
    ofString "Foo, PublicKeyToken=+f3f5f7f11d50a3a" =
      .ok { name := "Foo", publicKeyToken := some 0x0f3f5f7f11d50a3a } ∧
    IsMalformed IsKeyToken "Foo, PublicKeyToken=+f3f5f7f11d50a3a".toList ∧
    ¬((∃ cause, ofString "Foo, PublicKeyToken=+f3f5f7f11d50a3a" = .error cause) ↔
      IsMalformed IsKeyToken "Foo, PublicKeyToken=+f3f5f7f11d50a3a".toList) := by
  have read : ofString "Foo, PublicKeyToken=+f3f5f7f11d50a3a" =
      .ok { name := "Foo", publicKeyToken := some 0x0f3f5f7f11d50a3a } := by rfl
  have signed : ¬IsKeyToken "+f3f5f7f11d50a3a".toList :=
    fun token => (isKeyToken_iff.mp token).2 List.mem_cons_self
  have malformed : IsMalformed IsKeyToken "Foo, PublicKeyToken=+f3f5f7f11d50a3a".toList :=
    .inr (.inr ⟨"+f3f5f7f11d50a3a".toList, by decide, signed⟩)
  refine ⟨read, malformed, ?_⟩
  intro decided
  obtain ⟨cause, refused⟩ := decided.mpr malformed
  rw [read] at refused
  cases refused

end AssemblyIdentity

end CliMetadata
