import CliMetadata.Assembly.Parsing
import CliMetadata.Proofs.Texts
import Mathlib.Algebra.Group.Nat.Defs

/-!
Display names of assemblies and the identities they stand for. A display name says everything about
an identity whose name and culture are texts that can stand between commas. Only such identities
are ever read, so that what was read comes back from its display name.
-/

namespace CliMetadata

namespace Text

/-- The text can stand for itself between commas: no comma and no blank at an end gets lost. -/
structure IsComponent (text : List Char) : Prop where
  nonempty : text ≠ []
  noComma : ',' ∉ text
  trimmed : IsTrimmed text

theorem isComponent_of_forall {text : List Char} (nonempty : text ≠ [])
    (solid : ∀ c ∈ text, isBlank c = false ∧ c ≠ ',') : IsComponent text where
  nonempty := nonempty
  noComma mem := (solid _ mem).2 rfl
  trimmed := isTrimmed_of_forall fun c mem => (solid c mem).1

end Text

namespace AssemblyVersion

theorem number?_decimal (n : UInt16) : number? (Text.decimal n.toNat) = .ok n := by
  have solid : Text.IsTrimmed (Text.decimal n.toNat) :=
    Text.isTrimmed_of_forall fun c mem =>
      Text.not_isBlank_of_isDigit (Text.isDigit_of_mem_decimal mem)
  have small : decide (n.toNat < 0x10000) = true := decide_eq_true n.toNat_lt
  rw [number?, Text.trim_eq_self solid, Text.decimal?_decimal, Option.filter_some, if_pos small]
  simp

theorem mem_chars {version : AssemblyVersion} {c : Char} (mem : c ∈ version.chars) :
    c.isDigit = true ∨ c = '.' := by
  have number {n : Nat} (part : c ∈ Text.decimal n) := Text.isDigit_of_mem_decimal part
  simp only [chars, List.cons_append, List.append_assoc, List.mem_append, List.mem_cons] at mem
  rcases mem with major | dot | minor | dot | build | dot | revision
  · exact .inl (number major)
  · exact .inr dot
  · exact .inl (number minor)
  · exact .inr dot
  · exact .inl (number build)
  · exact .inr dot
  · exact .inl (number revision)

theorem isComponent_chars (version : AssemblyVersion) : Text.IsComponent version.chars := by
  refine Text.isComponent_of_forall (by simp [chars]) fun c mem => ?_
  rcases mem_chars mem with digit | rfl
  · refine ⟨Text.not_isBlank_of_isDigit digit, ?_⟩
    rintro rfl
    cases digit
  · decide

theorem ofChars_chars (version : AssemblyVersion) : ofChars version.chars = .ok version := by
  have noDot (n : Nat) : '.' ∉ Text.decimal n := Text.not_mem_decimal (by decide)
  have parts : Text.split '.' version.chars = [Text.decimal version.major.toNat,
      Text.decimal version.minor.toNat, Text.decimal version.build.toNat,
      Text.decimal version.revision.toNat] := by
    simp only [chars, List.cons_append, List.append_assoc]
    rw [Text.split_append_cons (noDot _), Text.split_append_cons (noDot _),
      Text.split_append_cons (noDot _), Text.split_eq_singleton (noDot _)]
  have numbers : [Text.decimal version.major.toNat, Text.decimal version.minor.toNat,
      Text.decimal version.build.toNat, Text.decimal version.revision.toNat].mapM number? =
        .ok [version.major, version.minor, version.build, version.revision] := by
    simp only [List.mapM_cons, List.mapM_nil, number?_decimal]
    rfl
  rw [ofChars, parts, numbers]
  rfl

end AssemblyVersion

namespace AssemblyIdentity

/-- A display name can say all of the identity. -/
structure IsRepresentable (identity : AssemblyIdentity) : Prop where
  name : Text.IsComponent identity.name.toList
  culture : ∀ culture ∈ identity.culture, Text.IsComponent culture.toList ∧ culture ≠ "neutral"

section

/-- Digits are never taken for the sign of a single digit. -/
theorem keyByte?_hexDigit (n : Nat) :
    keyByte? (Text.hexDigit .lower (n / 16)) (Text.hexDigit .lower n) = some (n % 256) := by
  have unsigned : Text.hexDigit .lower (n / 16) ≠ '+' := by
    have all : ∀ d < 16, Text.hexDigit .lower d ≠ '+' := by decide
    rw [← Text.hexDigit_mod]
    exact all (n / 16 % 16) (Nat.mod_lt _ (by decide))
  have value : 16 * (n / 16 % 16) + n % 16 = n % 256 := by omega
  rw [keyByte?, if_neg unsigned, Text.hexValue?_hexDigit, Text.hexValue?_hexDigit]
  simp only [Option.bind_some, Option.map_some, value]

theorem keyBytesFrom?_hexDigits (high bytes n : Nat) (rest : List Char) :
    keyBytesFrom? high (Text.hexDigits .lower (2 * bytes) n ++ rest) =
      keyBytesFrom? (high * 256 ^ bytes + n % 256 ^ bytes) rest := by
  induction bytes generalizing n rest with
  | zero => simp [Text.hexDigits, Nat.mod_one]
  | succ bytes ih =>
      -- The last byte stands behind the digits of the number without it.
      have value : 256 * (high * 256 ^ bytes + n / 16 / 16 % 256 ^ bytes) + n % 256 =
          high * 256 ^ (bytes + 1) + n % 256 ^ (bytes + 1) := by
        have shifted : n / 16 / 16 = n / 256 := by omega
        rw [Nat.pow_succ', Nat.mod_mul, shifted, Nat.mul_add, Nat.mul_left_comm]
        omega
      rw [Nat.mul_succ, Text.hexDigits, Text.hexDigits, List.append_assoc, List.append_assoc, ih]
      simp only [List.singleton_append, keyBytesFrom?]
      rw [keyByte?_hexDigit, Option.bind_some, value]

theorem keyTokenOfChars_hexDigits (token : UInt64) :
    keyTokenOfChars (Text.hexDigits .lower 16 token.toNat) = .ok (some token) := by
  have length_eq := Text.length_hexDigits .lower 16 token.toNat
  have given : ¬(Text.hexDigits .lower 16 token.toNat = [] ∨
      (Text.hexDigits .lower 16 token.toNat).map Char.toLower = "null".toList) := by
    rintro (empty | null)
    · rw [empty] at length_eq
      cases length_eq
    · have short := congrArg List.length null
      rw [List.length_map, length_eq] at short
      cases short
  have ascii : ∀ c ∈ Text.hexDigits .lower 16 token.toNat, decide (c.toNat < 128) = true := by
    intro c mem
    have all : ("0123456789abcdef".toList.all fun c => decide (c.toNat < 128)) = true := by decide
    exact List.all_eq_true.mp all c (Text.mem_hexDigits mem)
  have value : keyBytesFrom? 0 (Text.hexDigits .lower 16 token.toNat) = some token.toNat := by
    have fits : token.toNat < 256 ^ 8 := token.toNat_lt
    have read := keyBytesFrom?_hexDigits 0 8 token.toNat []
    rw [List.append_nil, Nat.zero_mul, Nat.zero_add, Nat.mod_eq_of_lt fits] at read
    exact read
  rw [keyTokenOfChars, if_neg given, if_pos ⟨length_eq, List.all_eq_true.mpr ascii⟩, value]
  simp

theorem keyTokenOfChars_keyTokenChars (identity : AssemblyIdentity) :
    keyTokenOfChars identity.keyTokenChars = .ok identity.publicKeyToken := by
  rw [keyTokenChars]
  cases identity.publicKeyToken with
  | none => rfl
  | some token => exact keyTokenOfChars_hexDigits token

end

theorem isComponent_keyTokenChars (identity : AssemblyIdentity) :
    Text.IsComponent identity.keyTokenChars := by
  rw [keyTokenChars]
  cases identity.publicKeyToken with
  | none => exact ⟨by decide, by decide, by decide⟩
  | some token =>
      refine Text.isComponent_of_forall ?_ fun c mem => ?_
      · refine List.ne_nil_of_length_pos ?_
        rw [Text.length_hexDigits]
        decide
      · have all : ("0123456789abcdef".toList.all fun c => !Text.isBlank c && c != ',') = true := by
          decide
        simpa using List.all_eq_true.mp all c (Text.mem_hexDigits mem)

theorem IsRepresentable.cultureChars {identity : AssemblyIdentity}
    (representable : identity.IsRepresentable) : Text.IsComponent identity.cultureChars := by
  rw [AssemblyIdentity.cultureChars]
  cases culture : identity.culture with
  | none => exact ⟨by decide, by decide, by decide⟩
  | some text => exact (representable.culture text culture).1

section

/-- A part of a display name that gives a component its value. -/
def keyed (key : String) (value : List Char) : List Char := key.toList ++ '=' :: value

/-- The blank behind a comma does not belong to the part. -/
theorem trim_keyed {key : String} {value : List Char} (first : Text.IsTrimmed (key.toList ++ ['=']))
    (trimmed : Text.IsTrimmed value) : Text.trim (' ' :: keyed key value) = keyed key value := by
  have whole : keyed key value = key.toList ++ ['='] ++ value := by simp [keyed]
  rw [Text.trim_cons_of_isBlank (by decide), whole, Text.trim_eq_self (first.append trimmed)]

theorem noComma_keyed {key : String} {value : List Char} (first : ',' ∉ key.toList)
    (absent : ',' ∉ value) : ',' ∉ ' ' :: keyed key value := by
  simp [keyed, first, absent]

/-- The parts of a display name as they are read. -/
theorem parts_displayChars {identity : AssemblyIdentity}
    (representable : identity.IsRepresentable) :
    (Text.split ',' identity.displayChars).map Text.trim = [identity.name.toList,
      keyed "Version" identity.version.chars, keyed "Culture" identity.cultureChars,
      keyed "PublicKeyToken" identity.keyTokenChars] := by
  have name := representable.name
  have version := identity.version.isComponent_chars
  have culture := representable.cultureChars
  have keyToken := identity.isComponent_keyTokenChars
  have laidOut : identity.displayChars = identity.name.toList ++
      ',' :: (' ' :: keyed "Version" identity.version.chars ++
        ',' :: (' ' :: keyed "Culture" identity.cultureChars ++
          ',' :: ' ' :: keyed "PublicKeyToken" identity.keyTokenChars)) := by
    simp [displayChars, keyed]
  rw [laidOut, Text.split_append_cons name.noComma,
    Text.split_append_cons (noComma_keyed (by decide) version.noComma),
    Text.split_append_cons (noComma_keyed (by decide) culture.noComma),
    Text.split_eq_singleton (noComma_keyed (by decide) keyToken.noComma)]
  simp only [List.map_cons, List.map_nil]
  rw [Text.trim_eq_self name.trimmed, trim_keyed (by decide) version.trimmed,
    trim_keyed (by decide) culture.trimmed, trim_keyed (by decide) keyToken.trimmed]

theorem withComponent_version (identity : AssemblyIdentity) (version : AssemblyVersion) :
    withComponent identity (keyed "Version" version.chars) =
      .ok { identity with version := version } := by
  have key : String.ofList (Text.trim "Version".toList) = "Version" := by decide
  rw [withComponent, keyed, Text.splitFirst?_append_cons (by decide)]
  simp only [key, Text.trim_eq_self version.isComponent_chars.trimmed,
    AssemblyVersion.ofChars_chars]
  rfl

theorem withComponent_culture (identity : AssemblyIdentity) {culture : List Char}
    (trimmed : Text.IsTrimmed culture) : withComponent identity (keyed "Culture" culture) =
      .ok (identity.withCulture (String.ofList culture)) := by
  have key : String.ofList (Text.trim "Culture".toList) = "Culture" := by decide
  rw [withComponent, keyed, Text.splitFirst?_append_cons (by decide)]
  simp only [key, Text.trim_eq_self trimmed]
  rfl

theorem withComponent_keyToken (identity other : AssemblyIdentity) :
    withComponent identity (keyed "PublicKeyToken" other.keyTokenChars) =
      .ok { identity with publicKeyToken := other.publicKeyToken } := by
  have key : String.ofList (Text.trim "PublicKeyToken".toList) = "PublicKeyToken" := by decide
  rw [withComponent, keyed, Text.splitFirst?_append_cons (by decide)]
  simp only [key, Text.trim_eq_self other.isComponent_keyTokenChars.trimmed,
    keyTokenOfChars_keyTokenChars]
  rfl

end

theorem ofChars_eq {text name : List Char} {parts : List (List Char)}
    (read : (Text.split ',' text).map Text.trim = name :: parts) (nonempty : name ≠ []) :
    ofChars text = parts.foldlM withComponent { name := String.ofList name } := by
  obtain ⟨c, rest, rfl⟩ := List.exists_cons_of_ne_nil nonempty
  rw [ofChars, read]

theorem IsRepresentable.withCulture {identity : AssemblyIdentity}
    (representable : identity.IsRepresentable) (other : AssemblyIdentity) :
    other.withCulture (String.ofList identity.cultureChars) =
      { other with culture := identity.culture } := by
  rw [AssemblyIdentity.withCulture, AssemblyIdentity.cultureChars, String.ofList_toList]
  cases culture : identity.culture with
  | none => rfl
  | some text =>
      obtain ⟨component, named⟩ := representable.culture text culture
      have nonempty : text ≠ "" := by
        rintro rfl
        exact component.nonempty rfl
      rw [Option.getD_some, if_neg (not_or.mpr ⟨nonempty, named⟩)]

theorem ofChars_displayChars {identity : AssemblyIdentity}
    (representable : identity.IsRepresentable) : ofChars identity.displayChars = .ok identity := by
  have trimmed := representable.cultureChars.trimmed
  rw [ofChars_eq (parts_displayChars representable) representable.name.nonempty]
  simp only [List.foldlM_cons, List.foldlM_nil, bind_ok_iff, pure_ok_iff]
  refine ⟨_, withComponent_version _ _, _, withComponent_culture _ trimmed, _,
    withComponent_keyToken _ identity, ?_⟩
  rw [representable.withCulture, String.ofList_toList]

/-- A blank at the front of a display name is none of its name. -/
theorem ofChars_cons_blank (text : List Char) : ofChars (' ' :: text) = ofChars text := by
  have parts : (Text.split ',' (' ' :: text)).map Text.trim =
      (Text.split ',' text).map Text.trim := by
    rw [Text.split, if_neg (by decide)]
    cases split : Text.split ',' text with
    | nil => exact absurd split (Text.split_ne_nil ',' text)
    | cons first others =>
        rw [List.map_cons, List.map_cons, Text.trim_cons_of_isBlank (by decide)]
  rw [ofChars, parts, ofChars]

/-- The culture that a part sets is trimmed, and no comma stands in a part. -/
theorem IsRepresentable.setCulture {identity : AssemblyIdentity} {value : List Char}
    (representable : identity.IsRepresentable) (noComma : ',' ∉ value) :
    (identity.withCulture (String.ofList (Text.trim value))).IsRepresentable := by
  refine ⟨representable.name, fun culture mem => ?_⟩
  by_cases neutral : String.ofList (Text.trim value) = "" ∨
      String.ofList (Text.trim value) = "neutral"
  · rw [AssemblyIdentity.withCulture, if_pos neutral] at mem
    cases mem
  · rw [AssemblyIdentity.withCulture, if_neg neutral] at mem
    obtain rfl := Option.some.inj mem
    obtain ⟨nonempty, named⟩ := not_or.mp neutral
    refine ⟨?_, named⟩
    rw [String.toList_ofList]
    refine ⟨?_, fun comma => noComma (Text.mem_of_mem_trim comma), Text.isTrimmed_trim value⟩
    intro empty
    rw [empty] at nonempty
    exact nonempty rfl

/-- What a part sets leaves an identity one that a display name can say. -/
theorem IsRepresentable.withComponent {identity changed : AssemblyIdentity} {part : List Char}
    (representable : identity.IsRepresentable) (noComma : ',' ∉ part)
    (set : identity.withComponent part = .ok changed) : changed.IsRepresentable := by
  rw [AssemblyIdentity.withComponent] at set
  cases found : Text.splitFirst? '=' part with
  | none =>
      rw [found] at set
      cases set
      exact representable
  | some sides =>
      obtain ⟨key, value⟩ := sides
      simp only [found] at set
      by_cases version : String.ofList (Text.trim key) = "Version"
      · rw [if_pos version] at set
        obtain ⟨read, _, set⟩ := bind_ok_iff.mp set
        cases set
        exact ⟨representable.name, representable.culture⟩
      rw [if_neg version] at set
      by_cases culture : String.ofList (Text.trim key) = "Culture"
      · rw [if_pos culture] at set
        cases set
        refine representable.setCulture fun comma => noComma ?_
        rw [Text.eq_of_splitFirst? found]
        exact List.mem_append_right _ (List.mem_cons_of_mem _ comma)
      rw [if_neg culture] at set
      by_cases keyToken : String.ofList (Text.trim key) = "PublicKeyToken"
      · rw [if_pos keyToken] at set
        obtain ⟨read, _, set⟩ := bind_ok_iff.mp set
        cases set
        exact ⟨representable.name, representable.culture⟩
      · rw [if_neg keyToken] at set
        cases set
        exact representable

theorem IsRepresentable.withComponents {identity changed : AssemblyIdentity}
    {parts : List (List Char)} (representable : identity.IsRepresentable)
    (noComma : ∀ part ∈ parts, ',' ∉ part)
    (set : parts.foldlM AssemblyIdentity.withComponent identity = .ok changed) :
    changed.IsRepresentable := by
  induction parts generalizing identity with
  | nil =>
      cases set
      exact representable
  | cons part rest ih =>
      obtain ⟨partNoComma, restNoComma⟩ := List.forall_mem_cons.mp noComma
      rw [List.foldlM_cons] at set
      obtain ⟨between, first, others⟩ := bind_ok_iff.mp set
      exact ih (representable.withComponent partNoComma first) restNoComma others

theorem isRepresentable_of_ofChars {text : List Char} {identity : AssemblyIdentity}
    (read : ofChars text = .ok identity) : identity.IsRepresentable := by
  have noComma : ∀ part ∈ (Text.split ',' text).map Text.trim, ',' ∉ part := by
    intro part mem comma
    obtain ⟨whole, given, rfl⟩ := List.mem_map.mp mem
    exact Text.not_mem_of_mem_split given (Text.mem_of_mem_trim comma)
  have trimmed : ∀ part ∈ (Text.split ',' text).map Text.trim, Text.IsTrimmed part := by
    intro part mem
    obtain ⟨whole, _, rfl⟩ := List.mem_map.mp mem
    exact Text.isTrimmed_trim whole
  rw [ofChars] at read
  cases parts : (Text.split ',' text).map Text.trim with
  | nil =>
      rw [parts] at read
      cases read
  | cons name others =>
      rw [parts] at read noComma trimmed
      obtain ⟨nameNoComma, othersNoComma⟩ := List.forall_mem_cons.mp noComma
      cases name with
      | nil => cases read
      | cons c rest =>
          refine IsRepresentable.withComponents ⟨?_, by simp⟩ othersNoComma read
          rw [String.toList_ofList]
          exact ⟨List.cons_ne_nil c rest, nameNoComma, trimmed _ List.mem_cons_self⟩

/-- The identities that come back from their display names are those that a display name can say,
and among them are all that were read. -/
theorem display_name_round_trip :
    (∀ identity : AssemblyIdentity,
      ofString identity.displayName = .ok identity ↔ identity.IsRepresentable) ∧
    ∀ (text : String) identity, ofString text = .ok identity →
      ofString identity.displayName = .ok identity := by
  have written (identity : AssemblyIdentity) :
      ofString identity.displayName = ofChars identity.displayChars := by
    rw [ofString, displayName, String.toList_ofList]
  refine ⟨fun identity => ⟨?_, ?_⟩, ?_⟩
  · intro read
    rw [written] at read
    exact isRepresentable_of_ofChars read
  · intro representable
    rw [written]
    exact ofChars_displayChars representable
  · intro text identity read
    rw [written]
    exact ofChars_displayChars (isRepresentable_of_ofChars read)

theorem display_name_round_trip_repeated_keys :
    ofString "Lib , PublicKeyToken=NULL, Culture=fr,Version=+1.02 ,Culture=de-DE, Other" =
      .ok { name := "Lib", version := { major := 1, minor := 2 }, culture := some "de-DE" } ∧
    ofString (AssemblyIdentity.displayName
        { name := "Lib", version := { major := 1, minor := 2 }, culture := some "de-DE" }) =
      .ok { name := "Lib", version := { major := 1, minor := 2 }, culture := some "de-DE" } := by
  have read : ofString
      "Lib , PublicKeyToken=NULL, Culture=fr,Version=+1.02 ,Culture=de-DE, Other" =
        .ok { name := "Lib", version := { major := 1, minor := 2 }, culture := some "de-DE" } := by
    rfl
  exact ⟨read, display_name_round_trip.2 _ _ read⟩

end AssemblyIdentity

end CliMetadata
