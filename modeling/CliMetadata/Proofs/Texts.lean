import CliMetadata.Text.Blank
import CliMetadata.Text.Decimal
import CliMetadata.Text.Hex
import CliMetadata.Text.Split
import Mathlib.Data.List.DropRight

/-!
What comes back from text: the parts of a text that was put together with separators, a text from
the blanks around it, and a number from its digits. `IsDecimal` and `IsHexDigit` say which texts are
read as numbers at all.
-/

namespace CliMetadata.Text

section

variable {separator : Char}

theorem split_eq_singleton {text : List Char} (absent : separator ∉ text) :
    split separator text = [text] := by
  induction text with
  | nil => rfl
  | cons c rest ih =>
      obtain ⟨other, restAbsent⟩ := List.ne_and_not_mem_of_not_mem_cons absent
      rw [split, if_neg other.symm, ih restAbsent]

/-- The first separator ends the first part. -/
theorem split_append_cons {front : List Char} (absent : separator ∉ front) (rest : List Char) :
    split separator (front ++ separator :: rest) = front :: split separator rest := by
  induction front with
  | nil => rw [List.nil_append, split, if_pos rfl]
  | cons c front ih =>
      obtain ⟨other, restAbsent⟩ := List.ne_and_not_mem_of_not_mem_cons absent
      rw [List.cons_append, split, if_neg other.symm, ih restAbsent]

/-- Parts without the separator come back. -/
theorem split_intercalate {parts : List (List Char)} (nonempty : parts ≠ [])
    (absent : ∀ part ∈ parts, separator ∉ part) :
    split separator ([separator].intercalate parts) = parts := by
  induction parts with
  | nil => exact absurd rfl nonempty
  | cons first rest ih =>
      obtain ⟨here, others⟩ := List.forall_mem_cons.mp absent
      cases rest with
      | nil =>
          rw [List.intercalate_singleton]
          exact split_eq_singleton here
      | cons second rest =>
          rw [List.intercalate_cons_cons, List.append_assoc, List.singleton_append,
            split_append_cons here, ih (List.cons_ne_nil _ _) others]

theorem not_mem_of_mem_split {text part : List Char} (mem : part ∈ split separator text) :
    separator ∉ part := by
  induction text generalizing part with
  | nil =>
      obtain rfl := List.mem_singleton.mp mem
      exact List.not_mem_nil
  | cons c rest ih =>
      rw [split] at mem
      by_cases here : c = separator
      · rw [if_pos here] at mem
        rcases List.mem_cons.mp mem with rfl | mem
        · exact List.not_mem_nil
        · exact ih mem
      · rw [if_neg here] at mem
        cases parts : split separator rest with
        | nil => exact absurd parts (split_ne_nil separator rest)
        | cons first others =>
            rw [parts] at mem ih
            rcases List.mem_cons.mp mem with rfl | mem
            · exact List.not_mem_cons_of_ne_of_not_mem (Ne.symm here) (ih List.mem_cons_self)
            · exact ih (List.mem_cons_of_mem first mem)

theorem splitFirst?_append_cons {front : List Char} (absent : separator ∉ front)
    (rest : List Char) :
    splitFirst? separator (front ++ separator :: rest) = some (front, rest) := by
  induction front with
  | nil => rw [List.nil_append, splitFirst?, if_pos rfl]
  | cons c front ih =>
      obtain ⟨other, restAbsent⟩ := List.ne_and_not_mem_of_not_mem_cons absent
      rw [List.cons_append, splitFirst?, if_neg other.symm, ih restAbsent]
      rfl

theorem eq_of_splitFirst? {text front rest : List Char}
    (found : splitFirst? separator text = some (front, rest)) :
    text = front ++ separator :: rest := by
  induction text generalizing front with
  | nil => cases found
  | cons c text ih =>
      rw [splitFirst?] at found
      by_cases here : c = separator
      · rw [if_pos here] at found
        cases found
        rw [here, List.nil_append]
      · rw [if_neg here] at found
        obtain ⟨⟨before, behind⟩, inside, same⟩ := Option.map_eq_some_iff.mp found
        cases same
        rw [ih inside, List.cons_append]

end

/-- Neither the first nor the last character is blank. -/
def IsTrimmed (text : List Char) : Prop :=
  (∀ c ∈ text.head?, isBlank c = false) ∧ ∀ c ∈ text.getLast?, isBlank c = false

instance (text : List Char) : Decidable (IsTrimmed text) :=
  decidable_of_iff
    ((text.head?.all fun c => !isBlank c) ∧ (text.getLast?.all fun c => !isBlank c))
    (by rw [IsTrimmed]; cases text.head? <;> cases text.getLast? <;> simp)

theorem isTrimmed_of_forall {text : List Char} (solid : ∀ c ∈ text, isBlank c = false) :
    IsTrimmed text :=
  ⟨fun c first => solid c (List.mem_of_mem_head? first),
    fun c last => solid c (List.mem_of_mem_getLast? last)⟩

/-- Where the first text begins and the second text ends the whole is trimmed. -/
theorem IsTrimmed.append {front back : List Char} (hfront : IsTrimmed front)
    (hback : IsTrimmed back) : IsTrimmed (front ++ back) := by
  refine ⟨?_, ?_⟩
  · intro c first
    cases front with
    | nil => exact hback.1 c first
    | cons head rest => exact hfront.1 c first
  · intro c last
    rw [List.getLast?_append] at last
    cases final : back.getLast? with
    | none =>
        rw [final] at last
        exact hfront.2 c last
    | some d =>
        rw [final] at last
        exact hback.2 c (final.trans last)

theorem trim_eq_self {text : List Char} (trimmed : IsTrimmed text) : trim text = text := by
  have left : trimLeft text = text := by
    refine List.dropWhile_eq_self_iff.mpr fun nonempty => ?_
    have solid := trimmed.1 text[0] (by simp [List.head?_eq_getElem?])
    rw [solid]
    exact Bool.false_ne_true
  have right : text.rdropWhile isBlank = text := by
    refine List.rdropWhile_eq_self_iff.mpr fun nonempty => ?_
    rw [trimmed.2 _ (List.getLast?_eq_some_getLast nonempty)]
    exact Bool.false_ne_true
  rw [trim, left]
  exact right

theorem isTrimmed_trim (text : List Char) : IsTrimmed (trim text) := by
  have trim_eq : trim text = (text.dropWhile isBlank).rdropWhile isBlank := rfl
  refine ⟨?_, ?_⟩
  · intro c first
    obtain ⟨blanks, same⟩ := List.rdropWhile_prefix isBlank (text.dropWhile isBlank)
    rw [trim_eq] at first
    have solid := List.head?_dropWhile_not isBlank text
    rw [← same, List.head?_append, first] at solid
    exact solid
  · intro c last
    rw [trim_eq] at last
    obtain ⟨nonempty, rfl⟩ := List.mem_getLast?_eq_getLast last
    exact Bool.eq_false_iff.mpr (List.rdropWhile_last_not isBlank _ nonempty)

theorem mem_of_mem_trim {text : List Char} {c : Char} (mem : c ∈ trim text) : c ∈ text :=
  List.dropWhile_subset isBlank ((List.rdropWhile_prefix isBlank _).subset mem)

theorem trim_cons_of_isBlank {c : Char} (blank : isBlank c = true) (text : List Char) :
    trim (c :: text) = trim text := by
  rw [trim, trimLeft, List.dropWhile_cons_of_pos blank, trim, trimLeft]

theorem isDigit_iff {c : Char} : c.isDigit = true ↔ '0' ≤ c ∧ c ≤ '9' := by
  simp only [Char.isDigit, Bool.and_eq_true, decide_eq_true_eq]
  exact Iff.rfl

theorem not_isBlank_of_isDigit {c : Char} (digit : c.isDigit = true) : isBlank c = false := by
  obtain ⟨low, high⟩ := isDigit_iff.mp digit
  have low : 48 ≤ c.toNat := UInt32.le_iff_toNat_le.mp low
  have high : c.toNat ≤ 57 := UInt32.le_iff_toNat_le.mp high
  simp [isBlank]
  omega

/-- Digits behind others have the value that they have by themselves, behind the value of those. -/
theorem digitsFrom?_eq {text : List Char} (digits : ∀ c ∈ text, c.isDigit = true) (high : Nat) :
    digitsFrom? high text = some (Nat.ofDigitChars 10 text high) := by
  induction text generalizing high with
  | nil => rfl
  | cons c rest ih =>
      obtain ⟨digit, restDigits⟩ := List.forall_mem_cons.mp digits
      rw [digitsFrom?, digitValue?, if_pos (isDigit_iff.mp digit), Option.bind_some, ih restDigits]
      rfl

theorem isDigit_of_mem_decimal {n : Nat} {c : Char} (mem : c ∈ decimal n) : c.isDigit = true :=
  Nat.isDigit_of_mem_toDigits (by decide) (by decide) mem

theorem not_mem_decimal {n : Nat} {c : Char} (other : c.isDigit = false) : c ∉ decimal n :=
  fun mem => Bool.false_ne_true (other.symm.trans (isDigit_of_mem_decimal mem))

/-- At least one digit, behind a plus sign or none, and the number that the digits spell. -/
def IsDecimal (text : List Char) (n : Nat) : Prop :=
  ∃ digits, digits ≠ [] ∧ (∀ c ∈ digits, c.isDigit = true) ∧
    Nat.ofDigitChars 10 digits 0 = n ∧ (text = digits ∨ text = '+' :: digits)

theorem digitsFrom?_eq_some_iff {text : List Char} {high n : Nat} :
    digitsFrom? high text = some n ↔
      (∀ c ∈ text, c.isDigit = true) ∧ Nat.ofDigitChars 10 text high = n := by
  refine ⟨?_, ?_⟩
  · intro found
    have digits : ∀ c ∈ text, c.isDigit = true := by
      induction text generalizing high with
      | nil => simp
      | cons c rest ih =>
          obtain ⟨d, value, others⟩ := Option.bind_eq_some_iff.mp found
          rw [digitValue?, Option.ite_none_right_eq_some] at value
          exact List.forall_mem_cons.mpr ⟨isDigit_iff.mpr value.1, ih others⟩
    rw [digitsFrom?_eq digits] at found
    exact ⟨digits, Option.some.inj found⟩
  · intro given
    obtain ⟨digits, rfl⟩ := given
    exact digitsFrom?_eq digits high

theorem digits?_eq_some_iff {text : List Char} {n : Nat} : digits? text = some n ↔
    text ≠ [] ∧ (∀ c ∈ text, c.isDigit = true) ∧ Nat.ofDigitChars 10 text 0 = n := by
  cases text with
  | nil => simp [digits?]
  | cons c rest => simp [digits?, digitsFrom?_eq_some_iff]

theorem decimal?_eq_some_iff {text : List Char} {n : Nat} :
    decimal? text = some n ↔ IsDecimal text n := by
  rw [decimal?.eq_def, IsDecimal]
  split
  · next rest =>
    rw [digits?_eq_some_iff]
    refine ⟨?_, ?_⟩
    · intro given
      obtain ⟨nonempty, digits, value⟩ := given
      exact ⟨rest, nonempty, digits, value, .inr rfl⟩
    · intro given
      obtain ⟨digits, nonempty, all, value, rfl | same⟩ := given
      · cases all '+' List.mem_cons_self
      · obtain rfl := (List.cons.inj same).2
        exact ⟨nonempty, all, value⟩
  · next unsigned =>
    rw [digits?_eq_some_iff]
    refine ⟨?_, ?_⟩
    · intro given
      obtain ⟨nonempty, digits, value⟩ := given
      exact ⟨text, nonempty, digits, value, .inl rfl⟩
    · intro given
      obtain ⟨digits, nonempty, all, value, rfl | same⟩ := given
      · exact ⟨nonempty, all, value⟩
      · exact absurd same (unsigned digits)

theorem decimal?_decimal (n : Nat) : decimal? (decimal n) = some n := by
  have value : Nat.ofDigitChars 10 (decimal n) 0 = n :=
    Nat.ofDigitChars_toDigits (by decide) (by decide)
  exact decimal?_eq_some_iff.mpr
    ⟨decimal n, Nat.toDigits_ne_nil, fun c => isDigit_of_mem_decimal, value, .inl rfl⟩

theorem decimal_injective {m n : Nat} (same : decimal m = decimal n) : m = n := by
  have read := decimal?_decimal m
  rw [same, decimal?_decimal] at read
  exact (Option.some.inj read).symm

theorem not_mem_signedDecimal {i : Int} {c : Char} (other : c.isDigit = false) (sign : c ≠ '-') :
    c ∉ signedDecimal i := by
  rw [signedDecimal]
  split
  · exact List.not_mem_cons_of_ne_of_not_mem sign (not_mem_decimal other)
  · exact not_mem_decimal other

theorem signedDecimal_injective {i j : Int} (same : signedDecimal i = signedDecimal j) :
    i = j := by
  have minus (n : Nat) : '-' ∉ decimal n := not_mem_decimal (by decide)
  simp only [signedDecimal] at same
  split_ifs at same with first second second
  · have := decimal_injective (List.cons.inj same).2
    omega
  · exact absurd (same ▸ List.mem_cons_self) (minus _)
  · exact absurd (same.symm ▸ List.mem_cons_self) (minus _)
  · have := decimal_injective same
    omega

theorem hexDigit_mod (letters : LetterCase) (n : Nat) :
    hexDigit letters (n % 16) = hexDigit letters n := by
  simp only [hexDigit, Nat.mod_mod]

/-- Hexadecimal text has no other characters. -/
theorem mem_hexDigits {width n : Nat} {c : Char} (mem : c ∈ hexDigits .lower width n) :
    c ∈ "0123456789abcdef".toList := by
  induction width generalizing n with
  | zero => cases mem
  | succ width ih =>
      rw [hexDigits, List.mem_append, List.mem_singleton] at mem
      rcases mem with mem | rfl
      · exact ih mem
      · have all : ∀ d < 16, hexDigit .lower d ∈ "0123456789abcdef".toList := by decide
        rw [← hexDigit_mod]
        exact all (n % 16) (Nat.mod_lt n (by decide))

@[simp] theorem length_hexDigits (letters : LetterCase) (width n : Nat) :
    (hexDigits letters width n).length = width := by
  induction width generalizing n with
  | zero => rfl
  | succ width ih => rw [hexDigits, List.length_append, ih, List.length_singleton]

theorem hexValue?_hexDigit (n : Nat) : hexValue? (hexDigit .lower n) = some (n % 16) := by
  have all : ∀ d < 16, hexValue? (hexDigit .lower d) = some d := by decide
  rw [← hexDigit_mod]
  exact all (n % 16) (Nat.mod_lt n (by decide))

/-- A hexadecimal digit in either letter case. -/
def IsHexDigit (c : Char) : Prop :=
  ('0' ≤ c ∧ c ≤ '9') ∨ ('a' ≤ c ∧ c ≤ 'f') ∨ ('A' ≤ c ∧ c ≤ 'F')

instance (c : Char) : Decidable (IsHexDigit c) := inferInstanceAs (Decidable (_ ∨ _))

theorem hexValue?_isSome_iff {c : Char} : (hexValue? c).isSome ↔ IsHexDigit c := by
  unfold hexValue? IsHexDigit
  split_ifs <;> simp_all

theorem not_isHexDigit_plus : ¬IsHexDigit '+' := by decide

theorem IsHexDigit.ascii {c : Char} (digit : IsHexDigit c) : c.toNat < 128 := by
  have below {last : Char} (le : c ≤ last) : c.toNat ≤ last.toNat := UInt32.le_iff_toNat_le.mp le
  obtain digit | small | capital := digit
  · exact Nat.lt_of_le_of_lt (below digit.2) (by decide)
  · exact Nat.lt_of_le_of_lt (below small.2) (by decide)
  · exact Nat.lt_of_le_of_lt (below capital.2) (by decide)

end CliMetadata.Text
