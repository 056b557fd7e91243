import CliMetadata.NamedType.Naming
import Mathlib.Data.List.Basic

/-!
Reflection names of nested types taken apart. Of the plus signs in such a name those stand between
two types of the chain that no backslash escapes, so that the names of the chain can be read off it.
What cannot be told apart is a namespace and a dot at the front of a name from a dot inside of it.
-/

namespace CliMetadata

namespace NameStyle

/-- The identifiers between the plus signs that are not escaped, without the escapes in them. -/
def identifiers : List Char → List (List Char)
  | [] => [[]]
  | '\\' :: c :: rest => (identifiers rest).modifyHead (c :: ·)
  | c :: rest => if c = '+' then [] :: identifiers rest else (identifiers rest).modifyHead (c :: ·)

theorem identifiers_escaped (c : Char) (rest : List Char) :
    identifiers ('\\' :: c :: rest) = (identifiers rest).modifyHead (c :: ·) := rfl

theorem identifiers_plus (rest : List Char) :
    identifiers ('+' :: rest) = [] :: identifiers rest := rfl

theorem identifiers_plain {c : Char} (plain : isSpecial c = false) (rest : List Char) :
    identifiers (c :: rest) = (identifiers rest).modifyHead (c :: ·) := by
  have noPlus : c ≠ '+' := by
    rintro rfl
    cases plain
  rw [identifiers, if_neg noPlus]
  rintro d others rfl
  cases plain

theorem escape_append (front back : List Char) :
    escape (front ++ back) = escape front ++ escape back := by
  induction front with
  | nil => rfl
  | cons c rest ih =>
      rw [List.cons_append, escape, ih, escape]
      split <;> rfl

/-- An escaped text goes on as the first identifier of what follows it. -/
theorem identifiers_escape_append {rest : List Char} {others : List (List Char)}
    (ended : identifiers rest = [] :: others) (text : List Char) :
    identifiers (escape text ++ rest) = text :: others := by
  induction text with
  | nil => exact ended
  | cons c text ih =>
      rw [escape]
      by_cases special : isSpecial c = true
      · rw [if_pos special, List.cons_append, List.cons_append, identifiers_escaped, ih]
        rfl
      · rw [if_neg special, List.cons_append, identifiers_plain (Bool.eq_false_iff.mpr special), ih]
        rfl

/-- Texts that are escaped one by one and joined by plus signs come back. -/
theorem identifiers_joined (first : List Char) (others : List (List Char)) :
    identifiers (escape first ++ others.flatMap fun text => '+' :: escape text) =
      first :: others := by
  induction others generalizing first with
  | nil => exact identifiers_escape_append rfl first
  | cons second others ih =>
      refine identifiers_escape_append ?_ first
      rw [List.flatMap_cons, List.cons_append, identifiers_plus, ih]

end NameStyle

/-- The name with its namespace in front, if it has one. -/
def TypeHead.qualifiedName (head : TypeHead) : String :=
  if head.ns = "" then head.name else head.ns ++ "." ++ head.name

namespace NamedType

/-- The names of the types of the chain that have a type around them, the outer ones first. -/
def nestedNames : NamedType → List String
  | .topLevel _ => []
  | .nested head enclosing => enclosing.nestedNames ++ [head.name]

theorem nameChars_topLevel (head : TypeHead) :
    (topLevel head).nameChars .reflection = NameStyle.escape head.qualifiedName.toList := by
  rw [nameChars, TypeHead.qualifiedName]
  split
  · rfl
  · -- The dot has no meaning in reflection names, so that it is not escaped.
    rw [String.toList_append, String.toList_append, NameStyle.escape_append,
      NameStyle.escape_append, List.append_assoc]
    rfl

theorem nameChars_reflection (type : NamedType) :
    type.nameChars .reflection = NameStyle.escape type.outermost.head.qualifiedName.toList ++
      (type.nestedNames.map String.toList).flatMap fun text => '+' :: NameStyle.escape text := by
  induction type with
  | topLevel head =>
      rw [nameChars_topLevel, nestedNames, List.map_nil, List.flatMap_nil, List.append_nil]
      rfl
  | nested head enclosing ih =>
      rw [nameChars, ih, nestedNames, List.map_append, List.flatMap_append, ← List.append_assoc]
      simp [outermost, NameStyle.nesting, NameStyle.identifier]

theorem identifiers_nameChars (type : NamedType) :
    NameStyle.identifiers (type.nameChars .reflection) =
      type.outermost.head.qualifiedName.toList :: type.nestedNames.map String.toList := by
  rw [nameChars_reflection, NameStyle.identifiers_joined]

/-- Two types have one reflection name if and only if there are as many types around them, the types
inside of others have the same names one by one, and the outermost ones have the same name with the
namespace in front. -/
theorem reflectionFullName_eq_iff (type other : NamedType) :
    type.reflectionFullName = other.reflectionFullName ↔
      type.nestedNames = other.nestedNames ∧
        type.outermost.head.qualifiedName = other.outermost.head.qualifiedName := by
  rw [reflectionFullName, reflectionFullName, String.ofList_inj]
  refine ⟨?_, ?_⟩
  · intro same
    have apart := congrArg NameStyle.identifiers same
    rw [identifiers_nameChars, identifiers_nameChars] at apart
    obtain ⟨outer, nested⟩ := List.cons_eq_cons.mp apart
    have distinct (x y : String) : x.toList = y.toList → x = y := String.toList_inj.mp
    exact ⟨(List.map_inj_right distinct).mp nested, String.toList_inj.mp outer⟩
  · intro given
    obtain ⟨nested, outer⟩ := given
    rw [nameChars_reflection, nameChars_reflection, nested, outer]

/-- A plus sign at the end of a name or at the start of the next one is no border. -/
example :
    (nested { token := ⟨3⟩, name := "B" }
      (topLevel { token := ⟨2⟩, name := "A+" })).reflectionFullName = "A\\++B" ∧
    (nested { token := ⟨3⟩, name := "+B" }
      (topLevel { token := ⟨2⟩, name := "A" })).reflectionFullName = "A+\\+B" := by
  decide

end NamedType

end CliMetadata
