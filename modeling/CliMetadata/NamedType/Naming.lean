import CliMetadata.NamedType

/-!
Names of types in two styles. Display names join the parts of a chain of nested types by dots;
reflection names join them by plus signs and put a backslash before every character of an
identifier that has a meaning in such a name.
-/

namespace CliMetadata

inductive NameStyle where
  | display
  | reflection
deriving DecidableEq, Repr

namespace NameStyle

/-- The characters that structure a reflection name. -/
def isSpecial (c : Char) : Bool :=
  c == ',' || c == '+' || c == '&' || c == '*' || c == '[' || c == ']' || c == '\\'

def escape : List Char → List Char
  | [] => []
  | c :: rest => if isSpecial c then '\\' :: c :: escape rest else c :: escape rest

def identifier (style : NameStyle) (text : String) : List Char :=
  match style with
  | .display => text.toList
  | .reflection => escape text.toList

/-- What stands between a type and a type nested in it. -/
def nesting : NameStyle → Char
  | .display => '.'
  | .reflection => '+'

end NameStyle

/-- A name with the display name of the assembly behind it, if there is one. -/
def qualified (name : List Char) : Option AssemblyIdentity → List Char
  | none => name
  | some assembly => name ++ ", ".toList ++ assembly.displayChars

namespace NamedType

def nameChars (style : NameStyle) : NamedType → List Char
  | .topLevel head =>
    if head.ns = "" then style.identifier head.name
    else style.identifier head.ns ++ '.' :: style.identifier head.name
  | .nested head enclosing =>
    enclosing.nameChars style ++ style.nesting :: style.identifier head.name

def fullName (type : NamedType) : String := String.ofList (type.nameChars .display)

def reflectionName (type : NamedType) : String :=
  String.ofList (NameStyle.reflection.identifier type.name)

def reflectionNamespace (type : NamedType) : String :=
  String.ofList (NameStyle.reflection.identifier type.ns)

def reflectionFullName (type : NamedType) : String := String.ofList (type.nameChars .reflection)

def assemblyQualifiedName (type : NamedType) : String :=
  String.ofList (qualified (type.nameChars .reflection) type.assembly?)

end NamedType

end CliMetadata
