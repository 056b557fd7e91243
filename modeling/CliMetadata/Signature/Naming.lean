import CliMetadata.NamedType.Naming
import CliMetadata.Signature.Core
import CliMetadata.Signature.Ownership

/-!
Names of signatures. The simple name is that of the leaf. A full name writes the leaf first and
then what each wrapper adds, from the inside out. Names are written level by level as signatures
are read: where more levels are nested than can be named, a marker stands for the rest. Handles
whose row is not known have no name.
-/

namespace CliMetadata

namespace ArrayShape

/-- How many dimensions are written at most. -/
def maxWritten : Nat := 32

/-- One dimension of a display name: nothing without a lower bound, else the bound and the upper
bound that the size gives, or a third dot if there is no size. -/
def dimension (shape : ArrayShape) (i : Nat) : List Char :=
  match shape.lowerBounds[i]?, shape.sizes[i]? with
  | none, _ => []
  | some lower, none => Text.signedDecimal lower ++ "...".toList
  | some lower, some size =>
    Text.signedDecimal lower ++ "..".toList ++ Text.signedDecimal (lower + size - 1)

/-- The dimensions that are written. Reflection names tell only how many there are. -/
def dimensions (shape : ArrayShape) (style : NameStyle) : List (List Char) :=
  let written := List.range (min shape.rank maxWritten)
  let texts := match style with
    | .display => written.map shape.dimension
    | .reflection => written.map fun _ => []
  if shape.rank ≤ maxWritten then texts else texts ++ ["<<<RANK>>>".toList]

def chars (shape : ArrayShape) (style : NameStyle) : List Char :=
  match shape.rank with
  | 0 => "[<RANK0>]".toList
  | 1 => "[*]".toList
  | _ => '[' :: [','].intercalate (shape.dimensions style) ++ [']']

end ArrayShape

/-- A name with the text before it and the text behind it that a wrapper adds. Modifiers and the
mark of pinned locals are left out of reflection names. -/
def Wrapper.surround (style : NameStyle) (nameOf : TypeHandle → List Char) (wrapper : Wrapper)
    (name : List Char) : List Char :=
  match wrapper, style with
  | .pointer, _ => name ++ ['*']
  | .byRef, _ => name ++ ['&']
  | .vector, _ => name ++ "[]".toList
  | .array shape, _ => name ++ shape.chars style
  | .modifier .required handle, .display => name ++ " modreq(".toList ++ nameOf handle ++ [')']
  | .modifier .optional handle, .display => name ++ " modopt(".toList ++ nameOf handle ++ [')']
  | .modifier _ _, .reflection => name
  | .pinned, .display => name ++ " pinned".toList
  | .pinned, .reflection => name
  | .valueArray size, _ => name ++ " ValueArray(".toList ++ Text.decimal size ++ [')']
  | .scoped index, _ => "[module:".toList ++ Text.decimal index ++ ']' :: name

namespace TypeHandle

/-- The name of the row behind a handle, with the names of signatures given. -/
def nameChars (style : NameStyle) (inner : TypeSignature → List Char) (handle : TypeHandle) :
    List Char :=
  match handle.target with
  | some (.definition type) | some (.reference type) => type.nameChars style
  | some (.specification signature) => inner signature
  | none => []

end TypeHandle

namespace MethodSignature

def genericChars (method : MethodSignature) : List Char :=
  if method.isGeneric then
    '<' :: [','].intercalate
      ((List.range method.genericCount).map fun i => "!!".toList ++ Text.decimal i) ++ ['>']
  else []

/-- The parameters as a list, in which dots mark where the variable ones begin. -/
def paramChars (inner : TypeSignature → List Char) (method : MethodSignature) : List (List Char) :=
  match method.varargs with
  | none => method.params.map inner
  | some varargs => method.params.map inner ++ "...".toList :: varargs.map inner

def nameChars (inner : TypeSignature → List Char) (method : MethodSignature) : List Char :=
  "method ".toList ++ inner method.result ++ " *".toList ++ method.genericChars ++
    '(' :: [','].intercalate (method.paramChars inner) ++ [')']

end MethodSignature

namespace TypeSignature

/-- The arguments of an instantiation. Reflection names give each argument its assembly. -/
def argumentChars (style : NameStyle) (inner : TypeSignature → List Char)
    (arguments : List TypeSignature) : List Char :=
  match style with
  | .display => '<' :: [','].intercalate (arguments.map inner) ++ ['>']
  | .reflection =>
    '[' :: [','].intercalate (arguments.map fun argument =>
      '[' :: qualified (inner argument) argument.assembly? ++ [']']) ++ [']']

/-- The name of a primitive tag for which the core library gave no type. -/
def primitiveChars (tag : ElementType) : List Char :=
  match tag.coreName? with
  | some name => ElementType.coreNamespace.toList ++ '.' :: name.toList
  | none => []

/-- The name of a node, with the names of the signatures inside given. -/
def nodeChars (style : NameStyle) (inner : TypeSignature → List Char) : TypeSignature → List Char
  | .primitive _ _ (some type) => type.nameChars style
  | .primitive _ tag none => primitiveChars tag
  | .named _ _ handle => handle.nameChars style inner
  | .typeVar _ index => '!' :: Text.decimal index
  | .methodVar _ index => "!!".toList ++ Text.decimal index
  | .sentinel _ => "<<<SENTINEL>>>".toList
  | .functionPointer _ method =>
    match style with
    | .display => method.nameChars inner
    | .reflection => "(fnptr)".toList
  | .instantiation _ _ generic arguments =>
    generic.nameChars style inner ++ argumentChars style inner arguments
  | .wrapped _ wrapper next =>
    wrapper.surround style (TypeHandle.nameChars style inner) (inner next)

/-- The name of a signature, of which the given number of levels is written. -/
def nameWithin (style : NameStyle) : (levels : Nat) → TypeSignature → List Char
  | 0, _ => "<<<INFRECURSION>>>".toList
  | levels + 1, signature => nodeChars style (nameWithin style levels) signature

def nameChars (style : NameStyle) (signature : TypeSignature) : List Char :=
  nameWithin style maxNesting signature

def fullName (signature : TypeSignature) : String := String.ofList (signature.nameChars .display)

def reflectionFullName (signature : TypeSignature) : String :=
  String.ofList (signature.nameChars .reflection)

def assemblyQualifiedName (signature : TypeSignature) : String :=
  String.ofList (qualified (signature.nameChars .reflection) signature.assembly?)

instance : ToString TypeSignature := ⟨fullName⟩

end TypeSignature

namespace Denoted

/-- The simple name. -/
def name : Denoted → String
  | .definition type | .reference type => type.name
  | .primitive tag => tag.coreName?.getD ""
  | .typeVar index => String.ofList ('!' :: Text.decimal index)
  | .methodVar index => String.ofList ('!' :: '!' :: Text.decimal index)
  | .sentinel => "<<<SENTINEL>>>"
  | .functionPointer => "(fnptr)"
  | .unknown => ""

def ns : Denoted → String
  | .definition type | .reference type => type.ns
  | .primitive tag => if tag.isPrimitive then ElementType.coreNamespace else ""
  | _ => ""

/-- The simple name with escapes, which only names of definitions and references need. -/
def reflectionName : Denoted → String
  | .definition type | .reference type => type.reflectionName
  | denoted => denoted.name

def reflectionNamespace : Denoted → String
  | .definition type | .reference type => type.reflectionNamespace
  | denoted => denoted.ns

end Denoted

namespace TypeSignature

def name (signature : TypeSignature) : String := signature.denoted.name

def ns (signature : TypeSignature) : String := signature.denoted.ns

def reflectionName (signature : TypeSignature) : String := signature.denoted.reflectionName

def reflectionNamespace (signature : TypeSignature) : String :=
  signature.denoted.reflectionNamespace

end TypeSignature

end CliMetadata
