import CliMetadata.Signature.Naming

/-!
Names that are written piece by piece. A builder holds the text so far and counts the nodes that it
is inside of. At every node, whichever way it is reached, the count goes up before the node is
written and down behind it; where a limit is set and as many nodes are open, a marker is written in
the place of the node.
-/

namespace CliMetadata

structure NameBuilder where
  out : List Char := []
  depth : Nat := 0
deriving DecidableEq, Repr

abbrev Build := StateM NameBuilder

namespace Build

def push (text : List Char) : Build Unit :=
  modify fun builder => { builder with out := builder.out ++ text }

/-- Writes a node, unless as many nodes are open as the limit allows. -/
def node (limit : Option Nat) (body : Build Unit) : Build Unit := do
  let builder ← get
  if limit.any (· ≤ builder.depth) then push "<<<INFRECURSION>>>".toList
  else
    modify fun builder => { builder with depth := builder.depth + 1 }
    body
    modify fun builder => { builder with depth := builder.depth - 1 }

/-- Writes a comma behind what stands there already. -/
def comma (printed : Bool) : Build Unit := if printed then push [','] else pure ()

/-- Writes items with commas between them, and with one before the first if something stands there
already. -/
def each {α : Type} (write : α → Build Unit) : (printed : Bool) → List α → Build Unit
  | _, [] => pure ()
  | printed, item :: rest => do
    comma printed
    write item
    each write true rest

def namedType (style : NameStyle) : NamedType → Build Unit
  | .topLevel head => do
    if head.ns ≠ "" then
      push (style.identifier head.ns)
      push ['.']
    push (style.identifier head.name)
  | .nested head enclosing => do
    namedType style enclosing
    push [style.nesting]
    push (style.identifier head.name)

def coreName (tag : ElementType) : Build Unit :=
  match tag.coreName? with
  | some name => do
    push ElementType.coreNamespace.toList
    push ['.']
    push name.toList
  | none => pure ()

def dimension (style : NameStyle) (shape : ArrayShape) (i : Nat) : Build Unit :=
  match style, shape.lowerBounds[i]? with
  | .reflection, _ | _, none => pure ()
  | .display, some lower => do
    push (Text.signedDecimal lower)
    push "..".toList
    match shape.sizes[i]? with
    | some size => push (Text.signedDecimal (lower + size - 1))
    | none => push ['.']

def dimensions (style : NameStyle) (shape : ArrayShape) : Build Unit :=
  match shape.rank with
  | 0 => push "<RANK0>".toList
  | 1 => push ['*']
  | rank => do
    each (dimension style shape) false (List.range (min rank ArrayShape.maxWritten))
    if ArrayShape.maxWritten < rank then
      push [',']
      push "<<<RANK>>>".toList

def arrayShape (style : NameStyle) (shape : ArrayShape) : Build Unit := do
  push ['[']
  dimensions style shape
  push [']']

def methodVar (i : Nat) : Build Unit := do
  push "!!".toList
  push (Text.decimal i)

def genericParameters (method : MethodSignature) : Build Unit := do
  if method.isGeneric then
    push ['<']
    each methodVar false (List.range method.genericCount)
    push ['>']

/-- What a wrapper writes before the wrapped type. -/
def before : Wrapper → Build Unit
  | .scoped index => do
    push "[module:".toList
    push (Text.decimal index)
    push [']']
  | _ => pure ()

def modifierName : ModifierKind → List Char
  | .required => " modreq(".toList
  | .optional => " modopt(".toList

/-- The assembly of an argument, behind its name. -/
def assembly (argument : TypeSignature) : Build Unit :=
  match argument.assembly? with
  | some assembly => do
    push ", ".toList
    push assembly.displayChars
  | none => pure ()

mutual

def signature (limit : Option Nat) (style : NameStyle) : TypeSignature → Build Unit
  | .primitive _ _ (some type) => node limit (namedType style type)
  | .primitive _ tag none => node limit (coreName tag)
  | .named _ _ handle => node limit (Build.handle limit style handle)
  | .typeVar _ index => node limit do push ['!']; push (Text.decimal index)
  | .methodVar _ index => node limit (methodVar index)
  | .sentinel _ => node limit (push "<<<SENTINEL>>>".toList)
  | .functionPointer _ method =>
    node limit (match style with
      | .display => Build.method limit style method
      | .reflection => push "(fnptr)".toList)
  | .instantiation _ _ generic arguments => node limit do
    Build.handle limit style generic
    match style with
    | .display =>
      push ['<']
      signatures limit style false arguments
      push ['>']
    | .reflection =>
      push ['[']
      qualifiedSignatures limit style false arguments
      push [']']
  | .wrapped _ wrapper next => node limit do
    before wrapper
    signature limit style next
    behind limit style wrapper

/-- What a wrapper writes behind the wrapped type. -/
def behind (limit : Option Nat) (style : NameStyle) : Wrapper → Build Unit
  | .pointer => push ['*']
  | .byRef => push ['&']
  | .vector => push "[]".toList
  | .pinned =>
    match style with
    | .display => push " pinned".toList
    | .reflection => pure ()
  | .array shape => arrayShape style shape
  | .modifier kind handle =>
    match style with
    | .display => do
      push (modifierName kind)
      Build.handle limit style handle
      push [')']
    | .reflection => pure ()
  | .valueArray size => do
    push " ValueArray(".toList
    push (Text.decimal size)
    push [')']
  | .scoped _ => pure ()

def method (limit : Option Nat) (style : NameStyle) : MethodSignature → Build Unit
  | ⟨convention, genericCount, result, params, varargs⟩ => do
    push "method ".toList
    signature limit style result
    push " *".toList
    genericParameters ⟨convention, genericCount, result, params, varargs⟩
    push ['(']
    signatures limit style false params
    variableSignatures limit style (!params.isEmpty) varargs
    push [')']

def handle (limit : Option Nat) (style : NameStyle) : TypeHandle → Build Unit
  | ⟨_, target⟩ => Build.target limit style target

def target (limit : Option Nat) (style : NameStyle) : Option TypeRow → Build Unit
  | none => pure ()
  | some row => Build.row limit style row

def row (limit : Option Nat) (style : NameStyle) : TypeRow → Build Unit
  | .definition type | .reference type => namedType style type
  | .specification inner => signature limit style inner

def signatures (limit : Option Nat) (style : NameStyle) :
    (printed : Bool) → List TypeSignature → Build Unit
  | _, [] => pure ()
  | printed, first :: rest => do
    comma printed
    signature limit style first
    signatures limit style true rest

/-- Arguments with their assemblies. -/
def qualifiedSignatures (limit : Option Nat) (style : NameStyle) :
    (printed : Bool) → List TypeSignature → Build Unit
  | _, [] => pure ()
  | printed, first :: rest => do
    comma printed
    push ['[']
    signature limit style first
    assembly first
    push [']']
    qualifiedSignatures limit style true rest

/-- Dots and the parameters behind them. -/
def variableSignatures (limit : Option Nat) (style : NameStyle) (printed : Bool) :
    Option (List TypeSignature) → Build Unit
  | none => pure ()
  | some varargs => do
    comma printed
    push "...".toList
    signatures limit style true varargs

end

/-- The name that a new builder has written at the end. -/
def name (limit : Option Nat) (style : NameStyle) (type : TypeSignature) : String :=
  String.ofList ((signature limit style type).run {}).2.out

end Build

end CliMetadata
