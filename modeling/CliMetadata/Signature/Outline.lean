import CliMetadata.Signature

/-!
Outlines of signatures: one line of text that shows every node, its row number if that is not
zero, and of every handle the token and the kind of row behind it.
-/

namespace CliMetadata

namespace TypeRow

def kindName : TypeRow → String
  | .definition _ => "def"
  | .reference _ => "ref"
  | .specification _ => "spec"

end TypeRow

namespace TypeHandle

def outline (handle : TypeHandle) : String :=
  handle.token.text ++ ":" ++ (handle.target.map TypeRow.kindName).getD "-"

/-- A handle with the mark of a class or a value type. -/
def outlineAs (kind : TypeKind) (handle : TypeHandle) : String :=
  match kind with
  | .classType => s!"class({handle.outline})"
  | .valueType => s!"valuetype({handle.outline})"

end TypeHandle

def outlineList (items : List String) : String := "[" ++ ",".intercalate items ++ "]"

def Wrapper.outline (next : String) : Wrapper → String
  | .pointer => s!"ptr({next})"
  | .byRef => s!"byref({next})"
  | .vector => s!"szarray({next})"
  | .pinned => s!"pinned({next})"
  | .array shape =>
    s!"array({next},{shape.rank}," ++ outlineList (shape.sizes.map toString) ++ "," ++
      outlineList (shape.lowerBounds.map toString) ++ ")"
  | .modifier .required handle => s!"cmodreqd({handle.outline},{next})"
  | .modifier .optional handle => s!"cmodopt({handle.outline},{next})"
  | .valueArray size => s!"valuearray({next},{size})"
  | .scoped index => s!"module({index},{next})"

/-- The outline of a node with its row number. -/
def outlineRow (row : Nat) (text : String) : String := if row = 0 then text else s!"{text}#{row}"

mutual

def TypeSignature.outline : TypeSignature → String
  | .primitive row tag type =>
    outlineRow row
      (s!"corlib({tag.name}," ++ (type.map fun type => type.token.text).getD "-" ++ ")")
  | .named row kind handle => outlineRow row (handle.outlineAs kind)
  | .typeVar row index => outlineRow row s!"var({index})"
  | .methodVar row index => outlineRow row s!"mvar({index})"
  | .sentinel row => outlineRow row "sentinel"
  | .functionPointer row method => outlineRow row s!"fnptr({method.outline})"
  | .instantiation row kind generic arguments =>
    outlineRow row ("genericinst(" ++ generic.outlineAs kind ++ "," ++
      outlineList (TypeSignature.outlines arguments) ++ ")")
  | .wrapped row wrapper next => outlineRow row (wrapper.outline next.outline)

def MethodSignature.outline : MethodSignature → String
  | ⟨convention, genericCount, result, params, varargs⟩ =>
    s!"method({convention},{genericCount},{result.outline}," ++
      outlineList (TypeSignature.outlines params) ++ "," ++
      TypeSignature.outlineVarargs varargs ++ ")"

def TypeSignature.outlines : List TypeSignature → List String
  | [] => []
  | signature :: rest => signature.outline :: TypeSignature.outlines rest

def TypeSignature.outlineVarargs : Option (List TypeSignature) → String
  | none => "-"
  | some signatures => outlineList (TypeSignature.outlines signatures)

end

end CliMetadata
