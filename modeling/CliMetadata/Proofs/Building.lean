import CliMetadata.Proofs.Components
import CliMetadata.Signature.Builder

/-!
Builders write names. What each part of a builder writes is text that is put behind the text so
far; parts one behind the other write their texts one behind the other, and behind every node the
count of nodes is what it was before. A node is written as its name says if its components are.
-/

namespace CliMetadata

namespace ArrayShape

/-- One dimension in either style. -/
def dimensionIn (shape : ArrayShape) (style : NameStyle) (i : Nat) : List Char :=
  match style with
  | .display => shape.dimension i
  | .reflection => []

theorem dimensions_eq (shape : ArrayShape) (style : NameStyle) : shape.dimensions style =
    (List.range (min shape.rank maxWritten)).map (shape.dimensionIn style) ++
      if maxWritten < shape.rank then ["<<<RANK>>>".toList] else [] := by
  have reflected : shape.dimensionIn .reflection = fun _ => [] := rfl
  by_cases few : shape.rank ≤ maxWritten
  · have none : ¬maxWritten < shape.rank := Nat.not_lt.mpr few
    cases style <;> simp [dimensions, dimensionIn, reflected, few, none]
  · have more : maxWritten < shape.rank := Nat.not_le.mp few
    cases style <;> simp [dimensions, dimensionIn, reflected, few, more]

end ArrayShape

namespace Wrapper

/-- What a wrapper adds in front of a name. -/
def frontChars : Wrapper → List Char
  | .scoped index => "[module:".toList ++ (Text.decimal index ++ [']'])
  | _ => []

/-- What a wrapper adds behind a name. -/
def backChars (style : NameStyle) (nameOf : TypeHandle → List Char) : Wrapper → List Char
  | .pointer => ['*']
  | .byRef => ['&']
  | .vector => "[]".toList
  | .array shape => shape.chars style
  | .modifier kind handle =>
    match style with
    | .display => Build.modifierName kind ++ (nameOf handle ++ [')'])
    | .reflection => []
  | .pinned =>
    match style with
    | .display => " pinned".toList
    | .reflection => []
  | .valueArray size => " ValueArray(".toList ++ (Text.decimal size ++ [')'])
  | .scoped _ => []

theorem surround_eq (style : NameStyle) (nameOf : TypeHandle → List Char) (wrapper : Wrapper)
    (name : List Char) : wrapper.surround style nameOf name =
      wrapper.frontChars ++ (name ++ wrapper.backChars style nameOf) := by
  have regroup (b c d : List Char) : name ++ b ++ c ++ d = name ++ (b ++ (c ++ d)) := by
    rw [List.append_assoc, List.append_assoc]
  have none : name = name ++ [] := (List.append_nil name).symm
  cases wrapper with
  | pointer | byRef | vector | array => rfl
  | modifier kind handle =>
      cases style with
      | display => cases kind <;> exact regroup _ _ _
      | reflection => cases kind <;> exact none
  | pinned =>
      cases style with
      | display => rfl
      | reflection => exact none
  | valueArray size => exact regroup _ _ _
  | «scoped» index =>
      have front (a b : List Char) : a ++ b ++ ']' :: name = a ++ (b ++ [']']) ++ (name ++ []) := by
        simp
      exact front _ _

end Wrapper

namespace Build

/-- Inside of so many nodes, what is built is text behind the text that stands there already, and
the count of nodes is the same again behind it. -/
def Writes (depth : Nat) (build : Build Unit) (text : List Char) : Prop :=
  ∀ out, build.run ⟨out, depth⟩ = ((), ⟨out ++ text, depth⟩)

section

variable {depth : Nat} {first second : Build Unit} {front back text : List Char}

theorem Writes.congr {text' : List Char} (h : Writes depth first text) (same : text = text') :
    Writes depth first text' :=
  same ▸ h

theorem writes_push (text : List Char) : Writes depth (push text) text := fun _ => rfl

theorem writes_comma : Writes depth (comma true) [','] := fun _ => rfl

theorem writes_pure : Writes depth (pure ()) [] := by
  intro out
  rw [List.append_nil]
  rfl

theorem writes_bind (h : Writes depth first front) (hnext : Writes depth second back) :
    Writes depth (do first; second) (front ++ back) := by
  intro out
  rw [StateT.run_bind, h out]
  refine (hnext (out ++ front)).trans ?_
  rw [List.append_assoc]

end

/-- Texts with a comma before each of them. -/
def commas (texts : List (List Char)) : List Char := texts.flatMap (',' :: ·)

theorem commas_cons (first : List Char) (rest : List (List Char)) :
    commas (first :: rest) = [','] ++ (first ++ commas rest) := rfl

theorem intercalate_cons (first : List Char) (rest : List (List Char)) :
    [','].intercalate (first :: rest) = first ++ commas rest := by
  induction rest generalizing first with
  | nil => rw [List.intercalate_singleton, commas, List.flatMap_nil, List.append_nil]
  | cons second others ih =>
      rw [List.intercalate_cons_cons, ih, commas_cons, List.append_assoc]

theorem intercalate_append {front : List (List Char)} (nonempty : front ≠ [])
    (back : List (List Char)) :
    [','].intercalate (front ++ back) = [','].intercalate front ++ commas back := by
  obtain ⟨first, rest, rfl⟩ := List.exists_cons_of_ne_nil nonempty
  rw [List.cons_append, intercalate_cons, intercalate_cons, commas, commas, commas,
    List.flatMap_append, List.append_assoc]

section

variable {α : Type} {depth : Nat} {write : α → Build Unit} {text : α → List Char} {items : List α}

theorem writes_each_behind (h : ∀ item ∈ items, Writes depth (write item) (text item)) :
    Writes depth (each write true items) (commas (items.map text)) := by
  induction items with
  | nil => exact writes_pure
  | cons item rest ih =>
      obtain ⟨hitem, hrest⟩ := List.forall_mem_cons.mp h
      rw [List.map_cons, commas_cons]
      exact writes_bind writes_comma (writes_bind hitem (ih hrest))

theorem writes_each (h : ∀ item ∈ items, Writes depth (write item) (text item)) :
    Writes depth (each write false items) ([','].intercalate (items.map text)) := by
  cases items with
  | nil => exact writes_pure
  | cons item rest =>
      obtain ⟨hitem, hrest⟩ := List.forall_mem_cons.mp h
      rw [List.map_cons, intercalate_cons]
      exact (writes_bind writes_pure (writes_bind hitem (writes_each_behind hrest))).congr rfl

end

section

variable {depth : Nat} {style : NameStyle}

theorem writes_namedType (type : NamedType) :
    Writes depth (namedType style type) (type.nameChars style) := by
  induction type with
  | topLevel head =>
      rw [namedType, NamedType.nameChars]
      by_cases empty : head.ns = ""
      · rw [if_neg (not_not_intro empty), if_pos empty]
        exact writes_push _
      · rw [if_pos empty, if_neg empty]
        exact writes_bind (writes_push _) (writes_bind (writes_push _) (writes_push _))
  | nested head enclosing ih =>
      exact writes_bind ih (writes_bind (writes_push _) (writes_push _))

theorem writes_coreName (tag : ElementType) :
    Writes depth (coreName tag) (TypeSignature.primitiveChars tag) := by
  rw [coreName, TypeSignature.primitiveChars]
  cases tag.coreName? with
  | none => exact writes_pure
  | some name => exact writes_bind (writes_push _) (writes_bind (writes_push _) (writes_push _))

theorem writes_dimension (shape : ArrayShape) (i : Nat) :
    Writes depth (dimension style shape i) (shape.dimensionIn style i) := by
  cases style with
  | reflection =>
      rw [dimension, ArrayShape.dimensionIn]
      exact writes_pure
  | display =>
      cases lower : shape.lowerBounds[i]? with
      | none =>
          simp only [dimension, ArrayShape.dimensionIn, ArrayShape.dimension, lower]
          exact writes_pure
      | some bound =>
          cases size : shape.sizes[i]? with
          | none =>
              simp only [dimension, ArrayShape.dimensionIn, ArrayShape.dimension, lower, size]
              exact writes_bind (writes_push _)
                (writes_bind (writes_push "..".toList) (writes_push ['.']))
          | some size =>
              simp only [dimension, ArrayShape.dimensionIn, ArrayShape.dimension, lower, size,
                List.append_assoc]
              exact writes_bind (writes_push _) (writes_bind (writes_push _) (writes_push _))

theorem writes_dimensions {shape : ArrayShape} (several : 2 ≤ shape.rank) :
    Writes depth (dimensions style shape) ([','].intercalate (shape.dimensions style)) := by
  obtain ⟨rest, rank⟩ := Nat.exists_eq_add_of_le' several
  have leading : Writes depth
      (each (dimension style shape) false (List.range (min shape.rank ArrayShape.maxWritten)))
      ([','].intercalate ((List.range (min shape.rank ArrayShape.maxWritten)).map
        (shape.dimensionIn style))) :=
    writes_each fun i _ => writes_dimension shape i
  rw [ArrayShape.dimensions_eq, dimensions]
  simp only [rank] at leading ⊢
  by_cases many : ArrayShape.maxWritten < rest + 2
  · have nonempty : (List.range (min (rest + 2) ArrayShape.maxWritten)).map
        (shape.dimensionIn style) ≠ [] := by
      simp [ArrayShape.maxWritten]
    rw [if_pos many, if_pos many, intercalate_append nonempty, commas_cons]
    have marker : Writes depth (push "<<<RANK>>>".toList) ("<<<RANK>>>".toList ++ commas []) :=
      writes_push _
    exact writes_bind leading (writes_bind (writes_push _) marker)
  · rw [if_neg many, if_neg many, List.append_nil]
    exact (writes_bind leading writes_pure).congr (List.append_nil _)

theorem writes_arrayShape (shape : ArrayShape) :
    Writes depth (arrayShape style shape) (shape.chars style) := by
  match rank : shape.rank with
  | 0 | 1 =>
      rw [arrayShape, dimensions, ArrayShape.chars, rank]
      exact writes_bind (writes_push _) (writes_bind (writes_push _) (writes_push _))
  | rest + 2 =>
      have several : 2 ≤ shape.rank := by omega
      have inner := @writes_dimensions depth style shape several
      rw [arrayShape, ArrayShape.chars, rank]
      exact (writes_bind (writes_push ['[']) (writes_bind inner (writes_push [']']))).congr rfl

theorem writes_methodVar (i : Nat) : Writes depth (methodVar i) ("!!".toList ++ Text.decimal i) :=
  writes_bind (writes_push _) (writes_push _)

theorem writes_genericParameters (method : MethodSignature) :
    Writes depth (genericParameters method) method.genericChars := by
  rw [genericParameters, MethodSignature.genericChars]
  by_cases generic : method.isGeneric = true
  · rw [if_pos generic, if_pos generic]
    refine (writes_bind (writes_push _)
      (writes_bind (writes_each fun i _ => writes_methodVar i) (writes_push _))).congr ?_
    rfl
  · rw [if_neg generic, if_neg generic]
    exact writes_pure

end

section

variable {depth : Nat} {limit : Option Nat} {body : Build Unit} {text : List Char}

theorem writes_marker (full : limit.any (· ≤ depth) = true) :
    Writes depth (node limit body) "<<<INFRECURSION>>>".toList := by
  intro out
  rw [node, StateT.run_bind]
  exact (congrArg (StateT.run · _) (if_pos full)).trans rfl

theorem writes_node (room : limit.any (· ≤ depth) = false) (h : Writes (depth + 1) body text) :
    Writes depth (node limit body) text := by
  intro out
  rw [node, StateT.run_bind]
  refine (congrArg (StateT.run · _) (if_neg (ne_true_of_eq_false room))).trans ?_
  exact congrArg (fun result : Unit × NameBuilder =>
    ((), { result.2 with depth := result.2.depth - 1 })) (h out)

end

section

variable {depth : Nat} {limit : Option Nat} {style : NameStyle} {inner : TypeSignature → List Char}

theorem writes_handle {handle : TypeHandle} (h : ∀ t ∈ handle.specification?.toList,
    Writes depth (signature limit style t) (inner t)) :
    Writes depth (Build.handle limit style handle) (handle.nameChars style inner) := by
  obtain ⟨token, target⟩ := handle
  rcases target with _ | type | type | specification
  · exact writes_pure
  · exact writes_namedType type
  · exact writes_namedType type
  · exact h specification (List.mem_singleton_self _)

theorem signatures_eq (printed : Bool) (types : List TypeSignature) :
    signatures limit style printed types = each (signature limit style) printed types := by
  induction types generalizing printed with
  | nil => rfl
  | cons first rest ih => rw [signatures, each, ih]

/-- An argument with its assembly. -/
def qualifiedSignature (limit : Option Nat) (style : NameStyle) (argument : TypeSignature) :
    Build Unit := do
  push ['[']
  signature limit style argument
  assembly argument
  push [']']

theorem qualifiedSignatures_eq (printed : Bool) (types : List TypeSignature) :
    qualifiedSignatures limit style printed types =
      each (qualifiedSignature limit style) printed types := by
  induction types generalizing printed with
  | nil => rfl
  | cons first rest ih =>
      rw [qualifiedSignatures, each, ih, qualifiedSignature]
      simp only [bind_assoc]

theorem writes_assembly (argument : TypeSignature) :
    Writes depth (assembly argument) (qualified [] argument.assembly?) := by
  rw [assembly]
  cases argument.assembly? with
  | none => exact writes_pure
  | some owner => exact writes_bind (writes_push _) (writes_push _)

theorem qualified_eq (name : List Char) (owner : Option AssemblyIdentity) :
    qualified name owner = name ++ qualified [] owner := by
  cases owner with
  | none => exact (List.append_nil name).symm
  | some owner => rw [qualified, qualified, List.nil_append, List.append_assoc]

theorem writes_qualifiedSignature {argument : TypeSignature}
    (h : Writes depth (signature limit style argument) (inner argument)) :
    Writes depth (qualifiedSignature limit style argument)
      ('[' :: qualified (inner argument) argument.assembly? ++ [']']) := by
  rw [qualified_eq, List.cons_append, List.append_assoc]
  exact writes_bind (writes_push ['[']) (writes_bind h
    (writes_bind (writes_assembly argument) (writes_push [']'])))

theorem writes_arguments {arguments : List TypeSignature}
    (h : ∀ argument ∈ arguments, Writes depth (signature limit style argument) (inner argument)) :
    Writes depth (do push ['<']; signatures limit style false arguments; push ['>'])
      (TypeSignature.argumentChars .display inner arguments) := by
  have each := writes_each h
  rw [signatures_eq]
  exact (writes_bind (writes_push ['<']) (writes_bind each (writes_push ['>']))).congr rfl

theorem writes_qualifiedArguments {arguments : List TypeSignature}
    (h : ∀ argument ∈ arguments, Writes depth (signature limit style argument) (inner argument)) :
    Writes depth (do push ['[']; qualifiedSignatures limit style false arguments; push [']'])
      (TypeSignature.argumentChars .reflection inner arguments) := by
  rw [qualifiedSignatures_eq]
  have each := writes_each fun argument mem => writes_qualifiedSignature (h argument mem)
  exact (writes_bind (writes_push ['[']) (writes_bind each (writes_push [']']))).congr rfl

/-- The parameters behind the dots, and the dots. -/
def variableChars (inner : TypeSignature → List Char) (printed : Bool) :
    Option (List TypeSignature) → List Char
  | none => []
  | some varargs =>
    (if printed then [','] else []) ++ ("...".toList ++ commas (varargs.map inner))

theorem paramChars_eq (method : MethodSignature) :
    [','].intercalate (method.paramChars inner) = [','].intercalate (method.params.map inner) ++
      variableChars inner (!method.params.isEmpty) method.varargs := by
  rw [MethodSignature.paramChars]
  cases method.varargs with
  | none => exact (List.append_nil _).symm
  | some varargs =>
      cases params : method.params with
      | nil => exact intercalate_cons _ _
      | cons first rest =>
        rw [intercalate_append (by simp), commas_cons]
        rfl

theorem writes_variableSignatures (printed : Bool) {varargs : Option (List TypeSignature)}
    (h : ∀ t ∈ varargs.getD [], Writes depth (signature limit style t) (inner t)) :
    Writes depth (variableSignatures limit style printed varargs)
      (variableChars inner printed varargs) := by
  cases varargs with
  | none => exact writes_pure
  | some types =>
      rw [variableSignatures, signatures_eq, variableChars]
      refine writes_bind ?_ (writes_bind (writes_push _) (writes_each_behind h))
      cases printed with
      | true => exact writes_comma
      | false => exact writes_pure

theorem methodChars_eq (method : MethodSignature) : method.nameChars inner =
    "method ".toList ++ (inner method.result ++ (" *".toList ++ (method.genericChars ++
      (['('] ++ ([','].intercalate (method.params.map inner) ++
        (variableChars inner (!method.params.isEmpty) method.varargs ++ [')'])))))) := by
  have unfolded : method.nameChars inner = "method ".toList ++ inner method.result ++
      " *".toList ++ method.genericChars ++ '(' :: [','].intercalate (method.paramChars inner) ++
        [')'] := rfl
  rw [unfolded, paramChars_eq]
  simp only [List.append_assoc, List.cons_append, List.nil_append]

theorem writes_method {method : MethodSignature}
    (h : ∀ part ∈ method.parts, Writes depth (signature limit style part) (inner part)) :
    Writes depth (Build.method limit style method) (method.nameChars inner) := by
  obtain ⟨hresult, hparams, hvarargs⟩ := MethodSignature.forall_parts_iff.mp h
  rw [methodChars_eq]
  obtain ⟨convention, genericCount, result, params, varargs⟩ := method
  rw [Build.method, signatures_eq]
  exact writes_bind (writes_push _) (writes_bind hresult (writes_bind (writes_push _)
    (writes_bind (writes_genericParameters _) (writes_bind (writes_push _) (writes_bind
      (writes_each hparams) (writes_bind (writes_variableSignatures _ hvarargs)
        (writes_push _)))))))

theorem writes_before (wrapper : Wrapper) : Writes depth (before wrapper) wrapper.frontChars := by
  cases wrapper with
  | «scoped» index =>
      exact writes_bind (writes_push _) (writes_bind (writes_push _) (writes_push _))
  | _ => exact writes_pure

theorem writes_behind {wrapper : Wrapper} (h : ∀ t ∈ wrapper.specifications,
      Writes depth (signature limit style t) (inner t)) :
    Writes depth (behind limit style wrapper)
      (wrapper.backChars style (TypeHandle.nameChars style inner)) := by
  cases wrapper with
  | pointer | byRef | vector => exact writes_push _
  | array shape => exact writes_arrayShape shape
  | «scoped» index => exact writes_pure
  | pinned =>
      cases style with
      | display => exact writes_push _
      | reflection => exact writes_pure
  | valueArray size =>
      exact writes_bind (writes_push _) (writes_bind (writes_push _) (writes_push _))
  | modifier kind handle =>
      cases style with
      | display =>
          exact writes_bind (writes_push _) (writes_bind (writes_handle h) (writes_push _))
      | reflection => exact writes_pure

/-- A node is written as its name says if all of its components are. -/
theorem writes_signature {type : TypeSignature} (room : limit.any (· ≤ depth) = false)
    (h : ∀ t ∈ type.components, Writes (depth + 1) (signature limit style t) (inner t)) :
    Writes depth (signature limit style type) (type.nodeChars style inner) := by
  cases type with
  | primitive row tag type =>
      cases type with
      | none => exact writes_node room (writes_coreName tag)
      | some type => exact writes_node room (writes_namedType type)
  | named row kind handle => exact writes_node room (writes_handle h)
  | typeVar row index => exact writes_node room (writes_bind (writes_push ['!']) (writes_push _))
  | methodVar row index => exact writes_node room (writes_methodVar index)
  | sentinel row => exact writes_node room (writes_push _)
  | functionPointer row method =>
      cases style with
      | display => exact writes_node room (writes_method h)
      | reflection => exact writes_node room (writes_push _)
  | instantiation row kind generic arguments =>
      obtain ⟨hgeneric, harguments⟩ := List.forall_mem_append.mp h
      cases style with
      | display =>
          exact writes_node room
            (writes_bind (writes_handle hgeneric) (writes_arguments harguments))
      | reflection =>
          exact writes_node room
            (writes_bind (writes_handle hgeneric) (writes_qualifiedArguments harguments))
  | wrapped row wrapper next =>
      obtain ⟨hwrapper, hnext⟩ := List.forall_mem_append.mp h
      have inside := hnext next (List.mem_singleton_self next)
      refine (writes_node room (writes_bind (writes_before wrapper)
        (writes_bind inside (writes_behind hwrapper)))).congr ?_
      exact (wrapper.surround_eq style _ _).symm

end

end Build

end CliMetadata
