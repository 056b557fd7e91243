import CliMetadata.Proofs.DisplayNames
import CliMetadata.Proofs.Scanning
import CliMetadata.Signature.Naming

/-!
Assembly-qualified names taken apart again. Escapes keep identifiers from meaning anything, so that
a reflection name closes all of its brackets and has commas inside of them only. The first comma
outside of brackets is therefore the one in front of the assembly. The names of the assemblies of
generic arguments stand in the brackets without escapes and must not have brackets of their own.
-/

namespace CliMetadata

open Text (Bracketed Scan isPlain)

theorem isPlain_of_isDigit {c : Char} (digit : c.isDigit = true) :
    isPlain c = true ∧ c ≠ ',' := by
  have other {d : Char} (h : d.isDigit = false) : c ≠ d := by
    rintro rfl
    rw [digit] at h
    cases h
  refine ⟨?_, other (by decide)⟩
  simp only [isPlain, Bool.and_eq_true, bne_iff_ne]
  exact ⟨⟨other (by decide), other (by decide)⟩, other (by decide)⟩

theorem bracketed_decimal (n : Nat) : Bracketed false (Text.decimal n) := by
  refine .of_forall fun c mem => ?_
  obtain ⟨solid, noComma⟩ := isPlain_of_isDigit (Text.isDigit_of_mem_decimal mem)
  exact ⟨solid, fun comma => absurd comma noComma⟩

theorem NameStyle.bracketed_escape (text : List Char) :
    Bracketed false (NameStyle.escape text) := by
  induction text with
  | nil => exact .nil
  | cons c rest ih =>
      rw [escape]
      by_cases special : isSpecial c = true
      · rw [if_pos special]
        exact .escaped c ih
      · rw [if_neg special]
        simp only [isSpecial, Bool.or_eq_true, beq_iff_eq, not_or] at special
        refine .plain ?_ (fun comma => absurd comma (by tauto)) ih
        simp only [isPlain, Bool.and_eq_true, bne_iff_ne]
        tauto

theorem NamedType.bracketed_nameChars (type : NamedType) :
    Bracketed false (type.nameChars .reflection) := by
  have identifier (text : String) : Bracketed false (NameStyle.reflection.identifier text) :=
    NameStyle.bracketed_escape text.toList
  induction type with
  | topLevel head =>
      rw [nameChars]
      by_cases none : head.ns = ""
      · rw [if_pos none]
        exact identifier head.name
      · rw [if_neg none]
        exact (identifier head.ns).append (.plain (by decide) (by decide) (identifier head.name))
  | nested head enclosing ih =>
      rw [nameChars]
      exact ih.append (.plain (by decide) (by decide) (identifier head.name))

theorem bracketed_primitiveChars (tag : ElementType) :
    Bracketed false (TypeSignature.primitiveChars tag) := by
  cases tag <;> exact .of_all _ (by decide)

theorem ArrayShape.bracketed_chars (shape : ArrayShape) :
    Bracketed false (shape.chars .reflection) := by
  have dimension : ∀ text ∈ shape.dimensions .reflection, Bracketed true text := by
    intro text mem
    have written : ∀ text ∈ (List.range (min shape.rank maxWritten)).map fun _ => ([] : List Char),
        Bracketed true text := by
      intro text mem
      obtain ⟨_, _, rfl⟩ := List.mem_map.mp mem
      exact .nil
    rw [dimensions] at mem
    by_cases all : shape.rank ≤ maxWritten
    · rw [if_pos all] at mem
      exact written text mem
    · rw [if_neg all] at mem
      rcases List.mem_append.mp mem with mem | mem
      · exact written text mem
      · rw [List.mem_singleton.mp mem]
        exact .of_all _ (by decide)
  rw [chars]
  split
  · exact .enclosed (.of_all "<RANK0>".toList (by decide))
  · exact .enclosed (.of_all ['*'] (by decide))
  · exact .enclosed (.intercalate dimension)

theorem Wrapper.bracketed_surround (wrapper : Wrapper) (nameOf : TypeHandle → List Char)
    {name : List Char} (h : Bracketed false name) :
    Bracketed false (wrapper.surround .reflection nameOf name) := by
  cases wrapper with
  | pointer | byRef => exact h.append (.of_all _ (by decide))
  | vector => exact h.append (.enclosed .nil)
  | pinned => exact h
  | array shape => exact h.append shape.bracketed_chars
  | modifier kind handle => cases kind <;> exact h
  | valueArray size =>
      refine ((h.append ?_).append (bracketed_decimal size)).append ?_
      · exact .of_all _ (by decide)
      · exact .of_all _ (by decide)
  | «scoped» index =>
      have inner : Bracketed true ("module:".toList ++ Text.decimal index) :=
        .append (.of_all _ (by decide)) (bracketed_decimal index).loosen
      exact .brackets inner h

namespace AssemblyIdentity

/-- Name and culture have neither brackets nor backslashes. -/
def IsPlain (identity : AssemblyIdentity) : Prop :=
  ∀ c ∈ identity.name.toList ++ (identity.culture.getD "").toList, isPlain c = true

instance (identity : AssemblyIdentity) : Decidable identity.IsPlain :=
  List.decidableBAll _ _

theorem bracketed_displayChars {identity : AssemblyIdentity} (plain : identity.IsPlain) :
    Bracketed true identity.displayChars := by
  obtain ⟨plainName, plainCulture⟩ := List.forall_mem_append.mp plain
  have name : Bracketed true identity.name.toList :=
    .of_forall fun c mem => ⟨plainName c mem, fun _ => rfl⟩
  have version : Bracketed true identity.version.chars := by
    refine .of_forall fun c mem => ⟨?_, fun _ => rfl⟩
    rcases AssemblyVersion.mem_chars mem with digit | rfl
    · exact (isPlain_of_isDigit digit).1
    · decide
  have culture : Bracketed true identity.cultureChars := by
    rw [cultureChars]
    cases text : identity.culture with
    | none => exact .of_all _ (by decide)
    | some text' =>
        rw [text] at plainCulture
        exact .of_forall fun c mem => ⟨plainCulture c mem, fun _ => rfl⟩
  have keyToken : Bracketed true identity.keyTokenChars := by
    rw [keyTokenChars]
    cases identity.publicKeyToken with
    | none => exact .of_all _ (by decide)
    | some token =>
        refine .of_forall fun c mem => ⟨?_, fun _ => rfl⟩
        have all : "0123456789abcdef".toList.all isPlain = true := by decide
        exact List.all_eq_true.mp all c (Text.mem_hexDigits mem)
  refine .append (.append (.append (.append (.append (.append name ?_) version) ?_) culture) ?_)
    keyToken
  all_goals exact .of_all _ (by decide)

end AssemblyIdentity

mutual

/-- The generic arguments that the reflection name of a signature goes through, at any depth and in
the rows behind handles as well. Such names leave out what stands in function pointers and which
types modify. -/
def TypeSignature.writtenArguments : TypeSignature → List TypeSignature
  | .named _ _ handle => handle.writtenArguments
  | .instantiation _ _ generic arguments =>
    generic.writtenArguments ++ (arguments ++ TypeSignature.writtenArgumentsOfAll arguments)
  | .wrapped _ _ next => next.writtenArguments
  | .primitive _ _ _ | .typeVar _ _ | .methodVar _ _ | .sentinel _ | .functionPointer _ _ => []

def TypeHandle.writtenArguments : TypeHandle → List TypeSignature
  | ⟨_, target⟩ => TypeRow.writtenArgumentsOfTarget target

def TypeRow.writtenArgumentsOfTarget : Option TypeRow → List TypeSignature
  | none => []
  | some row => row.writtenArguments

def TypeRow.writtenArguments : TypeRow → List TypeSignature
  | .definition _ | .reference _ => []
  | .specification signature => signature.writtenArguments

def TypeSignature.writtenArgumentsOfAll : List TypeSignature → List TypeSignature
  | [] => []
  | signature :: rest =>
    signature.writtenArguments ++ TypeSignature.writtenArgumentsOfAll rest

end

namespace TypeSignature

theorem writtenArgumentsOfAll_eq (signatures : List TypeSignature) :
    writtenArgumentsOfAll signatures = signatures.flatMap writtenArguments := by
  induction signatures with
  | nil => rfl
  | cons signature rest ih => rw [writtenArgumentsOfAll, ih, List.flatMap_cons]

/-- The assemblies that a reflection name has in its brackets are plain. -/
def HasPlainArguments (signatures : List TypeSignature) : Prop :=
  ∀ argument ∈ signatures, ∀ assembly ∈ argument.assembly?, assembly.IsPlain

section

variable {inner : TypeSignature → List Char}

theorem bracketed_handle {handle : TypeHandle}
    (h : ∀ signature, HasPlainArguments signature.writtenArguments →
      Bracketed false (inner signature))
    (plain : HasPlainArguments handle.writtenArguments) :
    Bracketed false (handle.nameChars .reflection inner) := by
  obtain ⟨token, target⟩ := handle
  rcases target with _ | type | type | signature
  · exact .nil
  · exact type.bracketed_nameChars
  · exact type.bracketed_nameChars
  · exact h signature plain

theorem bracketed_argument {argument : TypeSignature} (h : Bracketed false (inner argument))
    (plain : ∀ assembly ∈ argument.assembly?, assembly.IsPlain) :
    Bracketed true (qualified (inner argument) argument.assembly?) := by
  cases assembly : argument.assembly? with
  | none => exact h.loosen
  | some found =>
      refine .append (h.loosen.append (.of_all _ (by decide))) ?_
      exact AssemblyIdentity.bracketed_displayChars (plain found assembly)

theorem bracketed_argumentChars {arguments : List TypeSignature}
    (h : ∀ argument ∈ arguments, Bracketed false (inner argument))
    (plain : HasPlainArguments arguments) :
    Bracketed false (argumentChars .reflection inner arguments) := by
  refine .enclosed (.intercalate fun part mem => ?_)
  obtain ⟨argument, given, rfl⟩ := List.mem_map.mp mem
  exact .enclosed (bracketed_argument (h argument given) (plain argument given))

theorem bracketed_nodeChars {signature : TypeSignature}
    (h : ∀ signature, HasPlainArguments signature.writtenArguments →
      Bracketed false (inner signature))
    (plain : HasPlainArguments signature.writtenArguments) :
    Bracketed false (nodeChars .reflection inner signature) := by
  cases signature with
  | primitive row tag type =>
      cases type with
      | none => exact bracketed_primitiveChars tag
      | some type => exact type.bracketed_nameChars
  | named row kind handle => exact bracketed_handle h plain
  | typeVar row index => exact .plain (by decide) (by decide) (bracketed_decimal index)
  | methodVar row index => exact .append (.of_all _ (by decide)) (bracketed_decimal index)
  | sentinel row => exact .of_all "<<<SENTINEL>>>".toList (by decide)
  | functionPointer row method => exact .of_all "(fnptr)".toList (by decide)
  | instantiation row kind generic arguments =>
      rw [writtenArguments, writtenArgumentsOfAll_eq] at plain
      obtain ⟨plainGeneric, plainArguments, plainInside⟩ := by
        simpa only [HasPlainArguments, List.forall_mem_append] using plain
      refine .append (bracketed_handle h plainGeneric) (bracketed_argumentChars ?_ plainArguments)
      intro argument mem
      refine h argument fun inside there => plainInside inside ?_
      exact List.mem_flatMap.mpr ⟨argument, mem, there⟩
  | wrapped row wrapper next => exact wrapper.bracketed_surround _ (h next plain)

end

theorem bracketed_nameWithin (levels : Nat) (signature : TypeSignature)
    (plain : HasPlainArguments signature.writtenArguments) :
    Bracketed false (nameWithin .reflection levels signature) := by
  induction levels generalizing signature with
  | zero => exact .of_all "<<<INFRECURSION>>>".toList (by decide)
  | succ levels ih => exact bracketed_nodeChars ih plain

/-- A reflection name closes its brackets and has no comma outside of them. The first such comma of
an assembly-qualified name therefore ends the reflection name, and behind it is the assembly. -/
theorem assembly_qualified_name_splits (signature : TypeSignature)
    (plain : HasPlainArguments signature.writtenArguments) :
    (Scan.after {} signature.reflectionFullName.toList = {} ∧
      Scan.StaysAbove 0 {} signature.reflectionFullName.toList ∧
      Scan.cut? {} signature.reflectionFullName.toList = none) ∧
    match signature.assembly? with
    | none =>
      signature.assemblyQualifiedName = signature.reflectionFullName ∧
        Scan.cut? {} signature.assemblyQualifiedName.toList = none
    | some assembly =>
      Scan.cut? {} signature.assemblyQualifiedName.toList =
          some (signature.reflectionFullName.toList, (" " ++ assembly.displayName).toList) ∧
        (assembly.IsRepresentable →
          AssemblyIdentity.ofString (" " ++ assembly.displayName) = .ok assembly) := by
  have closed : Bracketed false signature.reflectionFullName.toList := by
    rw [reflectionFullName, String.toList_ofList]
    exact bracketed_nameWithin maxNesting signature plain
  have cut (rest : List Char) : Scan.cut? {} (signature.reflectionFullName.toList ++ rest) =
      (Scan.cut? {} rest).map (Scan.putBefore signature.reflectionFullName.toList) :=
    closed.cut?_append (Int.le_refl 0) (fun commas => nomatch commas) rest
  have noCut : Scan.cut? {} signature.reflectionFullName.toList = none := by
    simpa [Scan.cut?] using cut []
  refine ⟨⟨closed.after_eq 0, closed.staysAbove 0, noCut⟩, ?_⟩
  cases owner : signature.assembly? with
  | none =>
      have whole : signature.assemblyQualifiedName = signature.reflectionFullName := by
        rw [assemblyQualifiedName, owner]
        rfl
      exact ⟨whole, by rw [whole, noCut]⟩
  | some assembly =>
      have display : (" " ++ assembly.displayName).toList = ' ' :: assembly.displayChars := by
        rw [AssemblyIdentity.displayName, String.toList_append, String.toList_ofList,
          String.toList_ofList, List.singleton_append]
      have whole : signature.assemblyQualifiedName.toList =
          signature.reflectionFullName.toList ++ ',' :: ' ' :: assembly.displayChars := by
        have comma : ", ".toList = [',', ' '] := rfl
        rw [assemblyQualifiedName, owner, reflectionFullName, String.toList_ofList,
          String.toList_ofList, qualified, comma, List.append_assoc, List.cons_append,
          List.singleton_append]
      refine ⟨?_, fun representable => ?_⟩
      · -- The comma in front of the assembly is where the scan is back outside of all brackets.
        rw [whole, cut, display]
        simp [Scan.cut?, Scan.putBefore]
      · rw [AssemblyIdentity.ofString, display, AssemblyIdentity.ofChars_cons_blank]
        exact AssemblyIdentity.ofChars_displayChars representable

/-- A vector of lists; the name of the elements has a comma in it. -/
def vectorOfLists : TypeSignature :=
  .wrapped 0 .vector <| .instantiation 0 .classType
    (.ofRow <| .reference <| .topLevel
      { token := ⟨0x01000001⟩, ns := "Lists", name := "List`1",
        scope := some (.inAssembly { name := "Core" }) })
    [.named 0 .classType <| .ofRow <| .reference <| .topLevel
      { token := ⟨0x01000002⟩, name := "Key,Value",
        scope := some (.inAssembly { name := "Pairs" }) }]

theorem assembly_qualified_name_splits_vector_of_lists :
    HasPlainArguments vectorOfLists.writtenArguments ∧
    vectorOfLists.reflectionFullName = "Lists.List`1[[Key\\,Value, Pairs, " ++
      "Version=0.0.0.0, Culture=neutral, PublicKeyToken=null]][]" ∧
    Scan.cut? {} vectorOfLists.assemblyQualifiedName.toList =
      some (vectorOfLists.reflectionFullName.toList,
        (" " ++ AssemblyIdentity.displayName { name := "Core" }).toList) := by
  have plain : HasPlainArguments vectorOfLists.writtenArguments := by
    intro argument mem assembly owner
    obtain rfl : argument = .named 0 .classType _ := List.mem_singleton.mp mem
    obtain rfl : assembly = _ := (Option.some.inj owner).symm
    decide
  exact ⟨plain, rfl, (assembly_qualified_name_splits vectorOfLists plain).2.1⟩

end TypeSignature

end CliMetadata
