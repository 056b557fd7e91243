import CliMetadata.Proofs.Canonical
import CliMetadata.Proofs.Sameness

/-!
The way through the bytes and back. A signature that can be written comes back as it was if and only
if it is one of those that are read: not nested too deep, with the rows that the resolver gives, and
regular in the few places where different signatures are written alike.
-/

namespace CliMetadata

open Lexeme

/-- The row of the handle is the one that the resolver gives for its token. -/
def TypeHandle.IsResolvedBy (resolver : Resolver) (handle : TypeHandle) : Prop :=
  TypeRow.sameTarget (resolver.row? handle.token) handle.target

/-- What keeps the parts of a method apart in the bytes. Without the flag for generic parameters
their count is not written, the first sentinel among the parameters begins the variable ones, and
it is not written if there are none. -/
structure MethodSignature.IsRegular (method : MethodSignature) : Prop where
  kind_mem : method.kind ∈ MethodSignature.kinds
  genericCount_eq : ¬method.isGeneric → method.genericCount = 0
  params_ne : ∀ row, TypeSignature.sentinel row ∉ method.params
  varargs_ne : method.varargs ≠ some []

def Wrapper.IsRegular (resolver : Resolver) : Wrapper → Prop
  | .array shape => shape.IsRegular
  | .modifier _ handle => handle.IsResolvedBy resolver
  | _ => True

/-- Whether the node itself is one that is read, whatever the types inside of it are. -/
def TypeSignature.IsRegularNode (resolver : Resolver) : TypeSignature → Prop
  | .primitive _ tag type => type = resolver.primitive? tag
  | .named _ _ handle => handle.IsResolvedBy resolver
  | .functionPointer _ method => method.IsRegular
  | .instantiation _ _ generic _ => generic.IsResolvedBy resolver
  | .wrapped _ wrapper _ => wrapper.IsRegular resolver
  | .typeVar _ _ | .methodVar _ _ | .sentinel _ => True

structure TypeSignature.IsReadable (resolver : Resolver) (signature : TypeSignature) : Prop where
  nesting_le : signature.nesting ≤ TypeSignature.maxNesting
  nodes : ∀ node ∈ signature.nodes, node.IsRegularNode resolver

structure MethodSignature.IsReadable (resolver : Resolver) (method : MethodSignature) : Prop where
  regular : method.IsRegular
  nesting_le : method.nesting ≤ TypeSignature.maxNesting
  nodes : ∀ node ∈ method.nodes, node.IsRegularNode resolver

variable {resolver : Resolver}

theorem forall_of_same {spellings : List TypeSpelling} {signatures : List TypeSignature}
    {P : TypeSignature → Prop}
    (same : List.Forall₂ (fun t other => t.same other) (spellings.map (TypeSpelling.tree resolver))
      signatures) (h : ∀ s ∈ spellings, ∀ t, (s.tree resolver).same t → P t) :
    ∀ t ∈ signatures, P t := by
  induction spellings generalizing signatures with
  | nil =>
      cases same
      simp
  | cons s rest ih =>
      obtain ⟨hs, hrest⟩ := List.forall_mem_cons.mp h
      cases same with
      | cons first others => exact List.forall_mem_cons.mpr ⟨hs _ first, ih others hrest⟩

theorem isResolvedBy_of_same {token : Token} {handle : TypeHandle}
    (same : (resolver.handle token).same handle) : handle.IsResolvedBy resolver := by
  obtain ⟨token_eq, target⟩ := TypeHandle.same_iff.mp same
  rw [TypeHandle.IsResolvedBy, ← token_eq]
  exact target

namespace WrapperSpelling

theorem isRegular_of_same {spelling : WrapperSpelling} {wrapper : Wrapper}
    (same : (spelling.wrapper resolver).same wrapper) : wrapper.IsRegular resolver := by
  cases spelling <;> cases wrapper <;>
    simp only [WrapperSpelling.wrapper, Wrapper.same, Bool.and_eq_true, decide_eq_true_eq,
      Bool.false_eq_true] at same
  case array.array shape other =>
    rw [Wrapper.IsRegular, ← same]
    exact shape.shape_isRegular
  case modifier.modifier kind index other handle => exact isResolvedBy_of_same same.2
  all_goals trivial

end WrapperSpelling

namespace TypeSpelling

theorem eq_sentinel_of_same {spelling : TypeSpelling} {row : Nat}
    (same : (spelling.tree resolver).same (.sentinel row)) : spelling = .sentinel := by
  cases spelling with
  | sentinel => rfl
  | _ => simp [tree, TypeSignature.same] at same

end TypeSpelling

namespace MethodSpelling

theorem isRegular_of_same {spelling : MethodSpelling} {method : MethodSignature}
    (valid : spelling.Valid) (same : (spelling.tree resolver).same method) : method.IsRegular := by
  obtain ⟨kind_mem, flag, -, fixed, -⟩ := valid_iff.mp valid
  obtain ⟨convention, genericCount, -, params, varargs⟩ := MethodSignature.same_iff.mp same
  rw [tree_eq] at convention genericCount params varargs
  refine ⟨?_, ?_, ?_, ?_⟩
  · rwa [MethodSignature.kind, ← convention]
  · intro noFlag
    have generics : spelling.generics = none := by
      rw [MethodSignature.isGeneric, ← convention] at noFlag
      cases generics : spelling.generics with
      | none => rfl
      | some numeral => simp_all
    rw [← genericCount, generics]
    rfl
  · intro row mem
    refine forall_of_same params (P := fun t => t ≠ .sentinel row) ?_ _ mem rfl
    rintro s hs _ same rfl
    rw [TypeSpelling.eq_sentinel_of_same same] at hs
    exact fixed hs
  · intro none
    rw [none] at varargs
    generalize spelling.varargs = all at varargs
    cases all with
    | nil => cases varargs
    | cons vararg rest =>
        cases varargs with
        | some all => cases all

end MethodSpelling

namespace TypeSpelling

/-- Only regular nodes are the same as nodes that were read. -/
theorem nodes_of_same {spelling : TypeSpelling} {signature : TypeSignature}
    (valid : spelling.Valid) (same : (spelling.tree resolver).same signature) :
    ∀ node ∈ signature.nodes, node.IsRegularNode resolver := by
  induction spelling generalizing signature with
  | primitive tag isPrimitive =>
      obtain ⟨_, rfl⟩ := TypeSignature.same_primitive_iff.mp same
      exact List.forall_mem_singleton.mpr rfl
  | named kind index =>
      obtain ⟨_, _, rfl, handle⟩ := TypeSignature.same_named_iff.mp same
      exact List.forall_mem_singleton.mpr (isResolvedBy_of_same handle)
  | typeVar index =>
      obtain ⟨_, rfl⟩ := TypeSignature.same_typeVar_iff.mp same
      exact List.forall_mem_singleton.mpr trivial
  | methodVar index =>
      obtain ⟨_, rfl⟩ := TypeSignature.same_methodVar_iff.mp same
      exact List.forall_mem_singleton.mpr trivial
  | sentinel =>
      obtain ⟨_, rfl⟩ := TypeSignature.same_sentinel_iff.mp same
      exact List.forall_mem_singleton.mpr trivial
  | functionPointer method ih =>
      obtain ⟨_, other, rfl, methods⟩ := TypeSignature.same_functionPointer_iff.mp same
      have partsValid := (MethodSpelling.valid_iff.mp valid).2.2.2.2
      have parts := MethodSignature.forall₂_parts methods
      rw [MethodSpelling.parts_tree] at parts
      rw [TypeSignature.nodes, MethodSignature.nodes_eq, List.forall_mem_cons,
        List.forall_mem_flatMap]
      refine ⟨MethodSpelling.isRegular_of_same valid methods, forall_of_same parts ?_⟩
      exact fun part mem t same => ih part mem (partsValid part mem) same
  | instantiation kind generic count arguments ih =>
      rw [tree, trees_eq] at same
      obtain ⟨_, _, others, rfl, handle, all⟩ := TypeSignature.same_instantiation_iff.mp same
      have argumentsValid := allValid_iff.mp valid.2
      rw [TypeSignature.nodes, TypeSignature.nodesOfAll_eq, List.forall_mem_cons,
        List.forall_mem_flatMap]
      refine ⟨isResolvedBy_of_same handle, forall_of_same all ?_⟩
      exact fun argument mem t same => ih argument mem (argumentsValid argument mem) same
  | wrapped wrapper next ih =>
      obtain ⟨_, _, _, rfl, wrappers, nexts⟩ := TypeSignature.same_wrapped_iff.mp same
      rw [TypeSignature.nodes, List.forall_mem_cons]
      exact ⟨WrapperSpelling.isRegular_of_same wrappers, ih valid nexts⟩

end TypeSpelling

namespace MethodSpelling

theorem nodes_of_same {spelling : MethodSpelling} {method : MethodSignature}
    (valid : spelling.Valid) (same : (spelling.tree resolver).same method) :
    ∀ node ∈ method.nodes, node.IsRegularNode resolver := by
  have partsValid := (valid_iff.mp valid).2.2.2.2
  have parts := MethodSignature.forall₂_parts same
  rw [parts_tree] at parts
  rw [MethodSignature.nodes_eq, List.forall_mem_flatMap]
  refine forall_of_same parts ?_
  exact fun part mem t same => TypeSpelling.nodes_of_same (partsValid part mem) same

end MethodSpelling

/-- A canonical spelling of a signature, up to row numbers. -/
structure TypeSpelling.Renders (resolver : Resolver) (spelling : TypeSpelling) (written : Bytes)
    (signature : TypeSignature) : Prop where
  valid : spelling.Valid
  canonical : AllCanonical spelling.lexemes
  bytes_eq : spelling.bytes = written
  same : (spelling.tree resolver).same signature

structure MethodSpelling.Renders (resolver : Resolver) (spelling : MethodSpelling)
    (written : Bytes) (method : MethodSignature) : Prop where
  valid : spelling.Valid
  canonical : AllCanonical spelling.lexemes
  bytes_eq : spelling.bytes = written
  same : (spelling.tree resolver).same method

structure TypeSpelling.RendersEach (resolver : Resolver) (spellings : List TypeSpelling)
    (written : Bytes) (signatures : List TypeSignature) : Prop where
  valid : ∀ s ∈ spellings, s.Valid
  canonical : ∀ s ∈ spellings, AllCanonical s.lexemes
  bytes_eq : spellings.flatMap TypeSpelling.bytes = written
  same : List.Forall₂ (fun t other => t.same other) (spellings.map (TypeSpelling.tree resolver))
    signatures

theorem TypeHandle.exists_index {handle : TypeHandle} {written : Bytes}
    (resolved : handle.IsResolvedBy resolver) (encoded : handle.encode = .ok written) :
    ∃ index : IndexNumeral, (index.IsShortest ∧ index.raw < 2 ^ 26) ∧ index.bytes = written ∧
      (resolver.handle index.token).same handle := by
  obtain ⟨index, canonical, written_eq, token_eq⟩ := Compressed.encodeToken_eq_ok_iff.mp encoded
  refine ⟨index, canonical, written_eq, TypeHandle.same_iff.mpr ⟨token_eq, ?_⟩⟩
  rw [Resolver.handle, token_eq]
  exact resolved

namespace Wrapper

theorem exists_spelling {wrapper : Wrapper} {before behind : Bytes}
    (regular : wrapper.IsRegular resolver) (hbefore : wrapper.encodeBefore = .ok before)
    (hbehind : wrapper.encodeBehind = .ok behind) :
    ∃ spelling : WrapperSpelling, AllCanonical spelling.before ∧ AllCanonical spelling.behind ∧
      bytesOf spelling.before = before ∧ bytesOf spelling.behind = behind ∧
      spelling.tag = wrapper.tag ∧ (spelling.wrapper resolver).same wrapper := by
  cases wrapper with
  | pointer =>
      cases hbefore
      cases hbehind
      exact ⟨.pointer, by simp, by simp, rfl, rfl, rfl, Wrapper.same_refl _⟩
  | byRef =>
      cases hbefore
      cases hbehind
      exact ⟨.byRef, by simp, by simp, rfl, rfl, rfl, Wrapper.same_refl _⟩
  | vector =>
      cases hbefore
      cases hbehind
      exact ⟨.vector, by simp, by simp, rfl, rfl, rfl, Wrapper.same_refl _⟩
  | pinned =>
      cases hbefore
      cases hbehind
      exact ⟨.pinned, by simp, by simp, rfl, rfl, rfl, Wrapper.same_refl _⟩
  | array shape =>
      cases hbefore
      obtain ⟨spelling, canonical, rfl, rfl⟩ := shape.exists_spelling regular hbehind
      exact ⟨.array spelling, by simp, canonical, rfl, rfl, rfl, Wrapper.same_refl _⟩
  | modifier kind handle =>
      cases hbehind
      obtain ⟨index, canonical, rfl, same⟩ := TypeHandle.exists_index regular hbefore
      exact ⟨.modifier kind index, by simpa using canonical, by simp, by simp, rfl, rfl,
        by simp [WrapperSpelling.wrapper, Wrapper.same, same]⟩
  | valueArray size =>
      cases hbefore
      obtain ⟨number, shortest, rfl, rfl⟩ := Compressed.encodeUnsigned_eq_ok_iff.mp hbehind
      exact ⟨.valueArray number, by simp, by simpa using shortest, rfl, by simp, rfl,
        Wrapper.same_refl _⟩
  | «scoped» index =>
      cases hbehind
      obtain ⟨number, shortest, rfl, rfl⟩ := Compressed.encodeUnsigned_eq_ok_iff.mp hbefore
      exact ⟨.scoped number, by simpa using shortest, by simp, by simp, rfl, rfl,
        Wrapper.same_refl _⟩

end Wrapper

theorem exists_rendersEach {signatures : List TypeSignature} {written : Bytes}
    (h : ∀ t ∈ signatures, ∀ part, t.encode = .ok part →
      ∃ s, TypeSpelling.Renders resolver s part t)
    (encoded : encodeEach TypeSignature.encode signatures = .ok written) :
    ∃ spellings, TypeSpelling.RendersEach resolver spellings written signatures := by
  induction signatures generalizing written with
  | nil =>
      cases encodeEach_nil_iff.mp encoded
      exact ⟨[], by simp, by simp, rfl, List.Forall₂.nil⟩
  | cons signature rest ih =>
      obtain ⟨hsignature, hrest⟩ := List.forall_mem_cons.mp h
      obtain ⟨_, first, _, others, rfl⟩ := encodeEach_cons_iff.mp encoded
      obtain ⟨s, valid, canonical, rfl, same⟩ := hsignature _ first
      obtain ⟨spellings, allValid, allCanonical, rfl, allSame⟩ := ih hrest others
      exact ⟨s :: spellings, List.forall_mem_cons.mpr ⟨valid, allValid⟩,
        List.forall_mem_cons.mpr ⟨canonical, allCanonical⟩, rfl, List.Forall₂.cons same allSame⟩

theorem exists_rendersVarargs {varargs : Option (List TypeSignature)} {written : Bytes}
    (regular : varargs ≠ some [])
    (h : ∀ t ∈ varargs.getD [], ∀ part, t.encode = .ok part →
      ∃ s, TypeSpelling.Renders resolver s part t)
    (encoded : TypeSignature.encodeVarargs varargs = .ok written) :
    ∃ spellings : List TypeSpelling, (∀ s ∈ spellings, s.Valid) ∧
      (∀ s ∈ spellings, AllCanonical s.lexemes) ∧
      bytesOf (TypeSpelling.varargLexemes spellings) = written ∧
      spellings.length = (varargs.getD []).length ∧
      Option.Rel (List.Forall₂ fun t other => t.same other)
        (TypeSpelling.varargTrees resolver spellings) varargs := by
  rcases varargs with _ | _ | ⟨signature, rest⟩
  · cases encoded
    exact ⟨[], by simp, by simp, rfl, rfl, Option.Rel.none⟩
  · exact absurd rfl regular
  · obtain ⟨_, body, rfl⟩ := TypeSignature.encodeVarargs_cons_iff.mp encoded
    obtain ⟨_ | ⟨s, spellings⟩, valid, canonical, rfl, same⟩ := exists_rendersEach h body
    · cases same
    refine ⟨s :: spellings, valid, canonical, bytesOf_varargs s spellings, ?_, ?_⟩
    · simpa using same.length_eq
    · rw [TypeSpelling.varargTrees, TypeSpelling.trees_eq]
      exact Option.Rel.some same

namespace MethodSignature

theorem exists_renders_of_parts {method : MethodSignature} {written : Bytes}
    (regular : method.IsRegular)
    (h : ∀ part ∈ method.parts, ∀ written, part.encode = .ok written →
      ∃ s, TypeSpelling.Renders resolver s written part)
    (encoded : method.encode = .ok written) :
    ∃ s, MethodSpelling.Renders resolver s written method := by
  obtain ⟨_, hhead, _, hresult, _, hparams, _, hvarargs, rfl⟩ := encode_iff.mp encoded
  obtain ⟨generics, count, flag, genericsCanonical, countShortest, count_eq, rfl⟩ :=
    encodeHead_iff.mp hhead
  obtain ⟨result, resultValid, resultCanonical, rfl, resultSame⟩ :=
    h method.result (by simp [parts]) _ hresult
  obtain ⟨params, paramsValid, paramsCanonical, rfl, paramsSame⟩ :=
    exists_rendersEach (fun t mem => h t (by simp [parts, mem])) hparams
  obtain ⟨varargs, varargsValid, varargsCanonical, rfl, length_eq, varargsSame⟩ :=
    exists_rendersVarargs regular.varargs_ne (fun t mem => h t (by simp [parts, mem])) hvarargs
  refine ⟨⟨method.convention, generics, count, result, params, varargs⟩, ?_, ?_, ?_, ?_⟩
  · refine MethodSpelling.valid_iff.mpr ⟨regular.kind_mem, ?_, ?_, ?_,
      MethodSpelling.forall_parts_iff.mpr ⟨resultValid, paramsValid, varargsValid⟩⟩
    · simpa [isGeneric] using flag
    · have params_length := paramsSame.length_eq
      rw [List.length_map] at params_length
      rw [count_eq, paramCount, params_length, length_eq]
    · intro mem
      -- A sentinel among the spellings would stand for one among the parameters.
      have memTree := List.mem_map_of_mem (f := TypeSpelling.tree resolver) mem
      obtain ⟨other, memOther, same⟩ := TypeSignature.exists_same_of_mem paramsSame memTree
      obtain ⟨row, rfl⟩ := TypeSignature.same_sentinel_iff.mp same
      exact regular.params_ne row memOther
  · exact MethodSpelling.allCanonical_lexemes_iff.mpr
      ⟨fun numeral mem => (genericsCanonical numeral mem).1, countShortest,
        MethodSpelling.forall_parts_iff.mpr ⟨resultCanonical, paramsCanonical, varargsCanonical⟩⟩
  · rw [MethodSpelling.bytes_eq, bytesOf_append, TypeSpelling.allLexemes_eq,
      TypeSpelling.bytesOf_flatMap]
    simp
  · rw [MethodSpelling.tree_eq]
    refine same_iff.mpr ⟨rfl, ?_, resultSame, paramsSame, varargsSame⟩
    cases generics with
    | none => exact (regular.genericCount_eq (by simpa using flag)).symm
    | some numeral => exact (genericsCanonical numeral rfl).2

end MethodSignature

namespace TypeSignature

/-- What is written for a signature with regular nodes is a canonical spelling of it. -/
theorem exists_renders {signature : TypeSignature} {written : Bytes}
    (nodes : ∀ node ∈ signature.nodes, node.IsRegularNode resolver)
    (encoded : signature.encode = .ok written) :
    ∃ s, TypeSpelling.Renders resolver s written signature := by
  induction signature generalizing written with
  | primitive row tag type =>
      obtain ⟨isPrimitive, rfl⟩ := encode_primitive_iff.mp encoded
      obtain rfl := List.forall_mem_singleton.mp nodes
      exact ⟨.primitive tag isPrimitive, trivial, by simp [TypeSpelling.lexemes], rfl,
        same_primitive_iff.mpr ⟨row, rfl⟩⟩
  | named row kind handle =>
      obtain ⟨_, reference, rfl⟩ := encode_named_iff.mp encoded
      have resolved : (named row kind handle).IsRegularNode resolver :=
        List.forall_mem_singleton.mp nodes
      obtain ⟨index, canonical, rfl, same⟩ := TypeHandle.exists_index resolved reference
      exact ⟨.named kind index, trivial, by simpa [TypeSpelling.lexemes] using canonical,
        TypeSpelling.bytes_named kind index, same_named_iff.mpr ⟨row, handle, rfl, same⟩⟩
  | typeVar row index =>
      obtain ⟨_, hnumber, rfl⟩ := encode_typeVar_iff.mp encoded
      obtain ⟨number, shortest, rfl, rfl⟩ := Compressed.encodeUnsigned_eq_ok_iff.mp hnumber
      exact ⟨.typeVar number, trivial, by simpa [TypeSpelling.lexemes] using shortest,
        TypeSpelling.bytes_typeVar number, same_typeVar_iff.mpr ⟨row, rfl⟩⟩
  | methodVar row index =>
      obtain ⟨_, hnumber, rfl⟩ := encode_methodVar_iff.mp encoded
      obtain ⟨number, shortest, rfl, rfl⟩ := Compressed.encodeUnsigned_eq_ok_iff.mp hnumber
      exact ⟨.methodVar number, trivial, by simpa [TypeSpelling.lexemes] using shortest,
        TypeSpelling.bytes_methodVar number, same_methodVar_iff.mpr ⟨row, rfl⟩⟩
  | sentinel row =>
      cases encode_sentinel_iff.mp encoded
      exact ⟨.sentinel, trivial, by simp [TypeSpelling.lexemes], rfl,
        same_sentinel_iff.mpr ⟨row, rfl⟩⟩
  | functionPointer row method ih =>
      obtain ⟨_, body, rfl⟩ := encode_functionPointer_iff.mp encoded
      rw [TypeSignature.nodes, MethodSignature.nodes_eq, List.forall_mem_cons,
        List.forall_mem_flatMap] at nodes
      obtain ⟨s, valid, canonical, rfl, same⟩ := method.exists_renders_of_parts nodes.1
        (fun part mem _ => ih part mem (nodes.2 part mem)) body
      exact ⟨.functionPointer s, valid, by simpa [TypeSpelling.lexemes] using canonical, rfl,
        same_functionPointer_iff.mpr ⟨row, method, rfl, same⟩⟩
  | instantiation row kind generic arguments ih =>
      obtain ⟨_, reference, _, hcount, _, body, rfl⟩ := encode_instantiation_iff.mp encoded
      rw [TypeSignature.nodes, nodesOfAll_eq, List.forall_mem_cons,
        List.forall_mem_flatMap] at nodes
      obtain ⟨index, indexCanonical, rfl, same⟩ := TypeHandle.exists_index nodes.1 reference
      obtain ⟨count, countShortest, rfl, count_eq⟩ := encodeCount_eq_ok_iff.mp hcount
      obtain ⟨spellings, valid, canonical, rfl, allSame⟩ :=
        exists_rendersEach (fun t mem _ => ih t mem (nodes.2 t mem)) body
      refine ⟨.instantiation kind index count spellings, ⟨?_, ?_⟩, ?_, ?_, ?_⟩
      · rw [count_eq, ← allSame.length_eq, List.length_map]
      · exact TypeSpelling.allValid_iff.mpr valid
      · simp only [TypeSpelling.lexemes, TypeSpelling.allLexemes_eq, allCanonical_cons,
          allCanonical_flatMap, IsCanonical]
        exact ⟨trivial, trivial, indexCanonical, countShortest, canonical⟩
      · rw [TypeSpelling.bytes_instantiation]
        simp
      · rw [TypeSpelling.tree, TypeSpelling.trees_eq]
        exact same_instantiation_iff.mpr ⟨row, generic, arguments, rfl, same, allSame⟩
  | wrapped row wrapper next ih =>
      obtain ⟨_, hbefore, _, hinner, _, hbehind, rfl⟩ := encode_wrapped_iff.mp encoded
      rw [TypeSignature.nodes, List.forall_mem_cons] at nodes
      obtain ⟨spelling, before, behind, rfl, rfl, tag_eq, same⟩ :=
        wrapper.exists_spelling nodes.1 hbefore hbehind
      obtain ⟨s, valid, canonical, rfl, nextSame⟩ := ih nodes.2 hinner
      refine ⟨.wrapped spelling s, valid, ?_, ?_, same_wrapped_iff.mpr
        ⟨row, wrapper, next, rfl, same, nextSame⟩⟩
      · simp only [TypeSpelling.lexemes, List.cons_append, allCanonical_cons, allCanonical_append]
        exact ⟨trivial, ⟨before, canonical⟩, behind⟩
      · rw [TypeSpelling.bytes_wrapped, tag_eq]
        simp

end TypeSignature

namespace MethodSignature

theorem exists_renders {method : MethodSignature} {written : Bytes} (regular : method.IsRegular)
    (nodes : ∀ node ∈ method.nodes, node.IsRegularNode resolver)
    (encoded : method.encode = .ok written) :
    ∃ s, MethodSpelling.Renders resolver s written method := by
  rw [nodes_eq, List.forall_mem_flatMap] at nodes
  refine exists_renders_of_parts regular ?_ encoded
  exact fun part mem _ => TypeSignature.exists_renders (nodes part mem)

end MethodSignature

/-- Signatures that are the same are read from the same bytes or not at all. -/
theorem TypeSignature.isReadable_of_same {spelling : TypeSpelling} {signature : TypeSignature}
    (within : spelling.Within resolver TypeSignature.maxNesting)
    (same : (spelling.tree resolver).same signature) : signature.IsReadable resolver := by
  obtain ⟨valid, nesting⟩ := within
  rw [TypeSignature.nesting_eq_of_same same] at nesting
  exact ⟨nesting, TypeSpelling.nodes_of_same valid same⟩

theorem MethodSignature.isReadable_of_same {spelling : MethodSpelling} {method : MethodSignature}
    (within : spelling.Within resolver TypeSignature.maxNesting)
    (same : (spelling.tree resolver).same method) : method.IsReadable resolver := by
  obtain ⟨valid, nesting⟩ := within
  rw [MethodSignature.nesting_eq_of_same same] at nesting
  exact ⟨MethodSpelling.isRegular_of_same valid same, nesting,
    MethodSpelling.nodes_of_same valid same⟩

namespace Read

theorem type_of_readable {signature : TypeSignature} {written : Bytes}
    (readable : signature.IsReadable resolver) (encoded : signature.encode = .ok written) :
    ∃ t, type resolver { data := written } = .ok t ⟨written, written.length⟩ ∧
      t.same signature := by
  obtain ⟨s, valid, -, rfl, same⟩ := TypeSignature.exists_renders readable.nodes encoded
  have nesting := readable.nesting_le
  rw [← TypeSignature.nesting_eq_of_same same] at nesting
  exact ⟨_, (accepts_type resolver).read_whole ⟨valid, nesting⟩, same⟩

theorem method_of_readable {signature : MethodSignature} {written : Bytes}
    (readable : signature.IsReadable resolver) (encoded : signature.encode = .ok written) :
    ∃ m, method resolver { data := written } = .ok m ⟨written, written.length⟩ ∧
      m.same signature := by
  obtain ⟨s, valid, -, rfl, same⟩ :=
    MethodSignature.exists_renders readable.regular readable.nodes encoded
  have nesting := readable.nesting_le
  rw [← MethodSignature.nesting_eq_of_same same] at nesting
  exact ⟨_, (accepts_method resolver).read_whole ⟨valid, nesting⟩, same⟩

end Read

/-- The signatures that come back from their encodings. -/
theorem round_trip_iff (resolver : Resolver) :
    (∀ (t : TypeSignature) written, t.encode = .ok written →
      ((∃ t', Read.type resolver { data := written } = .ok t' ⟨written, written.length⟩ ∧
        t' == t) ↔ t.IsReadable resolver)) ∧
    ∀ (m : MethodSignature) written, m.encode = .ok written →
      ((∃ m', Read.method resolver { data := written } = .ok m' ⟨written, written.length⟩ ∧
        m' == m) ↔ m.IsReadable resolver) := by
  refine ⟨?_, ?_⟩
  · intro t written encoded
    refine ⟨?_, ?_⟩
    · intro given
      obtain ⟨_, done, same⟩ := given
      obtain ⟨s, within, _, rfl⟩ := (Read.accepts_type resolver).spelled done
      exact TypeSignature.isReadable_of_same within same
    · exact fun readable => Read.type_of_readable readable encoded
  · intro m written encoded
    refine ⟨?_, ?_⟩
    · intro given
      obtain ⟨_, done, same⟩ := given
      obtain ⟨s, within, _, rfl⟩ := (Read.accepts_method resolver).spelled done
      exact MethodSignature.isReadable_of_same within same
    · exact fun readable => Read.method_of_readable readable encoded

theorem round_trip_vector :
    (∃ t', Read.type .empty { data := [0x1D, 0x12, 0x05] } = .ok t' ⟨[0x1D, 0x12, 0x05], 3⟩ ∧
      t' == .wrapped 7 .vector (.named 3 .classType ⟨⟨0x01000001⟩, none⟩)) ∧
    ∃ m', Read.method .empty { data := [0x05, 0x01, 0x13, 0x02, 0x41, 0x41] } =
        .ok m' ⟨[0x05, 0x01, 0x13, 0x02, 0x41, 0x41], 6⟩ ∧
      m' == ⟨0x05, 0, .typeVar 4 2, [], some [.sentinel 9]⟩ := by
  refine ⟨?_, ?_⟩
  · refine ((round_trip_iff .empty).1 _ _ rfl).mpr ⟨by decide, ?_⟩
    simp [TypeSignature.nodes, TypeSignature.IsRegularNode, Wrapper.IsRegular,
      TypeHandle.IsResolvedBy, Resolver.empty, TypeRow.sameTarget]
  · refine ((round_trip_iff .empty).2 _ _ rfl).mpr
      ⟨⟨by decide, fun _ => rfl, by simp, by simp⟩, by decide, ?_⟩
    simp [MethodSignature.nodes, TypeSignature.nodesOfVarargs, TypeSignature.nodes,
      TypeSignature.IsRegularNode]

/-- What was read comes back from its encoding, which it has if and only if all of its tokens are of
tables that coded indexes point into. -/
theorem read_again_iff (resolver : Resolver) (data : Bytes) :
    (∀ t, TypeSignature.decode resolver data = .ok t →
      ((∃ written, t.encode = .ok written ∧
        ∃ t', TypeSignature.decode resolver written = .ok t' ∧ t' == t) ↔
          ∀ handle ∈ t.handles, handle.token.typeTable?.isSome)) ∧
    ∀ m, MethodSignature.decode resolver data = .ok m →
      ((∃ written, m.encode = .ok written ∧
        ∃ m', MethodSignature.decode resolver written = .ok m' ∧ m' == m) ↔
          ∀ handle ∈ m.handles, handle.token.typeTable?.isSome) := by
  refine ⟨?_, ?_⟩
  · intro t decoded
    obtain ⟨_, done⟩ := Read.run?_eq_ok_iff.mp decoded
    obtain ⟨_, ⟨s, within, rfl, rfl⟩, _⟩ := (Read.accepts_type resolver _ _ _).mp done
    have readable := TypeSignature.isReadable_of_same within (TypeSignature.same_refl _)
    rw [← TypeSpelling.exists_encode_tree_iff within.1]
    refine exists_congr fun written => and_iff_left_of_imp fun encoded => ?_
    obtain ⟨t', done, same⟩ := Read.type_of_readable readable encoded
    exact ⟨t', Read.run?_eq_ok_iff.mpr ⟨_, done⟩, same⟩
  · intro m decoded
    obtain ⟨_, done⟩ := Read.run?_eq_ok_iff.mp decoded
    obtain ⟨_, ⟨s, within, rfl, rfl⟩, _⟩ := (Read.accepts_method resolver _ _ _).mp done
    have readable := MethodSignature.isReadable_of_same within (MethodSignature.same_refl _)
    rw [← MethodSpelling.exists_encode_tree_iff within.1]
    refine exists_congr fun written => and_iff_left_of_imp fun encoded => ?_
    obtain ⟨m', done, same⟩ := Read.method_of_readable readable encoded
    exact ⟨m', Read.run?_eq_ok_iff.mpr ⟨_, done⟩, same⟩

theorem read_again_class :
    (∃ t, TypeSignature.decode .empty [0x12, 0x80, 0x05] = .ok t ∧
      ∃ written, t.encode = .ok written ∧
        ∃ t', TypeSignature.decode .empty written = .ok t' ∧ t' == t) ∧
    ∃ m, MethodSignature.decode .empty [0x00, 0x00, 0x12, 0x80, 0x05] = .ok m ∧
      ∃ written, m.encode = .ok written ∧
        ∃ m', MethodSignature.decode .empty written = .ok m' ∧ m' == m := by
  refine ⟨?_, ?_⟩
  · refine ⟨_, rfl, ((read_again_iff .empty [0x12, 0x80, 0x05]).1 _ rfl).mpr ?_⟩
    exact List.forall_mem_singleton.mpr rfl
  · refine ⟨_, rfl, ((read_again_iff .empty [0x00, 0x00, 0x12, 0x80, 0x05]).2 _ rfl).mpr ?_⟩
    exact List.forall_mem_singleton.mpr rfl

/-- A class whose row has 25 bits is read as a token of another table and cannot be written. -/
theorem not_read_again : ¬∀ data t, TypeSignature.decode .empty data = .ok t →
    ∃ written, t.encode = .ok written ∧
      ∃ t', TypeSignature.decode .empty written = .ok t' ∧ t' == t := by
  intro law
  obtain ⟨written, encoded, _⟩ := law [0x12, 0xC4, 0x00, 0x00, 0x00] _ rfl
  cases encoded

end CliMetadata
