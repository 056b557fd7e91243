import CliMetadata.Proofs.Reading
import CliMetadata.Proofs.Writing
import CliMetadata.Signature.Handles

/-!
Signatures that were read are written again. From a canonical spelling they come back byte for byte.
From another one they come back in other bytes, unless a coded index with a row of more than 24 bits
has led to a token that has no coded index: then they do not come back at all.
-/

namespace CliMetadata

open Lexeme

namespace WrapperSpelling

variable {resolver : Resolver} {wrapper : WrapperSpelling}

theorem tag_wrapper (resolver : Resolver) (wrapper : WrapperSpelling) :
    (wrapper.wrapper resolver).tag = wrapper.tag := by
  cases wrapper <;> rfl

theorem encodeBefore_wrapper (canonical : AllCanonical wrapper.before) :
    (wrapper.wrapper resolver).encodeBefore = .ok (bytesOf wrapper.before) := by
  cases wrapper with
  | modifier kind index =>
      simp only [before, allCanonical_cons, IsCanonical] at canonical
      rw [before, bytesOf_cons, bytesOf_nil, List.append_nil]
      exact Compressed.encodeToken_of_canonical canonical.1
  | «scoped» index =>
      simp only [before, allCanonical_cons, IsCanonical] at canonical
      rw [before, bytesOf_cons, bytesOf_nil, List.append_nil]
      exact Compressed.encodeUnsigned_of_shortest canonical.1
  | _ => rfl

theorem encodeBehind_wrapper (canonical : AllCanonical wrapper.behind) :
    (wrapper.wrapper resolver).encodeBehind = .ok (bytesOf wrapper.behind) := by
  cases wrapper with
  | array shape => exact ShapeSpelling.encode_shape canonical
  | valueArray size =>
      simp only [behind, allCanonical_cons, IsCanonical] at canonical
      rw [behind, bytesOf_cons, bytesOf_nil, List.append_nil]
      exact Compressed.encodeUnsigned_of_shortest canonical.1
  | _ => rfl

/-- Only the token of a modifier can stand in the way. -/
theorem exists_encodeBefore_iff :
    (∃ written, (wrapper.wrapper resolver).encodeBefore = .ok written) ↔
      ∀ handle ∈ (wrapper.wrapper resolver).handles, handle.token.typeTable?.isSome := by
  cases wrapper with
  | modifier kind index =>
      rw [WrapperSpelling.wrapper, Wrapper.handles, List.forall_mem_singleton]
      exact Compressed.exists_encodeToken_iff
  | «scoped» index =>
      refine iff_of_true (Compressed.exists_encodeUnsigned index) ?_
      intro handle mem
      cases mem
  | _ =>
      refine iff_of_true ⟨[], rfl⟩ ?_
      intro handle mem
      cases mem

theorem exists_encodeBehind (resolver : Resolver) (wrapper : WrapperSpelling) :
    ∃ written, (wrapper.wrapper resolver).encodeBehind = .ok written := by
  cases wrapper with
  | array shape => exact shape.exists_encode_shape
  | valueArray size => exact Compressed.exists_encodeUnsigned size
  | _ => exact ⟨[], rfl⟩

end WrapperSpelling

namespace MethodSpelling

variable {resolver : Resolver} {method : MethodSpelling}

theorem allCanonical_lexemes_iff : AllCanonical method.lexemes ↔
    (∀ numeral ∈ method.generics, numeral.IsShortest) ∧ method.count.IsShortest ∧
      ∀ part ∈ method.parts, AllCanonical part.lexemes := by
  obtain ⟨convention, generics, count, result, params, varargs⟩ := method
  cases varargs <;>
    simp [lexemes, TypeSpelling.varargLexemes, parts, or_imp, forall_and]

theorem paramCount_tree (valid : method.Valid) :
    method.count.raw = (method.tree resolver).paramCount := by
  obtain ⟨-, -, count_eq, -⟩ := valid_iff.mp valid
  obtain ⟨convention, generics, count, result, params, varargs⟩ := method
  cases varargs <;>
    simpa [tree, TypeSpelling.varargTrees, MethodSignature.paramCount] using count_eq

theorem encodeHead_tree (valid : method.Valid)
    (generics : ∀ numeral ∈ method.generics, numeral.IsShortest)
    (count : method.count.IsShortest) :
    (method.tree resolver).encodeHead = .ok ([method.convention] ++
      (bytesOf (method.generics.toList.map .unsigned) ++ method.count.bytes)) := by
  refine MethodSignature.encodeHead_iff.mpr ⟨method.generics, method.count, isGeneric_tree valid,
    ?_, count, paramCount_tree valid, by rw [tree_eq]⟩
  intro numeral mem
  refine ⟨generics numeral mem, ?_⟩
  rw [tree_eq, Option.mem_def.mp mem]
  rfl

theorem encodeVarargs_tree {varargs : List TypeSpelling}
    (h : ∀ vararg ∈ varargs, (vararg.tree resolver).encode = .ok vararg.bytes) :
    TypeSignature.encodeVarargs (TypeSpelling.varargTrees resolver varargs) =
      .ok (bytesOf (TypeSpelling.varargLexemes varargs)) := by
  cases varargs with
  | nil => rfl
  | cons vararg rest =>
      rw [bytesOf_varargs, TypeSpelling.varargTrees, TypeSpelling.trees_eq]
      exact TypeSignature.encodeVarargs_cons_iff.mpr ⟨_, encodeEach_map h, rfl⟩

theorem encode_tree_of_parts (valid : method.Valid) (canonical : AllCanonical method.lexemes)
    (h : ∀ part ∈ method.parts, (part.tree resolver).encode = .ok part.bytes) :
    (method.tree resolver).encode = .ok method.bytes := by
  obtain ⟨hresult, hparams, hvarargs⟩ := forall_parts_iff.mp h
  obtain ⟨generics, count, -⟩ := allCanonical_lexemes_iff.mp canonical
  have head : (method.tree resolver).encodeHead = _ := encodeHead_tree valid generics count
  rw [tree_eq] at head ⊢
  refine MethodSignature.encode_iff.mpr ⟨_, head, _, hresult, _, encodeEach_map hparams, _,
    encodeVarargs_tree hvarargs, ?_⟩
  rw [bytes_eq, bytesOf_append, TypeSpelling.allLexemes_eq, TypeSpelling.bytesOf_flatMap]
  simp

theorem exists_encodeHead_tree (valid : method.Valid) :
    ∃ written, (method.tree resolver).encodeHead = .ok written := by
  obtain ⟨_, hcount⟩ := exists_encodeCount method.count
  obtain ⟨count, countShortest, rfl, count_eq⟩ := encodeCount_eq_ok_iff.mp hcount
  cases generics? : method.generics with
  | none =>
      refine ⟨_, MethodSignature.encodeHead_iff.mpr ⟨none, count, ?_, by simp, countShortest,
        count_eq.trans (paramCount_tree valid), rfl⟩⟩
      rw [← isGeneric_tree valid, generics?]
  | some numeral =>
      obtain ⟨_, hgenerics⟩ := Compressed.exists_encodeUnsigned numeral
      obtain ⟨generics, shortest, rfl, generics_eq⟩ :=
        Compressed.encodeUnsigned_eq_ok_iff.mp hgenerics
      refine ⟨_, MethodSignature.encodeHead_iff.mpr ⟨some generics, count, ?_, ?_, countShortest,
        count_eq.trans (paramCount_tree valid), rfl⟩⟩
      · rw [← isGeneric_tree valid, generics?, Option.isSome_some, Option.isSome_some]
      · intro _ none
        cases none
        refine ⟨shortest, generics_eq.trans ?_⟩
        rw [tree_eq, generics?]
        rfl

theorem exists_encodeEach_trees_iff {spellings : List TypeSpelling} :
    (∃ written, encodeEach TypeSignature.encode (spellings.map (TypeSpelling.tree resolver)) =
        .ok written) ↔
      ∀ s ∈ spellings, ∃ written, (s.tree resolver).encode = .ok written := by
  rw [exists_encodeEach_iff]
  exact List.forall_mem_map

theorem exists_encodeVarargs_tree_iff {varargs : List TypeSpelling} :
    (∃ written, TypeSignature.encodeVarargs (TypeSpelling.varargTrees resolver varargs) =
        .ok written) ↔
      ∀ vararg ∈ varargs, ∃ written, (vararg.tree resolver).encode = .ok written := by
  rw [← exists_encodeEach_trees_iff]
  cases varargs with
  | nil => exact iff_of_true ⟨[], rfl⟩ ⟨[], rfl⟩
  | cons vararg rest =>
      rw [TypeSpelling.varargTrees, TypeSpelling.trees_eq, ← List.map_cons]
      refine ⟨?_, ?_⟩
      · intro given
        obtain ⟨_, encoded⟩ := given
        obtain ⟨body, hbody, _⟩ := TypeSignature.encodeVarargs_cons_iff.mp encoded
        exact ⟨body, hbody⟩
      · intro given
        obtain ⟨body, hbody⟩ := given
        exact ⟨_, TypeSignature.encodeVarargs_cons_iff.mpr ⟨body, hbody, rfl⟩⟩

theorem exists_encode_tree_iff_parts (valid : method.Valid) :
    (∃ written, (method.tree resolver).encode = .ok written) ↔
      ∀ part ∈ method.parts, ∃ written, (part.tree resolver).encode = .ok written := by
  have head : ∃ written, (method.tree resolver).encodeHead = .ok written :=
    exists_encodeHead_tree valid
  rw [forall_parts_iff, ← exists_encodeEach_trees_iff, ← exists_encodeVarargs_tree_iff]
  rw [tree_eq] at head ⊢
  refine ⟨?_, ?_⟩
  · intro given
    obtain ⟨_, encoded⟩ := given
    obtain ⟨_, _, result, hresult, params, hparams, varargs, hvarargs, _⟩ :=
      MethodSignature.encode_iff.mp encoded
    exact ⟨⟨result, hresult⟩, ⟨params, hparams⟩, varargs, hvarargs⟩
  · intro given
    obtain ⟨⟨result, hresult⟩, ⟨params, hparams⟩, varargs, hvarargs⟩ := given
    obtain ⟨front, hfront⟩ := head
    exact ⟨_, MethodSignature.encode_iff.mpr ⟨front, hfront, result, hresult, params, hparams,
      varargs, hvarargs, rfl⟩⟩

end MethodSpelling

namespace TypeSpelling

variable {resolver : Resolver} {spelling : TypeSpelling}

theorem encode_tree (valid : spelling.Valid) (canonical : AllCanonical spelling.lexemes) :
    (spelling.tree resolver).encode = .ok spelling.bytes := by
  induction spelling with
  | primitive tag isPrimitive =>
      exact TypeSignature.encode_primitive_iff.mpr ⟨isPrimitive, by simp [bytes, lexemes]⟩
  | named kind index =>
      simp only [lexemes, allCanonical_cons, IsCanonical] at canonical
      rw [bytes_named]
      exact TypeSignature.encode_named_iff.mpr
        ⟨_, Compressed.encodeToken_of_canonical canonical.2.1, rfl⟩
  | typeVar index =>
      simp only [lexemes, allCanonical_cons, IsCanonical] at canonical
      rw [bytes_typeVar]
      exact TypeSignature.encode_typeVar_iff.mpr
        ⟨_, Compressed.encodeUnsigned_of_shortest canonical.2.1, rfl⟩
  | methodVar index =>
      simp only [lexemes, allCanonical_cons, IsCanonical] at canonical
      rw [bytes_methodVar]
      exact TypeSignature.encode_methodVar_iff.mpr
        ⟨_, Compressed.encodeUnsigned_of_shortest canonical.2.1, rfl⟩
  | sentinel => rfl
  | functionPointer method ih =>
      simp only [lexemes, allCanonical_cons, IsCanonical] at canonical
      have parts := (MethodSpelling.valid_iff.mp valid).2.2.2.2
      have partsCanonical := (MethodSpelling.allCanonical_lexemes_iff.mp canonical.2).2.2
      refine TypeSignature.encode_functionPointer_iff.mpr
        ⟨_, MethodSpelling.encode_tree_of_parts valid canonical.2 ?_, rfl⟩
      exact fun part mem => ih part mem (parts part mem) (partsCanonical part mem)
  | instantiation kind generic count arguments ih =>
      simp only [lexemes, allLexemes_eq, allCanonical_cons, allCanonical_flatMap, IsCanonical]
        at canonical
      obtain ⟨-, -, genericCanonical, countShortest, all⟩ := canonical
      obtain ⟨count_eq, argumentsValid⟩ := valid
      rw [allValid_iff] at argumentsValid
      rw [tree, trees_eq, bytes_instantiation]
      have hgeneric := Compressed.encodeToken_of_canonical genericCanonical
      have hcount := encodeCount_of_shortest countShortest
        (count_eq.trans (List.length_map (tree resolver)).symm)
      have harguments := encodeEach_map fun s mem => ih s mem (argumentsValid s mem) (all s mem)
      refine TypeSignature.encode_instantiation_iff.mpr
        ⟨_, hgeneric, _, hcount, _, harguments, ?_⟩
      simp
  | wrapped wrapper next ih =>
      simp only [lexemes, List.cons_append, allCanonical_cons, allCanonical_append] at canonical
      obtain ⟨-, ⟨before, inner⟩, behind⟩ := canonical
      rw [bytes_wrapped]
      refine TypeSignature.encode_wrapped_iff.mpr
        ⟨_, WrapperSpelling.encodeBefore_wrapper before, _, ih valid inner,
          _, WrapperSpelling.encodeBehind_wrapper behind, ?_⟩
      rw [WrapperSpelling.tag_wrapper]
      simp

theorem forall_handles_iff {spellings : List TypeSpelling} {P : TypeHandle → Prop} :
    (∀ handle ∈ (spellings.map (tree resolver)).flatMap TypeSignature.handles, P handle) ↔
      ∀ s ∈ spellings, ∀ handle ∈ (s.tree resolver).handles, P handle := by
  simp only [List.mem_flatMap, List.mem_map]
  refine ⟨?_, ?_⟩
  · exact fun h s mem handle memHandle => h handle ⟨_, ⟨s, mem, rfl⟩, memHandle⟩
  · intro h handle given
    obtain ⟨_, ⟨s, mem, rfl⟩, memHandle⟩ := given
    exact h s mem handle memHandle

/-- What was read has an encoding if and only if all of its tokens have coded indexes. -/
theorem exists_encode_tree_iff (valid : spelling.Valid) :
    (∃ written, (spelling.tree resolver).encode = .ok written) ↔
      ∀ handle ∈ (spelling.tree resolver).handles, handle.token.typeTable?.isSome := by
  induction spelling with
  | primitive tag isPrimitive =>
      refine iff_of_true ⟨_, TypeSignature.encode_primitive_iff.mpr ⟨isPrimitive, rfl⟩⟩ ?_
      simp [tree, TypeSignature.handles]
  | named kind index =>
      rw [tree, TypeSignature.handles, List.forall_mem_singleton]
      refine Iff.trans ?_ Compressed.exists_encodeToken_iff
      simp [TypeSignature.encode_named_iff, TypeHandle.encode]
  | typeVar index =>
      obtain ⟨number, encoded⟩ := Compressed.exists_encodeUnsigned index
      refine iff_of_true ⟨_, TypeSignature.encode_typeVar_iff.mpr ⟨number, encoded, rfl⟩⟩ ?_
      simp [tree, TypeSignature.handles]
  | methodVar index =>
      obtain ⟨number, encoded⟩ := Compressed.exists_encodeUnsigned index
      refine iff_of_true ⟨_, TypeSignature.encode_methodVar_iff.mpr ⟨number, encoded, rfl⟩⟩ ?_
      simp [tree, TypeSignature.handles]
  | sentinel =>
      refine iff_of_true ⟨_, TypeSignature.encode_sentinel_iff.mpr rfl⟩ ?_
      simp [tree, TypeSignature.handles]
  | functionPointer method ih =>
      have parts := (MethodSpelling.valid_iff.mp valid).2.2.2.2
      rw [tree, TypeSignature.handles, MethodSignature.handles_eq, MethodSpelling.parts_tree,
        forall_handles_iff]
      refine Iff.trans ?_ ((MethodSpelling.exists_encode_tree_iff_parts valid).trans
        (forall₂_congr fun part mem => ih part mem (parts part mem)))
      simp [TypeSignature.encode_functionPointer_iff]
  | instantiation kind generic count arguments ih =>
      obtain ⟨count_eq, argumentsValid⟩ := valid
      rw [allValid_iff] at argumentsValid
      -- The list was read behind its count, so that the count is never too large to be written.
      obtain ⟨_, hcount⟩ := exists_encodeCount count
      rw [count_eq, ← List.length_map (tree resolver)] at hcount
      rw [tree, trees_eq, TypeSignature.handles, List.forall_mem_cons,
        TypeSignature.handlesOfAll_eq, forall_handles_iff,
        ← forall₂_congr fun s mem => ih s mem (argumentsValid s mem),
        ← MethodSpelling.exists_encodeEach_trees_iff, ← Compressed.exists_encodeToken_iff]
      refine ⟨?_, ?_⟩
      · intro given
        obtain ⟨_, encoded⟩ := given
        obtain ⟨reference, hreference, _, _, body, hbody, _⟩ :=
          TypeSignature.encode_instantiation_iff.mp encoded
        exact ⟨⟨reference, hreference⟩, body, hbody⟩
      · intro given
        obtain ⟨⟨reference, hreference⟩, body, hbody⟩ := given
        exact ⟨_, TypeSignature.encode_instantiation_iff.mpr
          ⟨reference, hreference, _, hcount, body, hbody, rfl⟩⟩
  | wrapped wrapper next ih =>
      obtain ⟨behind, hbehind⟩ := wrapper.exists_encodeBehind resolver
      rw [tree, TypeSignature.handles, List.forall_mem_append, ← ih valid,
        ← WrapperSpelling.exists_encodeBefore_iff]
      refine ⟨?_, ?_⟩
      · intro given
        obtain ⟨_, encoded⟩ := given
        obtain ⟨before, hbefore, inner, hinner, _⟩ := TypeSignature.encode_wrapped_iff.mp encoded
        exact ⟨⟨before, hbefore⟩, inner, hinner⟩
      · intro given
        obtain ⟨⟨before, hbefore⟩, inner, hinner⟩ := given
        exact ⟨_, TypeSignature.encode_wrapped_iff.mpr
          ⟨before, hbefore, inner, hinner, behind, hbehind, rfl⟩⟩

end TypeSpelling

namespace MethodSpelling

variable {resolver : Resolver} {method : MethodSpelling}

theorem encode_tree (valid : method.Valid) (canonical : AllCanonical method.lexemes) :
    (method.tree resolver).encode = .ok method.bytes := by
  have parts := (valid_iff.mp valid).2.2.2.2
  have partsCanonical := (allCanonical_lexemes_iff.mp canonical).2.2
  refine encode_tree_of_parts valid canonical ?_
  exact fun part mem => TypeSpelling.encode_tree (parts part mem) (partsCanonical part mem)

theorem exists_encode_tree_iff (valid : method.Valid) :
    (∃ written, (method.tree resolver).encode = .ok written) ↔
      ∀ handle ∈ (method.tree resolver).handles, handle.token.typeTable?.isSome := by
  have parts := (valid_iff.mp valid).2.2.2.2
  rw [exists_encode_tree_iff_parts valid, MethodSignature.handles_eq, parts_tree,
    TypeSpelling.forall_handles_iff]
  exact forall₂_congr fun part mem => TypeSpelling.exists_encode_tree_iff (parts part mem)

end MethodSpelling

/-- Bytes are spellings of one signature at most. -/
theorem TypeSpelling.tree_eq_of_bytes_eq (resolver : Resolver) {s s' : TypeSpelling}
    (valid : s.Valid) (valid' : s'.Valid) (same : s.bytes = s'.bytes) :
    s.tree resolver = s'.tree resolver := by
  refine (Read.accepts_typeWithin resolver
    (max (s.tree resolver).nesting (s'.tree resolver).nesting)).value_eq ?_ ?_ same
  · exact ⟨valid, Nat.le_max_left _ _⟩
  · exact ⟨valid', Nat.le_max_right _ _⟩

theorem MethodSpelling.tree_eq_of_bytes_eq (resolver : Resolver) {s s' : MethodSpelling}
    (valid : s.Valid) (valid' : s'.Valid) (same : s.bytes = s'.bytes) :
    s.tree resolver = s'.tree resolver := by
  refine (Read.accepts_methodOf (Read.accepts_typeWithin resolver
    (max (s.tree resolver).nesting (s'.tree resolver).nesting))).value_eq ?_ ?_ same
  · exact ⟨valid, Nat.le_max_left _ _⟩
  · exact ⟨valid', Nat.le_max_right _ _⟩

namespace Read

/-- What was read is spelled in the bytes before the cursor, and is written again as these bytes if
the spelling is canonical. -/
theorem encode_of_canonical (resolver : Resolver) (data : Bytes) (n : Nat) :
    (∀ t, type resolver { data } = .ok t ⟨data, n⟩ →
      (∃ s : TypeSpelling, s.Valid ∧ s.bytes = data.take n ∧ s.tree resolver = t) ∧
      ∀ s : TypeSpelling, s.Valid → s.bytes = data.take n → AllCanonical s.lexemes →
        t.encode = .ok (data.take n)) ∧
    ∀ m, method resolver { data } = .ok m ⟨data, n⟩ →
      (∃ s : MethodSpelling, s.Valid ∧ s.bytes = data.take n ∧ s.tree resolver = m) ∧
      ∀ s : MethodSpelling, s.Valid → s.bytes = data.take n → AllCanonical s.lexemes →
        m.encode = .ok (data.take n) := by
  refine ⟨?_, ?_⟩
  · intro t done
    obtain ⟨s, ⟨valid, -⟩, written, rfl⟩ := (accepts_type resolver).spelled done
    refine ⟨⟨s, valid, written, rfl⟩, ?_⟩
    intro s' valid' written' canonical
    rw [TypeSpelling.tree_eq_of_bytes_eq resolver valid valid' (written.trans written'.symm),
      ← written']
    exact TypeSpelling.encode_tree valid' canonical
  · intro m done
    obtain ⟨s, ⟨valid, -⟩, written, rfl⟩ := (accepts_method resolver).spelled done
    refine ⟨⟨s, valid, written, rfl⟩, ?_⟩
    intro s' valid' written' canonical
    rw [MethodSpelling.tree_eq_of_bytes_eq resolver valid valid' (written.trans written'.symm),
      ← written']
    exact MethodSpelling.encode_tree valid' canonical

theorem encode_of_canonical_instantiation :
    ∃ t m, type .empty { data := [0x15, 0x12, 0x05, 0x01, 0x1C, 0xFF] } =
        .ok t ⟨[0x15, 0x12, 0x05, 0x01, 0x1C, 0xFF], 5⟩ ∧
      t.encode = .ok [0x15, 0x12, 0x05, 0x01, 0x1C] ∧
      method .empty { data := [0x20, 0x01, 0x01, 0x1C] } = .ok m ⟨[0x20, 0x01, 0x01, 0x1C], 4⟩ ∧
      m.encode = .ok [0x20, 0x01, 0x01, 0x1C] := by
  refine ⟨_, _, rfl, ?_, rfl, ?_⟩
  · refine ((encode_of_canonical .empty [0x15, 0x12, 0x05, 0x01, 0x1C, 0xFF] 5).1 _ rfl).2
      (.instantiation .classType ⟨⟨.short, 5, by decide⟩, ⟨0x01000001⟩, rfl⟩
        ⟨.short, 1, by decide⟩ [.primitive .object rfl]) ⟨rfl, trivial, trivial⟩ rfl ?_
    simp [TypeSpelling.lexemes, Numeral.isShortest_of_short]
  · refine ((encode_of_canonical .empty [0x20, 0x01, 0x01, 0x1C] 4).2 _ rfl).2
      ⟨0x20, none, ⟨.short, 1, by decide⟩, .primitive .void rfl, [.primitive .object rfl], []⟩
      ?_ rfl ?_
    · exact MethodSpelling.valid_iff.mpr ⟨by decide, by decide, rfl, by simp, by
        simp [MethodSpelling.parts, TypeSpelling.Valid]⟩
    · simp [MethodSpelling.lexemes, TypeSpelling.lexemes, TypeSpelling.varargLexemes,
        Numeral.isShortest_of_short]

end Read

end CliMetadata
