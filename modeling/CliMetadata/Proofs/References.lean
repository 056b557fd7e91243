import CliMetadata.Proofs.Canonical

/-!
References from a signature to other types. A reference is a coded index at its position in the
bytes, and the references of a spelling are those of its lexemes from left to right. The handles of
a signature have the tokens of its references in the same order, although they are collected from
the tree and not from the bytes. So the tokens whose rows are not known are listed as they stand in
the bytes, as often as they stand there.
-/

namespace CliMetadata

/-- A coded index and the position of its first byte. -/
structure Reference where
  index : IndexNumeral
  start : Nat

namespace Reference

def token (reference : Reference) : Token := reference.index.token

/-- The position behind the coded index. -/
def stop (reference : Reference) : Nat := reference.start + reference.index.bytes.length

end Reference

namespace Lexeme

@[simp] def index? : Lexeme → Option IndexNumeral
  | .index numeral => some numeral
  | _ => none

/-- The coded indexes among the lexemes. -/
def indexes (lexemes : List Lexeme) : List IndexNumeral := lexemes.filterMap index?

/-- The coded indexes with their positions, where the lexemes start at the given one. -/
def references : List Lexeme → (start : Nat) → List Reference
  | [], _ => []
  | .index numeral :: rest, start =>
    ⟨numeral, start⟩ :: references rest (start + numeral.bytes.length)
  | lexeme :: rest, start => references rest (start + lexeme.bytes.length)

@[simp] theorem indexes_nil : indexes [] = [] := rfl

@[simp] theorem indexes_cons (lexeme : Lexeme) (rest : List Lexeme) :
    indexes (lexeme :: rest) = lexeme.index?.toList ++ indexes rest := by
  cases lexeme <;> rfl

@[simp] theorem indexes_append (front back : List Lexeme) :
    indexes (front ++ back) = indexes front ++ indexes back :=
  List.filterMap_append

@[simp] theorem indexes_map_unsigned (numerals : List Numeral) :
    indexes (numerals.map .unsigned) = [] := by
  induction numerals <;> simp_all

@[simp] theorem indexes_map_signed (numerals : List Numeral) :
    indexes (numerals.map .signed) = [] := by
  induction numerals <;> simp_all

theorem map_references (lexemes : List Lexeme) (start : Nat) :
    (references lexemes start).map Reference.index = indexes lexemes := by
  induction lexemes generalizing start with
  | nil => rfl
  | cons lexeme rest ih => cases lexeme <;> simp [references, ih]

theorem mem_references_cons {lexeme : Lexeme} {rest : List Lexeme} {start : Nat}
    {reference : Reference} (mem : reference ∈ references (lexeme :: rest) start) :
    reference.start = start ∧ lexeme = .index reference.index ∨
      reference ∈ references rest (start + lexeme.bytes.length) := by
  cases lexeme with
  | index numeral =>
      rcases List.mem_cons.mp mem with rfl | mem
      · exact .inl ⟨rfl, rfl⟩
      · exact .inr mem
  | _ => exact .inr mem

theorem references_inside {lexemes : List Lexeme} {start : Nat} {reference : Reference}
    (mem : reference ∈ references lexemes start) :
    start ≤ reference.start ∧ reference.stop ≤ start + (bytesOf lexemes).length := by
  induction lexemes generalizing start with
  | nil => cases mem
  | cons lexeme rest ih =>
      rw [bytesOf_cons, List.length_append]
      rcases mem_references_cons mem with ⟨rfl, rfl⟩ | mem
      · refine ⟨Nat.le_refl _, ?_⟩
        rw [Reference.stop, bytes]
        omega
      · have := ih mem
        omega

/-- References ascend and do not overlap. -/
theorem references_ascending (lexemes : List Lexeme) (start : Nat) :
    (references lexemes start).Pairwise fun first second => first.stop ≤ second.start := by
  induction lexemes generalizing start with
  | nil => exact List.Pairwise.nil
  | cons lexeme rest ih =>
      cases lexeme with
      | index numeral =>
          exact List.pairwise_cons.mpr ⟨fun _ mem => (references_inside mem).1, ih _⟩
      | _ => exact ih _

/-- Every coded index is written where its reference says. -/
theorem references_written {lexemes : List Lexeme} {data : Bytes} {start : Nat}
    (leads : bytesOf lexemes <+: data.drop start) {reference : Reference}
    (mem : reference ∈ references lexemes start) :
    reference.index.bytes <+: data.drop reference.start := by
  induction lexemes generalizing start with
  | nil => cases mem
  | cons lexeme rest ih =>
      obtain ⟨first, others⟩ := append_prefix_iff.mp leads
      rcases mem_references_cons mem with ⟨rfl, rfl⟩ | mem
      · exact first
      · rw [List.drop_drop] at others
        exact ih others mem

end Lexeme

open Lexeme

/-- The handle that a coded index is read as. -/
def IndexNumeral.handle (resolver : Resolver) (index : IndexNumeral) : TypeHandle :=
  resolver.handle index.token

namespace WrapperSpelling

variable {resolver : Resolver}

theorem handles_wrapper (wrapper : WrapperSpelling) :
    (wrapper.wrapper resolver).handles =
      (indexes wrapper.before).map (IndexNumeral.handle resolver) := by
  cases wrapper <;> rfl

/-- No references stand behind the wrapped type. -/
theorem indexes_behind (wrapper : WrapperSpelling) : indexes wrapper.behind = [] := by
  cases wrapper with
  | array shape => cases shape <;> simp [ShapeSpelling.lexemes]
  | _ => rfl

end WrapperSpelling

theorem MethodSpelling.indexes_lexemes (method : MethodSpelling) :
    indexes method.lexemes = indexes (method.parts.flatMap TypeSpelling.lexemes) := by
  obtain ⟨convention, generics, count, result, params, varargs⟩ := method
  cases varargs <;> simp [lexemes, parts, TypeSpelling.varargLexemes]

namespace TypeSpelling

variable {resolver : Resolver}

theorem handles_trees {spellings : List TypeSpelling}
    (h : ∀ s ∈ spellings,
      (s.tree resolver).handles = (indexes s.lexemes).map (IndexNumeral.handle resolver)) :
    (spellings.map (tree resolver)).flatMap TypeSignature.handles =
      (indexes (spellings.flatMap lexemes)).map (IndexNumeral.handle resolver) := by
  induction spellings with
  | nil => rfl
  | cons spelling rest ih =>
      obtain ⟨first, others⟩ := List.forall_mem_cons.mp h
      rw [List.map_cons, List.flatMap_cons, List.flatMap_cons, indexes_append, List.map_append,
        first, ih others]

/-- The handles of a signature are what its coded indexes are read as, in the same order. -/
theorem handles_tree (spelling : TypeSpelling) : (spelling.tree resolver).handles =
    (indexes spelling.lexemes).map (IndexNumeral.handle resolver) := by
  induction spelling with
  | functionPointer method ih =>
      rw [tree, TypeSignature.handles, MethodSignature.handles_eq, MethodSpelling.parts_tree,
        handles_trees ih, ← MethodSpelling.indexes_lexemes]
      rfl
  | instantiation kind generic count arguments ih =>
      rw [tree, trees_eq, TypeSignature.handles, TypeSignature.handlesOfAll_eq, handles_trees ih,
        lexemes, allLexemes_eq]
      rfl
  | wrapped wrapper next ih =>
      have around : indexes (wrapped wrapper next).lexemes =
          indexes wrapper.before ++ indexes next.lexemes := by
        rw [lexemes, indexes_append, indexes_append, wrapper.indexes_behind, List.append_nil]
        rfl
      rw [tree, TypeSignature.handles, WrapperSpelling.handles_wrapper, ih, around,
        List.map_append]
  | _ => rfl

/-- The references of a spelling that starts at the start of the data. -/
def references (spelling : TypeSpelling) : List Reference :=
  Lexeme.references spelling.lexemes 0

theorem unresolvedTokens_tree (spelling : TypeSpelling) :
    (spelling.tree resolver).unresolvedTokens = (spelling.references.map Reference.token).filter
      fun token => (resolver.row? token).isNone := by
  have tokens : spelling.references.map Reference.token =
      (indexes spelling.lexemes).map IndexNumeral.token := by
    rw [references, ← map_references spelling.lexemes 0, List.map_map]
    rfl
  rw [TypeSignature.unresolvedTokens, handles_tree, tokens, List.filter_map, List.filter_map,
    List.map_map]
  simp only [Function.comp_def, IndexNumeral.handle, Resolver.handle, TypeHandle.isResolved,
    Option.not_isSome]

end TypeSpelling

namespace TypeSignature

/-- The tokens that reading left open are those of the references in the bytes that were read, from
left to right and each as often as it is referred to, without the tokens that the resolver has a row
for. -/
theorem unresolvedTokens_of_decode (resolver : Resolver) (data : Bytes) {t : TypeSignature}
    (done : decode resolver data = .ok t) :
    ∃ n ≤ data.length, Read.type resolver { data } = .ok t ⟨data, n⟩ ∧
      (∃ s : TypeSpelling, s.Valid ∧ s.bytes = data.take n ∧ s.tree resolver = t) ∧
      ∀ s : TypeSpelling, s.Valid → s.bytes = data.take n →
        t.unresolvedTokens = ((s.references.map Reference.token).filter
          fun token => (resolver.row? token).isNone) ∧
        s.references.Pairwise (fun first second => first.stop ≤ second.start) ∧
        ∀ reference ∈ s.references, reference.stop ≤ n ∧
          Read.token ⟨data, reference.start⟩ = .ok reference.token ⟨data, reference.stop⟩ := by
  obtain ⟨stopped, read⟩ := Read.run?_eq_ok_iff.mp done
  obtain ⟨_, ⟨s, ⟨valid, -⟩, rfl, rfl⟩, leads, rfl⟩ :=
    (Read.accepts_type resolver _ _ _).mp read
  have length_le : s.bytes.length ≤ data.length := leads.length_le
  rw [Cursor.advance, Nat.zero_add] at read
  have written : s.bytes = data.take s.bytes.length := List.prefix_iff_eq_take.mp leads
  refine ⟨s.bytes.length, length_le, read, ⟨s, valid, written, rfl⟩, ?_⟩
  intro s' valid' written'
  -- The bytes may have other spellings than the one that was found, but all have one tree.
  have same : s'.bytes = s.bytes := written'.trans written.symm
  rw [← TypeSpelling.tree_eq_of_bytes_eq resolver valid' valid same]
  refine ⟨s'.unresolvedTokens_tree, references_ascending _ _, ?_⟩
  intro reference mem
  have inside := (references_inside mem).2
  rw [Nat.zero_add] at inside
  refine ⟨by rwa [← same], ?_⟩
  obtain ⟨rest, here⟩ := references_written (same ▸ leads) mem
  exact Read.accepts_token.read_spelling reference.index trivial here.symm

/-- A modifier before an instantiation with two arguments, a value type and a function pointer that
refers to the type of the modifier again. -/
def modifiedPair : TypeSpelling :=
  .wrapped (.modifier .required ⟨⟨.short, 5, by decide⟩, ⟨0x01000001⟩, rfl⟩) <|
    .instantiation .classType ⟨⟨.short, 9, by decide⟩, ⟨0x01000002⟩, rfl⟩ ⟨.short, 2, by decide⟩ [
      .named .valueType ⟨⟨.short, 13, by decide⟩, ⟨0x01000003⟩, rfl⟩,
      .functionPointer ⟨0, none, ⟨.short, 1, by decide⟩,
        .named .classType ⟨⟨.short, 5, by decide⟩, ⟨0x01000001⟩, rfl⟩,
        [.named .classType ⟨⟨.short, 6, by decide⟩, ⟨0x1B000001⟩, rfl⟩], []⟩]

theorem valid_modifiedPair : modifiedPair.Valid := by
  refine ⟨rfl, trivial, MethodSpelling.valid_iff.mpr ⟨by decide, by decide, rfl, by simp, ?_⟩,
    trivial⟩
  simp [MethodSpelling.parts, TypeSpelling.Valid]

/-- Knows the generic type of the instantiation. -/
def pairKnown : Resolver :=
  (RowMap.ofList [.reference (.topLevel { token := ⟨0x01000002⟩, name := "Pair" })]
    .standard).resolver

theorem unresolvedTokens_of_decode_pair : ∃ t,
    decode pairKnown [0x1F, 0x05, 0x15, 0x12, 0x09, 0x02, 0x11, 0x0D, 0x1B, 0x00, 0x01, 0x12, 0x05,
      0x12, 0x06, 0xFF] = .ok t ∧
    t.unresolvedTokens = [⟨0x01000001⟩, ⟨0x01000003⟩, ⟨0x01000001⟩, ⟨0x1B000001⟩] := by
  obtain ⟨t, decoded⟩ : ∃ t, decode pairKnown [0x1F, 0x05, 0x15, 0x12, 0x09, 0x02, 0x11, 0x0D, 0x1B,
      0x00, 0x01, 0x12, 0x05, 0x12, 0x06, 0xFF] = .ok t := ⟨_, rfl⟩
  obtain ⟨n, -, read, -, all⟩ := unresolvedTokens_of_decode pairKnown _ decoded
  obtain rfl : n = 15 := (congrArg Cursor.pos (EStateM.Result.ok.inj read).2).symm
  exact ⟨t, decoded, (all modifiedPair valid_modifiedPair rfl).1.trans rfl⟩

end TypeSignature

end CliMetadata
