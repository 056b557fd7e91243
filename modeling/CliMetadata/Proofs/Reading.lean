import CliMetadata.Proofs.Spelling
import CliMetadata.Signature.Decoding

/-!
What the readers of signatures accept: the valid spellings that are not nested deeper than the
reader goes, whatever follows them.
-/

namespace CliMetadata

namespace Read

variable {σ α : Type} {read : Read α} {valid : σ → Prop} {bytes : σ → Bytes} {value : σ → α}

theorem accepts_listOf (h : read.Accepts (Spelled valid bytes value)) :
    (listOf read).Accepts (Spelled (fun list : Counted σ => ∀ s ∈ list.items, valid s)
      (fun list => list.count.bytes ++ list.items.flatMap bytes)
      fun list => list.items.map value) := by
  refine (accepts_bind accepts_unsigned fun count => accepts_times h count).congr ?_
  intro written values
  refine ⟨?_, ?_⟩
  · intro given
    obtain ⟨_, _, _, rfl, ⟨count, -, rfl, rfl⟩, items, ⟨length_eq, all⟩, rfl, rfl⟩ := given
    exact ⟨⟨count, items, length_eq.symm⟩, all, rfl, rfl⟩
  · intro given
    obtain ⟨list, all, rfl, rfl⟩ := given
    exact ⟨_, _, _, rfl, spelled_of_valid list.count trivial, list.items, ⟨list.count_eq.symm, all⟩,
      rfl, rfl⟩

theorem accepts_handle (resolver : Resolver) : (handle resolver).Accepts
    (Spelled (fun _ => True) (fun index : IndexNumeral => index.bytes)
      fun index => resolver.handle index.token) :=
  accepts_token.map

theorem bytes_listed (rank : Numeral) (rank_ne : rank.raw ≠ 0) (sizes bounds : Counted Numeral) :
    (ShapeSpelling.listed rank rank_ne sizes bounds).bytes =
      rank.bytes ++ ((sizes.count.bytes ++ sizes.items.flatMap Numeral.bytes) ++
        (bounds.count.bytes ++ bounds.items.flatMap Numeral.bytes)) := by
  simp [ShapeSpelling.bytes, ShapeSpelling.lexemes, Lexeme.bytesOf, Lexeme.bytes,
    List.flatMap_map, List.append_assoc]

theorem accepts_arrayShape :
    arrayShape.Accepts (Spelled (fun _ => True) ShapeSpelling.bytes ShapeSpelling.shape) := by
  refine (accepts_bind accepts_unsigned fun rank => accepts_ite (accepts_pure _)
    (accepts_bind (accepts_listOf accepts_unsigned) fun sizes =>
      accepts_map (accepts_listOf accepts_signed))).congr ?_
  intro bytes shape
  refine ⟨?_, ?_⟩
  · intro given
    obtain ⟨_, _, _, rfl, ⟨rank, -, rfl, rfl⟩, ⟨flat, rfl, rfl⟩ | ⟨nonflat, lists⟩⟩ := given
    · exact ⟨.flat rank flat, trivial, rfl, by rw [ShapeSpelling.shape, flat]⟩
    · obtain ⟨_, _, _, rfl, ⟨sizes, -, rfl, rfl⟩, _, ⟨bounds, -, rfl, rfl⟩, rfl⟩ := lists
      exact ⟨.listed rank nonflat sizes bounds, trivial, bytes_listed rank nonflat sizes bounds,
        rfl⟩
  · intro given
    obtain ⟨spelling, -, rfl, rfl⟩ := given
    cases spelling with
    | flat rank flat =>
        refine ⟨rank.raw, rank.bytes, [], rfl, spelled_of_valid rank trivial, .inl ⟨flat, rfl, ?_⟩⟩
        rw [ShapeSpelling.shape, flat]
    | listed rank nonflat sizes bounds =>
        exact ⟨rank.raw, rank.bytes, _, (bytes_listed rank nonflat sizes bounds).symm,
          spelled_of_valid rank trivial, .inr ⟨nonflat, _, _, _, rfl,
            ⟨sizes, fun _ _ => trivial, rfl, rfl⟩, _, ⟨bounds, fun _ _ => trivial, rfl, rfl⟩, rfl⟩⟩

theorem acceptsAt_marked (kind : TypeKind) :
    (skip 1 >>= fun _ => pure kind : Read TypeKind).AcceptsAt kind.tag.byte
      fun bytes kind => bytes = [kind.tag.byte] := by
  refine (acceptsAt_skip (accepts_pure kind)).congr (by simp) (by simp) ?_
  intro rest found
  refine ⟨?_, ?_⟩
  · intro given
    obtain ⟨_, written, rfl, rfl⟩ := given
    exact written.symm
  · intro written
    obtain ⟨byte_eq, rfl⟩ := List.cons.inj written
    refine ⟨[], rfl, rfl, ?_⟩
    cases kind <;> cases found <;> first | rfl | contradiction

theorem accepts_typeKind : typeKind.Accepts fun bytes kind => bytes = [kind.tag.byte] := by
  refine accepts_position fun start => accepts_peekByte (by simp) fun first => ?_
  split
  · rename_i tag?
    rw [← ElementType.byte_of_ofByte? tag?]
    exact acceptsAt_marked .classType
  · rename_i tag?
    rw [← ElementType.byte_of_ofByte? tag?]
    exact acceptsAt_marked .valueType
  · rename_i notClass notValue
    refine ((accepts_throw _).acceptsAt first).congr (fun _ => not_false) (by simp) ?_
    intro rest kind
    refine ⟨False.elim, fun bytes_eq => ?_⟩
    obtain ⟨rfl, rfl⟩ := List.cons.inj bytes_eq
    cases kind with
    | classType => exact notClass (ElementType.ofByte?_byte .classType)
    | valueType => exact notValue (ElementType.ofByte?_byte .valueType)

end Read

namespace ElementType

theorem byte_injective {tag other : ElementType} (h : tag.byte = other.byte) : tag = other :=
  Option.some.inj (by rw [← ofByte?_byte tag, h, ofByte?_byte other])

end ElementType

namespace TypeSpelling

theorem bytes_ne_nil (spelling : TypeSpelling) : spelling.bytes ≠ [] := by
  obtain ⟨rest, bytes_eq⟩ := spelling.bytes_eq_cons .empty
  rw [bytes_eq]
  exact List.cons_ne_nil _ _

theorem isNodeTag_tag (resolver : Resolver) (spelling : TypeSpelling) :
    (spelling.tree resolver).tag.isNodeTag := by
  cases spelling with
  | primitive tag isPrimitive => cases tag <;> first | rfl | contradiction
  | named kind index => cases kind <;> rfl
  | wrapped wrapper next =>
      cases wrapper with
      | modifier kind index => cases kind <;> rfl
      | _ => rfl
  | _ => rfl

/-- No other node opens like a sentinel. -/
theorem eq_sentinel_of_bytes {spelling : TypeSpelling} {rest : Bytes}
    (h : spelling.bytes = ElementType.sentinel.byte :: rest) : spelling = .sentinel := by
  obtain ⟨_, bytes_eq⟩ := spelling.bytes_eq_cons .empty
  rw [h] at bytes_eq
  have tag_eq := ElementType.byte_injective (List.cons.inj bytes_eq).1
  cases spelling with
  | primitive tag isPrimitive =>
      obtain rfl : ElementType.sentinel = tag := tag_eq
      contradiction
  | named kind index => cases kind <;> contradiction
  | sentinel => rfl
  | wrapped wrapper next =>
      cases wrapper with
      | modifier kind index => cases kind <;> contradiction
      | _ => contradiction
  | _ => contradiction

end TypeSpelling

/-- The parameters of a method, with the sentinel before the variable ones. -/
def ParamsSpelled (resolver : Resolver) (valid : TypeSpelling → Prop) (count : Nat) :
    Language (List TypeSignature × Option (List TypeSignature)) := fun bytes result =>
  ∃ params varargs : List TypeSpelling,
    params.length + varargs.length = count ∧ TypeSpelling.sentinel ∉ params ∧
      (∀ s ∈ params, valid s) ∧ (∀ s ∈ varargs, valid s) ∧
      Lexeme.bytesOf (TypeSpelling.allLexemes params ++ TypeSpelling.varargLexemes varargs) =
        bytes ∧
      (TypeSpelling.trees resolver params, TypeSpelling.varargTrees resolver varargs) = result

section

variable {resolver : Resolver} {valid : TypeSpelling → Prop} {count : Nat} {rest : Bytes}
  {result : List TypeSignature × Option (List TypeSignature)}

theorem paramsSpelled_zero_iff {bytes : Bytes} :
    ParamsSpelled resolver valid 0 bytes result ↔ bytes = [] ∧ ([], none) = result := by
  refine ⟨?_, ?_⟩
  · intro given
    obtain ⟨params, varargs, none, _, _, _, rfl, rfl⟩ := given
    obtain ⟨noParams, noVarargs⟩ := Nat.add_eq_zero_iff.mp none
    obtain rfl := List.length_eq_zero_iff.mp noParams
    obtain rfl := List.length_eq_zero_iff.mp noVarargs
    exact ⟨rfl, rfl⟩
  · intro given
    obtain ⟨rfl, rfl⟩ := given
    exact ⟨[], [], rfl, by simp, by simp, by simp, rfl, rfl⟩

theorem bytesOf_varargs (spelling : TypeSpelling) (spellings : List TypeSpelling) :
    Lexeme.bytesOf (TypeSpelling.varargLexemes (spelling :: spellings)) =
      ElementType.sentinel.byte :: (spelling :: spellings).flatMap TypeSpelling.bytes := by
  rw [← TypeSpelling.bytesOf_flatMap]
  simp [TypeSpelling.varargLexemes, Lexeme.bytesOf, Lexeme.bytes]

theorem bytesOf_params (param : TypeSpelling) (params varargs : List TypeSpelling) :
    Lexeme.bytesOf (TypeSpelling.allLexemes (param :: params) ++
        TypeSpelling.varargLexemes varargs) =
      param.bytes ++ Lexeme.bytesOf (TypeSpelling.allLexemes params ++
        TypeSpelling.varargLexemes varargs) := by
  simp [TypeSpelling.bytes, Lexeme.bytesOf, List.append_assoc]

theorem not_paramsSpelled_nil : ¬ParamsSpelled resolver valid (count + 1) [] result := by
  intro given
  obtain ⟨_ | ⟨param, params⟩, varargs, length_eq, _, _, _, written, _⟩ := given
  · obtain ⟨vararg, others, rfl⟩ := List.exists_cons_of_length_eq_add_one
      ((Nat.zero_add _).symm.trans length_eq)
    rw [TypeSpelling.allLexemes, List.nil_append, bytesOf_varargs] at written
    contradiction
  · rw [bytesOf_params] at written
    exact param.bytes_ne_nil (List.append_eq_nil_iff.mp written).1

theorem paramsSpelled_sentinel_iff :
    ParamsSpelled resolver valid (count + 1) (ElementType.sentinel.byte :: rest) result ↔
      ∃ varargs, Spelled
        (fun spellings : List TypeSpelling =>
          spellings.length = count + 1 ∧ ∀ s ∈ spellings, valid s)
        (List.flatMap TypeSpelling.bytes) (List.map (TypeSpelling.tree resolver)) rest varargs ∧
        ([], some varargs) = result := by
  refine ⟨?_, ?_⟩
  · intro given
    obtain ⟨_ | ⟨param, params⟩, varargs, length_eq, fixed, _, hvarargs, written, rfl⟩ := given
    · obtain ⟨vararg, others, rfl⟩ := List.exists_cons_of_length_eq_add_one
        ((Nat.zero_add _).symm.trans length_eq)
      rw [TypeSpelling.allLexemes, List.nil_append, bytesOf_varargs] at written
      refine ⟨_, ⟨vararg :: others, ⟨(Nat.zero_add _).symm.trans length_eq, hvarargs⟩,
        (List.cons.inj written).2, rfl⟩, ?_⟩
      rw [← TypeSpelling.trees_eq]
      rfl
    · obtain ⟨_, bytes_eq⟩ := param.bytes_eq_cons resolver
      rw [bytesOf_params, bytes_eq, List.cons_append] at written
      rw [(List.cons.inj written).1] at bytes_eq
      rw [TypeSpelling.eq_sentinel_of_bytes bytes_eq] at fixed
      exact absurd List.mem_cons_self fixed
  · intro given
    obtain ⟨_, ⟨varargs, ⟨length_eq, hvarargs⟩, rfl, rfl⟩, rfl⟩ := given
    obtain ⟨vararg, others, rfl⟩ := List.exists_cons_of_length_eq_add_one length_eq
    refine ⟨[], vararg :: others, (Nat.zero_add _).trans length_eq, by simp, by simp, hvarargs,
      bytesOf_varargs vararg others, ?_⟩
    rw [← TypeSpelling.trees_eq]
    rfl

theorem paramsSpelled_iff {first : UInt8} (notSentinel : first ≠ ElementType.sentinel.byte) :
    ParamsSpelled resolver valid (count + 1) (first :: rest) result ↔
      ∃ param front back, front ++ back = first :: rest ∧
        Spelled valid TypeSpelling.bytes (TypeSpelling.tree resolver) front param ∧
        ∃ others, ParamsSpelled resolver valid count back others ∧
          (param :: others.1, others.2) = result := by
  refine ⟨?_, ?_⟩
  · intro given
    obtain ⟨_ | ⟨param, params⟩, varargs, length_eq, fixed, hparams, hvarargs, written, rfl⟩ :=
      given
    · obtain ⟨vararg, others, rfl⟩ := List.exists_cons_of_length_eq_add_one
        ((Nat.zero_add _).symm.trans length_eq)
      rw [TypeSpelling.allLexemes, List.nil_append, bytesOf_varargs] at written
      exact absurd (List.cons.inj written).1.symm notSentinel
    · obtain ⟨hparam, hparams⟩ := List.forall_mem_cons.mp hparams
      rw [bytesOf_params] at written
      refine ⟨_, _, _, written, ⟨param, hparam, rfl, rfl⟩, _,
        ⟨params, varargs, ?_, List.not_mem_of_not_mem_cons fixed, hparams, hvarargs, rfl, rfl⟩, rfl⟩
      rw [List.length_cons] at length_eq
      omega
  · intro given
    obtain ⟨_, _, _, written, ⟨param, hparam, rfl, rfl⟩, _, others, rfl⟩ := given
    obtain ⟨params, varargs, length_eq, fixed, hparams, hvarargs, rfl, rfl⟩ := others
    have opening : param ≠ .sentinel := by
      rintro rfl
      exact notSentinel (List.cons.inj written).1.symm
    refine ⟨param :: params, varargs, ?_, ?_, List.forall_mem_cons.mpr ⟨hparam, hparams⟩, hvarargs,
      (bytesOf_params _ _ _).trans written, rfl⟩
    · rw [List.length_cons]
      omega
    · exact List.not_mem_cons_of_ne_of_not_mem opening.symm fixed

end

namespace Read

/-- Parameters are read up to the sentinel, and from there on as variable ones. -/
theorem accepts_params {resolver : Resolver} {type : Read TypeSignature}
    {valid : TypeSpelling → Prop}
    (h : type.Accepts (Spelled valid TypeSpelling.bytes (TypeSpelling.tree resolver)))
    (count : Nat) : (params type count).Accepts (ParamsSpelled resolver valid count) := by
  -- The reader looks at the next byte before each parameter, and so does the induction.
  induction count with
  | zero => exact (accepts_pure _).congr fun _ _ => paramsSpelled_zero_iff.symm
  | succ count ih =>
      refine accepts_peekByte (fun _ => not_paramsSpelled_nil) fun first => ?_
      by_cases sentinel : first = ElementType.sentinel.byte
      · rw [if_pos sentinel, sentinel]
        refine (acceptsAt_skip (accepts_map (accepts_times h (count + 1)))).congr ?_
          (fun _ => not_paramsSpelled_nil) ?_
        · intro _ given
          obtain ⟨_, empty, _⟩ := given
          contradiction
        · intro rest result
          rw [paramsSpelled_sentinel_iff]
          simp
      · rw [if_neg sentinel]
        refine ((accepts_bind h fun param => accepts_map ih).acceptsAt first).congr ?_
          (fun _ => not_paramsSpelled_nil) ?_
        · intro _ given
          obtain ⟨_, _, _, empty, ⟨param, _, rfl, _⟩, _⟩ := given
          exact param.bytes_ne_nil (List.append_eq_nil_iff.mp empty).1
        · exact fun rest result => (paramsSpelled_iff sentinel).symm

theorem isConvention_iff {convention : UInt8} :
    MethodSignature.isConvention convention = true ↔
      convention.toNat % 16 ∈ MethodSignature.kinds := by
  have kind_lt : convention.toNat % 16 < 16 := Nat.mod_lt _ (by decide)
  simp [MethodSignature.isConvention, MethodSignature.kinds]
  omega

theorem accepts_genericCount (convention : UInt8) : (genericCount convention).Accepts
    (Spelled (fun generics : Option Numeral => generics.isSome ↔ convention &&& 0x10 ≠ 0)
      (fun generics => Lexeme.bytesOf (generics.toList.map .unsigned))
      fun generics => (generics.map Numeral.raw).getD 0) := by
  refine (accepts_ite accepts_unsigned (accepts_pure 0)).congr ?_
  intro bytes count
  refine ⟨?_, ?_⟩
  · rintro (⟨flag, numeral, -, rfl, rfl⟩ | ⟨noFlag, rfl, rfl⟩)
    · exact ⟨some numeral, by simpa using flag, by simp [Lexeme.bytesOf, Lexeme.bytes], rfl⟩
    · exact ⟨none, by simpa using noFlag, rfl, rfl⟩
  · intro given
    obtain ⟨_ | numeral, flag, rfl, rfl⟩ := given
    · exact .inr ⟨by simpa using flag, rfl, rfl⟩
    · exact .inl ⟨by simpa using flag, numeral, trivial, by simp [Lexeme.bytesOf, Lexeme.bytes],
        rfl⟩

variable {resolver : Resolver} {levels : Nat} {type : Read TypeSignature}

theorem accepts_methodOf (h : type.Accepts (TypeSpelled resolver levels)) :
    (methodOf type).Accepts (MethodSpelled resolver levels) := by
  refine (accepts_bind accepts_byte fun convention => accepts_ite
    (accepts_bind (accepts_genericCount convention) fun genericCount =>
      accepts_bind accepts_unsigned fun count => accepts_bind h fun result =>
        accepts_map (accepts_params h count)) (accepts_throw _)).congr ?_
  intro bytes method
  refine ⟨?_, ?_⟩
  · intro given
    obtain ⟨convention, _, _, rfl, rfl, ⟨isConvention, behind⟩ | ⟨_, ⟨⟩⟩⟩ := given
    obtain ⟨_, _, _, rfl, ⟨generics, flag, rfl, rfl⟩, behind⟩ := behind
    obtain ⟨_, _, _, rfl, ⟨count, -, rfl, rfl⟩, behind⟩ := behind
    obtain ⟨_, _, _, rfl, ⟨result, hresult, rfl, rfl⟩, _, types, rfl⟩ := behind
    obtain ⟨params, varargs, length_eq, fixed, hparams, hvarargs, rfl, rfl⟩ := types
    refine ⟨⟨convention, generics, count, result, params, varargs⟩, ?_,
      MethodSpelling.bytes_eq _, rfl⟩
    refine MethodSpelling.within_iff.mpr
      ⟨isConvention_iff.mp isConvention, flag, length_eq.symm, fixed, ?_⟩
    exact MethodSpelling.forall_parts_iff.mpr ⟨hresult, hparams, hvarargs⟩
  · intro given
    obtain ⟨⟨convention, generics, count, result, params, varargs⟩, within, rfl, rfl⟩ := given
    obtain ⟨kind_mem, flag, length_eq, fixed, parts⟩ := MethodSpelling.within_iff.mp within
    obtain ⟨hresult, hparams, hvarargs⟩ := MethodSpelling.forall_parts_iff.mp parts
    have isConvention := isConvention_iff.mpr kind_mem
    have types : ParamsSpelled resolver (TypeSpelling.Within resolver levels) count.raw _ _ :=
      ⟨params, varargs, length_eq.symm, fixed, hparams, hvarargs, rfl, rfl⟩
    refine ⟨convention, _, _, (MethodSpelling.bytes_eq _).symm, rfl, .inl ⟨isConvention, ?_⟩⟩
    refine ⟨_, _, _, rfl, spelled_of_valid generics flag, ?_⟩
    refine ⟨_, _, _, rfl, spelled_of_valid count trivial, ?_⟩
    exact ⟨_, _, _, rfl, spelled_of_valid result hresult, _, types, rfl⟩

theorem node_of_isPrimitive {tag : ElementType} (h : tag.isPrimitive) :
    node resolver type tag = pure (.primitive 0 tag (resolver.primitive? tag)) := by
  cases tag <;> first | rfl | contradiction

theorem typeSpelled_leaf (spelling : TypeSpelling) (valid : spelling.Valid)
    (nesting_eq : (spelling.tree resolver).nesting = 1) {bytes : Bytes}
    (written : spelling.bytes = bytes) :
    TypeSpelled resolver (levels + 1) bytes (spelling.tree resolver) :=
  ⟨spelling, ⟨valid, by omega⟩, written, rfl⟩

theorem typeSpelled_wrapped (wrapper : WrapperSpelling) {next : TypeSpelling}
    (within : next.Within resolver levels) {body : Bytes}
    (written : Lexeme.bytesOf wrapper.before ++ (next.bytes ++ Lexeme.bytesOf wrapper.behind) =
      body) :
    TypeSpelled resolver (levels + 1) (wrapper.tag.byte :: body)
      (.wrapped 0 (wrapper.wrapper resolver) (next.tree resolver)) :=
  ⟨.wrapped wrapper next, TypeSpelling.within_wrapped_iff.mpr within,
    by rw [TypeSpelling.bytes_wrapped, written], rfl⟩

theorem accepts_instantiation (h : type.Accepts (TypeSpelled resolver levels)) :
    (node resolver type .genericInst).Accepts (Spelled
      (fun parts : TypeKind × IndexNumeral × Counted TypeSpelling =>
        ∀ s ∈ parts.2.2.items, s.Within resolver levels)
      (fun parts => [parts.1.tag.byte] ++ (parts.2.1.bytes ++
        (parts.2.2.count.bytes ++ parts.2.2.items.flatMap TypeSpelling.bytes)))
      fun parts => .instantiation 0 parts.1 (resolver.handle parts.2.1.token)
        (parts.2.2.items.map (TypeSpelling.tree resolver))) := by
  refine (accepts_bind accepts_typeKind fun kind => accepts_bind (accepts_handle resolver)
    fun generic => accepts_map (accepts_listOf h)).congr ?_
  intro body t
  refine ⟨?_, ?_⟩
  · intro given
    obtain ⟨kind, _, _, rfl, rfl, behind⟩ := given
    obtain ⟨_, _, _, rfl, ⟨generic, -, rfl, rfl⟩, _, ⟨arguments, within, rfl, rfl⟩, rfl⟩ := behind
    exact ⟨(kind, generic, arguments), within, rfl, rfl⟩
  · intro given
    obtain ⟨⟨kind, generic, arguments⟩, within, rfl, rfl⟩ := given
    refine ⟨kind, _, _, rfl, rfl, ?_⟩
    refine ⟨_, _, _, rfl, spelled_of_valid generic trivial, ?_⟩
    exact ⟨_, spelled_of_valid arguments within, rfl⟩

/-- What a node reader reads completes a spelling that starts with the tag. -/
theorem exists_spelling_of_node {tag : ElementType} {cursor stopped : Cursor} {t : TypeSignature}
    (h : type.Accepts (TypeSpelled resolver levels))
    (isNodeTag : tag.isNodeTag) (read : node resolver type tag cursor = .ok t stopped) :
    ∃ body, TypeSpelled resolver (levels + 1) (tag.byte :: body) t ∧ body <+: cursor.unread ∧
      stopped = cursor.advance body.length := by
  -- The primitive tags share one equation of the reader, so they are settled before the others.
  by_cases isPrimitive : tag.isPrimitive
  · rw [node_of_isPrimitive isPrimitive] at read
    obtain ⟨_, ⟨rfl, rfl⟩, leads, rfl⟩ := (accepts_pure _ _ _ _).mp read
    exact ⟨[], typeSpelled_leaf (.primitive tag isPrimitive) trivial rfl rfl, leads,
      rfl⟩
  cases tag with
  | ptr =>
      obtain ⟨_, ⟨next, within, rfl, rfl⟩, behind⟩ := (h.map _ _ _).mp read
      exact ⟨_, typeSpelled_wrapped .pointer within (by simp), behind⟩
  | byRef =>
      obtain ⟨_, ⟨next, within, rfl, rfl⟩, behind⟩ := (h.map _ _ _).mp read
      exact ⟨_, typeSpelled_wrapped .byRef within (by simp), behind⟩
  | szArray =>
      obtain ⟨_, ⟨next, within, rfl, rfl⟩, behind⟩ := (h.map _ _ _).mp read
      exact ⟨_, typeSpelled_wrapped .vector within (by simp), behind⟩
  | pinned =>
      obtain ⟨_, ⟨next, within, rfl, rfl⟩, behind⟩ := (h.map _ _ _).mp read
      exact ⟨_, typeSpelled_wrapped .pinned within (by simp), behind⟩
  | array =>
      obtain ⟨_, ⟨⟨next, shape⟩, ⟨within, -⟩, rfl, rfl⟩, behind⟩ :=
        (h.pair accepts_arrayShape _ _ _).mp read
      exact ⟨_, typeSpelled_wrapped (.array shape) within rfl, behind⟩
  | valueArray =>
      obtain ⟨_, ⟨⟨next, size⟩, ⟨within, -⟩, rfl, rfl⟩, behind⟩ :=
        (h.pair accepts_unsigned _ _ _).mp read
      exact ⟨_, typeSpelled_wrapped (.valueArray size) within (by simp), behind⟩
  | modReqd =>
      obtain ⟨_, ⟨⟨index, next⟩, ⟨-, within⟩, rfl, rfl⟩, behind⟩ :=
        ((accepts_handle resolver).pair h _ _ _).mp read
      exact ⟨_, typeSpelled_wrapped (.modifier .required index) within (by simp), behind⟩
  | modOpt =>
      obtain ⟨_, ⟨⟨index, next⟩, ⟨-, within⟩, rfl, rfl⟩, behind⟩ :=
        ((accepts_handle resolver).pair h _ _ _).mp read
      exact ⟨_, typeSpelled_wrapped (.modifier .optional index) within (by simp), behind⟩
  | moduleType =>
      obtain ⟨_, ⟨⟨index, next⟩, ⟨-, within⟩, rfl, rfl⟩, behind⟩ :=
        (accepts_unsigned.pair h _ _ _).mp read
      exact ⟨_, typeSpelled_wrapped (.scoped index) within (by simp), behind⟩
  | classType =>
      obtain ⟨_, ⟨index, -, rfl, rfl⟩, behind⟩ := ((accepts_handle resolver).map _ _ _).mp read
      exact ⟨_, typeSpelled_leaf (.named .classType index) trivial rfl
        (TypeSpelling.bytes_named _ _), behind⟩
  | valueType =>
      obtain ⟨_, ⟨index, -, rfl, rfl⟩, behind⟩ := ((accepts_handle resolver).map _ _ _).mp read
      exact ⟨_, typeSpelled_leaf (.named .valueType index) trivial rfl
        (TypeSpelling.bytes_named _ _), behind⟩
  | typeVar =>
      obtain ⟨_, ⟨index, -, rfl, rfl⟩, behind⟩ := (accepts_unsigned.map _ _ _).mp read
      exact ⟨_, typeSpelled_leaf (.typeVar index) trivial rfl (TypeSpelling.bytes_typeVar _),
        behind⟩
  | methodVar =>
      obtain ⟨_, ⟨index, -, rfl, rfl⟩, behind⟩ := (accepts_unsigned.map _ _ _).mp read
      exact ⟨_, typeSpelled_leaf (.methodVar index) trivial rfl (TypeSpelling.bytes_methodVar _),
        behind⟩
  | sentinel =>
      obtain ⟨_, ⟨rfl, rfl⟩, behind⟩ := (accepts_pure _ _ _ _).mp read
      exact ⟨_, typeSpelled_leaf .sentinel trivial rfl rfl, behind⟩
  | fnPtr =>
      obtain ⟨_, ⟨method, within, rfl, rfl⟩, behind⟩ := ((accepts_methodOf h).map _ _ _).mp read
      exact ⟨_, ⟨.functionPointer method, TypeSpelling.within_functionPointer_iff.mpr within,
        rfl, rfl⟩, behind⟩
  | genericInst =>
      obtain ⟨_, ⟨⟨kind, generic, arguments⟩, all, rfl, rfl⟩, behind⟩ :=
        (accepts_instantiation h _ _ _).mp read
      refine ⟨_, ⟨.instantiation kind generic arguments.count arguments.items, ?_, ?_, ?_⟩, behind⟩
      · exact TypeSpelling.within_instantiation_iff.mpr ⟨arguments.count_eq, all⟩
      · exact TypeSpelling.bytes_instantiation _ _ _ _
      · rw [TypeSpelling.tree, TypeSpelling.trees_eq]
  | _ => contradiction

/-- Behind its tag, a spelling is read to its end. -/
theorem node_of_spelling {spelling : TypeSpelling} {body rest : Bytes} {cursor : Cursor}
    (h : type.Accepts (TypeSpelled resolver levels))
    (within : spelling.Within resolver (levels + 1))
    (written : spelling.bytes = (spelling.tree resolver).tag.byte :: body)
    (here : cursor.unread = body ++ rest) :
    node resolver type (spelling.tree resolver).tag cursor =
      .ok (spelling.tree resolver) (cursor.advance body.length) := by
  cases spelling with
  | primitive tag isPrimitive =>
      obtain rfl := (List.cons.inj written).2
      exact congrFun (node_of_isPrimitive isPrimitive) cursor
  | named kind index =>
      rw [TypeSpelling.bytes_named] at written
      obtain rfl := (List.cons.inj written).2
      cases kind <;> exact (accepts_handle resolver).map.read_spelling index trivial here
  | typeVar index =>
      rw [TypeSpelling.bytes_typeVar] at written
      obtain rfl := (List.cons.inj written).2
      exact accepts_unsigned.map.read_spelling index trivial here
  | methodVar index =>
      rw [TypeSpelling.bytes_methodVar] at written
      obtain rfl := (List.cons.inj written).2
      exact accepts_unsigned.map.read_spelling index trivial here
  | sentinel =>
      obtain rfl := (List.cons.inj written).2
      rfl
  | functionPointer method =>
      obtain rfl := (List.cons.inj written).2
      have withinMethod := TypeSpelling.within_functionPointer_iff.mp within
      exact (accepts_methodOf h).map.read_spelling method withinMethod here
  | instantiation kind generic count arguments =>
      rw [TypeSpelling.bytes_instantiation] at written
      obtain rfl := (List.cons.inj written).2
      obtain ⟨count_eq, all⟩ := TypeSpelling.within_instantiation_iff.mp within
      rw [TypeSpelling.tree, TypeSpelling.trees_eq]
      exact (accepts_instantiation h).read_spelling (kind, generic, ⟨count, arguments, count_eq⟩)
        all here
  | wrapped wrapper next =>
      rw [TypeSpelling.bytes_wrapped] at written
      obtain rfl := (List.cons.inj written).2
      have withinNext := TypeSpelling.within_wrapped_iff.mp within
      cases wrapper with
      | pointer | byRef | vector | pinned =>
          exact h.map.complete ⟨next, withinNext, by simp, rfl⟩ here
      | array shape =>
          exact (h.pair accepts_arrayShape).complete
            ⟨(next, shape), ⟨withinNext, trivial⟩, rfl, rfl⟩ here
      | valueArray size =>
          exact (h.pair accepts_unsigned).complete
            ⟨(next, size), ⟨withinNext, trivial⟩, by simp, rfl⟩ here
      | modifier kind index =>
          cases kind <;> exact ((accepts_handle resolver).pair h).complete
            ⟨(index, next), ⟨trivial, withinNext⟩, by simp, rfl⟩ here
      | «scoped» index =>
          exact (accepts_unsigned.pair h).complete
            ⟨(index, next), ⟨trivial, withinNext⟩, by simp, rfl⟩ here

theorem accepts_node {tag : ElementType}
    (h : type.Accepts (TypeSpelled resolver levels)) (isNodeTag : tag.isNodeTag) :
    (node resolver type tag).Accepts fun body t =>
      TypeSpelled resolver (levels + 1) (tag.byte :: body) t := by
  intro cursor t stopped
  refine ⟨?_, ?_⟩
  · exact exists_spelling_of_node h isNodeTag
  · intro given
    obtain ⟨body, ⟨spelling, within, written, rfl⟩, ⟨rest, here⟩, rfl⟩ := given
    obtain ⟨_, opening⟩ := spelling.bytes_eq_cons resolver
    rw [opening] at written
    obtain ⟨tag_eq, rfl⟩ := List.cons.inj written
    obtain rfl := ElementType.byte_injective tag_eq
    exact node_of_spelling h within opening here.symm

/-- No spelling opens with a byte that is not the tag of a node. -/
theorem not_typeSpelled {value : UInt8} {body : Bytes} {t : TypeSignature}
    (noTag : (ElementType.ofByte? value).filter ElementType.isNodeTag = none) :
    ¬TypeSpelled resolver (levels + 1) (value :: body) t := by
  intro given
  obtain ⟨spelling, -, written, -⟩ := given
  obtain ⟨_, opening⟩ := spelling.bytes_eq_cons resolver
  rw [opening] at written
  have value_eq := (List.cons.inj written).1
  rw [← value_eq, ElementType.ofByte?_byte, Option.filter_some,
    if_pos (spelling.isNodeTag_tag resolver)] at noTag
  cases noTag

theorem accepts_typeWithin (resolver : Resolver) (levels : Nat) :
    (typeWithin resolver levels).Accepts (TypeSpelled resolver levels) := by
  induction levels with
  | zero =>
      refine (accepts_throw _).congr ?_
      intro bytes t
      refine ⟨False.elim, ?_⟩
      intro given
      obtain ⟨spelling, within, _, _⟩ := given
      exact spelling.not_within_zero within
  | succ levels ih =>
      refine accepts_position fun start => ?_
      -- What follows the first byte depends on it: the spellings that go on behind it.
      refine (accepts_bind accepts_byte fun value =>
        (?_ : Accepts _ fun body t => TypeSpelled resolver (levels + 1) (value :: body) t)).congr ?_
      · cases tag? : (ElementType.ofByte? value).filter ElementType.isNodeTag with
        | none =>
            refine (accepts_throw _).congr fun body t => ?_
            exact iff_of_false not_false (not_typeSpelled tag?)
        | some tag =>
            obtain ⟨isTag, isNodeTag⟩ := Option.filter_eq_some_iff.mp tag?
            obtain rfl := ElementType.byte_of_ofByte? isTag
            exact accepts_onEnd (accepts_node ih isNodeTag)
      intro bytes t
      refine ⟨?_, ?_⟩
      · intro given
        obtain ⟨value, _, body, rfl, rfl, spelled⟩ := given
        exact spelled
      · intro spelled
        obtain ⟨spelling, within, rfl, rfl⟩ := spelled
        obtain ⟨body, opening⟩ := spelling.bytes_eq_cons resolver
        refine ⟨_, _, body, opening.symm, rfl, spelling, within, opening, rfl⟩

/-- A type is read from the valid spellings of no more than fifty levels. -/
theorem accepts_type (resolver : Resolver) :
    (Read.type resolver).Accepts (TypeSpelled resolver TypeSignature.maxNesting) :=
  accepts_typeWithin resolver TypeSignature.maxNesting

theorem accepts_method (resolver : Resolver) :
    (method resolver).Accepts (MethodSpelled resolver TypeSignature.maxNesting) :=
  accepts_methodOf (accepts_type resolver)

end Read

/-- What was decoded is spelled at the start of the data. -/
theorem TypeSignature.exists_spelling_of_decode {resolver : Resolver} {data : Bytes}
    {type : TypeSignature} (decoded : decode resolver data = .ok type) :
    ∃ s : TypeSpelling, s.Within resolver maxNesting ∧ s.bytes <+: data ∧
      s.tree resolver = type := by
  obtain ⟨_, done⟩ := Read.run?_eq_ok_iff.mp decoded
  obtain ⟨_, ⟨s, within, rfl, same⟩, leads, -⟩ := (Read.accepts_type resolver _ _ _).mp done
  exact ⟨s, within, leads, same⟩

end CliMetadata
