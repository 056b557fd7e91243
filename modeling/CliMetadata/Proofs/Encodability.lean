import CliMetadata.Proofs.Nodes
import CliMetadata.Proofs.Writing

/-!
What can be written. The fields of a signature are the smallest parts of its output, from left to
right: a byte is always written, a tag, a token or a number only if it is in range. A signature is
written field by field, so that it has an encoding if and only if all the fields are in range, and
otherwise the first field that is not decides the fault.
-/

namespace CliMetadata

inductive Field where
  | byte (value : UInt8)
  | primitive (tag : ElementType)
  | token (value : Token)
  | unsigned (n : Nat)
  | signed (i : Int)
  | count (n : Nat)

namespace Field

def encode : Field → Except EncodingFault Bytes
  | .byte value => .ok [value]
  | .primitive tag => if tag.isPrimitive then .ok [tag.byte] else .error (.notPrimitive tag)
  | .token value => Compressed.encodeToken value
  | .unsigned n => Compressed.encodeUnsigned n
  | .signed i => Compressed.encodeSigned i
  | .count n => encodeCount n

/-- The field is in range: a tag is one of the core library, a token is of a table that coded
indexes point into, and a number has no more than 29 bits, one of them for the sign of a signed one.
-/
def Fits : Field → Prop
  | .byte _ => True
  | .primitive tag => tag.isPrimitive
  | .token value => ∃ table : TypeTable, table.number = value.table
  | .unsigned n | .count n => n ≤ 0x1FFFFFFF
  | .signed i => -0x10000000 ≤ i ∧ i ≤ 0x0FFFFFFF

/-- The field is out of range, and the fault says so. A count of more than 32 bits is called too
long, a smaller one too large. -/
def Refused : Field → EncodingFault → Prop
  | .byte _, _ => False
  | .primitive tag, fault => ¬tag.isPrimitive ∧ .notPrimitive tag = fault
  | .token value, fault =>
    (∀ table : TypeTable, table.number ≠ value.table) ∧ .notTypeToken value = fault
  | .unsigned n, fault => 0x1FFFFFFF < n ∧ .unsignedTooLarge n = fault
  | .signed i, fault => (i < -0x10000000 ∨ 0x0FFFFFFF < i) ∧ .signedOutOfRange i = fault
  | .count n, fault => 0x1FFFFFFF < n ∧
      (if n < 0x100000000 then .unsignedTooLarge n else .listTooLong n) = fault

theorem fits_byte (value : UInt8) : (byte value).Fits :=
  trivial

end Field

theorem Token.typeTable?_eq_none_iff {token : Token} :
    token.typeTable? = none ↔ ∀ table : TypeTable, table.number ≠ token.table := by
  simp only [Option.eq_none_iff_forall_ne_some, typeTable?, ne_eq, TypeTable.ofNumber?_eq_some_iff]

namespace Compressed

variable {fault : EncodingFault}

theorem encodeUnsigned_eq_error_iff {n : Nat} :
    encodeUnsigned n = .error fault ↔ 0x1FFFFFFF < n ∧ .unsignedTooLarge n = fault := by
  rw [← Form.ofUnsigned?_eq_none_iff, encodeUnsigned]
  cases Form.ofUnsigned? n <;> simp

theorem encodeSigned_eq_error_iff {i : Int} : encodeSigned i = .error fault ↔
    (i < -0x10000000 ∨ 0x0FFFFFFF < i) ∧ .signedOutOfRange i = fault := by
  rw [← Form.ofSigned?_eq_none_iff, encodeSigned]
  cases Form.ofSigned? i <;> simp

theorem encodeToken_eq_error_iff {token : Token} : encodeToken token = .error fault ↔
    (∀ table : TypeTable, table.number ≠ token.table) ∧ .notTypeToken token = fault := by
  rw [← Token.typeTable?_eq_none_iff]
  cases table? : token.typeTable? with
  | none => simp [encodeToken, Token.codedIndex, Token.codedIndex?, table?, bind, Except.bind]
  | some table =>
      obtain ⟨written, encoded⟩ := exists_encodeToken_iff.mpr (Option.isSome_of_eq_some table?)
      simp [encoded]

end Compressed

namespace Field

theorem encode_eq_error_iff {field : Field} {fault : EncodingFault} :
    field.encode = .error fault ↔ field.Refused fault := by
  cases field with
  | byte value => simp [encode, Refused]
  | primitive tag => by_cases isPrimitive : tag.isPrimitive <;> simp [encode, Refused, isPrimitive]
  | token value => exact Compressed.encodeToken_eq_error_iff
  | unsigned n => exact Compressed.encodeUnsigned_eq_error_iff
  | signed i => exact Compressed.encodeSigned_eq_error_iff
  | count n =>
      rw [encode, encodeCount, Refused]
      by_cases short : n < 0x100000000
      · rw [if_pos short, if_pos short]
        exact Compressed.encodeUnsigned_eq_error_iff
      · have large : 0x1FFFFFFF < n := by omega
        simp [short, large]

theorem fits_iff {field : Field} : field.Fits ↔ ∀ fault, ¬field.Refused fault := by
  cases field <;> simp [Fits, Refused]

/-- A field has an encoding if and only if it fits. -/
theorem exists_encode_iff {field : Field} :
    (∃ written, field.encode = .ok written) ↔ field.Fits := by
  simp only [fits_iff, ← encode_eq_error_iff]
  cases field.encode <;> simp

end Field

def ArrayShape.fields (shape : ArrayShape) : List Field :=
  .unsigned shape.rank ::
    if shape.rank = 0 then []
    else .count shape.sizes.length :: shape.sizes.map .unsigned ++
      .count shape.lowerBounds.length :: shape.lowerBounds.map .signed

namespace Wrapper

def fieldsBefore : Wrapper → List Field
  | .modifier _ handle => [.token handle.token]
  | .scoped index => [.unsigned index]
  | _ => []

def fieldsBehind : Wrapper → List Field
  | .array shape => shape.fields
  | .valueArray size => [.unsigned size]
  | _ => []

end Wrapper

def MethodSignature.headFields (method : MethodSignature) : List Field :=
  .byte method.convention ::
    (if method.isGeneric then [.unsigned method.genericCount] else []) ++ [.count method.paramCount]

mutual

/-- What the signature is written from, in the order of the output. -/
def TypeSignature.fields : TypeSignature → List Field
  | .primitive _ tag _ => [.primitive tag]
  | .named _ kind handle => [.byte kind.tag.byte, .token handle.token]
  | .typeVar _ index => [.byte ElementType.typeVar.byte, .unsigned index]
  | .methodVar _ index => [.byte ElementType.methodVar.byte, .unsigned index]
  | .sentinel _ => [.byte ElementType.sentinel.byte]
  | .functionPointer _ method => .byte ElementType.fnPtr.byte :: method.fields
  | .instantiation _ kind generic arguments =>
    .byte ElementType.genericInst.byte :: .byte kind.tag.byte :: .token generic.token ::
      .count arguments.length :: TypeSignature.fieldsOfAll arguments
  | .wrapped _ wrapper next =>
    .byte wrapper.tag.byte :: wrapper.fieldsBefore ++ next.fields ++ wrapper.fieldsBehind

def MethodSignature.fields : MethodSignature → List Field
  | ⟨convention, genericCount, result, params, varargs⟩ =>
    MethodSignature.headFields ⟨convention, genericCount, result, params, varargs⟩ ++
      result.fields ++ TypeSignature.fieldsOfAll params ++ TypeSignature.fieldsOfVarargs varargs

def TypeSignature.fieldsOfAll : List TypeSignature → List Field
  | [] => []
  | signature :: rest => signature.fields ++ TypeSignature.fieldsOfAll rest

def TypeSignature.fieldsOfVarargs : Option (List TypeSignature) → List Field
  | none | some [] => []
  | some (signature :: rest) =>
    .byte ElementType.sentinel.byte :: signature.fields ++ TypeSignature.fieldsOfAll rest

end

section

variable {α β : Type} {encode : α → Except EncodingFault Bytes}

theorem ok_bind {ε : Type} (a : α) (next : α → Except ε β) : (Except.ok a >>= next) = next a :=
  rfl

theorem encodeEach_singleton (item : α) : encodeEach encode [item] = encode item := by
  simp only [encodeEach, ok_bind, List.append_nil, bind_pure]

theorem encodeEach_append (front back : List α) :
    encodeEach encode (front ++ back) = (do
      let first ← encodeEach encode front
      let others ← encodeEach encode back
      return first ++ others) := by
  induction front with
  | nil => simp only [List.nil_append, encodeEach, ok_bind, bind_pure]
  | cons item rest ih =>
      simp only [List.cons_append, encodeEach, ih, bind_assoc, pure_bind, List.append_assoc]

theorem encodeEach_comp (f : β → α) (items : List β) :
    encodeEach encode (items.map f) = encodeEach (fun item => encode (f item)) items := by
  induction items with
  | nil => rfl
  | cons item rest ih => simp only [List.map_cons, encodeEach, ih]

end

theorem encodeEach_byte (value : UInt8) (fields : List Field) :
    encodeEach Field.encode (.byte value :: fields) = (do
      let others ← encodeEach Field.encode fields
      return value :: others) :=
  rfl

namespace ArrayShape

theorem encode_eq_fields (shape : ArrayShape) :
    shape.encode = encodeEach Field.encode shape.fields := by
  by_cases flat : shape.rank = 0
  · simp only [encode, fields, if_pos flat, encodeEach, Field.encode, ok_bind, List.append_nil]
  · simp only [encode, fields, if_neg flat, encodeEach, encodeEach_append, encodeEach_comp,
      Field.encode, List.cons_append, bind_assoc, pure_bind, List.append_assoc]

end ArrayShape

namespace Wrapper

theorem encodeBefore_eq_fields (wrapper : Wrapper) :
    wrapper.encodeBefore = encodeEach Field.encode wrapper.fieldsBefore := by
  cases wrapper with
  | modifier kind handle => exact (encodeEach_singleton _).symm
  | «scoped» index => exact (encodeEach_singleton _).symm
  | _ => rfl

theorem encodeBehind_eq_fields (wrapper : Wrapper) :
    wrapper.encodeBehind = encodeEach Field.encode wrapper.fieldsBehind := by
  cases wrapper with
  | array shape => exact shape.encode_eq_fields
  | valueArray size => exact (encodeEach_singleton _).symm
  | _ => rfl

end Wrapper

namespace TypeSignature

theorem fieldsOfAll_eq (signatures : List TypeSignature) :
    fieldsOfAll signatures = signatures.flatMap fields := by
  induction signatures with
  | nil => rfl
  | cons signature rest ih => rw [fieldsOfAll, ih, List.flatMap_cons]

theorem encodeAll_eq_fields {signatures : List TypeSignature}
    (h : ∀ t ∈ signatures, t.encode = encodeEach Field.encode t.fields) :
    encodeAll signatures = encodeEach Field.encode (fieldsOfAll signatures) := by
  induction signatures with
  | nil => rfl
  | cons signature rest ih =>
      obtain ⟨hsignature, hrest⟩ := List.forall_mem_cons.mp h
      rw [encodeAll, fieldsOfAll, encodeEach_append, hsignature, ih hrest]

theorem encodeVarargs_eq_fields {varargs : Option (List TypeSignature)}
    (h : ∀ t ∈ varargs.getD [], t.encode = encodeEach Field.encode t.fields) :
    encodeVarargs varargs = encodeEach Field.encode (fieldsOfVarargs varargs) := by
  rcases varargs with _ | _ | ⟨signature, rest⟩
  · rfl
  · rfl
  · obtain ⟨hsignature, hrest⟩ := List.forall_mem_cons.mp h
    simp only [encodeVarargs, fieldsOfVarargs, List.cons_append, encodeEach_byte, encodeEach_append,
      bind_assoc, pure_bind, hsignature, encodeAll_eq_fields hrest]

end TypeSignature

namespace MethodSignature

theorem encodeHead_eq_fields (method : MethodSignature) :
    method.encodeHead = encodeEach Field.encode method.headFields := by
  by_cases isGeneric : method.isGeneric <;>
    simp only [encodeHead, headFields, isGeneric, if_true, if_false, encodeEach, Field.encode,
      List.cons_append, List.nil_append, ok_bind, bind_assoc, pure_bind, List.append_nil,
      Bool.false_eq_true]

/-- A method is written field by field if its types are. -/
theorem encode_eq_fields_of_parts {method : MethodSignature}
    (h : ∀ part ∈ method.parts, part.encode = encodeEach Field.encode part.fields) :
    method.encode = encodeEach Field.encode method.fields := by
  obtain ⟨hresult, hparams, hvarargs⟩ := forall_parts_iff.mp h
  obtain ⟨convention, genericCount, result, params, varargs⟩ := method
  simp only [encode, fields, encodeEach_append, bind_assoc, pure_bind, encodeHead_eq_fields,
    hresult, TypeSignature.encodeAll_eq_fields hparams,
    TypeSignature.encodeVarargs_eq_fields hvarargs, List.append_assoc]

end MethodSignature

namespace TypeSignature

theorem encode_eq_fields (signature : TypeSignature) :
    signature.encode = encodeEach Field.encode signature.fields := by
  induction signature with
  | primitive row tag type => exact (encodeEach_singleton _).symm
  | named row kind handle =>
      rw [encode, fields, encodeEach_byte, encodeEach_singleton]
      rfl
  | typeVar row index | methodVar row index =>
      rw [encode, fields, encodeEach_byte, encodeEach_singleton]
      rfl
  | sentinel row => rfl
  | functionPointer row method ih =>
      rw [encode, fields, encodeEach_byte, MethodSignature.encode_eq_fields_of_parts ih]
  | instantiation row kind generic arguments ih =>
      simp only [encode, fields, encodeEach_byte, encodeAll_eq_fields ih, encodeEach, Field.encode,
        TypeHandle.encode, List.cons_append, List.nil_append, ok_bind, bind_assoc, pure_bind,
        List.append_assoc]
  | wrapped row wrapper next ih =>
      simp only [encode, fields, List.cons_append, encodeEach_byte, encodeEach_append, bind_assoc,
        pure_bind, wrapper.encodeBefore_eq_fields, ih, wrapper.encodeBehind_eq_fields]

end TypeSignature

theorem MethodSignature.encode_eq_fields (method : MethodSignature) :
    method.encode = encodeEach Field.encode method.fields :=
  encode_eq_fields_of_parts fun part _ => part.encode_eq_fields

def TypeHandle.IsEncodable (handle : TypeHandle) : Prop :=
  ∃ table : TypeTable, table.number = handle.token.table

/-- The lists of a shape without dimensions are not written, whatever they hold. -/
@[mk_iff]
structure ArrayShape.IsEncodable (shape : ArrayShape) : Prop where
  rank : shape.rank ≤ 0x1FFFFFFF
  sizes : 0 < shape.rank → shape.sizes.length ≤ 0x1FFFFFFF ∧ ∀ size ∈ shape.sizes, size ≤ 0x1FFFFFFF
  lowerBounds : 0 < shape.rank → shape.lowerBounds.length ≤ 0x1FFFFFFF ∧
    ∀ bound ∈ shape.lowerBounds, -0x10000000 ≤ bound ∧ bound ≤ 0x0FFFFFFF

def Wrapper.IsEncodable : Wrapper → Prop
  | .array shape => shape.IsEncodable
  | .modifier _ handle => handle.IsEncodable
  | .valueArray n | .scoped n => n ≤ 0x1FFFFFFF
  | .pointer | .byRef | .vector | .pinned => True

/-- The count of generic parameters is not written without the flag for it. -/
@[mk_iff]
structure MethodSignature.HasEncodableHead (method : MethodSignature) : Prop where
  genericCount : method.isGeneric → method.genericCount ≤ 0x1FFFFFFF
  paramCount : method.paramCount ≤ 0x1FFFFFFF

/-- Whether the node itself can be written, whatever the types inside of it are. -/
def TypeSignature.IsEncodableNode : TypeSignature → Prop
  | .primitive _ tag _ => tag.isPrimitive
  | .named _ _ handle => handle.IsEncodable
  | .typeVar _ index | .methodVar _ index => index ≤ 0x1FFFFFFF
  | .sentinel _ => True
  | .functionPointer _ method => method.HasEncodableHead
  | .instantiation _ _ generic arguments => generic.IsEncodable ∧ arguments.length ≤ 0x1FFFFFFF
  | .wrapped _ wrapper _ => wrapper.IsEncodable

theorem ArrayShape.forall_fields_iff {shape : ArrayShape} :
    (∀ field ∈ shape.fields, field.Fits) ↔ shape.IsEncodable := by
  rw [isEncodable_iff, fields, List.forall_mem_cons]
  by_cases flat : shape.rank = 0
  · simp [flat, Field.Fits]
  · have positive : 0 < shape.rank := Nat.pos_of_ne_zero flat
    simp only [if_neg flat, List.cons_append, List.forall_mem_cons, List.forall_mem_append,
      List.forall_mem_map, Field.Fits, positive, forall_const, and_assoc]

theorem Wrapper.forall_fields_iff {wrapper : Wrapper} :
    (∀ field ∈ wrapper.fieldsBefore ++ wrapper.fieldsBehind, field.Fits) ↔ wrapper.IsEncodable := by
  cases wrapper with
  | array shape => exact ArrayShape.forall_fields_iff
  | modifier kind handle => exact List.forall_mem_singleton
  | valueArray size => exact List.forall_mem_singleton
  | «scoped» index => exact List.forall_mem_singleton
  | _ => exact iff_of_true nofun trivial

namespace MethodSignature

theorem forall_headFields_iff {method : MethodSignature} :
    (∀ field ∈ method.headFields, field.Fits) ↔ method.HasEncodableHead := by
  rw [hasEncodableHead_iff, headFields]
  by_cases isGeneric : method.isGeneric <;> simp [isGeneric, Field.Fits]

/-- The sentinel in front of variable parameters is a byte, which always fits. -/
theorem forall_fields_iff_parts {method : MethodSignature} :
    (∀ field ∈ method.fields, field.Fits) ↔ method.HasEncodableHead ∧
      ∀ part ∈ method.parts, ∀ field ∈ part.fields, field.Fits := by
  rw [forall_parts_iff, ← forall_headFields_iff]
  obtain ⟨convention, genericCount, result, params, varargs⟩ := method
  simp only [fields, List.forall_mem_append, TypeSignature.fieldsOfAll_eq, and_assoc,
    List.forall_mem_flatMap]
  refine and_congr_right' (and_congr_right' (and_congr_right' ?_))
  rcases varargs with _ | _ | ⟨signature, rest⟩
  · simp [TypeSignature.fieldsOfVarargs]
  · simp [TypeSignature.fieldsOfVarargs]
  · simp only [TypeSignature.fieldsOfVarargs, TypeSignature.fieldsOfAll_eq, List.cons_append,
      List.forall_mem_cons, List.forall_mem_append, List.forall_mem_flatMap, Field.Fits, true_and,
      Option.getD_some]

end MethodSignature

theorem TypeSignature.forall_fields_iff {signature : TypeSignature} :
    (∀ field ∈ signature.fields, field.Fits) ↔
      ∀ node ∈ signature.nodes, node.IsEncodableNode := by
  induction signature with
  | primitive row tag type => simp [fields, nodes, Field.Fits, IsEncodableNode]
  | named row kind handle =>
      simp [fields, nodes, Field.Fits, IsEncodableNode, TypeHandle.IsEncodable]
  | typeVar row index | methodVar row index | sentinel row =>
      simp [fields, nodes, Field.Fits, IsEncodableNode]
  | functionPointer row method ih =>
      rw [fields, nodes, List.forall_mem_cons, List.forall_mem_cons,
        MethodSignature.forall_fields_iff_parts, MethodSignature.nodes_eq, List.forall_mem_flatMap]
      exact (and_iff_right (Field.fits_byte _)).trans (and_congr_right' (forall₂_congr ih))
  | instantiation row kind generic arguments ih =>
      have own : IsEncodableNode (.instantiation row kind generic arguments) ↔
        (Field.token generic.token).Fits ∧ (Field.count arguments.length).Fits := Iff.rfl
      simp only [fields, nodes, List.forall_mem_cons, Field.fits_byte, true_and, own, and_assoc,
        fieldsOfAll_eq, nodesOfAll_eq, List.forall_mem_flatMap]
      exact and_congr_right' (and_congr_right' (forall₂_congr ih))
  | wrapped row wrapper next ih =>
      have own : IsEncodableNode (.wrapped row wrapper next) ↔ wrapper.IsEncodable := Iff.rfl
      simp only [fields, nodes, List.cons_append, List.forall_mem_cons, Field.fits_byte, true_and,
        own, ← Wrapper.forall_fields_iff, List.forall_mem_append, ih]
      exact and_right_comm

theorem MethodSignature.forall_fields_iff {method : MethodSignature} :
    (∀ field ∈ method.fields, field.Fits) ↔
      method.HasEncodableHead ∧ ∀ node ∈ method.nodes, node.IsEncodableNode := by
  rw [forall_fields_iff_parts, nodes_eq, List.forall_mem_flatMap]
  exact and_congr_right' (forall₂_congr fun part _ => TypeSignature.forall_fields_iff)

/-- Where fields are written from left to right, the fault is that of the first one which does not
fit. -/
def Field.FirstMisfit (fields : List Field) (fault : EncodingFault) : Prop :=
  ∃ front misfit behind, fields = front ++ misfit :: behind ∧ (∀ field ∈ front, field.Fits) ∧
    misfit.Refused fault

section

variable {α : Type} {encode : α → Except EncodingFault Bytes} {fault : EncodingFault}

theorem encodeEach_cons_eq_error_iff {item : α} {rest : List α} :
    encodeEach encode (item :: rest) = .error fault ↔ encode item = .error fault ∨
      (∃ written, encode item = .ok written) ∧ encodeEach encode rest = .error fault := by
  rw [encodeEach]
  cases encode item with
  | error cause => simp [bind, Except.bind]
  | ok first => cases encodeEach encode rest <;> simp [bind, Except.bind, pure, Except.pure]

end

theorem Field.encodeEach_eq_error_iff {fields : List Field} {fault : EncodingFault} :
    encodeEach encode fields = .error fault ↔ FirstMisfit fields fault := by
  induction fields with
  | nil => simp [encodeEach, FirstMisfit]
  | cons field rest ih =>
      rw [encodeEach_cons_eq_error_iff, encode_eq_error_iff, exists_encode_iff, ih]
      refine ⟨?_, ?_⟩
      · rintro (refused | ⟨fits, front, misfit, behind, rfl, all, refused⟩)
        · exact ⟨[], field, rest, rfl, by simp, refused⟩
        · exact ⟨field :: front, misfit, behind, rfl, List.forall_mem_cons.mpr ⟨fits, all⟩, refused⟩
      · rintro ⟨_ | ⟨first, front⟩, misfit, behind, split, all, refused⟩
        · obtain ⟨rfl, rfl⟩ := List.cons.inj split
          exact .inl refused
        · obtain ⟨rfl, rfl⟩ := List.cons.inj split
          obtain ⟨fits, all⟩ := List.forall_mem_cons.mp all
          exact .inr ⟨fits, front, misfit, behind, rfl, all, refused⟩

theorem Field.exists_encodeEach_iff {fields : List Field} :
    (∃ written, encodeEach encode fields = .ok written) ↔ ∀ field ∈ fields, field.Fits := by
  simp only [CliMetadata.exists_encodeEach_iff, exists_encode_iff]

/-- A signature can be written if and only if all of its nodes can, and otherwise the first field
of its output that does not fit decides the fault. -/
theorem written_or_first_misfit :
    (∀ t : TypeSignature,
      t.encode = encodeEach Field.encode t.fields ∧
      ((∃ written, t.encode = .ok written) ↔ ∀ node ∈ t.nodes, node.IsEncodableNode) ∧
      ∀ fault, t.encode = .error fault ↔ Field.FirstMisfit t.fields fault) ∧
    ∀ m : MethodSignature,
      m.encode = encodeEach Field.encode m.fields ∧
      ((∃ written, m.encode = .ok written) ↔
        m.HasEncodableHead ∧ ∀ node ∈ m.nodes, node.IsEncodableNode) ∧
      ∀ fault, m.encode = .error fault ↔ Field.FirstMisfit m.fields fault := by
  refine ⟨?_, ?_⟩
  · intro t
    refine ⟨t.encode_eq_fields, ?_, ?_⟩
    · rw [t.encode_eq_fields, Field.exists_encodeEach_iff, TypeSignature.forall_fields_iff]
    · intro fault
      rw [t.encode_eq_fields, Field.encodeEach_eq_error_iff]
  · intro m
    refine ⟨m.encode_eq_fields, ?_, ?_⟩
    · rw [m.encode_eq_fields, Field.exists_encodeEach_iff, MethodSignature.forall_fields_iff]
    · intro fault
      rw [m.encode_eq_fields, Field.encodeEach_eq_error_iff]

/-- The first misfit is the table of the modifier, in front of the index that does not fit either. -/
example : (TypeSignature.wrapped 0 (.modifier .required (.unresolved ⟨0x06000001⟩))
    (.typeVar 0 0x20000000)).encode = .error (.notTypeToken ⟨0x06000001⟩) :=
  rfl

end CliMetadata
