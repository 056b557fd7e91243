import CliMetadata.Proofs.Encodability
import CliMetadata.Proofs.Words
import CliMetadata.Signature.Encoder

/-!
Signatures written in place. Whatever a buffer holds, an encoder puts the encoding of a signature
behind it, and where the signature has none it gives the same fault and leaves what was there. The
tree is followed field by field: what two parts append one behind the other are their fields one
behind the other.
-/

namespace CliMetadata

namespace Buffer

theorem extend_nil (buffer : Buffer) : buffer.extend [] = buffer := by
  rw [Buffer.extend, List.append_nil]

theorem extend_extend (buffer : Buffer) (first second : Bytes) :
    (buffer.extend first).extend second = buffer.extend (first ++ second) := by
  rw [Buffer.extend, Buffer.extend, Buffer.extend, List.append_assoc]

end Buffer

namespace Append

open Buffer Compressed

/-- On any buffer the append puts the bytes of the encoding behind what is there, or fails as the
encoding does behind bytes of its own. -/
def Appends (append : Append Unit) (encoded : Except EncodingFault Bytes) : Prop :=
  ∀ buffer : Buffer, match encoded with
  | .ok bytes => append buffer = .ok () (buffer.extend bytes)
  | .error fault => ∃ begun, append buffer = .error fault (buffer.extend begun)

/-- The append puts the fields behind what is there, up to the first that does not fit. -/
abbrev AppendsFields (append : Append Unit) (fields : List Field) : Prop :=
  Appends append (encodeEach Field.encode fields)

theorem appends_whole (encoded : Except EncodingFault Bytes) : Appends (whole encoded) encoded := by
  intro buffer
  cases encoded with
  | ok bytes => rfl
  | error fault => exact ⟨[], by rw [extend_nil]; rfl⟩

theorem appends_bind {first second : Append Unit} {encoded encoded' : Except EncodingFault Bytes}
    (h : Appends first encoded) (hnext : Appends second encoded') :
    Appends (do first; second) (do
      let bytes ← encoded
      let others ← encoded'
      return bytes ++ others) := by
  intro buffer
  have start := h buffer
  cases encoded with
  | error fault =>
      obtain ⟨begun, failed⟩ := start
      refine ⟨begun, ?_⟩
      simp only [bind, EStateM.bind, failed]
  | ok bytes =>
      -- The second part finds the bytes of the first in its buffer, whether it fails or not.
      have next := hnext (buffer.extend bytes)
      cases encoded' with
      | error fault =>
          obtain ⟨begun, failed⟩ := next
          refine ⟨bytes ++ begun, ?_⟩
          simp only [bind, EStateM.bind, start, failed, extend_extend]
      | ok others =>
          change (first >>= fun _ => second) buffer = .ok () (buffer.extend (bytes ++ others))
          simp only [bind, EStateM.bind, start]
          rw [next, extend_extend]

section Fields

variable {first second : Append Unit} {front back : List Field}

theorem AppendsFields.andThen (h : AppendsFields first front) (hnext : AppendsFields second back) :
    AppendsFields (do first; second) (front ++ back) := by
  have both := appends_bind h hnext
  rwa [← encodeEach_append] at both

theorem appendsFields_nil : AppendsFields (pure ()) [] := by
  intro buffer
  change (pure () : Append Unit) buffer = .ok () (buffer.extend [])
  rw [extend_nil]
  rfl

theorem appendsFields_of_whole {append : Append Unit} {field : Field}
    (same : append = whole field.encode) : AppendsFields append [field] := by
  rw [AppendsFields, encodeEach_singleton, same]
  exact appends_whole field.encode

theorem appendsFields_byte (value : UInt8) : AppendsFields (byte value) [.byte value] :=
  appendsFields_of_whole rfl

end Fields

theorem number_eq (n : Nat) : number n = whole (encodeUnsigned n) := by
  rw [number]
  by_cases word : n < 0x100000000
  · rw [if_pos word, unsigned_eq, UInt32.toNat_ofNat_of_lt' word]
  · rw [if_neg word, encodeUnsigned_eq_error_iff.mpr ⟨by omega, rfl⟩]
    rfl

theorem signedNumber_eq (i : Int) : signedNumber i = whole (encodeSigned i) := by
  rw [signedNumber]
  by_cases word : -0x80000000 ≤ i ∧ i < 0x80000000
  · rw [if_pos word, signed_eq, Int32.toInt_ofInt_of_le word.1 word.2]
  · rw [if_neg word, encodeSigned_eq_error_iff.mpr ⟨by omega, rfl⟩]
    rfl

theorem count_eq (n : Nat) : count n = whole (encodeCount n) := by
  rw [count, encodeCount]
  by_cases word : n < 0x100000000
  · rw [if_pos word, if_pos word, unsigned_eq, UInt32.toNat_ofNat_of_lt' word]
  · rw [if_neg word, if_neg word]
    rfl

theorem handle_eq (reference : TypeHandle) :
    handle reference = whole (encodeToken reference.token) := by
  funext buffer
  rw [encodeToken]
  simp only [handle, bind, EStateM.bind]
  cases reference.token.codedIndex with
  | error fault => rfl
  | ok index => exact congrFun (number_eq index) buffer

/-- The tag of a primitive type is appended before it is looked at. -/
theorem appendsFields_primitive (row : Nat) (tag : ElementType) (named : Option NamedType) :
    AppendsFields (type (.primitive row tag named)) [.primitive tag] := by
  rw [AppendsFields, encodeEach_singleton, Field.encode, type]
  intro buffer
  cases tag.isPrimitive with
  | true => rfl
  | false => exact ⟨[tag.byte], rfl⟩

theorem appendsFields_forM {α : Type} {append : α → Append Unit} {field : α → Field}
    (same : ∀ item, append item = whole (field item).encode) (items : List α) :
    AppendsFields (forM items append) (items.map field) := by
  induction items with
  | nil => exact appendsFields_nil
  | cons item rest ih =>
      rw [List.forM_cons]
      exact (appendsFields_of_whole (same item)).andThen ih

theorem appendsFields_arrayShape (shape : ArrayShape) :
    AppendsFields (arrayShape shape) shape.fields := by
  have rank : AppendsFields (number shape.rank) [.unsigned shape.rank] :=
    appendsFields_of_whole (number_eq shape.rank)
  by_cases flat : shape.rank = 0
  · have none : ¬0 < shape.rank := by omega
    rw [arrayShape, ArrayShape.fields, if_pos flat, if_neg none]
    exact rank.andThen appendsFields_nil
  · have some : 0 < shape.rank := Nat.pos_of_ne_zero flat
    rw [arrayShape, ArrayShape.fields, if_neg flat, if_pos some]
    exact rank.andThen ((appendsFields_of_whole (count_eq _)).andThen
      ((appendsFields_forM number_eq shape.sizes).andThen
        ((appendsFields_of_whole (count_eq _)).andThen
          (appendsFields_forM signedNumber_eq shape.lowerBounds))))

theorem appendsFields_before (wrapper : Wrapper) :
    AppendsFields (before wrapper) wrapper.fieldsBefore := by
  cases wrapper with
  | modifier kind reference => exact appendsFields_of_whole (handle_eq reference)
  | «scoped» index => exact appendsFields_of_whole (number_eq index)
  | _ => exact appendsFields_nil

theorem appendsFields_behind (wrapper : Wrapper) :
    AppendsFields (behind wrapper) wrapper.fieldsBehind := by
  cases wrapper with
  | array shape => exact appendsFields_arrayShape shape
  | valueArray size => exact appendsFields_of_whole (number_eq size)
  | _ => exact appendsFields_nil

theorem appendsFields_methodHead (method : MethodSignature) :
    AppendsFields (methodHead method) method.headFields := by
  have convention := appendsFields_byte method.convention
  have params : AppendsFields (count method.paramCount) [.count method.paramCount] :=
    appendsFields_of_whole (count_eq method.paramCount)
  rw [methodHead, MethodSignature.headFields]
  by_cases isGeneric : method.isGeneric
  · rw [if_pos isGeneric, if_pos isGeneric]
    exact convention.andThen ((appendsFields_of_whole (number_eq _)).andThen params)
  · rw [if_neg isGeneric, if_neg isGeneric]
    exact convention.andThen (appendsFields_nil.andThen params)

theorem appendsFields_types {signatures : List TypeSignature}
    (h : ∀ t ∈ signatures, AppendsFields (type t) t.fields) :
    AppendsFields (types signatures) (TypeSignature.fieldsOfAll signatures) := by
  induction signatures with
  | nil => exact appendsFields_nil
  | cons signature rest ih =>
      obtain ⟨first, others⟩ := List.forall_mem_cons.mp h
      rw [types, TypeSignature.fieldsOfAll]
      exact first.andThen (ih others)

theorem appendsFields_varargs {arguments : Option (List TypeSignature)}
    (h : ∀ t ∈ arguments.getD [], AppendsFields (type t) t.fields) :
    AppendsFields (varargs arguments) (TypeSignature.fieldsOfVarargs arguments) := by
  rcases arguments with _ | _ | ⟨signature, rest⟩
  · exact appendsFields_nil
  · exact appendsFields_nil
  · obtain ⟨first, others⟩ := List.forall_mem_cons.mp h
    rw [varargs, TypeSignature.fieldsOfVarargs]
    exact (appendsFields_byte _).andThen (first.andThen (appendsFields_types others))

/-- A method is appended field by field if its types are. -/
theorem appendsFields_method_of_parts {signature : MethodSignature}
    (h : ∀ part ∈ signature.parts, AppendsFields (type part) part.fields) :
    AppendsFields (method signature) signature.fields := by
  obtain ⟨hresult, hparams, hvarargs⟩ := MethodSignature.forall_parts_iff.mp h
  obtain ⟨convention, genericCount, result, params, arguments⟩ := signature
  rw [method, MethodSignature.fields, List.append_assoc, List.append_assoc]
  exact (appendsFields_methodHead _).andThen
    (hresult.andThen ((appendsFields_types hparams).andThen (appendsFields_varargs hvarargs)))

theorem appendsFields_type (signature : TypeSignature) :
    AppendsFields (type signature) signature.fields := by
  induction signature with
  | primitive row tag named => exact appendsFields_primitive row tag named
  | named row kind reference =>
      rw [type, TypeSignature.fields]
      exact (appendsFields_byte _).andThen (appendsFields_of_whole (handle_eq reference))
  | typeVar row index | methodVar row index =>
      rw [type, TypeSignature.fields]
      exact (appendsFields_byte _).andThen (appendsFields_of_whole (number_eq index))
  | sentinel row => exact appendsFields_byte _
  | functionPointer row method ih =>
      rw [type, TypeSignature.fields]
      exact (appendsFields_byte _).andThen (appendsFields_method_of_parts ih)
  | instantiation row kind generic arguments ih =>
      rw [type, TypeSignature.fields]
      exact (appendsFields_byte _).andThen ((appendsFields_byte _).andThen
        ((appendsFields_of_whole (handle_eq generic)).andThen
          ((appendsFields_of_whole (count_eq _)).andThen (appendsFields_types ih))))
  | wrapped row wrapper next ih =>
      rw [type, TypeSignature.fields, List.append_assoc]
      exact (appendsFields_byte _).andThen ((appendsFields_before wrapper).andThen
        (ih.andThen (appendsFields_behind wrapper)))

/-- An encoder puts the encoding of a signature behind what it has written, or fails as it does. -/
theorem appends_type (signature : TypeSignature) : Appends (type signature) signature.encode := by
  rw [TypeSignature.encode_eq_fields]
  exact appendsFields_type signature

theorem appends_method (signature : MethodSignature) :
    Appends (method signature) signature.encode := by
  rw [MethodSignature.encode_eq_fields]
  exact appendsFields_method_of_parts fun part _ => appendsFields_type part

end Append

end CliMetadata
