import CliMetadata.Proofs.Appending
import CliMetadata.Proofs.Extension
import CliMetadata.Proofs.Relocation
import CliMetadata.Proofs.RoundTrip
import CliMetadata.Signature.Sequence

/-!
Signatures one behind the other. An encoder that is given items one after the other holds their
encodings with nothing between them, behind whatever it held before. A decoder that is asked for the
same kinds of signatures in the same order gives the items back, whatever follows the last one:
where an item ends does not depend on what follows, and what it is does not depend on what stands
before.
-/

namespace CliMetadata

namespace SignatureItem

def IsReadable (resolver : Resolver) : SignatureItem → Prop
  | .type signature => signature.IsReadable resolver
  | .method signature => signature.IsReadable resolver

def same : SignatureItem → SignatureItem → Bool
  | .type signature, .type other => signature == other
  | .method signature, .method other => signature == other
  | _, _ => false

/-- The parts are the encodings of the items. -/
abbrev EncodedAs : List SignatureItem → List Bytes → Prop :=
  List.Forall₂ fun item part => item.encode = .ok part

theorem appends_item (item : SignatureItem) : Append.Appends item.append item.encode := by
  cases item with
  | type signature => exact Append.appends_type signature
  | method signature => exact Append.appends_method signature

/-- An encoder appends to what it has written for the items before: all of it stays. -/
theorem forM_append {items : List SignatureItem} {parts : List Bytes}
    (encoded : EncodedAs items parts) (buffer : Buffer) :
    forM items append buffer = .ok () (buffer.extend parts.flatten) := by
  induction encoded generalizing buffer with
  | nil =>
      rw [List.flatten_nil, Buffer.extend_nil]
      rfl
  | @cons item part items parts first _ ih =>
      have next := appends_item item buffer
      rw [first] at next
      simp only [List.forM_cons, bind, EStateM.bind, next]
      rw [ih, Buffer.extend_extend, List.flatten_cons]

/-- After each item the encoder holds the encodings up to it. -/
theorem appendEach_eq {items : List SignatureItem} {parts : List Bytes}
    (encoded : EncodedAs items parts) (written : Bytes) :
    ∀ i < items.length, (appendEach written items)[i]? =
      some (.ok (written ++ (parts.take (i + 1)).flatten)) := by
  induction encoded generalizing written with
  | nil => exact fun _ missing => absurd missing (Nat.not_lt_zero _)
  | @cons item part items parts first _ ih =>
      have next := appends_item item { data := written }
      rw [first] at next
      intro i inside
      rw [appendEach, Append.run?, next]
      cases i with
      | zero => simp [Buffer.extend]
      | succ i =>
          have later := ih (written ++ part) i (Nat.lt_of_succ_lt_succ inside)
          rw [List.append_assoc] at later
          rw [List.take_succ_cons, List.flatten_cons]
          exact later

end SignatureItem

namespace Read

theorem item_of_readable {resolver : Resolver} {item : SignatureItem} {part : Bytes}
    (readable : item.IsReadable resolver) (encoded : item.encode = .ok part) :
    ∃ found, Read.item resolver item.kind { data := part } = .ok found ⟨part, part.length⟩ ∧
      found.same item := by
  cases item with
  | type signature =>
      obtain ⟨t, done, same⟩ := type_of_readable readable encoded
      exact ⟨.type t, bind_eq_ok.mpr ⟨t, _, done, rfl⟩, same⟩
  | method signature =>
      obtain ⟨m, done, same⟩ := method_of_readable readable encoded
      exact ⟨.method m, bind_eq_ok.mpr ⟨m, _, done, rfl⟩, same⟩

end Read

namespace Decoder

variable {resolver : Resolver}

/-- An item is read wherever it stands. -/
theorem item_between {item : SignatureItem} {part : Bytes} (readable : item.IsReadable resolver)
    (encoded : item.encode = .ok part) (front rest : Bytes) :
    ∃ found, Decode.item resolver item.kind ⟨⟨front ++ (part ++ rest), front.length⟩, 0⟩ =
        .ok found ⟨⟨front ++ (part ++ rest), front.length + part.length⟩, 0⟩ ∧
      found.same item := by
  obtain ⟨found, done, same⟩ := Read.item_of_readable readable encoded
  have extended := (Read.shifted_item resolver 0 item.kind).stable.extend_ok done rest
  have moved := (Read.shifted_item resolver front.length item.kind).relocates
    (Cursor.extend rest { data := part })
  rw [extended] at moved
  refine ⟨found, ?_, same⟩
  have start : Cursor.behind front (Cursor.extend rest { data := part }) =
      ⟨front ++ (part ++ rest), front.length⟩ := by
    rw [Cursor.behind, Cursor.extend, Nat.zero_add]
  have stop : Cursor.behind front (Cursor.extend rest ⟨part, part.length⟩) =
      ⟨front ++ (part ++ rest), front.length + part.length⟩ := by
    rw [Cursor.behind, Cursor.extend, Nat.add_comm]
  rw [start, Read.resultBehind, stop] at moved
  rw [Decode.keeps_item, moved, resultAt]

/-- The outcomes of a stream that begins behind some other bytes. -/
theorem outcomes_between {items : List SignatureItem} {parts : List Bytes}
    (encoded : SignatureItem.EncodedAs items parts)
    (readable : ∀ item ∈ items, item.IsReadable resolver) (front suffix : Bytes) :
    ∀ (i : Nat) (item : SignatureItem), items[i]? = some item → ∃ found : SignatureItem,
      (outcomes resolver ⟨⟨front ++ (parts.flatten ++ suffix), front.length⟩, 0⟩
        (items.map SignatureItem.kind))[i]? =
          some (.ok found ⟨⟨front ++ (parts.flatten ++ suffix),
            front.length + (parts.take (i + 1)).flatten.length⟩, 0⟩) ∧
        found.same item := by
  induction encoded generalizing front with
  | nil =>
      intro i item missing
      cases missing
  | @cons item part items parts first _ ih =>
      obtain ⟨itemReadable, othersReadable⟩ := List.forall_mem_cons.mp readable
      obtain ⟨found, done, same⟩ :=
        item_between itemReadable first front (parts.flatten ++ suffix)
      intro i other there
      rw [List.flatten_cons, List.append_assoc, List.map_cons, outcomes, done]
      cases i with
      | zero =>
          obtain rfl := Option.some.inj there
          exact ⟨found, by simp, same⟩
      | succ i =>
          obtain ⟨next, outcome, nextSame⟩ := ih othersReadable (front ++ part) i other there
          refine ⟨next, ?_, nextSame⟩
          rw [List.length_append, List.append_assoc] at outcome
          rw [List.getElem?_cons_succ, ofResult, outcome, List.take_succ_cons, List.flatten_cons,
            List.length_append, Nat.add_assoc]

/-- One encoder that is given items in order has after each of them the encodings up to it, behind
what it held before. Items that are read again after they were written are read again one behind the
other: a decoder stops behind each of them, in their order, and is never left inside of a node. -/
theorem stream_eq (resolver : Resolver) {items : List SignatureItem} {parts : List Bytes}
    (encoded : SignatureItem.EncodedAs items parts)
    (readable : ∀ item ∈ items, item.IsReadable resolver) :
    (∀ buffer : Buffer,
      forM items SignatureItem.append buffer = .ok () (buffer.extend parts.flatten)) ∧
    SignatureItem.encodeAll items = .ok parts.flatten ∧
    (∀ i < items.length, (SignatureItem.appendEach [] items)[i]? =
      some (.ok (parts.take (i + 1)).flatten)) ∧
    ∀ suffix : Bytes,
      let data := parts.flatten ++ suffix
      let results := (ofData data).outcomes resolver (items.map SignatureItem.kind)
      results.length = items.length ∧
      ∀ (i : Nat) (item : SignatureItem), items[i]? = some item → ∃ found : SignatureItem,
        results[i]? = some (.ok found ⟨⟨data, (parts.take (i + 1)).flatten.length⟩, 0⟩) ∧
          found.same item := by
  refine ⟨SignatureItem.forM_append encoded, ?_, SignatureItem.appendEach_eq encoded [],
    fun suffix => ⟨?_, ?_⟩⟩
  · rw [SignatureItem.encodeAll, Append.run?, SignatureItem.forM_append encoded]
    rfl
  · rw [length_outcomes, List.length_map]
  · intro i item there
    have outcome := outcomes_between encoded readable [] suffix i item there
    simp only [List.nil_append, List.length_nil, Nat.zero_add] at outcome
    exact outcome

/-- The encoder has written a byte before the two items. -/
theorem stream_eq_vector_then_method :
    forM [SignatureItem.type (.wrapped 7 .vector (.named 3 .classType ⟨⟨0x01000001⟩, none⟩)),
        .method ⟨0x05, 0, .typeVar 4 2, [], some [.sentinel 9]⟩] SignatureItem.append
        { data := [0xEE] } =
      .ok () { data := [0xEE, 0x1D, 0x12, 0x05, 0x05, 0x01, 0x13, 0x02, 0x41, 0x41] } ∧
    ∃ found : SignatureItem,
      ((ofData [0x1D, 0x12, 0x05, 0x05, 0x01, 0x13, 0x02, 0x41, 0x41, 0xFF]).outcomes .empty
        [.type, .method])[1]? =
          some (.ok found ⟨⟨[0x1D, 0x12, 0x05, 0x05, 0x01, 0x13, 0x02, 0x41, 0x41, 0xFF], 9⟩, 0⟩) ∧
        found.same (.method ⟨0x05, 0, .typeVar 4 2, [], some [.sentinel 9]⟩) := by
  have encoded : SignatureItem.EncodedAs
      [.type (.wrapped 7 .vector (.named 3 .classType ⟨⟨0x01000001⟩, none⟩)),
        .method ⟨0x05, 0, .typeVar 4 2, [], some [.sentinel 9]⟩]
      [[0x1D, 0x12, 0x05], [0x05, 0x01, 0x13, 0x02, 0x41, 0x41]] :=
    .cons rfl (.cons rfl .nil)
  have vector : (TypeSignature.wrapped 7 .vector
      (.named 3 .classType ⟨⟨0x01000001⟩, none⟩)).IsReadable .empty := by
    refine ⟨by decide, ?_⟩
    simp [TypeSignature.nodes, TypeSignature.IsRegularNode, Wrapper.IsRegular,
      TypeHandle.IsResolvedBy, Resolver.empty, TypeRow.sameTarget]
  have method : (⟨0x05, 0, .typeVar 4 2, [], some [.sentinel 9]⟩ :
      MethodSignature).IsReadable .empty := by
    refine ⟨⟨by decide, fun _ => rfl, by simp, by simp⟩, by decide, ?_⟩
    simp [MethodSignature.nodes, TypeSignature.nodesOfVarargs, TypeSignature.nodes,
      TypeSignature.IsRegularNode]
  obtain ⟨written, -, -, read⟩ := stream_eq .empty encoded
    (List.forall_mem_cons.mpr ⟨vector, List.forall_mem_singleton.mpr method⟩)
  exact ⟨written { data := [0xEE] }, (read [0xFF]).2 1 _ rfl⟩

end Decoder

end CliMetadata
