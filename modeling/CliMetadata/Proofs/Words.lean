import CliMetadata.Compressed.Words
import CliMetadata.Proofs.Numerals
import Mathlib.Algebra.Group.Int.Defs

/-!
Compressed integers in words and in numbers. Shifts and masks of a word are products, quotients and
remainders of its value; a word has no bits to lose where its number fits into the form. What is
appended is the shortest spelling of a number, and the only one of its length.
-/

namespace CliMetadata

open Compressed

namespace Compressed.Form

theorem ofLeadingBits?_eq (first : UInt8) : ofLeadingBits? first = ofFirstByte? first := by
  have bits : ∀ n < 2 ^ 8, (n &&& 0x80 = 0 ↔ n < 0x80) ∧ (n &&& 0xC0 = 0x80 ↔ 0x80 ≤ n ∧ n < 0xC0) ∧
      (n &&& 0xE0 = 0xC0 ↔ 0xC0 ≤ n ∧ n < 0xE0) := by decide +kernel
  obtain ⟨short, medium, long⟩ := bits first.toNat first.toNat_lt
  simp only [ofLeadingBits?, ofFirstByte?, ← UInt8.toNat_inj, UInt8.toNat_and]
  simp only [UInt8.reduceToNat, short, medium, long]
  split_ifs <;> first | rfl | omega

/-- Numbers without a bit in common. -/
theorem or_eq_add (k : Nat) {a b : Nat} (ha : a % 2 ^ k = 0) (hb : b < 2 ^ k) :
    a ||| b = a + b := by
  obtain ⟨c, rfl⟩ := Nat.dvd_of_mod_eq_zero ha
  exact (Nat.two_pow_add_eq_or_of_lt hb c).symm

theorem or_bytes_eq_add {a b c d : Nat} (hb : b < 2 ^ 8) (hc : c < 2 ^ 8) (hd : d < 2 ^ 8) :
    a * 2 ^ 24 ||| b * 2 ^ 16 ||| c * 2 ^ 8 ||| d = a * 2 ^ 24 + b * 2 ^ 16 + c * 2 ^ 8 + d := by
  have two : a * 2 ^ 24 ||| b * 2 ^ 16 = a * 2 ^ 24 + b * 2 ^ 16 :=
    or_eq_add 24 (by omega) (by omega)
  have three : a * 2 ^ 24 + b * 2 ^ 16 ||| c * 2 ^ 8 = a * 2 ^ 24 + b * 2 ^ 16 + c * 2 ^ 8 :=
    or_eq_add 16 (by omega) (by omega)
  rw [two, three, or_eq_add 8 (by omega) hd]

theorem toNat_shiftLeft (a s : UInt32) (k : Nat) (hs : s.toNat = k) (hk : k < 32) :
    (a <<< s).toNat = a.toNat * 2 ^ k % 2 ^ 32 := by
  rw [UInt32.toNat_shiftLeft, hs, Nat.mod_eq_of_lt hk, Nat.shiftLeft_eq]

theorem toNat_toUInt32_and (a : UInt8) (mask : UInt8) (k : Nat) (h : mask.toNat = 2 ^ k - 1) :
    (a &&& mask).toUInt32.toNat = a.toNat % 2 ^ k := by
  rw [UInt8.toNat_toUInt32, UInt8.toNat_and, h, Nat.and_two_pow_sub_one_eq_mod]

theorem toNat_word {form : Form} {raw : Nat} (h : raw < form.capacity) :
    (form.word (form.bytes raw)).toNat = raw := by
  cases form <;> simp only [capacity] at h <;>
    simp only [word, bytes, Bytes.ofNatBE, Bytes.ofNatLE, width, marker, List.reverse_cons,
      List.reverse_nil, List.nil_append, List.cons_append, UInt32.toNat_or]
  case short =>
    rw [UInt8.toNat_toUInt32, UInt8.toNat_ofNat']
    omega
  case medium =>
    rw [toNat_shiftLeft _ 8 8 rfl (by decide), toNat_toUInt32_and _ _ 6 rfl]
    simp only [UInt8.toNat_toUInt32, UInt8.toNat_ofNat']
    rw [or_eq_add 8] <;> omega
  case long =>
    rw [toNat_shiftLeft _ 24 24 rfl (by decide), toNat_shiftLeft _ 16 16 rfl (by decide),
      toNat_shiftLeft _ 8 8 rfl (by decide), toNat_toUInt32_and _ _ 5 rfl]
    simp only [UInt8.toNat_toUInt32, UInt8.toNat_ofNat']
    simp (disch := omega) only [Nat.mod_eq_of_lt]
    rw [or_bytes_eq_add] <;> omega

theorem lt_size {form : Form} {raw : Nat} (h : raw < form.capacity) : raw < 2 ^ 32 := by
  cases form <;> simp only [capacity] at h <;> omega

/-- The value of a signed word is that of its bits, less 2 ^ 32 if the highest one is set. -/
theorem toInt_eq (i : Int32) : i.toInt =
    if i.toUInt32.toNat < 2 ^ 31 then (i.toUInt32.toNat : Int) else i.toUInt32.toNat - 2 ^ 32 := by
  have value : i.toInt = _ := BitVec.toInt_eq_toNat_cond i.toBitVec
  have bits : i.toUInt32.toNat = i.toBitVec.toNat := rfl
  rw [value, bits]
  split_ifs <;> omega

theorem toNat_and_mask (form : Form) (n : UInt32) :
    (n &&& form.mask).toNat = n.toNat % form.capacity := by
  rw [UInt32.toNat_and]
  cases form with
  | short => exact Nat.and_two_pow_sub_one_eq_mod n.toNat 7
  | medium => exact Nat.and_two_pow_sub_one_eq_mod n.toNat 14
  | long => exact Nat.and_two_pow_sub_one_eq_mod n.toNat 29

theorem toNat_rotateWord {form : Form} {i : Int32} (h : form.HoldsSigned i.toInt) :
    (form.rotateWord i).toNat = form.rotate i.toInt := by
  have value := toInt_eq i
  have bound := i.toUInt32.toNat_lt
  have sign : (if i < 0 then 1 else 0 : UInt32).toNat = if i.toInt < 0 then 1 else 0 := by
    simp only [Int32.lt_iff_toInt_lt, Int32.toInt_zero]
    split <;> rfl
  obtain ⟨low, high⟩ := h
  rw [rotateWord, UInt32.toNat_or, toNat_and_mask, toNat_shiftLeft _ 1 1 rfl (by decide), sign]
  generalize i.toUInt32.toNat = bits at *
  generalize i.toInt = n at *
  rw [or_eq_add 1, rotate]
  · cases form <;> simp only [capacity] at * <;> split_ifs at * <;> omega
  · cases form <;> simp only [capacity] <;> omega
  · split <;> decide

theorem toInt_unrotateWord {form : Form} {raw : Nat} (h : raw < form.capacity) :
    (form.unrotateWord (UInt32.ofNat raw)).toInt = form.unrotate raw := by
  have word : (UInt32.ofNat raw).toNat = raw := UInt32.toNat_ofNat_of_lt' (lt_size h)
  have magnitude : (UInt32.ofNat raw >>> 1).toNat = raw / 2 := by
    rw [UInt32.toNat_shiftRight, word]
    exact Nat.shiftRight_eq_div_pow raw 1
  have even : UInt32.ofNat raw &&& 1 = 0 ↔ raw % 2 = 0 := by
    rw [← UInt32.toNat_inj, UInt32.toNat_and, word]
    exact Iff.of_eq (congrArg (· = 0) (Nat.and_two_pow_sub_one_eq_mod raw 1))
  have value (w : UInt32) : w.toInt32.toInt = _ := toInt_eq w.toInt32
  have merged : (UInt32.ofNat raw >>> 1 ||| form.signBits).toNat =
      2 ^ 32 - form.capacity / 2 + raw / 2 := by
    rw [UInt32.toNat_or, magnitude, Nat.or_comm]
    cases form <;> simp only [capacity] at *
    case short => exact or_eq_add 6 rfl (by omega)
    case medium => exact or_eq_add 13 rfl (by omega)
    case long => exact or_eq_add 28 rfl (by omega)
  simp only [unrotateWord, even, unrotate]
  split
  · rw [value, UInt32.toUInt32_toInt32, magnitude, if_pos]
    cases form <;> simp only [capacity] at h <;> omega
  · rw [value, UInt32.toUInt32_toInt32, merged, if_neg] <;>
      cases form <;> simp only [capacity] at * <;> omega

theorem toNat_byte (w s : UInt32) (k : Nat) (hs : s.toNat = k) (hk : k < 32) :
    (w >>> s).toUInt8.toNat = w.toNat / 2 ^ k % 2 ^ 8 := by
  rw [UInt32.toNat_toUInt8, UInt32.toNat_shiftRight, hs, Nat.mod_eq_of_lt hk,
    Nat.shiftRight_eq_div_pow]

theorem width_injective {form other : Form} (h : form.width = other.width) : form = other := by
  cases form <;> cases other <;> first | rfl | contradiction

theorem bytes_short (w : UInt32) : short.bytes w.toNat = [w.toUInt8] := by
  simp only [bytes, marker, width, Bytes.ofNatBE, Bytes.ofNatLE, List.reverse_singleton,
    Nat.zero_add, UInt8.ofNat_uInt32ToNat]

theorem bytes_medium {w : UInt32} (h : w.toNat < medium.capacity) :
    medium.bytes w.toNat = [(w >>> 8).toUInt8 ||| 0x80, w.toUInt8] := by
  simp only [capacity] at h
  have first : ((w >>> 8).toUInt8 ||| 0x80).toNat = 0x80 + w.toNat / 2 ^ 8 := by
    rw [UInt8.toNat_or, toNat_byte _ 8 8 rfl (by decide), Nat.or_comm]
    exact (or_eq_add 7 rfl (by omega)).trans (by simp only [UInt8.reduceToNat]; omega)
  simp only [bytes, marker, width, Bytes.ofNatBE, Bytes.ofNatLE, List.reverse_cons,
    List.reverse_nil, List.nil_append, List.cons_append, List.cons.injEq, and_true,
    ← UInt8.toNat_inj, first, UInt8.toNat_ofNat', UInt32.toNat_toUInt8]
  omega

theorem bytes_long {w : UInt32} (h : w.toNat < long.capacity) : long.bytes w.toNat =
    [(w >>> 24).toUInt8 ||| 0xC0, (w >>> 16).toUInt8, (w >>> 8).toUInt8, w.toUInt8] := by
  simp only [capacity] at h
  have first : ((w >>> 24).toUInt8 ||| 0xC0).toNat = 0xC0 + w.toNat / 2 ^ 24 := by
    rw [UInt8.toNat_or, toNat_byte _ 24 24 rfl (by decide), Nat.or_comm]
    exact (or_eq_add 6 rfl (by omega)).trans (by simp only [UInt8.reduceToNat]; omega)
  have second := toNat_byte w 16 16 rfl (by decide)
  have third := toNat_byte w 8 8 rfl (by decide)
  have last : w.toUInt8.toNat = w.toNat % 2 ^ 8 := UInt32.toNat_toUInt8 w
  simp only [bytes, marker, width, Bytes.ofNatBE, Bytes.ofNatLE, List.reverse_cons,
    List.reverse_nil, List.nil_append, List.cons_append, List.cons.injEq, and_true,
    ← UInt8.toNat_inj, first, second, third, last, UInt8.toNat_ofNat']
  omega

end Compressed.Form

/-- A numeral that is not wider than another one is shorter or has its form. -/
theorem Numeral.bytes_eq_or_lt {numeral other : Numeral}
    (width_le : numeral.form.width ≤ other.form.width)
    (raw_eq : other.form = numeral.form → other.raw = numeral.raw) :
    other.bytes = numeral.bytes ∨ numeral.bytes.length < other.bytes.length := by
  simp only [Numeral.bytes, Form.length_bytes]
  rcases Nat.eq_or_lt_of_le width_le with same | shorter
  · have form_eq := Form.width_injective same.symm
    rw [form_eq, raw_eq form_eq]
    exact .inl rfl
  · exact .inr shorter

namespace Append

theorem word_eq {form : Form} {raw : UInt32} (h : raw.toNat < form.capacity) (buffer : Buffer) :
    word form raw buffer = .ok () (buffer.extend (form.bytes raw.toNat)) := by
  cases form with
  | short => rw [Form.bytes_short, word, byte]
  | medium =>
      rw [Form.bytes_medium h]
      simp only [word, byte, bind, EStateM.bind, Buffer.extend, List.append_assoc, List.cons_append,
        List.nil_append]
  | long =>
      rw [Form.bytes_long h]
      simp only [word, byte, bind, EStateM.bind, Buffer.extend, List.append_assoc, List.cons_append,
        List.nil_append]

/-- Appends an encoding as a whole; a fault leaves the buffer as it was. -/
def whole (encoded : Except EncodingFault Bytes) : Append Unit := fun buffer =>
  match encoded with
  | .ok bytes => .ok () (buffer.extend bytes)
  | .error fault => .error fault buffer

theorem run?_whole (encoded : Except EncodingFault Bytes) (buffer : Buffer) :
    (whole encoded).run? buffer = encoded.map buffer.extend := by
  cases encoded <;> rfl

theorem unsigned_eq (n : UInt32) : unsigned n = whole (encodeUnsigned n.toNat) := by
  funext buffer
  simp only [unsigned, whole, encodeUnsigned]
  cases form? : Form.ofUnsigned? n.toNat with
  | none => rfl
  | some form => exact word_eq (Form.ofUnsigned?_eq_some_iff.mp form?).1 buffer

theorem signed_eq (i : Int32) : signed i = whole (encodeSigned i.toInt) := by
  funext buffer
  simp only [signed, whole, encodeSigned]
  cases form? : Form.ofSigned? i.toInt with
  | none => rfl
  | some form =>
      have holds := (Form.ofSigned?_eq_some_iff.mp form?).1
      have rotated := Form.toNat_rotateWord holds
      have fits : (form.rotateWord i).toNat < form.capacity := by
        rw [rotated]
        exact Form.rotate_lt holds
      simp only [word_eq fits, rotated]

end Append

namespace Read

theorem take_numeral {form : Form} {first : UInt8} {rest : Bytes} {cursor : Cursor}
    (unread : cursor.unread = first :: rest) (announced : Form.ofFirstByte? first = some form)
    (room : cursor.pos + form.width ≤ cursor.data.length) :
    ∃ numeral : Numeral, numeral.form = form ∧
      take form.width cursor = .ok numeral.bytes (cursor.advance form.width) := by
  have length_eq : (cursor.unread.take form.width).length = form.width := by
    rw [List.length_take, Cursor.unread, List.length_drop]
    omega
  obtain ⟨width, width_eq⟩ := Nat.exists_eq_add_of_lt form.width_pos
  rw [Nat.zero_add] at width_eq
  rw [unread, width_eq, List.take_succ_cons, ← width_eq] at length_eq
  obtain ⟨numeral, written, form_eq⟩ := Numeral.exists_of_announced announced length_eq
  refine ⟨numeral, form_eq, ?_⟩
  rw [written, ← List.take_succ_cons, ← width_eq, ← unread]
  exact if_pos room

theorem word_eq : word = (fun result => (result.1, UInt32.ofNat result.2)) <$> compressed := by
  funext cursor
  cases unread : cursor.unread with
  | nil =>
      simp only [word, compressed, bind, EStateM.bind, Functor.map, EStateM.map, position, peekByte,
        unread]
  | cons first rest =>
      simp only [word, compressed, bind, EStateM.bind, Functor.map, EStateM.map, position, peekByte,
        unread, Form.ofLeadingBits?_eq]
      cases form? : Form.ofFirstByte? first with
      | none => rfl
      | some form =>
          by_cases room : cursor.pos + form.width ≤ cursor.data.length
          · obtain ⟨numeral, rfl, taken⟩ := take_numeral unread form? room
            have held : numeral.form.word numeral.bytes = UInt32.ofNat numeral.raw := by
              rw [← UInt32.toNat_inj, UInt32.toNat_ofNat_of_lt' (Form.lt_size numeral.raw_lt)]
              exact Form.toNat_word numeral.raw_lt
            simp only [taken, held, numeral.toNatBE_bytes_mod, pure, EStateM.pure, EStateM.bind]
          · have short : take form.width cursor = .error .outOfBounds cursor := if_neg room
            simp only [short, EStateM.bind]

theorem raw_lt_of_compressed {cursor stopped : Cursor} {form : Form} {raw : Nat}
    (h : compressed cursor = .ok (form, raw) stopped) : raw < form.capacity := by
  obtain ⟨_, ⟨numeral, -, -, result_eq⟩, -⟩ := (accepts_compressed _ _ _).mp h
  obtain ⟨rfl, rfl⟩ := Prod.mk.inj result_eq
  exact numeral.raw_lt

theorem unsigned_eq : Read.unsigned = UInt32.toNat <$> unsignedWord := by
  funext cursor
  simp only [Read.unsigned, unsignedWord, word_eq, bind, EStateM.bind, Functor.map, EStateM.map]
  cases read : compressed cursor with
  | error fault stopped => rfl
  | ok result stopped =>
      have value := UInt32.toNat_ofNat_of_lt' (Form.lt_size (raw_lt_of_compressed read))
      simp only [pure, EStateM.pure, value]

theorem signed_eq : Read.signed = Int32.toInt <$> signedWord := by
  funext cursor
  simp only [Read.signed, signedWord, word_eq, bind, EStateM.bind, Functor.map, EStateM.map]
  cases read : compressed cursor with
  | error fault stopped => rfl
  | ok result stopped =>
      have value := Form.toInt_unrotateWord (raw_lt_of_compressed read)
      simp only [pure, EStateM.pure, value]

/-- Bytes are read as a value wherever they stand, and nothing else that is read as the value to
its end is as short. -/
structure IsCanonical {α : Type} (read : Read α) (value : α) (bytes : Bytes) : Prop where
  reads : ∀ front rest : Bytes, read ⟨front ++ bytes ++ rest, front.length⟩ =
    .ok value ⟨front ++ bytes ++ rest, front.length + bytes.length⟩
  least : ∀ other : Bytes, read { data := other } = .ok value ⟨other, other.length⟩ →
    other = bytes ∨ bytes.length < other.length

theorem Accepts.isCanonical {σ α : Type} {read : Read α} {bytes : σ → Bytes} {value : σ → α}
    (h : read.Accepts (Spelled (fun _ => True) bytes value)) (s : σ)
    (least : ∀ s', value s' = value s →
      bytes s' = bytes s ∨ (bytes s).length < (bytes s').length) :
    IsCanonical read (value s) (bytes s) where
  reads := by
    intro front rest
    have here : (⟨front ++ bytes s ++ rest, front.length⟩ : Cursor).unread = bytes s ++ rest := by
      rw [Cursor.unread, List.append_assoc, List.drop_left]
    exact h.read_spelling s trivial here
  least := by
    intro other read
    obtain ⟨s', -, written, same⟩ := h.spelled read
    rw [List.take_length] at written
    rw [← written]
    exact least s' same

theorem IsCanonical.of_map {α β : Type} {read : Read α} {f : α → β} {value : α} {bytes : Bytes}
    (injective : Function.Injective f) (h : IsCanonical (f <$> read) (f value) bytes) :
    IsCanonical read value bytes := by
  have ok_iff (cursor stopped : Cursor) :
      read cursor = .ok value stopped ↔ (f <$> read) cursor = .ok (f value) stopped := by
    simp only [Functor.map, EStateM.map]
    cases read cursor <;> simp [injective.eq_iff]
  refine ⟨?_, ?_⟩
  · intro front rest
    exact (ok_iff _ _).mpr (h.reads front rest)
  · intro other read
    exact h.least other ((ok_iff _ _).mp read)

theorem isCanonical_unsigned {numeral : Numeral} (shortest : numeral.IsShortest) :
    IsCanonical Read.unsigned numeral.raw numeral.bytes := by
  refine accepts_unsigned.isCanonical numeral ?_
  intro other same
  refine numeral.bytes_eq_or_lt (shortest other same) ?_
  intro _
  exact same

theorem isCanonical_signed {numeral : Numeral} (shortest : numeral.IsShortestSigned) :
    IsCanonical Read.signed numeral.signed numeral.bytes := by
  refine accepts_signed.isCanonical numeral ?_
  intro other same
  refine numeral.bytes_eq_or_lt (shortest other same) ?_
  intro form_eq
  rw [← Form.rotate_unrotate other.raw_lt, ← Form.rotate_unrotate numeral.raw_lt, form_eq]
  rw [Numeral.signed, Numeral.signed, form_eq] at same
  rw [same]

end Read

/-- Compressed integers are canonical. A number is appended if it is in range, and the buffer is
left as it was if it is not; what is appended is read as the number again, whatever surrounds it,
and is the only shortest spelling of it. Numbers and words are written and read alike. -/
theorem Append.compressed_canonical (buffer : Buffer) :
    (∀ n : UInt32,
      (if n.toNat ≤ 0x1FFFFFFF then
        ∃ bytes, unsigned n buffer = .ok () (buffer.extend bytes) ∧
          size? n.toNat = some bytes.length ∧ Read.IsCanonical Read.unsignedWord n bytes
      else unsigned n buffer = .error (.unsignedTooLarge n.toNat) buffer ∧
        size? n.toNat = none) ∧
      (unsigned n).run? buffer = buffer.appendUnsigned n.toNat) ∧
    (∀ i : Int32,
      (if -0x10000000 ≤ i.toInt ∧ i.toInt ≤ 0x0FFFFFFF then
        ∃ bytes, signed i buffer = .ok () (buffer.extend bytes) ∧
          Read.IsCanonical Read.signedWord i bytes
      else signed i buffer = .error (.signedOutOfRange i.toInt) buffer) ∧
      (signed i).run? buffer = buffer.appendSigned i.toInt) ∧
    Read.unsigned = UInt32.toNat <$> Read.unsignedWord ∧
    Read.signed = Int32.toInt <$> Read.signedWord := by
  refine ⟨?_, ?_, Read.unsigned_eq, Read.signed_eq⟩
  · intro n
    have outcome := encodeUnsigned_cases n.toNat
    rw [unsigned_eq, run?_whole]
    refine ⟨?_, rfl⟩
    split_ifs at outcome ⊢ with inside
    · obtain ⟨numeral, shortest, raw_eq, written⟩ := outcome
      refine ⟨numeral.bytes, ?_, size?_of_encodeUnsigned written, ?_⟩
      · simp only [whole, written]
      · refine Read.IsCanonical.of_map (f := UInt32.toNat) (fun _ _ => UInt32.toNat_inj.mp) ?_
        rw [← Read.unsigned_eq, ← raw_eq]
        exact Read.isCanonical_unsigned shortest
    · refine ⟨?_, ?_⟩
      · simp only [whole, outcome]
      · rw [size?, Form.ofUnsigned?_eq_none_iff.mpr (Nat.not_le.mp inside), Option.map_none]
  · intro i
    have outcome := encodeSigned_cases i.toInt
    rw [signed_eq, run?_whole]
    refine ⟨?_, rfl⟩
    split_ifs at outcome ⊢ with inside
    · obtain ⟨numeral, shortest, value_eq, written⟩ := outcome
      refine ⟨numeral.bytes, ?_, ?_⟩
      · simp only [whole, written]
      · refine Read.IsCanonical.of_map (f := Int32.toInt) (fun _ _ => Int32.toInt_inj.mp) ?_
        rw [← Read.signed_eq, ← value_eq]
        exact Read.isCanonical_signed shortest
    · simp only [whole, outcome]

end CliMetadata
