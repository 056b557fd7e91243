import CliMetadata.Compressed
import CliMetadata.Proofs.Acceptance
import CliMetadata.Proofs.Tokens
import Mathlib.Algebra.Group.Nat.Defs

/-!
Numerals: numbers as they stand in the bytes, each in one of the forms that have room for it. The
readers of compressed integers accept numerals in any form, and writing gives the shortest one. A
coded index is a numeral with the token it stands for; it is written again as it was read if its
row has no more than 24 bits.
-/

namespace CliMetadata

namespace Bytes

theorem toNatLE_append (front back : Bytes) :
    toNatLE (front ++ back) = toNatLE front + 256 ^ front.length * toNatLE back := by
  induction front with
  | nil => simp [toNatLE]
  | cons byte rest ih =>
      rw [List.cons_append, toNatLE, toNatLE, ih, List.length_cons, Nat.pow_succ',
        Nat.mul_assoc]
      omega

theorem toNatLE_lt (bytes : Bytes) : toNatLE bytes < 256 ^ bytes.length := by
  induction bytes with
  | nil => simp [toNatLE]
  | cons byte rest ih =>
      have := byte.toNat_lt
      rw [toNatLE, List.length_cons, Nat.pow_succ]
      omega

theorem ofNatLE_toNatLE (bytes : Bytes) : ofNatLE bytes.length (toNatLE bytes) = bytes := by
  induction bytes with
  | nil => rfl
  | cons byte rest ih =>
      have := byte.toNat_lt
      have low : UInt8.ofNat (byte.toNat + 256 * toNatLE rest) = byte := by
        apply UInt8.toNat_inj.mp
        simp
      have high : (byte.toNat + 256 * toNatLE rest) / 256 = toNatLE rest := by omega
      rw [List.length_cons, toNatLE, ofNatLE, low, high, ih]

theorem toNatLE_ofNatLE (width n : Nat) : toNatLE (ofNatLE width n) = n % 256 ^ width := by
  induction width generalizing n with
  | zero => simp [ofNatLE, toNatLE, Nat.mod_one]
  | succ width ih =>
      have byte : (UInt8.ofNat n).toNat = n % 256 := by simp
      rw [ofNatLE, toNatLE, ih, byte, Nat.pow_succ, Nat.mul_comm (256 ^ width) 256, Nat.mod_mul]

theorem getElem?_ofNatLE {width n place : Nat} (inside : place < width) :
    (ofNatLE width n)[place]? = some (UInt8.ofNat (n / 256 ^ place)) := by
  induction width generalizing n place with
  | zero => omega
  | succ width ih =>
      rw [ofNatLE]
      cases place with
      | zero => simp
      | succ place =>
          rw [List.getElem?_cons_succ, ih (by omega), Nat.div_div_eq_div_mul, Nat.pow_succ']

theorem toNatBE_nil : toNatBE [] = 0 := rfl

theorem toNatBE_cons (byte : UInt8) (rest : Bytes) :
    toNatBE (byte :: rest) = 256 ^ rest.length * byte.toNat + toNatBE rest := by
  simp [toNatBE, toNatLE_append, toNatLE, Nat.add_comm]

theorem toNatBE_lt (bytes : Bytes) : toNatBE bytes < 256 ^ bytes.length := by
  simpa [toNatBE] using toNatLE_lt bytes.reverse

theorem ofNatBE_toNatBE (bytes : Bytes) : ofNatBE bytes.length (toNatBE bytes) = bytes := by
  have spelled := ofNatLE_toNatLE bytes.reverse
  rw [List.length_reverse] at spelled
  rw [ofNatBE, toNatBE, spelled, List.reverse_reverse]

theorem toNatBE_ofNatBE (width n : Nat) : toNatBE (ofNatBE width n) = n % 256 ^ width := by
  rw [toNatBE, ofNatBE, List.reverse_reverse, toNatLE_ofNatLE]

end Bytes

namespace Compressed.Form

theorem width_pos (form : Form) : 0 < form.width := by
  cases form <;> decide

@[simp] theorem length_bytes (form : Form) (raw : Nat) : (form.bytes raw).length = form.width :=
  Bytes.length_ofNatBE _ _

theorem toNatBE_bytes {form : Form} {raw : Nat} (h : raw < form.capacity) :
    Bytes.toNatBE (form.bytes raw) = form.marker + raw := by
  rw [bytes, Bytes.toNatBE_ofNatBE]
  apply Nat.mod_eq_of_lt
  cases form <;> simp only [capacity, marker, width] at * <;> omega

theorem marker_add_mod {form : Form} {raw : Nat} (h : raw < form.capacity) :
    (form.marker + raw) % form.capacity = raw := by
  cases form <;> simp only [capacity, marker] at * <;> omega

/-- The first byte announces the form of those numbers of its width that its marker leads. -/
theorem ofFirstByte?_eq_some_iff {form : Form} {first : UInt8} {rest : Bytes}
    (h : (first :: rest).length = form.width) :
    ofFirstByte? first = some form ↔ form.marker ≤ Bytes.toNatBE (first :: rest) ∧
      Bytes.toNatBE (first :: rest) < form.marker + form.capacity := by
  have below := Bytes.toNatBE_lt rest
  have length_rest : rest.length = form.width - 1 := by
    rw [← h, List.length_cons, Nat.add_sub_cancel]
  have byte_lt := first.toNat_lt
  rw [length_rest] at below
  rw [Bytes.toNatBE_cons, length_rest]
  cases form <;> simp only [width, marker, capacity, ofFirstByte?] at * <;>
    split_ifs <;> simp <;> omega

theorem forall_form {P : Form → Prop} : (∀ form, P form) ↔ P .short ∧ P .medium ∧ P .long :=
  ⟨fun h => ⟨h _, h _, h _⟩, fun ⟨hs, hm, hl⟩ form => by cases form <;> assumption⟩

/-- The forms are tried in the order of their widths. -/
theorem shortest_eq_some_iff {P : Form → Prop} [DecidablePred P] {form : Form} :
    (if P .short then some .short else if P .medium then some .medium
      else if P .long then some .long else none) = some form ↔
      P form ∧ ∀ other, P other → form.width ≤ other.width := by
  rw [forall_form]
  by_cases short : P .short <;> by_cases medium : P .medium <;> by_cases long : P .long <;>
    cases form <;> simp [short, medium, long, width]

theorem exists_shortest {P : Form → Prop} [DecidablePred P] {form : Form} (h : P form) :
    ∃ least : Form, (if P .short then some .short else if P .medium then some .medium
      else if P .long then some .long else none) = some least := by
  by_cases short : P .short
  · exact ⟨.short, if_pos short⟩
  by_cases medium : P .medium
  · exact ⟨.medium, by rw [if_neg short, if_pos medium]⟩
  · have long : P .long := by cases form <;> first | exact h | contradiction
    exact ⟨.long, by rw [if_neg short, if_neg medium, if_pos long]⟩

theorem shortest_eq_none_iff {P : Form → Prop} [DecidablePred P] :
    (if P .short then some Form.short else if P .medium then some .medium
      else if P .long then some .long else none) = none ↔ ∀ form, ¬P form := by
  rw [forall_form]
  by_cases short : P .short <;> by_cases medium : P .medium <;> by_cases long : P .long <;>
    simp [short, medium, long]

theorem ofUnsigned?_eq_some_iff {form : Form} {n : Nat} :
    ofUnsigned? n = some form ↔
      n < form.capacity ∧ ∀ other : Form, n < other.capacity → form.width ≤ other.width :=
  shortest_eq_some_iff (P := fun form => n < form.capacity)

theorem ofSigned?_eq_some_iff {form : Form} {i : Int} :
    ofSigned? i = some form ↔
      form.HoldsSigned i ∧ ∀ other : Form, other.HoldsSigned i → form.width ≤ other.width :=
  shortest_eq_some_iff (P := fun form => form.HoldsSigned i)

theorem ofUnsigned?_eq_none_iff {n : Nat} : ofUnsigned? n = none ↔ 0x1FFFFFFF < n := by
  rw [ofUnsigned?, shortest_eq_none_iff (P := fun form => n < form.capacity), forall_form]
  simp only [capacity]
  omega

theorem ofSigned?_eq_none_iff {i : Int} :
    ofSigned? i = none ↔ i < -0x10000000 ∨ 0x0FFFFFFF < i := by
  rw [ofSigned?, shortest_eq_none_iff (P := fun form => form.HoldsSigned i), forall_form]
  simp only [HoldsSigned, capacity]
  omega

theorem rotate_lt {form : Form} {i : Int} (h : form.HoldsSigned i) :
    form.rotate i < form.capacity := by
  simp only [HoldsSigned, rotate] at *
  split
  · cases form <;> simp only [capacity] at * <;> omega
  · cases form <;> simp only [capacity] at * <;> omega

theorem unrotate_rotate {form : Form} {i : Int} (h : form.HoldsSigned i) :
    form.unrotate (form.rotate i) = i := by
  obtain ⟨low, high⟩ := h
  by_cases positive : 0 ≤ i
  · have rotated : form.rotate i = 2 * i.toNat := if_pos positive
    rw [rotated, unrotate, if_pos (by omega)]
    omega
  · have rotated : form.rotate i = 2 * (i + form.capacity / 2).toNat + 1 := if_neg positive
    rw [rotated, unrotate, if_neg (by omega)]
    omega

theorem holdsSigned_unrotate {form : Form} {raw : Nat} (h : raw < form.capacity) :
    form.HoldsSigned (form.unrotate raw) := by
  simp only [HoldsSigned, unrotate]
  split <;> cases form <;> simp only [capacity] at * <;> omega

theorem rotate_unrotate {form : Form} {raw : Nat} (h : raw < form.capacity) :
    form.rotate (form.unrotate raw) = raw := by
  have half : raw / 2 < form.capacity / 2 := by
    cases form <;> simp only [capacity] at * <;> omega
  by_cases even : raw % 2 = 0
  · have unrotated : form.unrotate raw = (raw / 2 : Nat) := if_pos even
    rw [unrotated, rotate, if_pos (by omega)]
    omega
  · have unrotated : form.unrotate raw = (raw / 2 : Nat) - (form.capacity / 2 : Int) :=
      if_neg even
    rw [unrotated, rotate, if_neg (by omega)]
    omega

end Compressed.Form

open Compressed

/-- A number in one of the forms that have room for it. -/
structure Numeral where
  form : Form
  raw : Nat
  raw_lt : raw < form.capacity

namespace Numeral

def bytes (numeral : Numeral) : Bytes := numeral.form.bytes numeral.raw

/-- The number with the lowest bit as its sign. -/
def signed (numeral : Numeral) : Int := numeral.form.unrotate numeral.raw

/-- No shorter form has room for the number. -/
def IsShortest (numeral : Numeral) : Prop :=
  ∀ other : Numeral, other.raw = numeral.raw → numeral.form.width ≤ other.form.width

/-- No shorter form has room for the number with its sign. -/
def IsShortestSigned (numeral : Numeral) : Prop :=
  ∀ other : Numeral, other.signed = numeral.signed → numeral.form.width ≤ other.form.width

theorem isShortest_of_short {numeral : Numeral} (h : numeral.form = .short) :
    numeral.IsShortest := by
  intro other _
  rw [h]
  exact other.form.width_pos

theorem bytes_ne_nil (numeral : Numeral) : numeral.bytes ≠ [] := by
  apply List.length_pos_iff.mp
  rw [bytes, Form.length_bytes]
  exact numeral.form.width_pos

theorem length_bytes_pos (numeral : Numeral) : 0 < numeral.bytes.length :=
  List.length_pos_iff.mpr numeral.bytes_ne_nil

theorem announced {numeral : Numeral} {first : UInt8} {rest : Bytes}
    (h : numeral.bytes = first :: rest) : Form.ofFirstByte? first = some numeral.form := by
  have value := Form.toNatBE_bytes numeral.raw_lt
  have length_eq := Form.length_bytes numeral.form numeral.raw
  have fits := numeral.raw_lt
  rw [bytes] at h
  rw [h] at value length_eq
  rw [Form.ofFirstByte?_eq_some_iff length_eq, value]
  omega

theorem toNatBE_bytes_mod (numeral : Numeral) :
    Bytes.toNatBE numeral.bytes % numeral.form.capacity = numeral.raw := by
  rw [bytes, Form.toNatBE_bytes numeral.raw_lt, Form.marker_add_mod numeral.raw_lt]

/-- Bytes are a numeral if their first one announces a form of their length. -/
theorem exists_of_announced {form : Form} {first : UInt8} {rest : Bytes}
    (announced : Form.ofFirstByte? first = some form)
    (length_eq : (first :: rest).length = form.width) :
    ∃ numeral : Numeral, numeral.bytes = first :: rest ∧ numeral.form = form := by
  obtain ⟨low, high⟩ := (Form.ofFirstByte?_eq_some_iff length_eq).mp announced
  have fits : Bytes.toNatBE (first :: rest) - form.marker < form.capacity := by omega
  have value : form.marker + (Bytes.toNatBE (first :: rest) - form.marker) =
      Bytes.toNatBE (first :: rest) := by omega
  refine ⟨⟨form, _, fits⟩, ?_, rfl⟩
  rw [Numeral.bytes, Form.bytes, value, ← length_eq, Bytes.ofNatBE_toNatBE]

end Numeral

/-- A numeral that is a coded index, with the token the index stands for. -/
structure IndexNumeral extends Numeral where
  token : Token
  token_eq : Token.ofCodedIndex? raw = some token

namespace Read

theorem accepts_compressed : compressed.Accepts
    (Spelled (fun _ => True) Numeral.bytes fun numeral => (numeral.form, numeral.raw)) := by
  have nonempty (result : Form × Nat) : ¬Spelled (fun _ => True) Numeral.bytes
      (fun numeral => (numeral.form, numeral.raw)) [] result := by
    intro given
    obtain ⟨numeral, -, empty, -⟩ := given
    exact numeral.bytes_ne_nil empty
  refine accepts_position fun start => accepts_peekByte nonempty fun first => ?_
  cases form? : Form.ofFirstByte? first with
  | none =>
      refine ((accepts_throw _).acceptsAt first).congr (fun _ => not_false) nonempty ?_
      intro rest result
      refine ⟨False.elim, ?_⟩
      intro given
      obtain ⟨numeral, -, written, -⟩ := given
      rw [numeral.announced written] at form?
      cases form?
  | some form =>
      refine ((accepts_map (accepts_take form.width_pos)).acceptsAt first).congr ?_ nonempty ?_
      · intro result given
        obtain ⟨_, ⟨length_eq, -⟩, -⟩ := given
        exact absurd length_eq (Nat.ne_of_lt form.width_pos)
      · intro rest result
        refine ⟨?_, ?_⟩
        · intro given
          obtain ⟨_, ⟨length_eq, rfl⟩, rfl⟩ := given
          obtain ⟨numeral, written, rfl⟩ := Numeral.exists_of_announced form? length_eq
          refine ⟨numeral, trivial, written, ?_⟩
          rw [← written, numeral.toNatBE_bytes_mod]
        · intro given
          obtain ⟨numeral, -, written, rfl⟩ := given
          obtain rfl : numeral.form = form :=
            Option.some.inj ((numeral.announced written).symm.trans form?)
          refine ⟨_, ⟨?_, rfl⟩, ?_⟩
          · rw [← written, Numeral.bytes, Form.length_bytes]
          · rw [← written, numeral.toNatBE_bytes_mod]

theorem accepts_unsigned : unsigned.Accepts (Spelled (fun _ => True) Numeral.bytes Numeral.raw) :=
  accepts_compressed.map

theorem accepts_signed : signed.Accepts (Spelled (fun _ => True) Numeral.bytes Numeral.signed) :=
  accepts_compressed.map

theorem accepts_token : token.Accepts
    (Spelled (fun _ => True) (fun index : IndexNumeral => index.bytes) IndexNumeral.token) := by
  refine (accepts_bind accepts_unsigned fun index => accepts_ofOption _ _).congr ?_
  intro bytes result
  refine ⟨?_, ?_⟩
  · intro given
    obtain ⟨_, _, _, rfl, ⟨numeral, -, rfl, rfl⟩, rfl, token_eq⟩ := given
    exact ⟨⟨numeral, result, token_eq⟩, trivial, (List.append_nil _).symm, rfl⟩
  · intro given
    obtain ⟨index, -, rfl, rfl⟩ := given
    exact ⟨index.raw, index.bytes, [], List.append_nil _, spelled_of_valid index.toNumeral trivial,
      rfl, index.token_eq⟩

/-- Bytes that follow their count are the bytes behind a numeral for their number. -/
theorem accepts_counted : counted.Accepts fun bytes blob =>
    ∃ length : Numeral, length.raw = blob.length ∧ length.bytes ++ blob = bytes := by
  intro cursor blob stopped
  rw [counted, bind_eq_ok]
  refine ⟨?_, ?_⟩
  · intro given
    obtain ⟨_, between, number, taken⟩ := given
    obtain ⟨_, ⟨length, -, rfl, rfl⟩, leads, rfl⟩ := (accepts_unsigned _ _ _).mp number
    obtain ⟨room, rfl, rfl⟩ := take_eq_ok.mp taken
    rw [Cursor.unread_advance]
    have length_eq : ((cursor.unread.drop length.bytes.length).take length.raw).length =
        length.raw := by
      simp only [Cursor.advance, Cursor.unread, List.length_take, List.length_drop] at room ⊢
      omega
    refine ⟨_, ⟨length, length_eq.symm, rfl⟩, ?_, ?_⟩
    · exact append_prefix_iff.mpr ⟨leads, List.take_prefix _ _⟩
    · rw [List.length_append, length_eq, ← Cursor.advance_advance]
      rfl
  · intro given
    obtain ⟨_, ⟨length, raw_eq, rfl⟩, leads, rfl⟩ := given
    obtain ⟨lengthLeads, blobLeads⟩ := append_prefix_iff.mp leads
    refine ⟨length.raw, cursor.advance length.bytes.length, ?_, take_eq_ok.mpr ⟨?_, ?_, ?_⟩⟩
    · exact (accepts_unsigned _ _ _).mpr ⟨_, spelled_of_valid length trivial, lengthLeads, rfl⟩
    · have fits := leads.length_le
      have positive := List.length_pos_iff.mpr length.bytes_ne_nil
      simp only [Cursor.advance, Cursor.unread, List.length_append, List.length_drop] at fits ⊢
      omega
    · rw [Cursor.unread_advance, raw_eq]
      exact (List.prefix_iff_eq_take.mp blobLeads).symm
    · rw [List.length_append, raw_eq, ← Cursor.advance_advance]
      rfl

end Read

namespace Compressed

/-- An unsigned number is written as its shortest numeral. -/
theorem encodeUnsigned_eq_ok_iff {n : Nat} {bytes : Bytes} :
    encodeUnsigned n = .ok bytes ↔
      Spelled Numeral.IsShortest Numeral.bytes Numeral.raw bytes n := by
  rw [encodeUnsigned]
  refine ⟨?_, ?_⟩
  · intro written
    cases form? : Form.ofUnsigned? n with
    | none => simp [form?] at written
    | some form =>
        obtain ⟨fits, least⟩ := Form.ofUnsigned?_eq_some_iff.mp form?
        simp only [form?, Except.ok.injEq] at written
        refine ⟨⟨form, n, fits⟩, ?_, written, rfl⟩
        intro other same
        exact least other.form (lt_of_eq_of_lt same.symm other.raw_lt)
  · intro given
    obtain ⟨numeral, shortest, rfl, rfl⟩ := given
    have form? : Form.ofUnsigned? numeral.raw = some numeral.form := by
      refine Form.ofUnsigned?_eq_some_iff.mpr ⟨numeral.raw_lt, ?_⟩
      intro other fits
      exact shortest ⟨other, numeral.raw, fits⟩ rfl
    simp only [form?]
    rfl

theorem encodeSigned_eq_ok_iff {i : Int} {bytes : Bytes} :
    encodeSigned i = .ok bytes ↔
      Spelled Numeral.IsShortestSigned Numeral.bytes Numeral.signed bytes i := by
  rw [encodeSigned]
  refine ⟨?_, ?_⟩
  · intro written
    cases form? : Form.ofSigned? i with
    | none => simp [form?] at written
    | some form =>
        obtain ⟨fits, least⟩ := Form.ofSigned?_eq_some_iff.mp form?
        simp only [form?, Except.ok.injEq] at written
        refine ⟨⟨form, form.rotate i, Form.rotate_lt fits⟩, ?_, written, Form.unrotate_rotate fits⟩
        intro other same
        rw [Numeral.signed, Numeral.signed, Form.unrotate_rotate fits] at same
        exact least other.form (same ▸ Form.holdsSigned_unrotate other.raw_lt)
  · intro given
    obtain ⟨numeral, shortest, rfl, rfl⟩ := given
    have form? : Form.ofSigned? numeral.signed = some numeral.form := by
      refine Form.ofSigned?_eq_some_iff.mpr ⟨Form.holdsSigned_unrotate numeral.raw_lt, ?_⟩
      intro other fits
      exact shortest ⟨other, _, Form.rotate_lt fits⟩ (Form.unrotate_rotate fits)
    simp only [form?]
    rw [Numeral.bytes, Numeral.signed, Form.rotate_unrotate numeral.raw_lt]

/-- A number is written in the shortest form that holds it, or it is too large for them all. -/
theorem encodeUnsigned_cases (n : Nat) : if n ≤ 0x1FFFFFFF then
    ∃ numeral : Numeral, numeral.IsShortest ∧ numeral.raw = n ∧ encodeUnsigned n = .ok numeral.bytes
    else encodeUnsigned n = .error (.unsignedTooLarge n) := by
  cases form? : Form.ofUnsigned? n with
  | none =>
      have outside := Form.ofUnsigned?_eq_none_iff.mp form?
      rw [if_neg (Nat.not_le.mpr outside), encodeUnsigned, form?]
  | some form =>
      have inside : n ≤ 0x1FFFFFFF := by
        by_contra outside
        rw [Form.ofUnsigned?_eq_none_iff.mpr (Nat.not_le.mp outside)] at form?
        cases form?
      have written : encodeUnsigned n = .ok (form.bytes n) := by rw [encodeUnsigned, form?]
      obtain ⟨numeral, shortest, bytes_eq, raw_eq⟩ := encodeUnsigned_eq_ok_iff.mp written
      rw [if_pos inside]
      exact ⟨numeral, shortest, raw_eq, bytes_eq ▸ written⟩

theorem encodeSigned_cases (i : Int) : if -0x10000000 ≤ i ∧ i ≤ 0x0FFFFFFF then
    ∃ numeral : Numeral, numeral.IsShortestSigned ∧ numeral.signed = i ∧
      encodeSigned i = .ok numeral.bytes
    else encodeSigned i = .error (.signedOutOfRange i) := by
  cases form? : Form.ofSigned? i with
  | none =>
      have outside := Form.ofSigned?_eq_none_iff.mp form?
      rw [if_neg (by omega), encodeSigned, form?]
  | some form =>
      have inside : -0x10000000 ≤ i ∧ i ≤ 0x0FFFFFFF := by
        by_contra outside
        rw [Form.ofSigned?_eq_none_iff.mpr (by omega)] at form?
        cases form?
      have written : encodeSigned i = .ok (form.bytes (form.rotate i)) := by
        rw [encodeSigned, form?]
      obtain ⟨numeral, shortest, bytes_eq, signed_eq⟩ := encodeSigned_eq_ok_iff.mp written
      rw [if_pos inside]
      exact ⟨numeral, shortest, signed_eq, bytes_eq ▸ written⟩

theorem size?_of_encodeUnsigned {n : Nat} {bytes : Bytes} (h : encodeUnsigned n = .ok bytes) :
    size? n = some bytes.length := by
  rw [encodeUnsigned] at h
  cases form? : Form.ofUnsigned? n with
  | none =>
      rw [form?] at h
      cases h
  | some form =>
      rw [form?] at h
      cases h
      rw [size?, form?, Option.map_some, Form.length_bytes]

theorem encodeUnsigned_of_shortest {numeral : Numeral} (h : numeral.IsShortest) :
    encodeUnsigned numeral.raw = .ok numeral.bytes :=
  encodeUnsigned_eq_ok_iff.mpr (spelled_of_valid numeral h)

theorem encodeSigned_of_shortest {numeral : Numeral} (h : numeral.IsShortestSigned) :
    encodeSigned numeral.signed = .ok numeral.bytes :=
  encodeSigned_eq_ok_iff.mpr (spelled_of_valid numeral h)

/-- Every number that stands in the bytes can be written. -/
theorem exists_encodeUnsigned (numeral : Numeral) :
    ∃ bytes, encodeUnsigned numeral.raw = .ok bytes := by
  obtain ⟨least, form?⟩ := Form.exists_shortest (P := fun form => numeral.raw < form.capacity)
    numeral.raw_lt
  exact ⟨least.bytes numeral.raw, by rw [encodeUnsigned, Form.ofUnsigned?, form?]⟩

theorem exists_encodeSigned (numeral : Numeral) :
    ∃ bytes, encodeSigned numeral.signed = .ok bytes := by
  obtain ⟨least, form?⟩ := Form.exists_shortest (P := fun form => form.HoldsSigned numeral.signed)
    (Form.holdsSigned_unrotate numeral.raw_lt)
  exact ⟨least.bytes (least.rotate numeral.signed), by
    rw [encodeSigned, Form.ofSigned?, form?]⟩

theorem encodeToken_eq_ok_iff_index {token : Token} {bytes : Bytes} :
    encodeToken token = .ok bytes ↔
      ∃ index, token.codedIndex? = some index ∧ encodeUnsigned index = .ok bytes := by
  cases index? : token.codedIndex? <;>
    simp [encodeToken, Token.codedIndex, index?, bind, Except.bind]

/-- A token is written as its coded index, the row of which has no bits above the 24th. -/
theorem encodeToken_eq_ok_iff {token : Token} {bytes : Bytes} :
    encodeToken token = .ok bytes ↔
      Spelled (fun index : IndexNumeral => index.IsShortest ∧ index.raw < 2 ^ 26)
        (fun index => index.bytes) IndexNumeral.token bytes token := by
  rw [encodeToken_eq_ok_iff_index]
  refine ⟨?_, ?_⟩
  · intro given
    obtain ⟨_, index?, written⟩ := given
    obtain ⟨numeral, shortest, rfl, rfl⟩ := encodeUnsigned_eq_ok_iff.mp written
    obtain ⟨small, token_eq⟩ := Token.codedIndex?_eq_some_iff.mp index?
    exact ⟨⟨numeral, token, token_eq⟩, ⟨shortest, small⟩, rfl, rfl⟩
  · intro given
    obtain ⟨index, ⟨shortest, small⟩, rfl, rfl⟩ := given
    exact ⟨index.raw, Token.codedIndex?_eq_some_iff.mpr ⟨small, index.token_eq⟩,
      encodeUnsigned_eq_ok_iff.mpr ⟨index.toNumeral, shortest, rfl, rfl⟩⟩

theorem encodeToken_of_canonical {index : IndexNumeral}
    (h : index.IsShortest ∧ index.raw < 2 ^ 26) : encodeToken index.token = .ok index.bytes :=
  encodeToken_eq_ok_iff.mpr (spelled_of_valid index h)

/-- A token can be written if and only if it is of a table that coded indexes point into. -/
theorem exists_encodeToken_iff {token : Token} :
    (∃ bytes, encodeToken token = .ok bytes) ↔ token.typeTable?.isSome := by
  simp only [encodeToken_eq_ok_iff_index]
  refine ⟨?_, ?_⟩
  · intro given
    obtain ⟨_, index, index?, _⟩ := given
    obtain ⟨table, table?, _⟩ := Option.map_eq_some_iff.mp index?
    exact Option.isSome_of_eq_some table?
  · intro known
    obtain ⟨table, table?⟩ := Option.isSome_iff_exists.mp known
    have index? : token.codedIndex? = some (token.row * 4 + table.tag) := by
      rw [Token.codedIndex?, table?, Option.map_some]
    obtain ⟨small, -⟩ := Token.codedIndex?_eq_some_iff.mp index?
    have fits : token.row * 4 + table.tag < Form.capacity .long :=
      Nat.lt_trans small (by decide)
    obtain ⟨bytes, written⟩ := exists_encodeUnsigned ⟨.long, _, fits⟩
    exact ⟨bytes, _, index?, written⟩

end Compressed

end CliMetadata
