import CliMetadata.Buffer.Access
import CliMetadata.Proofs.CheckedReads
import CliMetadata.Proofs.Scalars
import Mathlib.Algebra.GroupWithZero.Nat

/-!
Numbers written over the bytes of a buffer. A write that has no room leaves everything as it is. One
that has room changes the bytes of its own range only, which then hold the digits of the value; so
writes behind it do not disturb what is read there, and the values of a run of writes are read in
order from where it began.
-/

namespace CliMetadata

namespace Scalar

@[simp] theorem length_bytes (scalar : Scalar) : scalar.bytes.length = scalar.type.width :=
  ScalarType.length_toBytesLE scalar.type scalar.value

/-- The value that has the bytes in reverse. -/
def reversed (scalar : Scalar) : Scalar where
  type := scalar.type
  value := scalar.type.ofBytesLE scalar.bytes.reverse
  holds := ScalarType.holds_ofBytesLE (by rw [List.length_reverse, length_bytes])

theorem bytes_reversed (scalar : Scalar) : scalar.reversed.bytes = scalar.bytes.reverse :=
  ScalarType.toBytesLE_ofBytesLE (by rw [List.length_reverse, length_bytes]; rfl)

/-- The number of bytes that values take one behind the other. -/
def widths (scalars : List Scalar) : Nat := (scalars.map (·.type.width)).sum

theorem widths_cons (scalar : Scalar) (rest : List Scalar) :
    widths (scalar :: rest) = scalar.type.width + widths rest := by
  rw [widths, List.map_cons, List.sum_cons, widths]

end Scalar

namespace Buffer

/-- Nothing but the bytes in `[start, behind)` differs, and there are as many as before. -/
structure SameOutside (start behind : Nat) (before after : Bytes) : Prop where
  length_eq : after.length = before.length
  byte_eq : ∀ place, place < start ∨ behind ≤ place → after[place]? = before[place]?

namespace SameOutside

variable {start middle behind : Nat} {before between after : Bytes}

theorem refl (start behind : Nat) (data : Bytes) : SameOutside start behind data data :=
  ⟨rfl, fun _ _ => rfl⟩

/-- Changes in two ranges, one behind the other, are changes in the whole of them. -/
theorem append (first : SameOutside start middle before between)
    (second : SameOutside middle behind between after) (ordered : start ≤ middle)
    (ordered' : middle ≤ behind) : SameOutside start behind before after where
  length_eq := second.length_eq.trans first.length_eq
  byte_eq place outside := by
    rw [second.byte_eq place (by omega), first.byte_eq place (by omega)]

/-- Bytes that end where the changes begin have stayed. -/
theorem window_eq (same : SameOutside middle behind before after) {place width : Nat}
    (apart : place + width ≤ middle) :
    (after.drop place).take width = (before.drop place).take width := by
  refine List.ext_getElem? fun index => ?_
  simp only [List.getElem?_take, List.getElem?_drop]
  split
  · exact same.byte_eq (place + index) (by omega)
  · rfl

end SameOutside

/-- The digits of the value, to the base 256 and least significant first, stand at the place. -/
def Shows (data : Bytes) (place : Nat) (scalar : Scalar) : Prop :=
  ∀ index < scalar.type.width, ∃ byte, data[place + index]? = some byte ∧
    (byte.toNat : Int) = scalar.value / 256 ^ index % 256

/-- The buffer with a value written over the bytes at the offset, and the offset behind it. -/
def put (buffer : Buffer) (scalar : Scalar) : Buffer where
  data := buffer.data.take buffer.offset ++ scalar.bytes ++
    buffer.data.drop (buffer.offset + scalar.type.width)
  offset := buffer.offset + scalar.type.width

variable {buffer : Buffer} {scalar : Scalar} {data : Bytes} {place : Nat}

theorem sameOutside_put (room : buffer.offset + scalar.type.width ≤ buffer.data.length) :
    SameOutside buffer.offset (buffer.offset + scalar.type.width) buffer.data
      (buffer.put scalar).data where
  length_eq := by
    simp only [put, List.length_append, List.length_take, List.length_drop, Scalar.length_bytes]
    omega
  byte_eq place outside := by
    have front : (buffer.data.take buffer.offset).length = buffer.offset :=
      List.length_take_of_le (by omega)
    have width_eq := scalar.length_bytes
    rw [put, List.append_assoc]
    rcases outside with before | behind
    · rw [List.getElem?_append_left (by omega), List.getElem?_take_of_lt before]
    · rw [List.getElem?_append_right (by omega), List.getElem?_append_right (by omega), front,
        width_eq, List.getElem?_drop, Nat.sub_sub, Nat.add_sub_cancel' behind]

theorem window_put (room : buffer.offset + scalar.type.width ≤ buffer.data.length) :
    ((buffer.put scalar).data.drop buffer.offset).take scalar.type.width = scalar.bytes := by
  have front : (buffer.data.take buffer.offset).length = buffer.offset :=
    List.length_take_of_le (by omega)
  rw [put, List.append_assoc, List.drop_left' front, List.take_left' scalar.length_bytes]

theorem shows_of_window (stands : (data.drop place).take scalar.type.width = scalar.bytes) :
    Shows data place scalar := by
  intro index inside
  obtain ⟨byte, found, digit⟩ := ScalarType.toBytesLE_digit scalar.value inside
  refine ⟨byte, ?_, digit⟩
  rw [← found, ← Scalar.bytes, ← stands, List.getElem?_take_of_lt inside, List.getElem?_drop]

theorem window_at (buffer : Buffer) (type : ScalarType) :
    buffer.window type =
      if buffer.offset + type.width ≤ buffer.data.length then
        .ok ((buffer.data.drop buffer.offset).take type.width)
      else .error .outOfBounds := by
  by_cases room : buffer.offset + type.width ≤ buffer.data.length <;>
    simp [window, Bytes.slice, Bytes.slice?, room]

end Buffer

namespace Access

open GuardedRead Buffer

variable {buffer written : Buffer} {scalar : Scalar} {scalars rest : List Scalar} {data : Bytes}
  {offset : Nat}

theorem get_at (buffer : Buffer) : (get : Access Buffer) buffer = .ok buffer buffer := rfl

theorem reading_endAfter_at (width : Nat) (short : buffer.data.length < 2 ^ 64) :
    reading (endAfter width) buffer =
      if buffer.offset + width ≤ buffer.data.length then .ok (buffer.offset + width) buffer
      else .error (.fault .outOfBounds) buffer := by
  rw [reading, endAfter_at width short]
  by_cases room : buffer.offset + width ≤ buffer.data.length
  · rw [if_pos room, if_pos room]
  · rw [if_neg room, if_neg room]

/-- Reading the bytes of a number, in whatever order they are taken. -/
theorem reading_number_at (width : Nat) (ofBytes : Bytes → Int)
    (short : buffer.data.length < 2 ^ 64) :
    reading (do return ofBytes (← fixed width)) buffer =
      if buffer.offset + width ≤ buffer.data.length then
        .ok (ofBytes ((buffer.data.drop buffer.offset).take width))
          { buffer with offset := buffer.offset + width }
      else .error (.fault .outOfBounds) buffer := by
  rw [reading, agrees_map (agrees_fixed width) ofBytes _ short]
  simp only [liftM, monadLift, MonadLift.monadLift, bind, EStateM.bind, Read.take]
  by_cases room : buffer.offset + width ≤ buffer.data.length
  · simp only [if_pos room]
    rfl
  · simp only [if_neg room]

theorem readLE_at (type : ScalarType) (short : buffer.data.length < 2 ^ 64) :
    readLE type buffer =
      if buffer.offset + type.width ≤ buffer.data.length then
        .ok (type.ofBytesLE ((buffer.data.drop buffer.offset).take type.width))
          { buffer with offset := buffer.offset + type.width }
      else .error (.fault .outOfBounds) buffer :=
  reading_number_at type.width type.ofBytesLE short

theorem readBE_at (type : ScalarType) (short : buffer.data.length < 2 ^ 64) :
    readBE type buffer =
      if buffer.offset + type.width ≤ buffer.data.length then
        .ok (type.ofBytesBE ((buffer.data.drop buffer.offset).take type.width))
          { buffer with offset := buffer.offset + type.width }
      else .error (.fault .outOfBounds) buffer :=
  reading_number_at type.width type.ofBytesBE short

/-- The range that is written to is the one whose end was checked. -/
theorem overwrite_at (room : buffer.offset + scalar.type.width ≤ buffer.data.length) :
    Guarded.overwrite buffer.data buffer.offset (buffer.offset + scalar.type.width) scalar.bytes =
      .ok (buffer.put scalar).data := by
  have length_eq : scalar.bytes.length =
      buffer.offset + scalar.type.width - buffer.offset := by
    rw [Scalar.length_bytes, Nat.add_sub_cancel_left]
  rw [Guarded.overwrite, if_pos ⟨Nat.le_add_right _ _, room, length_eq⟩, put]

theorem writeLE_at (scalar : Scalar) (short : buffer.data.length < 2 ^ 64) :
    writeLE scalar buffer =
      if buffer.offset + scalar.type.width ≤ buffer.data.length then .ok () (buffer.put scalar)
      else .error (.fault .outOfBounds) buffer := by
  simp only [writeLE, bind, EStateM.bind, reading_endAfter_at scalar.type.width short]
  by_cases room : buffer.offset + scalar.type.width ≤ buffer.data.length
  · simp only [if_pos room, get_at, overwrite_at room]
    rfl
  · simp only [if_neg room]

theorem readLE_eq (type : ScalarType) (short : buffer.data.length < 2 ^ 64) :
    readLE type buffer = ofBuffer (fun before => before.readLE type) buffer := by
  rw [readLE_at type short, ofBuffer, Buffer.readLE, Buffer.window_at]
  split <;> rfl

theorem readBE_eq (type : ScalarType) (short : buffer.data.length < 2 ^ 64) :
    readBE type buffer = ofBuffer (fun before => before.readBE type) buffer := by
  rw [readBE_at type short, ofBuffer, Buffer.readBE, Buffer.window_at]
  split <;> rfl

theorem writeLE_eq (scalar : Scalar) (short : buffer.data.length < 2 ^ 64) :
    writeLE scalar buffer =
      ofBuffer (fun before => ((), ·) <$> before.writeLE scalar.type scalar.value) buffer := by
  rw [writeLE_at scalar short, ofBuffer, Buffer.writeLE, Buffer.window_at]
  split <;> rfl

/-- A value is read from its bytes, and the reversed one in the other order. -/
theorem read_of_window (short : data.length < 2 ^ 64)
    (room : offset + scalar.type.width ≤ data.length)
    (stands : (data.drop offset).take scalar.type.width = scalar.bytes) :
    readLE scalar.type { data, offset } =
        .ok scalar.value { data, offset := offset + scalar.type.width } ∧
      readBE scalar.type { data, offset } =
        .ok scalar.reversed.value { data, offset := offset + scalar.type.width } := by
  rw [readLE_at scalar.type short, readBE_at scalar.type short, if_pos room, if_pos room, stands]
  refine ⟨?_, rfl⟩
  rw [Scalar.bytes, ScalarType.ofBytesLE_toBytesLE scalar.holds]

theorem forM_cons_at (short : buffer.data.length < 2 ^ 64) :
    forM (scalar :: rest) writeLE buffer = .ok () written ↔
      buffer.offset + scalar.type.width ≤ buffer.data.length ∧
        forM rest writeLE (buffer.put scalar) = .ok () written := by
  simp only [List.forM_cons, bind, EStateM.bind, writeLE_at scalar short]
  by_cases room : buffer.offset + scalar.type.width ≤ buffer.data.length <;> simp [room]

theorem forM_succeeds_iff (short : buffer.data.length < 2 ^ 64) :
    (∃ written, forM scalars writeLE buffer = .ok () written) ↔
      scalars = [] ∨ buffer.offset + Scalar.widths scalars ≤ buffer.data.length := by
  induction scalars generalizing buffer with
  | nil => simp [pure, EStateM.pure]
  | cons scalar rest ih =>
      simp only [forM_cons_at short, exists_and_left, reduceCtorEq, false_or, Scalar.widths_cons]
      by_cases room : buffer.offset + scalar.type.width ≤ buffer.data.length
      · have length_eq := (sameOutside_put room).length_eq
        rw [ih (by rwa [length_eq]), length_eq, put]
        cases rest with
        | nil => simp [Scalar.widths]
        | cons next rest => simp [room, Nat.add_assoc]
      · simp only [room, false_and, false_iff]
        omega

/-- A run of writes changes the bytes from the first to the last of its values. -/
theorem sameOutside_forM (short : buffer.data.length < 2 ^ 64)
    (run : forM scalars writeLE buffer = .ok () written) :
    written.offset = buffer.offset + Scalar.widths scalars ∧
      SameOutside buffer.offset written.offset buffer.data written.data := by
  induction scalars generalizing buffer with
  | nil =>
      cases run
      exact ⟨rfl, .refl _ _ _⟩
  | cons scalar rest ih =>
      obtain ⟨room, run⟩ := (forM_cons_at short).mp run
      have first := sameOutside_put room
      obtain ⟨offset_eq, second⟩ := ih (by rwa [first.length_eq]) run
      rw [put] at offset_eq
      refine ⟨?_, first.append second (Nat.le_add_right _ _) ?_⟩
      · rw [offset_eq, Scalar.widths_cons, Nat.add_assoc]
      · rw [offset_eq]
        exact Nat.le_add_right _ _

/-- The values of a run are read in order from the offset it began at: what comes later does not
disturb what was written before. -/
theorem mapM_readLE_of_forM (short : buffer.data.length < 2 ^ 64)
    (run : forM scalars writeLE buffer = .ok () written) :
    (scalars.map (·.type)).mapM readLE { written with offset := buffer.offset } =
      .ok (scalars.map (·.value)) written := by
  induction scalars generalizing buffer with
  | nil =>
      cases run
      rfl
  | cons scalar rest ih =>
      obtain ⟨room, run⟩ := (forM_cons_at short).mp run
      have first := sameOutside_put room
      have short' : (buffer.put scalar).data.length < 2 ^ 64 := by rwa [first.length_eq]
      have second := (sameOutside_forM short' run).2
      have length_eq := second.length_eq.trans first.length_eq
      have kept : (written.data.drop buffer.offset).take scalar.type.width = _ :=
        second.window_eq (Nat.le_refl _)
      have read := (read_of_window (by rwa [length_eq]) (by rwa [length_eq])
        (kept.trans (window_put room))).1
      have later := ih short' run
      rw [put] at later
      simp only [List.map_cons, List.mapM_cons, bind, EStateM.bind, read, later]
      rfl

/-- A write to a buffer either has no room and changes nothing, or leaves the digits of its value in
its own range and all other bytes as they were; there the value is read, and in the other order the
one with the bytes reversed. After a run of writes the run of reads from the same offset gives all
the values. The functions of the buffer do the same as the accesses. -/
theorem writes_read_again (buffer : Buffer) (short : buffer.data.length < 2 ^ 64) :
    (∀ type, readLE type buffer = ofBuffer (fun before => before.readLE type) buffer ∧
      readBE type buffer = ofBuffer (fun before => before.readBE type) buffer) ∧
    (∀ scalar : Scalar,
      writeLE scalar buffer =
        ofBuffer (fun before => ((), ·) <$> before.writeLE scalar.type scalar.value) buffer ∧
      if buffer.offset + scalar.type.width ≤ buffer.data.length then
        ∃ written, writeLE scalar buffer = .ok () written ∧
          written.offset = buffer.offset + scalar.type.width ∧
          SameOutside buffer.offset written.offset buffer.data written.data ∧
          Shows written.data buffer.offset scalar ∧
          readLE scalar.type { written with offset := buffer.offset } = .ok scalar.value written ∧
          ∃ reversed : Scalar, reversed.type = scalar.type ∧
            reversed.bytes = scalar.bytes.reverse ∧
            readBE scalar.type { written with offset := buffer.offset } = .ok reversed.value written
      else writeLE scalar buffer = .error (.fault .outOfBounds) buffer) ∧
    ∀ scalars : List Scalar,
      ((∃ written, forM scalars writeLE buffer = .ok () written) ↔
        scalars = [] ∨ buffer.offset + Scalar.widths scalars ≤ buffer.data.length) ∧
      ∀ written, forM scalars writeLE buffer = .ok () written →
        written.offset = buffer.offset + Scalar.widths scalars ∧
        SameOutside buffer.offset written.offset buffer.data written.data ∧
        (scalars.map (·.type)).mapM readLE { written with offset := buffer.offset } =
          .ok (scalars.map (·.value)) written := by
  refine ⟨fun type => ⟨readLE_eq type short, readBE_eq type short⟩,
    fun scalar => ⟨writeLE_eq scalar short, ?_⟩, fun scalars => ⟨forM_succeeds_iff short, ?_⟩⟩
  · by_cases room : buffer.offset + scalar.type.width ≤ buffer.data.length
    · have same := sameOutside_put room
      have stands := window_put room
      obtain ⟨readLE, readBE⟩ := read_of_window (by rwa [same.length_eq]) (by rwa [same.length_eq])
        stands
      rw [if_pos room]
      refine ⟨buffer.put scalar, ?_, rfl, same, shows_of_window stands, readLE, scalar.reversed, rfl,
        scalar.bytes_reversed, readBE⟩
      rw [writeLE_at scalar short, if_pos room]
    · rw [if_neg room, writeLE_at scalar short, if_neg room]
  · intro written run
    obtain ⟨offset_eq, same⟩ := sameOutside_forM short run
    exact ⟨offset_eq, same, mapM_readLE_of_forM short run⟩

/-- Sixteen bytes, with the offset behind the first. -/
def marked : Buffer := { data := List.replicate 16 0xEE, offset := 1 }

/-- A negative number, the bits of 1.5 and the largest word. -/
def mixed : List Scalar := [
  { type := .i16, value := -2, holds := by decide },
  { type := .f32, value := 0x3FC00000, holds := by decide },
  { type := .u64, value := 0xFFFFFFFFFFFFFFFF, holds := by decide }]

/-- One byte stays in front of the three values and one behind them. At the greatest offset of 64
bits the end of a single byte does not fit into them. -/
theorem writes_read_again_mixed :
    marked.data.length < 2 ^ 64 ∧
    (∃ written, forM mixed writeLE marked = .ok () written ∧
      written.data = [0xEE, 0xFE, 0xFF, 0x00, 0x00, 0xC0, 0x3F, 0xFF, 0xFF, 0xFF, 0xFF, 0xFF, 0xFF,
        0xFF, 0xFF, 0xEE] ∧
      [ScalarType.i16, .f32, .u64].mapM readLE { written with offset := 1 } =
        .ok [-2, 0x3FC00000, 0xFFFFFFFFFFFFFFFF] written) ∧
    writeLE { type := .u8, value := 0, holds := by decide } { marked with offset := 2 ^ 64 - 1 } =
      .error (.fault .outOfBounds) { marked with offset := 2 ^ 64 - 1 } := by
  have short : marked.data.length < 2 ^ 64 := by decide
  obtain ⟨-, -, runs⟩ := writes_read_again marked short
  obtain ⟨-, writes, -⟩ := writes_read_again { marked with offset := 2 ^ 64 - 1 } short
  obtain ⟨written, run⟩ := (runs mixed).1.mpr (by decide)
  refine ⟨short, ⟨written, run, ?_, ((runs mixed).2 written run).2.2⟩, ?_⟩
  · cases run
    rfl
  · have refused := (writes { type := .u8, value := 0, holds := by decide }).2
    rwa [if_neg (by decide)] at refused

end Access

end CliMetadata
