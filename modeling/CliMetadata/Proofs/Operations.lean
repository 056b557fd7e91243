import CliMetadata.Proofs.CheckedReads
import CliMetadata.Proofs.Scalars
import CliMetadata.Proofs.SectionTables

/-!
Runs of cursor operations. Each operation reaches to a place, the end of its bytes or the place it
goes to, and is out of bounds if and only if that place lies behind the end of the data. Whatever is
asked for, a cursor stays inside of its data, and where an operation fails it stays where it is: but
a coded index with the reserved tag has been read when it is refused.
-/

namespace CliMetadata

namespace Cursor

open Compressed

/-- The width of the compressed integer that the first byte announces. A byte that announces none is
looked at alone. -/
def announcedWidth (first : UInt8) : Nat :=
  if 0x80 ≤ first ∧ first < 0xC0 then 2 else if 0xC0 ≤ first ∧ first < 0xE0 then 4 else 1

theorem announcedWidth_eq {first : UInt8} {form : Form}
    (announced : Form.ofFirstByte? first = some form) : announcedWidth first = form.width := by
  simp only [Form.ofFirstByte?] at announced
  simp only [announcedWidth, UInt8.le_iff_toNat_le, UInt8.lt_iff_toNat_lt, UInt8.reduceToNat]
  split_ifs at announced with short medium long <;> cases announced
  · rw [if_neg (by omega), if_neg (by omega)]
    rfl
  · rw [if_pos (by omega)]
    rfl
  · rw [if_neg (by omega), if_pos (by omega)]
    rfl

theorem ofFirstByte?_eq_none_iff {first : UInt8} :
    Form.ofFirstByte? first = none ↔ 0xE0 ≤ first := by
  simp only [Form.ofFirstByte?, UInt8.le_iff_toNat_le, UInt8.reduceToNat]
  split_ifs <;> simp <;> omega

namespace Operation

/-- The integers that say their width themselves. -/
def isCompressed : Operation → Bool
  | .unsigned | .signed | .token => true
  | _ => false

/-- Looks and checks, which leave the cursor where it is. -/
def isLook : Operation → Bool
  | .require _ | .endAfter _ | .peekByte | .peekLE _ => true
  | _ => false

/-- The end of the bytes that the operation is about, or the place it goes to. -/
def reach (cursor : Cursor) : Operation → Nat
  | .seek target => target.toNat
  | .advance | .peekByte => cursor.pos + 1
  | .advanceBy count | .require count | .endAfter count | .bytes count => cursor.pos + count.toNat
  | .peekLE type | .readLE type | .readBE type => cursor.pos + type.width
  | .unsigned | .signed | .token => cursor.pos + (cursor.unread.head?.map announcedWidth).getD 1
  | .sectionHeader => cursor.pos + 40

/-- The cursor after the operation, if it does not fail. -/
def behind (cursor : Cursor) (op : Operation) : Cursor :=
  if op.isLook then cursor else { cursor with pos := op.reach cursor }

/-- The bytes that the operation is about. -/
def window (cursor : Cursor) (op : Operation) : Bytes :=
  cursor.unread.take (op.reach cursor - cursor.pos)

/-- The answer is what the bytes at the position spell. -/
def IsAnswer (cursor : Cursor) (answer : Answer) (op : Operation) : Prop :=
  match op with
  | .seek _ | .advance | .advanceBy _ | .require _ => answer = .done
  | .endAfter _ => answer = .place (op.reach cursor)
  | .peekByte => ∃ value, op.window cursor = [value] ∧ answer = .byte value
  | .peekLE type | .readLE type => ∃ value, type.Holds value ∧
      op.window cursor = type.toBytesLE value ∧ answer = .number value
  | .readBE type => ∃ value, type.Holds value ∧
      (op.window cursor).reverse = type.toBytesLE value ∧ answer = .number value
  | .bytes _ => answer = .bytes (op.window cursor)
  | .unsigned => ∃ numeral : Numeral, op.window cursor = numeral.bytes ∧
      answer = .number numeral.raw
  | .signed => ∃ numeral : Numeral, op.window cursor = numeral.bytes ∧
      answer = .number numeral.signed
  | .token => ∃ index : IndexNumeral, op.window cursor = index.bytes ∧ answer = .token index.token
  | .sectionHeader => ∃ header, op.window cursor = SectionHeader.encode header ∧
      answer = .header header

/-- How an operation can end. -/
inductive Outcome (cursor : Cursor) (op : Operation) : EStateM.Result Fault Cursor Answer → Prop
  | ok (answer : Answer) (inside : op.reach cursor ≤ cursor.data.length)
      (right : op.IsAnswer cursor answer) : Outcome cursor op (.ok answer (op.behind cursor))
  | outOfBounds (outside : cursor.data.length < op.reach cursor) :
      Outcome cursor op (.error .outOfBounds cursor)
  | invalidInteger (first : UInt8) (compressed : op.isCompressed)
      (here : cursor.unread.head? = some first) (high : 0xE0 ≤ first) :
      Outcome cursor op (.error (.invalidCompressedInteger first cursor.pos) cursor)
  | reservedTag (numeral : Numeral) (token : op = .token)
      (written : op.window cursor = numeral.bytes) (inside : op.reach cursor ≤ cursor.data.length)
      (reserved : numeral.raw % 4 = 3) :
      Outcome cursor op (.error (.malformed (.reservedIndexTag numeral.raw)) (op.behind cursor))

/-- What a reader gives that refuses unless the condition holds. -/
def checked {α : Type} (cursor : Cursor) (c : Prop) [Decidable c] (a : α) (stopped : Cursor) :
    EStateM.Result Fault Cursor α :=
  if c then .ok a stopped else .error .outOfBounds cursor

theorem bind_checked {α β : Type} {read : Read α} {next : α → Read β} {cursor stopped : Cursor}
    {c : Prop} [Decidable c] {a : α} {b : β} (h : read cursor = checked cursor c a stopped)
    (hnext : next a stopped = .ok b stopped) :
    (read >>= next) cursor = checked cursor c b stopped := by
  simp only [bind, EStateM.bind, h, checked]
  by_cases holds : c
  · simp only [if_pos holds, hnext]
  · simp only [if_neg holds]

theorem peek_checked {α : Type} {read : Read α} {cursor stopped : Cursor} {c : Prop} [Decidable c]
    {a : α} (h : read cursor = checked cursor c a stopped) :
    Read.peek read cursor = checked cursor c a cursor := by
  simp only [Read.peek, h, checked]
  by_cases holds : c
  · simp only [if_pos holds]
  · simp only [if_neg holds]

/-- Of so many bytes at the position every string gives an answer. -/
theorem outcome_of_window {cursor : Cursor} {op : Operation} {count : Nat} (f : Bytes → Answer)
    (reach_eq : op.reach cursor = cursor.pos + count)
    (read_eq : op.read cursor = checked cursor (cursor.pos + count ≤ cursor.data.length)
      (f (cursor.unread.take count)) (op.behind cursor))
    (right : ∀ bytes : Bytes, bytes.length = count → op.window cursor = bytes →
      op.IsAnswer cursor (f bytes)) :
    Outcome cursor op (op.read cursor) := by
  rw [read_eq, checked]
  by_cases room : cursor.pos + count ≤ cursor.data.length
  · rw [if_pos room]
    refine .ok _ (reach_eq ▸ room) (right _ ?_ ?_)
    · rw [List.length_take, Cursor.unread, List.length_drop]
      omega
    · rw [window, reach_eq, Nat.add_sub_cancel_left]
  · rw [if_neg room]
    exact .outOfBounds (reach_eq ▸ Nat.lt_of_not_le room)

theorem reach_of_compressed {op : Operation} (compressed : op.isCompressed) (cursor : Cursor) :
    op.reach cursor = cursor.pos + (cursor.unread.head?.map announcedWidth).getD 1 := by
  cases op <;> first | rfl | contradiction

/-- The bytes of an integer are found where the first one announces them. -/
theorem outcome_of_compressed {cursor : Cursor} {op : Operation} (compressed : op.isCompressed)
    {next : Form × Nat → Read Answer} (read_eq : op.read = Read.compressed >>= next)
    (stays : ∀ numeral : Numeral, op.window cursor = numeral.bytes →
      op.reach cursor ≤ cursor.data.length →
      Outcome cursor op (next (numeral.form, numeral.raw) (op.behind cursor))) :
    Outcome cursor op (op.read cursor) := by
  have reach_eq := reach_of_compressed compressed cursor
  have moves : op.isLook = false := by cases op <;> first | rfl | contradiction
  have behind_eq : op.behind cursor = { cursor with pos := op.reach cursor } := by
    rw [behind, if_neg (by simp [moves])]
  rw [read_eq]
  cases unread : cursor.unread with
  | nil =>
      have stuck : Read.compressed cursor = .error .outOfBounds cursor := by
        simp only [Read.compressed, bind, EStateM.bind, Read.position, Read.peekByte, unread]
      simp only [bind, EStateM.bind, stuck]
      refine .outOfBounds ?_
      have length_eq := congrArg List.length unread
      rw [Cursor.unread, List.length_drop, List.length_nil] at length_eq
      rw [reach_eq, unread]
      simp only [List.head?_nil, Option.map_none, Option.getD_none]
      omega
  | cons first rest =>
      have head : cursor.unread.head? = some first := by rw [unread, List.head?_cons]
      cases form? : Form.ofFirstByte? first with
      | none =>
          have stuck : Read.compressed cursor =
              .error (.invalidCompressedInteger first cursor.pos) cursor := by
            simp only [Read.compressed, bind, EStateM.bind, Read.position, Read.peekByte, unread,
              form?]
            rfl
          simp only [bind, EStateM.bind, stuck]
          exact .invalidInteger first compressed head (ofFirstByte?_eq_none_iff.mp form?)
      | some form =>
          rw [head, Option.map_some, Option.getD_some, announcedWidth_eq form?] at reach_eq
          rcases Nat.lt_or_ge cursor.data.length (op.reach cursor) with outside | inside
          · have stuck : Read.compressed cursor = .error .outOfBounds cursor := by
              have short : Read.take form.width cursor = .error .outOfBounds cursor :=
                if_neg (Nat.not_le_of_lt (reach_eq ▸ outside))
              simp only [Read.compressed, bind, EStateM.bind, Read.position, Read.peekByte, unread,
                form?, short]
            simp only [bind, EStateM.bind, stuck]
            exact .outOfBounds outside
          · obtain ⟨numeral, rfl, taken⟩ := Read.take_numeral unread form? (reach_eq ▸ inside)
            have window_eq : op.window cursor = numeral.bytes := by
              rw [window, reach_eq, Nat.add_sub_cancel_left]
              exact (Read.take_eq_ok.mp taken).2.1
            have done : Read.compressed cursor =
                .ok (numeral.form, numeral.raw) (op.behind cursor) := by
              rw [behind_eq, reach_eq]
              simp only [Read.compressed, bind, EStateM.bind, Read.position, Read.peekByte, unread,
                form?, taken, numeral.toNatBE_bytes_mod]
              rfl
            simp only [bind, EStateM.bind, done]
            exact stays numeral window_eq inside

theorem outcome {cursor : Cursor} (op : Operation) (within : cursor.pos ≤ cursor.data.length) :
    Outcome cursor op (op.read cursor) := by
  cases op with
  | seek target =>
      have sought : read (.seek target) cursor = checked cursor
          (target.toNat ≤ cursor.data.length) .done { cursor with pos := target.toNat } :=
        bind_checked rfl rfl
      rw [sought, checked]
      by_cases inside : target.toNat ≤ cursor.data.length
      · rw [if_pos inside]
        exact .ok .done inside rfl
      · rw [if_neg inside]
        exact .outOfBounds (Nat.lt_of_not_le inside)
  | advance | advanceBy count =>
      exact outcome_of_window (fun _ => .done) rfl (bind_checked rfl rfl) fun _ _ _ => rfl
  | require count =>
      have room_iff : count.toNat ≤ cursor.remaining ↔
          cursor.pos + count.toNat ≤ cursor.data.length := by
        rw [remaining]
        omega
      have required : Read.require count.toNat cursor =
          checked cursor (cursor.pos + count.toNat ≤ cursor.data.length) () cursor := by
        simp only [Read.require, room_iff, checked]
      exact outcome_of_window (fun _ => .done) rfl (bind_checked required rfl) fun _ _ _ => rfl
  | endAfter count =>
      exact outcome_of_window (fun _ => .place (cursor.pos + count.toNat)) rfl
        (bind_checked rfl rfl) fun _ _ _ => rfl
  | peekByte =>
      have room_iff : cursor.pos + 1 ≤ cursor.data.length ↔ cursor.unread ≠ [] := by
        rw [Cursor.unread, ne_eq, List.drop_eq_nil_iff]
        omega
      refine outcome_of_window (fun bytes => .byte (bytes.headD 0)) rfl (bind_checked ?_ rfl) ?_
      · simp only [Read.peekByte, checked, room_iff]
        cases cursor.unread <;> rfl
      · intro bytes length_eq window_eq
        obtain ⟨value, rfl⟩ := List.length_eq_one_iff.mp length_eq
        exact ⟨value, window_eq, rfl⟩
  | peekLE type =>
      refine outcome_of_window (fun bytes => .number (type.ofBytesLE bytes)) rfl
        (bind_checked (peek_checked (bind_checked rfl rfl)) rfl) ?_
      intro bytes length_eq window_eq
      exact ⟨_, ScalarType.holds_ofBytesLE length_eq,
        window_eq.trans (ScalarType.toBytesLE_ofBytesLE length_eq).symm, rfl⟩
  | readLE type =>
      refine outcome_of_window (fun bytes => .number (type.ofBytesLE bytes)) rfl
        (bind_checked (bind_checked rfl rfl) rfl) ?_
      intro bytes length_eq window_eq
      exact ⟨_, ScalarType.holds_ofBytesLE length_eq,
        window_eq.trans (ScalarType.toBytesLE_ofBytesLE length_eq).symm, rfl⟩
  | readBE type =>
      refine outcome_of_window (fun bytes => .number (type.ofBytesBE bytes)) rfl
        (bind_checked (bind_checked rfl rfl) rfl) ?_
      intro bytes length_eq window_eq
      have reversed : bytes.reverse.length = type.width := by rwa [List.length_reverse]
      refine ⟨type.ofBytesLE bytes.reverse, ScalarType.holds_ofBytesLE reversed, ?_, rfl⟩
      rw [ScalarType.toBytesLE_ofBytesLE reversed, window_eq]
  | bytes count =>
      exact outcome_of_window .bytes rfl (bind_checked rfl rfl)
        fun _ _ window_eq => congrArg Answer.bytes window_eq.symm
  | unsigned =>
      have read_eq : read .unsigned = Read.compressed >>= fun result =>
          pure (.number result.2) := by
        simp only [read, Read.unsigned, bind_assoc, pure_bind]
      refine outcome_of_compressed rfl read_eq fun numeral window_eq inside => ?_
      exact .ok _ inside ⟨numeral, window_eq, rfl⟩
  | signed =>
      have read_eq : read .signed = Read.compressed >>= fun result =>
          pure (.number (result.1.unrotate result.2)) := by
        simp only [read, Read.signed, bind_assoc, pure_bind]
      refine outcome_of_compressed rfl read_eq fun numeral window_eq inside => ?_
      exact .ok _ inside ⟨numeral, window_eq, rfl⟩
  | token =>
      have read_eq : read .token = Read.compressed >>= fun result => do
          return .token (← Read.ofOption (Token.ofCodedIndex? result.2)
            (.malformed (.reservedIndexTag result.2))) := by
        simp only [read, Read.token, Read.unsigned, bind_assoc, pure_bind]
      refine outcome_of_compressed rfl read_eq fun numeral window_eq inside => ?_
      cases token? : Token.ofCodedIndex? numeral.raw with
      | some token => exact .ok _ inside ⟨⟨numeral, token, token?⟩, window_eq, rfl⟩
      | none =>
          exact .reservedTag numeral rfl window_eq inside
            (Token.ofCodedIndex?_eq_none_iff.mp token?)
  | sectionHeader =>
      rcases Nat.lt_or_ge cursor.data.length (cursor.pos + 40) with outside | inside
      · have stuck : Read.sectionHeader cursor = .error .outOfBounds cursor :=
          Read.sectionHeader_short (by rw [remaining, SectionHeader.width]; omega)
        simp only [read, bind, EStateM.bind, stuck]
        exact .outOfBounds outside
      · have room : SectionHeader.width ≤ cursor.remaining := by
          rw [remaining, SectionHeader.width]
          omega
        obtain ⟨header, written, done⟩ := Read.sectionHeader_ok room
        simp only [read, bind, EStateM.bind, done]
        refine .ok _ inside ⟨header, ?_, rfl⟩
        rw [window, written, reach, Nat.add_sub_cancel_left, SectionHeader.width]

namespace Outcome

section

variable {cursor : Cursor} {op : Operation} {result : EStateM.Result Fault Cursor Answer}

theorem outOfBounds_iff (h : Outcome cursor op result) :
    (∃ stopped, result = .error .outOfBounds stopped) ↔ cursor.data.length < op.reach cursor := by
  refine ⟨?_, ?_⟩
  · rintro ⟨stopped, rfl⟩
    cases h with
    | outOfBounds outside => exact outside
  · intro outside
    cases h with
    | outOfBounds => exact ⟨cursor, rfl⟩
    | ok answer inside right => exact absurd inside (Nat.not_le_of_lt outside)
    | reservedTag numeral token written inside reserved =>
        exact absurd inside (Nat.not_le_of_lt outside)
    | invalidInteger first compressed here high =>
        -- The byte that announces no form is there.
        have alone : announcedWidth first = 1 := by
          simp only [UInt8.le_iff_toNat_le, UInt8.reduceToNat] at high
          simp only [announcedWidth, UInt8.le_iff_toNat_le, UInt8.lt_iff_toNat_lt,
            UInt8.reduceToNat]
          rw [if_neg (by omega), if_neg (by omega)]
        have nonempty : cursor.unread ≠ [] := by
          rintro empty
          rw [empty] at here
          cases here
        rw [Cursor.unread, ne_eq, List.drop_eq_nil_iff] at nonempty
        rw [reach_of_compressed compressed, here, Option.map_some, Option.getD_some,
          alone] at outside
        omega

theorem stopped_inside (within : cursor.pos ≤ cursor.data.length) (h : Outcome cursor op result) :
    (Read.stopped result).data = cursor.data ∧
      (Read.stopped result).pos ≤ cursor.data.length := by
  have moved (inside : op.reach cursor ≤ cursor.data.length) :
      (op.behind cursor).data = cursor.data ∧ (op.behind cursor).pos ≤ cursor.data.length := by
    rw [behind]
    split
    · exact ⟨rfl, within⟩
    · exact ⟨rfl, inside⟩
  cases h with
  | ok answer inside right => exact moved inside
  | outOfBounds | invalidInteger => exact ⟨rfl, within⟩
  | reservedTag numeral token written inside reserved => exact moved inside

theorem of_ok {answer : Answer} {stopped : Cursor} (h : Outcome cursor op (.ok answer stopped)) :
    op.IsAnswer cursor answer ∧ stopped = op.behind cursor := by
  cases h with
  | ok answer inside right => exact ⟨right, rfl⟩

theorem of_error {fault : Fault} {stopped : Cursor} (h : Outcome cursor op (.error fault stopped)) :
    stopped = cursor ∧ (fault = .outOfBounds ∨ op.isCompressed ∧ ∃ first,
        cursor.unread.head? = some first ∧ 0xE0 ≤ first ∧
          fault = .invalidCompressedInteger first cursor.pos) ∨
      op = .token ∧ stopped = op.behind cursor ∧ ∃ numeral : Numeral,
        op.window cursor = numeral.bytes ∧ numeral.raw % 4 = 3 ∧
          fault = .malformed (.reservedIndexTag numeral.raw) := by
  cases h with
  | outOfBounds outside => exact .inl ⟨rfl, .inl rfl⟩
  | invalidInteger first compressed here high =>
      exact .inl ⟨rfl, .inr ⟨compressed, first, here, high, rfl⟩⟩
  | reservedTag numeral token written inside reserved =>
      exact .inr ⟨token, rfl, numeral, written, reserved, rfl⟩

end

end Outcome

end Operation

/-- A coded index with the reserved tag is refused from behind it. -/
theorem read_reserved {cursor : Cursor} {numeral : Numeral}
    (written : numeral.bytes <+: cursor.unread) (reserved : numeral.raw % 4 = 3) :
    Operation.read .token cursor = .error (.malformed (.reservedIndexTag numeral.raw))
      (cursor.advance numeral.bytes.length) := by
  obtain ⟨rest, here⟩ := written
  have index := Read.accepts_unsigned.read_spelling numeral trivial here.symm
  simp only [Operation.read, Read.token, bind, EStateM.bind, index,
    Token.ofCodedIndex?_eq_none_iff.mpr reserved]
  rfl

/-- The cursor after one operation after the other, with faults or without. -/
def after (cursor : Cursor) (ops : List Operation) : Cursor :=
  ops.foldl (fun cursor op => Read.stopped (op.read cursor)) cursor

/-- A run leaves a cursor inside of its data. -/
theorem after_inside (ops : List Operation) {cursor : Cursor}
    (within : cursor.pos ≤ cursor.data.length) :
    (cursor.after ops).data = cursor.data ∧ (cursor.after ops).pos ≤ cursor.data.length := by
  induction ops generalizing cursor with
  | nil => exact ⟨rfl, within⟩
  | cons op rest ih =>
      obtain ⟨data_eq, next⟩ := (op.outcome within).stopped_inside within
      rw [← data_eq] at next ⊢
      exact ih next

theorem outcomes_cons {α : Type} (read : Read α) (rest : List (Read α)) (cursor : Cursor) :
    Read.outcomes (read :: rest) cursor =
      read cursor :: Read.outcomes rest (Read.stopped (read cursor)) := by
  rw [Read.outcomes]
  cases read cursor <;> rfl

theorem outcomes_after (before : List Operation) (op : Operation) (later : List Operation)
    (cursor : Cursor) :
    (Read.outcomes ((before ++ op :: later).map Operation.read) cursor)[before.length]? =
      some (op.read (cursor.after before)) := by
  induction before generalizing cursor with
  | nil => rw [List.nil_append, List.map_cons, outcomes_cons]; rfl
  | cons first rest ih =>
      rw [List.cons_append, List.map_cons, outcomes_cons, List.length_cons,
        List.getElem?_cons_succ]
      exact ih _

/-- After any run of operations, with faults or without, a cursor is inside of its data. The next
operation is out of bounds if and only if what it reaches to lies behind the end. Where it gives an
answer that is what the bytes at the position spell, and the cursor is behind them, or where it was
after a look. Where it fails the cursor has not moved, but for a coded index with the reserved tag,
which it is behind. No sum of 64 bits on the way overflows, and no range of bytes is left. -/
theorem operations_exact (data : Bytes) (before : List Operation) (op : Operation)
    (later : List Operation) :
    let cursor := after { data } before
    let result := op.read cursor
    (Read.outcomes ((before ++ op :: later).map Operation.read) { data })[before.length]? =
      some result ∧
    cursor.data = data ∧ cursor.pos ≤ data.length ∧ cursor.pos + cursor.remaining = data.length ∧
    ((∃ stopped, result = .error .outOfBounds stopped) ↔ data.length < op.reach cursor) ∧
    (∀ answer stopped, result = .ok answer stopped →
      op.IsAnswer cursor answer ∧ stopped = op.behind cursor) ∧
    (∀ fault stopped, result = .error fault stopped →
      stopped = cursor ∧ (fault = .outOfBounds ∨ op.isCompressed ∧ ∃ first,
        cursor.unread.head? = some first ∧ 0xE0 ≤ first ∧
          fault = .invalidCompressedInteger first cursor.pos) ∨
      op = .token ∧ stopped = op.behind cursor ∧ ∃ numeral : Numeral,
        op.window cursor = numeral.bytes ∧ numeral.raw % 4 = 3 ∧
          fault = .malformed (.reservedIndexTag numeral.raw)) ∧
    (∀ numeral : Numeral, op = .token → numeral.bytes <+: cursor.unread → numeral.raw % 4 = 3 →
      result = .error (.malformed (.reservedIndexTag numeral.raw))
        (cursor.advance numeral.bytes.length)) ∧
    (data.length < 2 ^ 64 →
      op.guarded cursor = (liftM op.read : GuardedRead Answer) cursor) := by
  intro cursor result
  have start : (⟨data, 0⟩ : Cursor).pos ≤ data.length := Nat.zero_le _
  obtain ⟨data_eq, within⟩ : cursor.data = data ∧ cursor.pos ≤ data.length :=
    after_inside before start
  have next : Operation.Outcome cursor op result := op.outcome (data_eq ▸ within)
  refine ⟨outcomes_after before op later _, data_eq, within, ?_, ?_, ?_, ?_, ?_, ?_⟩
  · rw [remaining, data_eq]
    omega
  · rw [next.outOfBounds_iff, data_eq]
  · intro answer stopped given
    exact (given ▸ next).of_ok
  · intro fault stopped given
    exact (given ▸ next).of_error
  · rintro numeral rfl written reserved
    exact read_reserved written reserved
  · intro short
    exact op.agrees_guarded cursor (data_eq ▸ short)

/-- A reserved coded index, a byte that announces no integer, and one byte more. -/
def faultyData : Bytes := [0x07, 0xFF, 0x2A]

/-- Three operations that fail, the last one with a step that no word of 64 bits can end. -/
def failingRun : List Operation := [.token, .unsigned, .advanceBy 0xFFFFFFFFFFFFFFFF]

theorem operations_exact_failing_run :
    after { data := faultyData } failingRun = ⟨faultyData, 1⟩ ∧
    faultyData.length < Operation.reach ⟨faultyData, 1⟩ (.advanceBy 0xFFFFFFFFFFFFFFFF) ∧
    (∃ numeral : Numeral, faultyData.take 1 = numeral.bytes ∧ numeral.raw % 4 = 3 ∧
      Fault.malformed (.reservedIndexTag 7) = .malformed (.reservedIndexTag numeral.raw)) ∧
    (∃ value, ScalarType.u16.Holds value ∧ [0xFF, 0x2A] = ScalarType.u16.toBytesLE value ∧
      Answer.number 0x2AFF = .number value) ∧
    Operation.guarded (.readLE .u16) ⟨faultyData, 1⟩ = .ok (.number 0x2AFF) ⟨faultyData, 3⟩ := by
  obtain ⟨-, -, -, -, bounds, -⟩ := operations_exact faultyData [.token, .unsigned]
    (.advanceBy 0xFFFFFFFFFFFFFFFF) [.readLE .u16]
  obtain ⟨-, -, -, -, -, -, failed, -⟩ := operations_exact faultyData [] .token [.unsigned]
  obtain ⟨-, -, -, -, -, given, -, -, agree⟩ := operations_exact faultyData failingRun
    (.readLE .u16) []
  refine ⟨rfl, bounds.mp ⟨_, rfl⟩, ?_, (given (.number 0x2AFF) _ rfl).1, ?_⟩
  · obtain ⟨still, -⟩ | ⟨-, -, moved⟩ :=
      failed (.malformed (.reservedIndexTag 7)) ⟨faultyData, 1⟩ rfl
    · cases still
    · exact moved
  · exact agree (by decide)

end Cursor

end CliMetadata
