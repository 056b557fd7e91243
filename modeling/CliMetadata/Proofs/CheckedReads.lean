import CliMetadata.Cursor.Operation
import CliMetadata.Proofs.Locating
import CliMetadata.Proofs.Words

/-!
Cursors over data that a word of 64 bits can count. The end of what is read may lie behind the last
place such a word can name, but then it lies behind the end of the data as well, and the checked sum
gives the fault that the comparison with the end gives. The sums and ranges that are relied on come
after such a check.
-/

namespace CliMetadata

namespace Read

theorem staysInside_require (count : Nat) : StaysInside (require count) := by
  intro cursor
  rw [require]
  split <;> exact .refl cursor

end Read

namespace GuardedRead

open Compressed

section

variable {α β : Type}

/-- On data that are not too long the reader does what the other one does, without a crash. -/
def Agrees (guarded : GuardedRead α) (read : Read α) : Prop :=
  ∀ cursor : Cursor, cursor.data.length < 2 ^ 64 →
    guarded cursor = (liftM read : GuardedRead α) cursor

theorem agrees_liftM (read : Read α) : Agrees (liftM read) read := fun _ _ => rfl

theorem agrees_bind {guarded : GuardedRead α} {read : Read α} {next : α → GuardedRead β}
    {next' : α → Read β} (h : Agrees guarded read) (inside : Read.StaysInside read)
    (hnext : ∀ a, Agrees (next a) (next' a)) : Agrees (guarded >>= next) (read >>= next') := by
  intro cursor short
  have reached := inside cursor
  rw [liftM_bind]
  simp only [bind, EStateM.bind, h cursor short]
  simp only [liftM, monadLift, MonadLift.monadLift]
  cases result : read cursor with
  | ok a between =>
      rw [result] at reached
      have still : between.data.length < 2 ^ 64 := by rwa [show between.data = _ from reached.1]
      exact hnext a between still
  | error fault stopped => rfl

theorem agrees_map {guarded : GuardedRead α} {read : Read α} (h : Agrees guarded read)
    (f : α → β) :
    Agrees (guarded >>= fun a => pure (f a)) (read >>= fun a => pure (f a)) := by
  intro cursor short
  simp only [bind, EStateM.bind, h cursor short, liftM, monadLift, MonadLift.monadLift]
  cases read cursor <;> rfl

theorem agrees_peek {guarded : GuardedRead α} {read : Read α} (h : Agrees guarded read) :
    Agrees (peek guarded) (Read.peek read) := by
  intro cursor short
  simp only [peek, h cursor short, liftM, monadLift, MonadLift.monadLift, Read.peek]
  cases read cursor <;> rfl

end

theorem endAfter_at {cursor : Cursor} (count : Nat) (short : cursor.data.length < 2 ^ 64) :
    endAfter count cursor =
      if cursor.pos + count ≤ cursor.data.length then .ok (cursor.pos + count) cursor
      else .error (.fault .outOfBounds) cursor := by
  simp only [endAfter, bind, EStateM.bind, get_at]
  by_cases room : cursor.pos + count ≤ cursor.data.length
  · rw [if_pos room, if_pos ⟨Nat.lt_of_le_of_lt room short, room⟩]
    rfl
  · rw [if_neg room, if_neg fun fits => room fits.2]
    rfl

theorem agrees_endAfter (count : Nat) : Agrees (endAfter count) (Read.endAfter count) := by
  intro cursor short
  rw [endAfter_at count short]
  simp only [liftM, monadLift, MonadLift.monadLift, Read.endAfter]
  by_cases room : cursor.pos + count ≤ cursor.data.length
  · rw [if_pos room, if_pos room]
  · rw [if_neg room, if_neg room]

theorem agrees_skip (count : Nat) : Agrees (skip count) (Read.skip count) := by
  intro cursor short
  simp only [skip, bind, EStateM.bind, endAfter_at count short, liftM, monadLift,
    MonadLift.monadLift, Read.skip]
  by_cases room : cursor.pos + count ≤ cursor.data.length
  · simp only [if_pos room]
    rfl
  · simp only [if_neg room]

theorem window_at {cursor : Cursor} (count : Nat) (short : cursor.data.length < 2 ^ 64) :
    window count cursor =
      if cursor.pos + count ≤ cursor.data.length then .ok (cursor.unread.take count) cursor
      else .error (.fault .outOfBounds) cursor := by
  simp only [window, bind, EStateM.bind, endAfter_at count short]
  by_cases room : cursor.pos + count ≤ cursor.data.length
  · simp only [if_pos room, get_at, Guarded.range_eq_ok room]
    rfl
  · simp only [if_neg room]

theorem agrees_bytes (count : Nat) : Agrees (bytes count) (Read.take count) := by
  intro cursor short
  simp only [bytes, bind, EStateM.bind, endAfter_at count short, liftM, monadLift,
    MonadLift.monadLift, Read.take]
  by_cases room : cursor.pos + count ≤ cursor.data.length
  · simp only [if_pos room, get_at, Guarded.range_eq_ok room]
    rfl
  · simp only [if_neg room]

theorem agrees_fixed (width : Nat) : Agrees (fixed width) (Read.take width) := by
  intro cursor short
  simp only [fixed, bind, EStateM.bind, window_at width short, liftM, monadLift,
    MonadLift.monadLift, Read.take]
  by_cases room : cursor.pos + width ≤ cursor.data.length
  · simp only [if_pos room, Read.position, Guarded.add, if_pos (Nat.lt_of_le_of_lt room short)]
    rfl
  · simp only [if_neg room]

/-- The sum that moves the position behind an integer is one that was checked when its bytes were
found. -/
theorem formBytes_at {cursor : Cursor} {first : UInt8} {rest : Bytes} (form : Form)
    (unread : cursor.unread = first :: rest) (short : cursor.data.length < 2 ^ 64) :
    formBytes form first cursor = (liftM (Read.take form.width) : GuardedRead Bytes) cursor := by
  have found := agrees_bytes form.width cursor short
  simp only [liftM, monadLift, MonadLift.monadLift, Read.take] at found ⊢
  simp only [formBytes, bind, EStateM.bind, liftM, monadLift, MonadLift.monadLift, Read.position,
    Guarded.add]
  by_cases room : cursor.pos + form.width ≤ cursor.data.length
  · have fits := Nat.lt_of_le_of_lt room short
    simp only [if_pos room] at found ⊢
    cases form with
    | short =>
        simp only [EStateM.bind, pure, EStateM.pure, if_pos fits, unread]
        rfl
    | medium | long =>
        simp only [EStateM.bind, found, if_pos fits]
        rfl
  · simp only [if_neg room] at found ⊢
    cases form with
    | short =>
        have length_eq := congrArg List.length unread
        rw [Cursor.unread, List.length_drop, List.length_cons] at length_eq
        simp only [Form.width] at room
        omega
    | medium | long => simp only [EStateM.bind, found]

theorem agrees_word : Agrees word Read.word := by
  intro cursor short
  simp only [word, Read.word, bind, EStateM.bind, liftM, monadLift, MonadLift.monadLift,
    Read.position, Read.peekByte]
  cases unread : cursor.unread with
  | nil => rfl
  | cons first rest =>
      simp only
      cases form? : Form.ofLeadingBits? first with
      | none => rfl
      | some form =>
          simp only [EStateM.bind, formBytes_at form unread short, liftM, monadLift,
            MonadLift.monadLift]
          cases Read.take form.width cursor <;> rfl

theorem agrees_sectionHeader : Agrees sectionHeader Read.sectionHeader := by
  have number {α : Type} (width : Nat) (f : Bytes → α) :
      Agrees (fixed width >>= fun bytes => pure (f bytes))
        (Read.take width >>= fun bytes => pure (f bytes)) :=
    agrees_map (agrees_fixed width) f
  have inside {α : Type} (width : Nat) (f : Bytes → α) :
      Read.StaysInside (Read.take width >>= fun bytes => pure (f bytes)) :=
    Read.staysInside_bind (Read.staysInside_take width) fun bytes => Read.staysInside_pure (f bytes)
  refine agrees_bind (agrees_liftM _) (Read.staysInside_require _) fun _ => ?_
  refine agrees_bind (agrees_bytes 8) (Read.staysInside_take 8) fun name => ?_
  refine agrees_bind (number 4 _) (inside 4 _) fun virtualSize => ?_
  refine agrees_bind (number 4 _) (inside 4 _) fun virtualAddress => ?_
  refine agrees_bind (number 4 _) (inside 4 _) fun rawSize => ?_
  refine agrees_bind (number 4 _) (inside 4 _) fun rawOffset => ?_
  refine agrees_bind (number 4 _) (inside 4 _) fun relocationsOffset => ?_
  refine agrees_bind (number 4 _) (inside 4 _) fun lineNumbersOffset => ?_
  refine agrees_bind (number 2 _) (inside 2 _) fun relocationCount => ?_
  refine agrees_bind (number 2 _) (inside 2 _) fun lineNumberCount => ?_
  exact agrees_map (number 4 _) _

theorem agrees_unsigned : Agrees unsigned Read.unsigned := by
  rw [Read.unsigned_eq, Read.unsignedWord]
  simp only [map_bind, map_pure]
  exact agrees_map agrees_word _

theorem agrees_signed : Agrees signed Read.signed := by
  rw [Read.signed_eq, Read.signedWord]
  simp only [map_bind, map_pure]
  exact agrees_map agrees_word _

theorem agrees_token : Agrees token Read.token :=
  agrees_bind agrees_unsigned (Read.shifted_unsigned 0).staysInside fun _ => agrees_liftM _

theorem agrees_scalarLE (type : ScalarType) : Agrees (scalarLE type) (Read.scalarLE type) :=
  agrees_map (agrees_fixed type.width) _

theorem agrees_scalarBE (type : ScalarType) : Agrees (scalarBE type) (Read.scalarBE type) :=
  agrees_map (agrees_fixed type.width) _

end GuardedRead

namespace Cursor.Operation

open GuardedRead

theorem agrees_guarded (op : Operation) : Agrees op.guarded op.read := by
  cases op with
  | seek target | require count | peekByte => exact agrees_map (agrees_liftM _) _
  | advance => exact agrees_map (agrees_skip 1) _
  | advanceBy count => exact agrees_map (agrees_skip count.toNat) _
  | endAfter count => exact agrees_map (agrees_endAfter count.toNat) _
  | peekLE type => exact agrees_map (agrees_peek (agrees_scalarLE type)) _
  | readLE type => exact agrees_map (agrees_scalarLE type) _
  | readBE type => exact agrees_map (agrees_scalarBE type) _
  | bytes count => exact agrees_map (agrees_bytes count.toNat) _
  | unsigned => exact agrees_map agrees_unsigned _
  | signed => exact agrees_map agrees_signed _
  | token => exact agrees_map agrees_token _
  | sectionHeader => exact agrees_map agrees_sectionHeader _

end Cursor.Operation

end CliMetadata
