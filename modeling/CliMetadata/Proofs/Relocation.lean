import CliMetadata.Proofs.Composition
import CliMetadata.Proofs.Depth

/-!
Reading from the middle of the data. Readers of signatures do not look back: what stands before the
cursor decides nothing but the offsets in faults. They do not leave the data either, and never move
back. A decoder can therefore be asked for one signature after the other, whether there were faults
or not, and each time answers like a new decoder of the rest of the data.
-/

namespace CliMetadata

namespace Cursor

/-- The cursor in data with further bytes at the front. -/
def behind (front : Bytes) (cursor : Cursor) : Cursor :=
  ⟨front ++ cursor.data, cursor.pos + front.length⟩

@[simp] theorem unread_behind (front : Bytes) (cursor : Cursor) :
    (cursor.behind front).unread = cursor.unread := by
  simp only [behind, unread, List.drop_append, Nat.add_sub_cancel]
  rw [List.drop_eq_nil_of_le (Nat.le_add_left _ _), List.nil_append]

theorem room_behind_iff {front : Bytes} {cursor : Cursor} {count : Nat} :
    (cursor.behind front).pos + count ≤ (cursor.behind front).data.length ↔
      cursor.pos + count ≤ cursor.data.length := by
  simp only [behind, List.length_append]
  omega

/-- A cursor in the data is one at the start of the rest, with the bytes before it at the front. -/
theorem eq_behind {cursor : Cursor} (inside : cursor.pos ≤ cursor.data.length) :
    cursor = Cursor.behind (cursor.data.take cursor.pos) { data := cursor.unread } := by
  have front : (cursor.data.take cursor.pos).length = cursor.pos := by
    rw [List.length_take, Nat.min_eq_left inside]
  rw [behind, unread, List.take_append_drop, front, Nat.zero_add]

/-- The other cursor is in the same data, not before this one and not behind the end, unless this
one is. -/
def Reaches (cursor stopped : Cursor) : Prop :=
  stopped.data = cursor.data ∧ cursor.pos ≤ stopped.pos ∧
    (cursor.pos ≤ cursor.data.length → stopped.pos ≤ stopped.data.length)

theorem Reaches.refl (cursor : Cursor) : cursor.Reaches cursor := ⟨rfl, Nat.le_refl _, id⟩

theorem Reaches.trans {cursor between stopped : Cursor} (first : cursor.Reaches between)
    (second : between.Reaches stopped) : cursor.Reaches stopped := by
  obtain ⟨data_eq, forward, inside⟩ := first
  obtain ⟨data_eq', forward', inside'⟩ := second
  exact ⟨data_eq'.trans data_eq, Nat.le_trans forward forward', fun h => inside' (inside h)⟩

theorem reaches_advance {cursor : Cursor} {count : Nat}
    (room : cursor.pos + count ≤ cursor.data.length) :
    cursor.Reaches { cursor with pos := cursor.pos + count } :=
  ⟨rfl, Nat.le_add_right _ _, fun _ => room⟩

end Cursor

namespace Read

/-- The result for data with further bytes at the front. -/
def resultBehind {α : Type} (front : Bytes) :
    EStateM.Result Fault Cursor α → EStateM.Result Fault Cursor α
  | .ok a stopped => .ok a (stopped.behind front)
  | .error fault stopped => .error (fault.shift front.length) (stopped.behind front)

/-- Bytes at the front are not looked at, and change what the first reader gives into what the
second one does. -/
def Relocates {α : Type} (front : Bytes) (read read' : Read α) : Prop :=
  ∀ cursor, read' (cursor.behind front) = resultBehind front (read cursor)

section

variable {α β : Type} {front : Bytes} {read read' : Read α}

theorem relocates_bind {next next' : α → Read β} (h : Relocates front read read')
    (hnext : ∀ a, Relocates front (next a) (next' a)) :
    Relocates front (read >>= next) (read' >>= next') := by
  intro cursor
  simp only [bind, EStateM.bind, h cursor]
  cases read cursor with
  | ok a between => exact hnext a between
  | error fault stopped => rfl

theorem relocates_peekByte : Relocates front peekByte peekByte := by
  intro cursor
  simp only [peekByte, Cursor.unread_behind]
  cases cursor.unread <;> rfl

theorem relocates_take (width : Nat) : Relocates front (take width) (take width) := by
  intro cursor
  simp only [take, Cursor.unread_behind, Cursor.room_behind_iff]
  by_cases room : cursor.pos + width ≤ cursor.data.length
  · rw [if_pos room, if_pos room]
    simp [resultBehind, Cursor.behind, Nat.add_right_comm]
  · rw [if_neg room, if_neg room]
    rfl

theorem relocates_onEnd (tag : ElementType) (start : Nat) (h : Relocates front read read') :
    Relocates front (onEnd (.truncated tag start) read)
      (onEnd (.truncated tag (start + front.length)) read') := by
  intro cursor
  simp only [onEnd, h cursor]
  cases read cursor with
  | ok a stopped => rfl
  | error cause stopped => cases cause <;> rfl

theorem Shifted.relocates (h : Shifted front.length read read') : Relocates front read read' := by
  induction h with
  | pure a => exact fun _ => rfl
  | throw fault => exact fun _ => rfl
  | bind _ _ ih ihNext => exact relocates_bind ih ihNext
  | position _ ih => exact fun cursor => ih cursor.pos cursor
  | peekByte => exact relocates_peekByte
  | take width => exact relocates_take width
  | onEnd tag start _ ih => exact relocates_onEnd tag start ih

end

section

variable {α β : Type} {read : Read α}

def stopped : EStateM.Result Fault Cursor α → Cursor
  | .ok _ stopped => stopped
  | .error _ stopped => stopped

/-- The reader stops in the data that it was given, and not before the place where it began. -/
def StaysInside (read : Read α) : Prop := ∀ cursor : Cursor, cursor.Reaches (stopped (read cursor))

theorem staysInside_pure (a : α) : StaysInside (pure a : Read α) := Cursor.Reaches.refl

theorem staysInside_bind {next : α → Read β} (h : StaysInside read)
    (hnext : ∀ a, StaysInside (next a)) : StaysInside (read >>= next) := by
  intro cursor
  have first := h cursor
  simp only [bind, EStateM.bind]
  cases result : read cursor with
  | ok a between =>
      rw [result] at first
      exact first.trans (hnext a between)
  | error fault reached =>
      rw [result] at first
      exact first

theorem staysInside_peekByte : StaysInside peekByte := by
  intro cursor
  simp only [peekByte]
  cases cursor.unread <;> exact .refl cursor

theorem staysInside_take (width : Nat) : StaysInside (take width) := by
  intro cursor
  by_cases room : cursor.pos + width ≤ cursor.data.length
  · rw [take, if_pos room]
    exact Cursor.reaches_advance room
  · rw [take, if_neg room]
    exact .refl cursor

theorem staysInside_onEnd (fault : Fault) (h : StaysInside read) :
    StaysInside (onEnd fault read) := by
  intro cursor
  have first := h cursor
  simp only [onEnd]
  cases result : read cursor with
  | ok a reached =>
      rw [result] at first
      exact first
  | error cause reached =>
      rw [result] at first
      cases cause <;> exact first

theorem Shifted.staysInside {count : Nat} {read' : Read α} (h : Shifted count read read') :
    StaysInside read := by
  induction h with
  | pure a => exact staysInside_pure a
  | throw fault => exact Cursor.Reaches.refl
  | bind _ _ ih ihNext => exact staysInside_bind ih ihNext
  | position _ ih => exact fun cursor => ih cursor.pos cursor
  | peekByte => exact staysInside_peekByte
  | take width => exact staysInside_take width
  | onEnd tag start _ ih => exact staysInside_onEnd _ ih

end

end Read

namespace Decoder

section

variable {α : Type}

/-- The result for data with further bytes at the front. -/
def resultBehind (front : Bytes) :
    EStateM.Result Fault Decoder α → EStateM.Result Fault Decoder α
  | .ok a stopped => .ok a { stopped with cursor := stopped.cursor.behind front }
  | .error fault stopped =>
    .error (fault.shift front.length) { stopped with cursor := stopped.cursor.behind front }

theorem resultAt_behind (depth : Nat) (front : Bytes) (result : EStateM.Result Fault Cursor α) :
    resultAt depth (Read.resultBehind front result) =
      resultBehind front (resultAt depth result) := by
  cases result <;> rfl

theorem ofResult_resultAt (depth : Nat) (result : EStateM.Result Fault Cursor α) :
    ofResult (resultAt depth result) = ⟨Read.stopped result, depth⟩ := by
  cases result <;> rfl

end

variable (resolver : Resolver)

theorem after_append (decoder : Decoder) (before later : List ItemKind) :
    decoder.after resolver (before ++ later) =
      (decoder.after resolver before).after resolver later := by
  induction before generalizing decoder with
  | nil => rfl
  | cons kind rest ih => exact ih _

theorem length_outcomes (decoder : Decoder) (kinds : List ItemKind) :
    (decoder.outcomes resolver kinds).length = kinds.length := by
  induction kinds generalizing decoder with
  | nil => rfl
  | cons kind rest ih => rw [outcomes, List.length_cons, ih, List.length_cons]

theorem outcomes_append (decoder : Decoder) (before later : List ItemKind) :
    decoder.outcomes resolver (before ++ later) = decoder.outcomes resolver before ++
      (decoder.after resolver before).outcomes resolver later := by
  induction before generalizing decoder with
  | nil => rfl
  | cons kind rest ih => rw [List.cons_append, outcomes, ih, outcomes, after, List.cons_append]

/-- One call leaves a decoder outside of all nodes, in the data and not before where it began. -/
theorem ofResult_item (kind : ItemKind) (cursor : Cursor) :
    ∃ reached, ofResult (Decode.item resolver kind ⟨cursor, 0⟩) = ⟨reached, 0⟩ ∧
      cursor.Reaches reached := by
  refine ⟨Read.stopped (Read.item resolver kind cursor), ?_, ?_⟩
  · rw [Decode.keeps_item resolver kind cursor, ofResult_resultAt]
  · exact (Read.shifted_item resolver 0 kind).staysInside cursor

/-- And so does a run of calls. -/
theorem after_reaches (cursor : Cursor) (kinds : List ItemKind) :
    ∃ reached, after resolver ⟨cursor, 0⟩ kinds = ⟨reached, 0⟩ ∧ cursor.Reaches reached := by
  induction kinds generalizing cursor with
  | nil => exact ⟨cursor, rfl, .refl cursor⟩
  | cons kind rest ih =>
      obtain ⟨between, next, first⟩ := ofResult_item resolver kind cursor
      obtain ⟨reached, last, others⟩ := ih between
      exact ⟨reached, by rw [after, next, last], first.trans others⟩

/-- Outside of all nodes a decoder answers like a new one of the data that are left. -/
theorem item_eq_behind (kind : ItemKind) {cursor : Cursor}
    (inside : cursor.pos ≤ cursor.data.length) :
    Decode.item resolver kind ⟨cursor, 0⟩ = resultBehind (cursor.data.take cursor.pos)
      (Decode.item resolver kind (ofData cursor.unread)) := by
  have moved := (Read.shifted_item resolver (cursor.data.take cursor.pos).length kind).relocates
    { data := cursor.unread }
  rw [← Cursor.eq_behind inside] at moved
  calc Decode.item resolver kind ⟨cursor, 0⟩
    _ = resultAt 0 (Read.item resolver kind cursor) := Decode.keeps_item resolver kind cursor
    _ = resultAt 0 (Read.resultBehind (cursor.data.take cursor.pos)
          (Read.item resolver kind { data := cursor.unread })) := by rw [moved]
    _ = resultBehind (cursor.data.take cursor.pos)
          (resultAt 0 (Read.item resolver kind { data := cursor.unread })) :=
        resultAt_behind 0 _ _
    _ = resultBehind (cursor.data.take cursor.pos)
          (Decode.item resolver kind (ofData cursor.unread)) := by
        rw [ofData, Decode.keeps_item]

/-- After any run of calls, with faults or without, a decoder is outside of all nodes and at a place
in the data that is never before the last one. What it gives next is what a new decoder of the rest
of the data gives, with the place of the rest added to all offsets and to the place where it stops.
-/
theorem resumes (data : Bytes) (before : List ItemKind) (kind : ItemKind)
    (later : List ItemKind) :
    let decoder := (ofData data).after resolver before
    decoder.depth = 0 ∧ decoder.cursor.data = data ∧ decoder.pos ≤ data.length ∧
      decoder.pos ≤ ((ofData data).after resolver (before ++ [kind])).pos ∧
      ((ofData data).outcomes resolver (before ++ kind :: later))[before.length]? =
        some (resultBehind (data.take decoder.pos)
          (Decode.item resolver kind (ofData (data.drop decoder.pos)))) := by
  obtain ⟨cursor, here, data_eq, -, inside⟩ := after_reaches resolver { data } before
  have within : cursor.pos ≤ cursor.data.length := inside (Nat.zero_le _)
  obtain ⟨reached, next, -, forward, -⟩ := ofResult_item resolver kind cursor
  have start : (ofData data).after resolver before = ⟨cursor, 0⟩ := here
  obtain rfl : cursor.data = data := data_eq
  refine ⟨?_, ?_, ?_, ?_, ?_⟩
  · rw [start]
  · rw [start]
  · rw [start]
    exact within
  · rw [after_append, start, after, next]
    exact forward
  · have skipped := length_outcomes resolver (ofData cursor.data) before
    rw [outcomes_append, List.getElem?_append_right (Nat.le_of_eq skipped), skipped, Nat.sub_self,
      start, outcomes, List.getElem?_cons_zero, item_eq_behind resolver kind within]
    rfl

/-- The first call ends inside of a node with a fault, and the second one goes on behind it. -/
example : (ofData [0x1D, 0xFF, 0x0E]).after .empty [.type, .type] = ⟨⟨[0x1D, 0xFF, 0x0E], 3⟩, 0⟩ :=
  rfl

end Decoder

end CliMetadata
