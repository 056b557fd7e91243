import CliMetadata.Proofs.Composition
import CliMetadata.Proofs.Reading

/-!
Reading from longer data. A reader is stable if bytes behind the data matter only where it has run
out of data: then it may go on, and in every other case it gives the same value or the same fault.
Readers that are put together like those of signatures are stable, so a signature says by itself
where it ends. A part of it is never a signature and reports that it was cut off.
-/

namespace CliMetadata

/-- The faults that come from the end of the data. -/
def Fault.IsEnd : Fault → Prop
  | .outOfBounds | .truncated _ _ => True
  | _ => False

namespace Cursor

/-- The same position in longer data. -/
def extend (suffix : Bytes) (cursor : Cursor) : Cursor :=
  { cursor with data := cursor.data ++ suffix }

theorem unread_extend {cursor : Cursor} {suffix : Bytes} (inside : cursor.unread ≠ []) :
    (cursor.extend suffix).unread = cursor.unread ++ suffix := by
  apply List.drop_append_of_le_length
  by_contra outside
  exact inside (List.drop_eq_nil_of_le (Nat.le_of_not_le outside))

end Cursor

namespace Read

section

variable {α β : Type}

/-- The same result with the cursor in longer data. -/
def extendResult (suffix : Bytes) : EStateM.Result Fault Cursor α → EStateM.Result Fault Cursor α
  | .ok a stopped => .ok a (stopped.extend suffix)
  | .error fault stopped => .error fault (stopped.extend suffix)

def RanOut (result : EStateM.Result Fault Cursor α) : Prop :=
  ∃ fault stopped, result = .error fault stopped ∧ fault.IsEnd

def Stable (read : Read α) : Prop :=
  ∀ suffix cursor, RanOut (read cursor) ∨
    read (cursor.extend suffix) = extendResult suffix (read cursor)

variable {read : Read α} {next : α → Read β}

theorem stable_pure (a : α) : (pure a : Read α).Stable := fun _ _ => .inr rfl

theorem stable_throw (fault : Fault) : (throw fault : Read α).Stable := fun _ _ => .inr rfl

theorem stable_position : position.Stable := fun _ _ => .inr rfl

theorem stable_bind (hread : read.Stable) (hnext : ∀ a, (next a).Stable) :
    (read >>= next).Stable := by
  intro suffix cursor
  simp only [bind, EStateM.bind]
  rcases hread suffix cursor with ⟨fault, stopped, failed, isEnd⟩ | same
  · left
    rw [failed]
    exact ⟨fault, stopped, rfl, isEnd⟩
  · rw [same]
    cases read cursor with
    | ok a between => exact hnext a suffix between
    | error fault stopped => exact .inr rfl

theorem stable_peekByte : peekByte.Stable := by
  intro suffix cursor
  cases unread : cursor.unread with
  | nil =>
      left
      exact ⟨.outOfBounds, cursor, by simp [peekByte, unread], trivial⟩
  | cons first rest =>
      right
      have inside : cursor.unread ≠ [] := by simp [unread]
      simp only [peekByte, Cursor.unread_extend inside, unread, List.cons_append]
      rfl

theorem stable_take (count : Nat) : (take count).Stable := by
  intro suffix cursor
  by_cases room : cursor.pos + count ≤ cursor.data.length
  · right
    have more : cursor.pos + count ≤ cursor.data.length + suffix.length := by omega
    have same : ((cursor.data ++ suffix).drop cursor.pos).take count =
        (cursor.data.drop cursor.pos).take count := by
      rw [List.drop_append_of_le_length (by omega), List.take_append_of_le_length]
      rw [List.length_drop]
      omega
    simp [take, Cursor.extend, Cursor.unread, extendResult, room, more, same]
  · left
    exact ⟨.outOfBounds, cursor, by simp [take, room], trivial⟩

/-- An end of data stays one under another name. -/
theorem stable_onEnd {fault : Fault} (isEnd : fault.IsEnd) (h : read.Stable) :
    (onEnd fault read).Stable := by
  intro suffix cursor
  rcases h suffix cursor with ⟨cause, stopped, failed, causeEnd⟩ | same
  · left
    cases cause with
    | outOfBounds => exact ⟨fault, stopped, by simp [onEnd, failed], isEnd⟩
    | truncated tag offset =>
        exact ⟨.truncated tag offset, stopped, by simp [onEnd, failed], trivial⟩
    | _ => cases causeEnd
  · cases result : read cursor with
    | ok a stopped =>
        right
        simp [onEnd, same, result, extendResult]
    | error cause stopped =>
        cases cause with
        | outOfBounds => exact .inl ⟨fault, stopped, by simp [onEnd, result], isEnd⟩
        | _ =>
            right
            simp [onEnd, same, result, extendResult]

/-- All readers that are put together like those of signatures are stable. -/
theorem Shifted.stable {count : Nat} {other : Read α} (h : Shifted count read other) :
    read.Stable := by
  induction h with
  | pure a => exact stable_pure a
  | throw fault => exact stable_throw fault
  | bind _ _ ih ihNext => exact stable_bind ih ihNext
  | position _ ih => exact stable_bind stable_position ih
  | peekByte => exact stable_peekByte
  | take width => exact stable_take width
  | onEnd tag start _ ih => exact stable_onEnd trivial ih

end

theorem stable_type (resolver : Resolver) : (type resolver).Stable :=
  (shifted_type resolver 0).stable

section

variable {α : Type} {read : Read α} {cursor stopped : Cursor}

theorem Stable.extend_ok {a : α} (h : read.Stable) (done : read cursor = .ok a stopped)
    (suffix : Bytes) : read (cursor.extend suffix) = .ok a (stopped.extend suffix) := by
  rcases h suffix cursor with ⟨fault, reached, failed, _⟩ | same
  · rw [done] at failed
    cases failed
  · rw [same, done]
    rfl

theorem Stable.extend_error {fault : Fault} (h : read.Stable)
    (failed : read cursor = .error fault stopped) (notEnd : ¬fault.IsEnd) (suffix : Bytes) :
    read (cursor.extend suffix) = .error fault (stopped.extend suffix) := by
  rcases h suffix cursor with ⟨_, _, ended, isEnd⟩ | same
  · rw [failed] at ended
    cases ended
    exact absurd isEnd notEnd
  · rw [same, failed]
    rfl

/-- Readers that succeed run out of data on any part of what they have read. -/
theorem Stable.ranOut_take {language : Language α} {data : Bytes} {a : α} {n k : Nat}
    (h : read.Stable) (accepts : read.Accepts language) (done : read { data } = .ok a ⟨data, n⟩)
    (part : k < n) : RanOut (read { data := data.take k }) := by
  rcases h (data.drop k) { data := data.take k } with ended | same
  · exact ended
  · -- With the rest behind it the part would give the same result, but that one ends too late.
    have whole : ({ data := data.take k } : Cursor).extend (data.drop k) = { data } := by
      simp [Cursor.extend]
    rw [whole, done] at same
    cases result : read { data := data.take k } with
    | error fault reached =>
        rw [result] at same
        cases same
    | ok value reached =>
        obtain ⟨bytes, _, leads, rfl⟩ := (accepts _ _ _).mp result
        rw [result] at same
        have n_eq : n = bytes.length := by
          simpa [Cursor.extend, Cursor.advance] using
            congrArg Cursor.pos (EStateM.Result.ok.inj same).2
        have fits := leads.length_le
        rw [Cursor.unread, List.drop_zero, List.length_take] at fits
        omega

end

theorem onEnd_ne_outOfBounds {α : Type} {read : Read α} {cursor stopped : Cursor}
    {tag : ElementType} {start : Nat} :
    onEnd (.truncated tag start) read cursor ≠ .error .outOfBounds stopped := by
  cases result : read cursor with
  | ok a reached => simp [onEnd, result]
  | error fault reached => cases fault <;> simp [onEnd, result]

/-- Only where there is no tag at all the end of the data is not named after a node. -/
theorem unread_eq_nil_of_outOfBounds {resolver : Resolver} {levels : Nat} {cursor stopped : Cursor}
    (failed : typeWithin resolver levels cursor = .error .outOfBounds stopped) :
    cursor.unread = [] := by
  cases levels with
  | zero => cases failed
  | succ levels =>
      by_contra inside
      obtain ⟨first, rest, unread⟩ := List.exists_cons_of_ne_nil inside
      have opened : byte cursor = .ok first (cursor.advance 1) := by
        simp [byte, unread, Cursor.advance]
      simp only [typeWithin, bind, EStateM.bind, position, opened] at failed
      cases tag? : (ElementType.ofByte? first).filter ElementType.isNodeTag with
      | none =>
          rw [tag?] at failed
          cases failed
      | some tag =>
          rw [tag?] at failed
          exact onEnd_ne_outOfBounds failed

theorem type_empty (resolver : Resolver) :
    type resolver { data := [] } = .error .outOfBounds { data := [] } := rfl

/-- A part of a signature reports that it was cut off. -/
theorem type_take {resolver : Resolver} {data : Bytes} {t : TypeSignature} {n k : Nat}
    (done : type resolver { data } = .ok t ⟨data, n⟩) (part : k < n) :
    ∃ fault stopped, type resolver { data := data.take k } = .error fault stopped ∧
      if k = 0 then fault = .outOfBounds else ∃ tag offset, fault = .truncated tag offset := by
  obtain ⟨fault, stopped, failed, isEnd⟩ :=
    (stable_type resolver).ranOut_take (accepts_type resolver) done part
  refine ⟨fault, stopped, failed, ?_⟩
  by_cases none : k = 0
  · rw [none, List.take_zero, type_empty] at failed
    rw [if_pos none]
    exact (EStateM.Result.error.inj failed).1.symm
  · rw [if_neg none]
    cases fault with
    | truncated tag offset => exact ⟨tag, offset, rfl⟩
    | outOfBounds =>
        obtain ⟨_, ⟨s, -, rfl, -⟩, leads, -⟩ := (accepts_type resolver _ _ _).mp done
        have nothing : data.take k = [] := unread_eq_nil_of_outOfBounds failed
        obtain noPart | rfl := List.take_eq_nil_iff.mp nothing
        · exact absurd noPart none
        · exact absurd (List.prefix_nil.mp leads) s.bytes_ne_nil
    | _ => cases isEnd

/-- A signature says where it ends: what stands behind it does not matter, and what stands before
its end is not a signature. -/
theorem self_delimiting (resolver : Resolver) (data : Bytes) :
    (∀ t n suffix, type resolver { data } = .ok t ⟨data, n⟩ →
      type resolver { data := data ++ suffix } = .ok t ⟨data ++ suffix, n⟩) ∧
    (∀ fault stopped suffix, type resolver { data } = .error fault stopped → ¬fault.IsEnd →
      ∃ reached, type resolver { data := data ++ suffix } = .error fault reached) ∧
    (∀ t n k, type resolver { data } = .ok t ⟨data, n⟩ → k < n →
      ∃ fault stopped, type resolver { data := data.take k } = .error fault stopped ∧
        if k = 0 then fault = .outOfBounds else ∃ tag offset, fault = .truncated tag offset) ∧
    ∀ t t' whole, type resolver { data } = .ok t ⟨data, data.length⟩ →
      type resolver { data := whole } = .ok t' ⟨whole, whole.length⟩ → data <+: whole →
        data = whole := by
  refine ⟨?_, ?_, ?_, ?_⟩
  · intro t n suffix done
    exact (stable_type resolver).extend_ok done suffix
  · intro fault stopped suffix failed notEnd
    exact ⟨_, (stable_type resolver).extend_error failed notEnd suffix⟩
  · intro t n k done part
    exact type_take done part
  · intro t t' whole done doneWhole leads
    by_contra ne
    have shorter : data.length < whole.length :=
      Nat.lt_of_le_of_ne leads.length_le fun same => ne (leads.eq_of_length same)
    obtain ⟨fault, stopped, failed, _⟩ := type_take doneWhole shorter
    rw [← List.prefix_iff_eq_take.mp leads, done] at failed
    cases failed

theorem self_delimiting_vector :
    (∃ t, type .empty { data := [0x1D, 0x0E] ++ [0xFF] } = .ok t ⟨[0x1D, 0x0E] ++ [0xFF], 2⟩) ∧
    (∃ reached, type .empty { data := [0x1D, 0xFF] ++ [0x0E] } =
      .error (.invalidElementType 0xFF 1) reached) ∧
    (∃ tag offset stopped, type .empty { data := [0x1D] } =
      .error (.truncated tag offset) stopped) ∧
    ∀ whole, [0x1D, 0x0E] <+: whole →
      (∃ t, type .empty { data := whole } = .ok t ⟨whole, whole.length⟩) →
        whole = [0x1D, 0x0E] := by
  refine ⟨⟨_, (self_delimiting .empty [0x1D, 0x0E]).1 _ 2 [0xFF] rfl⟩,
    (self_delimiting .empty [0x1D, 0xFF]).2.1 _ _ [0x0E] rfl (by simp [Fault.IsEnd]), ?_, ?_⟩
  · obtain ⟨_, stopped, failed, tag, offset, rfl⟩ :=
      (self_delimiting .empty [0x1D, 0x0E]).2.2.1 _ 2 1 rfl (by decide)
    exact ⟨tag, offset, stopped, failed⟩
  · intro whole leads given
    obtain ⟨t, done⟩ := given
    exact ((self_delimiting .empty [0x1D, 0x0E]).2.2.2 _ t whole rfl done leads).symm

end Read

end CliMetadata
