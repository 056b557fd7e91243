import CliMetadata.Cursor
import Mathlib.Data.List.Basic

/-!
What a reader accepts. A language gives byte strings their values; a reader accepts a language if
it succeeds on exactly the data that start with a byte string of the language, gives its value and
stops behind it, whatever follows. Readers that are put together accept what their parts accept,
one behind the other.
-/

namespace CliMetadata

namespace Cursor

/-- The cursor behind `count` further bytes. -/
def advance (cursor : Cursor) (count : Nat) : Cursor := { cursor with pos := cursor.pos + count }

@[simp] theorem advance_advance (cursor : Cursor) (m n : Nat) :
    (cursor.advance m).advance n = cursor.advance (m + n) := by
  simp [advance, Nat.add_assoc]

@[simp] theorem unread_advance (cursor : Cursor) (count : Nat) :
    (cursor.advance count).unread = cursor.unread.drop count := by
  simp [advance, unread, List.drop_drop]

theorem room_iff {cursor : Cursor} {count : Nat} (positive : 0 < count) :
    cursor.pos + count ≤ cursor.data.length ↔
      ∃ bytes : Bytes, bytes.length = count ∧ bytes <+: cursor.unread := by
  have unread_length : cursor.unread.length = cursor.data.length - cursor.pos := by simp [unread]
  refine ⟨?_, ?_⟩
  · intro fits
    refine ⟨cursor.unread.take count, ?_, List.take_prefix _ _⟩
    rw [List.length_take]
    omega
  · intro given
    obtain ⟨bytes, rfl, leads⟩ := given
    have := leads.length_le
    omega

end Cursor

/-- The byte strings of a language and the values they stand for. -/
abbrev Language (α : Type) := Bytes → α → Prop

/-- The language of what a kind of spelling writes, with what the spelling stands for. -/
def Spelled {σ α : Type} (valid : σ → Prop) (bytes : σ → Bytes) (value : σ → α) : Language α :=
  fun written a => ∃ spelling, valid spelling ∧ bytes spelling = written ∧ value spelling = a

theorem spelled_of_valid {σ α : Type} {valid : σ → Prop} {bytes : σ → Bytes} {value : σ → α} (s : σ)
    (h : valid s) : Spelled valid bytes value (bytes s) (value s) :=
  ⟨s, h, rfl, rfl⟩

theorem append_prefix_iff {front back whole : Bytes} :
    front ++ back <+: whole ↔ front <+: whole ∧ back <+: whole.drop front.length := by
  refine ⟨?_, ?_⟩
  · intro given
    obtain ⟨rest, rfl⟩ := given
    simp [List.append_assoc]
  · intro given
    obtain ⟨⟨rest, rfl⟩, ⟨tail, htail⟩⟩ := given
    rw [List.drop_left] at htail
    exact ⟨tail, by rw [List.append_assoc, htail]⟩

namespace Read

def Accepts {α : Type} (read : Read α) (language : Language α) : Prop :=
  ∀ cursor a stopped, read cursor = .ok a stopped ↔
    ∃ bytes, language bytes a ∧ bytes <+: cursor.unread ∧ stopped = cursor.advance bytes.length

variable {α β : Type} {read : Read α} {next : α → Read β} {language : Language α}
  {languages : α → Language β}

theorem Accepts.congr {other : Language α} (h : read.Accepts language)
    (same : ∀ bytes a, language bytes a ↔ other bytes a) : read.Accepts other := by
  intro cursor a stopped
  simp only [h cursor a stopped, same]

theorem Accepts.complete (h : read.Accepts language) {bytes rest : Bytes} {a : α}
    {cursor : Cursor} (written : language bytes a) (here : cursor.unread = bytes ++ rest) :
    read cursor = .ok a (cursor.advance bytes.length) :=
  (h cursor a _).mpr ⟨bytes, written, ⟨rest, here.symm⟩, rfl⟩

/-- A valid spelling is read to its end, whatever follows it. -/
theorem Accepts.read_spelling {σ : Type} {valid : σ → Prop} {bytes : σ → Bytes} {value : σ → α}
    {rest : Bytes} {cursor : Cursor} (h : read.Accepts (Spelled valid bytes value)) (s : σ)
    (hs : valid s) (here : cursor.unread = bytes s ++ rest) :
    read cursor = .ok (value s) (cursor.advance (bytes s).length) :=
  h.complete (spelled_of_valid s hs) here

theorem accepts_pure (a : α) : (pure a : Read α).Accepts fun bytes b => bytes = [] ∧ a = b := by
  intro cursor b stopped
  rw [pure_eq_ok]
  refine ⟨?_, ?_⟩
  · intro given
    obtain ⟨rfl, rfl⟩ := given
    exact ⟨[], ⟨rfl, rfl⟩, List.nil_prefix, rfl⟩
  · intro given
    obtain ⟨_, ⟨rfl, rfl⟩, _, rfl⟩ := given
    exact ⟨rfl, rfl⟩

theorem accepts_throw (fault : Fault) : (throw fault : Read α).Accepts fun _ _ => False := by
  intro cursor a stopped
  refine ⟨?_, ?_⟩
  · intro done
    cases done
  · intro given
    obtain ⟨_, ⟨⟩, _⟩ := given

theorem accepts_bind (hread : read.Accepts language)
    (hnext : ∀ a, (next a).Accepts (languages a)) :
    (read >>= next).Accepts fun bytes b =>
      ∃ a front back, front ++ back = bytes ∧ language front a ∧ languages a back b := by
  intro cursor b stopped
  rw [bind_eq_ok]
  refine ⟨?_, ?_⟩
  · intro given
    obtain ⟨a, between, hfirst, hthen⟩ := given
    obtain ⟨front, hfront, frontLeads, rfl⟩ := (hread _ _ _).mp hfirst
    obtain ⟨back, hback, backLeads, rfl⟩ := (hnext a _ _ _).mp hthen
    rw [Cursor.unread_advance] at backLeads
    refine ⟨front ++ back, ⟨a, front, back, rfl, hfront, hback⟩, ?_, ?_⟩
    · exact append_prefix_iff.mpr ⟨frontLeads, backLeads⟩
    · rw [Cursor.advance_advance, List.length_append]
  · intro given
    obtain ⟨_, ⟨a, front, back, rfl, hfront, hback⟩, wholeLeads, rfl⟩ := given
    obtain ⟨frontLeads, backLeads⟩ := append_prefix_iff.mp wholeLeads
    refine ⟨a, cursor.advance front.length, ?_, ?_⟩
    · exact (hread _ _ _).mpr ⟨front, hfront, frontLeads, rfl⟩
    · refine (hnext a _ _ _).mpr ⟨back, hback, ?_, ?_⟩
      · rwa [Cursor.unread_advance]
      · rw [Cursor.advance_advance, List.length_append]

theorem accepts_map {f : α → β} (h : read.Accepts language) :
    (read >>= fun a => pure (f a)).Accepts fun bytes b => ∃ a, language bytes a ∧ f a = b := by
  refine (accepts_bind h fun a => accepts_pure (f a)).congr ?_
  intro bytes b
  refine ⟨?_, ?_⟩
  · intro given
    obtain ⟨a, front, _, rfl, written, rfl, rfl⟩ := given
    exact ⟨a, by rwa [List.append_nil], rfl⟩
  · intro given
    obtain ⟨a, written, rfl⟩ := given
    exact ⟨a, bytes, [], List.append_nil _, written, rfl, rfl⟩

/-- The position is of use for faults only. -/
theorem accepts_position {next : Nat → Read α} (h : ∀ start, (next start).Accepts language) :
    (position >>= next).Accepts language :=
  fun cursor => h cursor.pos cursor

theorem accepts_ite {c : Prop} [Decidable c] {first second : Read α} {other : Language α}
    (h : first.Accepts language) (hother : second.Accepts other) :
    (if c then first else second).Accepts fun bytes a =>
      (c ∧ language bytes a) ∨ (¬c ∧ other bytes a) := by
  by_cases holds : c
  · simpa [holds] using h
  · simpa [holds] using hother

theorem accepts_ofOption (found : Option α) (fault : Fault) :
    (ofOption found fault).Accepts fun bytes a => bytes = [] ∧ found = some a := by
  cases found with
  | none => exact (accepts_throw fault).congr (by simp)
  | some a => exact (accepts_pure a).congr (by simp)

/-- The reader accepts the language on data that start with the given byte. -/
def AcceptsAt (first : UInt8) (read : Read α) (language : Language α) : Prop :=
  ∀ cursor a stopped, cursor.unread.head? = some first → (read cursor = .ok a stopped ↔
    ∃ bytes, language bytes a ∧ bytes <+: cursor.unread ∧ stopped = cursor.advance bytes.length)

theorem Accepts.acceptsAt (h : read.Accepts language) (first : UInt8) :
    read.AcceptsAt first language :=
  fun cursor a stopped _ => h cursor a stopped

/-- Where the first byte is known, only the byte strings that start with it matter. -/
theorem AcceptsAt.congr {other : Language α} {first : UInt8} (h : read.AcceptsAt first language)
    (empty : ∀ a, ¬language [] a) (otherEmpty : ∀ a, ¬other [] a)
    (same : ∀ rest a, language (first :: rest) a ↔ other (first :: rest) a) :
    read.AcceptsAt first other := by
  intro cursor a stopped head
  rw [h cursor a stopped head]
  refine exists_congr fun bytes => and_congr_left fun ⟨⟨tail, unread⟩, _⟩ => ?_
  cases bytes with
  | nil => exact iff_of_false (empty a) (otherEmpty a)
  | cons byte rest =>
      rw [← unread, List.cons_append, List.head?_cons, Option.some.injEq] at head
      rw [head]
      exact same rest a

/-- A look at the next byte tells the first byte of what is read then. -/
theorem accepts_peekByte {next : UInt8 → Read α} (nonempty : ∀ a, ¬language [] a)
    (h : ∀ first, (next first).AcceptsAt first language) :
    (peekByte >>= next).Accepts language := by
  intro cursor a stopped
  cases unread : cursor.unread with
  | nil =>
      have failed : (peekByte >>= next) cursor = .error .outOfBounds cursor := by
        simp [bind, EStateM.bind, peekByte, unread]
      rw [failed]
      refine ⟨?_, ?_⟩
      · intro none
        cases none
      · intro given
        obtain ⟨bytes, written, leads, _⟩ := given
        rw [List.prefix_nil.mp leads] at written
        exact absurd written (nonempty a)
  | cons first rest =>
      have peeked : (peekByte >>= next) cursor = next first cursor := by
        simp [bind, EStateM.bind, peekByte, unread]
      rw [peeked, ← unread]
      exact h first cursor a stopped (by rw [unread, List.head?_cons])

theorem accepts_byte : byte.Accepts fun bytes value => bytes = [value] := by
  intro cursor value stopped
  cases unread : cursor.unread with
  | nil => simp [byte, unread]
  | cons first rest =>
      simp only [byte, unread, EStateM.Result.ok.injEq]
      refine ⟨?_, ?_⟩
      · intro given
        obtain ⟨rfl, rfl⟩ := given
        exact ⟨[first], rfl, by simp, rfl⟩
      · intro given
        obtain ⟨_, rfl, leads, rfl⟩ := given
        exact ⟨(List.cons_prefix_cons.mp leads).1.symm, rfl⟩

theorem accepts_take {count : Nat} (positive : 0 < count) :
    (take count).Accepts fun bytes a => bytes.length = count ∧ bytes = a := by
  intro cursor a stopped
  rw [take_eq_ok, Cursor.room_iff positive]
  refine ⟨?_, ?_⟩
  · intro given
    obtain ⟨⟨bytes, rfl, leads⟩, rfl, rfl⟩ := given
    exact ⟨bytes, ⟨rfl, List.prefix_iff_eq_take.mp leads⟩, leads, rfl⟩
  · intro given
    obtain ⟨bytes, ⟨rfl, rfl⟩, leads, rfl⟩ := given
    exact ⟨⟨bytes, rfl, leads⟩, (List.prefix_iff_eq_take.mp leads).symm, rfl⟩

theorem accepts_skip {count : Nat} (positive : 0 < count) :
    (skip count).Accepts fun bytes _ => bytes.length = count := by
  intro cursor _ stopped
  have skipped : skip count cursor = .ok () stopped ↔
      cursor.pos + count ≤ cursor.data.length ∧ stopped = cursor.advance count := by
    by_cases room : cursor.pos + count ≤ cursor.data.length <;>
      simp [skip, room, Cursor.advance, eq_comm]
  rw [skipped, Cursor.room_iff positive]
  refine ⟨?_, ?_⟩
  · intro given
    obtain ⟨⟨bytes, rfl, leads⟩, rfl⟩ := given
    exact ⟨bytes, rfl, leads, rfl⟩
  · intro given
    obtain ⟨bytes, rfl, leads, rfl⟩ := given
    exact ⟨⟨bytes, rfl, leads⟩, rfl⟩

theorem acceptsAt_skip {first : UInt8} {next : Unit → Read α} (h : (next ()).Accepts language) :
    (skip 1 >>= next).AcceptsAt first fun bytes a =>
      ∃ rest, first :: rest = bytes ∧ language rest a := by
  refine ((accepts_bind (accepts_skip Nat.one_pos) fun _ => h).acceptsAt first).congr ?_ ?_ ?_
  · intro _ given
    obtain ⟨_, _, _, empty, one, _⟩ := given
    rw [(List.append_eq_nil_iff.mp empty).1] at one
    contradiction
  · intro _ given
    obtain ⟨_, empty, _⟩ := given
    contradiction
  · intro rest a
    refine ⟨?_, ?_⟩
    · intro given
      obtain ⟨_, front, back, written, one, hback⟩ := given
      obtain ⟨byte, rfl⟩ := List.length_eq_one_iff.mp one
      exact ⟨back, by rw [← written, (List.cons.inj written).1, List.singleton_append], hback⟩
    · intro given
      obtain ⟨_, written, hback⟩ := given
      exact ⟨(), [first], _, written, rfl, hback⟩

theorem accepts_onEnd {fault : Fault} (h : read.Accepts language) :
    (onEnd fault read).Accepts language := by
  intro cursor a stopped
  rw [← h cursor a stopped]
  cases result : read cursor with
  | ok value reached => simp [onEnd, result]
  | error cause reached => cases cause <;> simp [onEnd, result]

theorem Accepts.map {σ : Type} {valid : σ → Prop} {bytes : σ → Bytes} {value : σ → α} {f : α → β}
    (h : read.Accepts (Spelled valid bytes value)) :
    (read >>= fun a => pure (f a)).Accepts (Spelled valid bytes fun s => f (value s)) := by
  refine (accepts_map h).congr ?_
  intro written b
  refine ⟨?_, ?_⟩
  · intro given
    obtain ⟨_, ⟨s, hs, rfl, rfl⟩, rfl⟩ := given
    exact ⟨s, hs, rfl, rfl⟩
  · intro given
    obtain ⟨s, hs, rfl, rfl⟩ := given
    exact ⟨value s, ⟨s, hs, rfl, rfl⟩, rfl⟩

/-- Two readers one behind the other. -/
theorem Accepts.pair {σ τ γ : Type} {valid : σ → Prop} {bytes : σ → Bytes} {value : σ → α}
    {other : Read β} {otherValid : τ → Prop} {otherBytes : τ → Bytes} {otherValue : τ → β}
    {f : α → β → γ} (h : read.Accepts (Spelled valid bytes value))
    (hother : other.Accepts (Spelled otherValid otherBytes otherValue)) :
    (read >>= fun a => other >>= fun b => pure (f a b)).Accepts
      (Spelled (fun pair : σ × τ => valid pair.1 ∧ otherValid pair.2)
        (fun pair => bytes pair.1 ++ otherBytes pair.2)
        fun pair => f (value pair.1) (otherValue pair.2)) := by
  refine (accepts_bind h fun a => hother.map).congr ?_
  intro written c
  refine ⟨?_, ?_⟩
  · intro given
    obtain ⟨_, _, _, rfl, ⟨s, hs, rfl, rfl⟩, t, ht, rfl, rfl⟩ := given
    exact ⟨(s, t), ⟨hs, ht⟩, rfl, rfl⟩
  · intro given
    obtain ⟨⟨s, t⟩, ⟨hs, ht⟩, rfl, rfl⟩ := given
    exact ⟨_, _, _, rfl, ⟨s, hs, rfl, rfl⟩, t, ht, rfl, rfl⟩

/-- Counted repetition reads spellings one behind the other. -/
theorem accepts_times {σ : Type} {valid : σ → Prop} {bytes : σ → Bytes} {value : σ → α}
    (h : read.Accepts (Spelled valid bytes value)) (count : Nat) :
    (times read count).Accepts (Spelled
      (fun spellings : List σ => spellings.length = count ∧ ∀ s ∈ spellings, valid s)
      (List.flatMap bytes) (List.map value)) := by
  induction count with
  | zero =>
      refine (accepts_pure []).congr ?_
      intro written values
      refine ⟨?_, ?_⟩
      · intro given
        obtain ⟨rfl, rfl⟩ := given
        exact ⟨[], ⟨rfl, by simp⟩, rfl, rfl⟩
      · intro given
        obtain ⟨spellings, ⟨empty, _⟩, rfl, rfl⟩ := given
        obtain rfl := List.length_eq_zero_iff.mp empty
        exact ⟨rfl, rfl⟩
  | succ count ih =>
      refine (accepts_bind h fun a => accepts_map ih).congr ?_
      intro written values
      refine ⟨?_, ?_⟩
      · intro given
        obtain ⟨_, _, _, rfl, ⟨s, hs, rfl, rfl⟩, _, ⟨rest, ⟨rfl, hrest⟩, rfl, rfl⟩, rfl⟩ := given
        exact ⟨s :: rest, ⟨rfl, List.forall_mem_cons.mpr ⟨hs, hrest⟩⟩, rfl, rfl⟩
      · intro given
        obtain ⟨spellings, ⟨length_eq, all⟩, rfl, rfl⟩ := given
        obtain ⟨s, rest, rfl⟩ := List.exists_cons_of_length_eq_add_one length_eq
        obtain ⟨hs, hrest⟩ := List.forall_mem_cons.mp all
        refine ⟨value s, bytes s, rest.flatMap bytes, rfl, ⟨s, hs, rfl, rfl⟩, ?_⟩
        exact ⟨rest.map value, ⟨rest, ⟨Nat.succ.inj length_eq, hrest⟩, rfl, rfl⟩, rfl⟩

section

variable {σ α : Type} {read : Read α} {valid : σ → Prop} {bytes : σ → Bytes} {value : σ → α}

theorem run?_eq_ok_iff {data : Bytes} {a : α} :
    read.run? data = .ok a ↔ ∃ stopped, read { data } = .ok a stopped := by
  rw [Read.run?]
  cases read { data } <;> simp

/-- What a reader that accepts spellings has read is spelled at the start of the data. -/
theorem Accepts.spelled {data : Bytes} {n : Nat} {a : α}
    (h : read.Accepts (Spelled valid bytes value)) (done : read { data } = .ok a ⟨data, n⟩) :
    ∃ s, valid s ∧ bytes s = data.take n ∧ value s = a := by
  obtain ⟨_, ⟨s, hs, rfl, rfl⟩, leads, stopped_eq⟩ := (h _ _ _).mp done
  have n_eq : n = (bytes s).length := by
    simpa [Cursor.advance] using congrArg Cursor.pos stopped_eq
  rw [n_eq]
  exact ⟨s, hs, List.prefix_iff_eq_take.mp leads, rfl⟩

/-- A spelling by itself is read to its end. -/
theorem Accepts.read_whole (h : read.Accepts (Spelled valid bytes value)) {s : σ} (hs : valid s) :
    read { data := bytes s } = .ok (value s) ⟨bytes s, (bytes s).length⟩ := by
  have here : ({ data := bytes s } : Cursor).unread = bytes s ++ [] := (List.append_nil _).symm
  have done := h.read_spelling s hs here
  rw [Cursor.advance, Nat.zero_add] at done
  exact done

theorem Accepts.value_eq {s s' : σ} (h : read.Accepts (Spelled valid bytes value)) (hs : valid s)
    (hs' : valid s') (same : bytes s = bytes s') : value s = value s' := by
  have first := h.read_whole hs
  rw [same, h.read_whole hs'] at first
  exact (EStateM.Result.ok.inj first).1.symm

end

end Read

end CliMetadata
