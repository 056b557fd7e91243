import CliMetadata.Bytes
import CliMetadata.Fault

/-!
Reading bytes from left to right. A cursor is a position in a byte string; a reader takes a
cursor and gives a value or a fault, and the cursor it stopped at in both cases. The primitive
readers move by exactly what they read, and not at all when they fail.
-/

namespace CliMetadata

/-- The bytes in `[start, start + length)`, all of which have to exist. -/
def Bytes.slice (bytes : Bytes) (start length : Nat) : Except Fault Bytes :=
  match bytes.slice? start length with
  | some found => .ok found
  | none => .error .outOfBounds

structure Cursor where
  data : Bytes
  pos : Nat := 0
deriving DecidableEq, Repr

namespace Cursor

/-- The bytes from the position to the end. -/
def unread (cursor : Cursor) : Bytes := cursor.data.drop cursor.pos

def remaining (cursor : Cursor) : Nat := cursor.data.length - cursor.pos

def hasMore (cursor : Cursor) : Bool := cursor.pos < cursor.data.length

end Cursor

abbrev Read := EStateM Fault Cursor

namespace Read

theorem bind_eq_ok {α β : Type} {read : Read α} {next : α → Read β} {cursor stopped : Cursor}
    {b : β} : (read >>= next) cursor = .ok b stopped ↔
      ∃ a between, read cursor = .ok a between ∧ next a between = .ok b stopped := by
  simp only [bind, EStateM.bind]
  cases read cursor with
  | ok a between =>
    constructor
    · intro h
      exact ⟨a, between, rfl, h⟩
    · rintro ⟨_, _, hread, h⟩
      cases hread
      exact h
  | error fault between => simp

theorem pure_eq_ok {α : Type} {cursor stopped : Cursor} {a b : α} :
    (pure a : Read α) cursor = .ok b stopped ↔ a = b ∧ cursor = stopped := by
  simp [pure, EStateM.pure]

/-- The value or the fault that a reader gives on a byte string. -/
def run? {α : Type} (read : Read α) (data : Bytes) : Except Fault α :=
  match read { data } with
  | .ok value _ => .ok value
  | .error fault _ => .error fault

def position : Read Nat := fun cursor => .ok cursor.pos cursor

/-- Moves to a position, which may be the end but not behind it. -/
def seek (target : Nat) : Read Unit := fun cursor =>
  if target ≤ cursor.data.length then .ok () { cursor with pos := target }
  else .error .outOfBounds cursor

/-- The position after `count` further bytes, if they exist. -/
def endAfter (count : Nat) : Read Nat := fun cursor =>
  if cursor.pos + count ≤ cursor.data.length then .ok (cursor.pos + count) cursor
  else .error .outOfBounds cursor

def skip (count : Nat) : Read Unit := fun cursor =>
  if cursor.pos + count ≤ cursor.data.length then .ok () { cursor with pos := cursor.pos + count }
  else .error .outOfBounds cursor

/-- Checks that `count` further bytes exist and stays where it is. -/
def require (count : Nat) : Read Unit := fun cursor =>
  if count ≤ cursor.remaining then .ok () cursor else .error .outOfBounds cursor

def take (count : Nat) : Read Bytes := fun cursor =>
  if cursor.pos + count ≤ cursor.data.length then
    .ok (cursor.unread.take count) { cursor with pos := cursor.pos + count }
  else .error .outOfBounds cursor

theorem take_eq_ok {count : Nat} {cursor stopped : Cursor} {bytes : Bytes} :
    take count cursor = .ok bytes stopped ↔
      cursor.pos + count ≤ cursor.data.length ∧ cursor.unread.take count = bytes ∧
        { cursor with pos := cursor.pos + count } = stopped := by
  by_cases h : cursor.pos + count ≤ cursor.data.length <;> simp [take, h]

def peekByte : Read UInt8 := fun cursor =>
  match cursor.unread with
  | byte :: _ => .ok byte cursor
  | [] => .error .outOfBounds cursor

def byte : Read UInt8 := fun cursor =>
  match cursor.unread with
  | byte :: _ => .ok byte { cursor with pos := cursor.pos + 1 }
  | [] => .error .outOfBounds cursor

/-- A value that may be missing, with what it means if it is. -/
def ofOption {α : Type} (found : Option α) (fault : Fault) : Read α :=
  match found with
  | some value => pure value
  | none => throw fault

/-- Reads and then goes back to where it started. -/
def peek {α : Type} (read : Read α) : Read α := fun cursor =>
  match read cursor with
  | .ok value _ => .ok value cursor
  | .error fault _ => .error fault cursor

/-- Reads `count` values one after the other and stops at the first fault. -/
def times {α : Type} (read : Read α) : (count : Nat) → Read (List α)
  | 0 => pure []
  | count + 1 => do
    let value ← read
    let values ← times read count
    return value :: values

/-- What readers give that are run one after the other, each from where the one before it
stopped. A fault does not end the run. -/
def outcomes {α : Type} : List (Read α) → Cursor → List (EStateM.Result Fault Cursor α)
  | [], _ => []
  | read :: rest, cursor =>
    match read cursor with
    | .ok value stopped => .ok value stopped :: outcomes rest stopped
    | .error fault stopped => .error fault stopped :: outcomes rest stopped

/-- Puts another fault in the place of an end of data. -/
def onEnd {α : Type} (fault : Fault) (read : Read α) : Read α := fun cursor =>
  match read cursor with
  | .error .outOfBounds stopped => .error fault stopped
  | result => result

def uint16 : Read UInt16 := do
  return UInt16.ofNat (Bytes.toNatLE (← take 2))

def uint32 : Read UInt32 := do
  return UInt32.ofNat (Bytes.toNatLE (← take 4))

end Read

end CliMetadata
