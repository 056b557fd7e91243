import CliMetadata.Cursor

/-!
Compressed integers (ECMA-335 II.23.2). A form is a width of one, two or four bytes; the first
bits of the first byte mark the form and the other bits hold the number, most significant byte
first. A signed number is rotated left by one bit within the form, so that its sign is the lowest
bit. Writing takes the shortest form that has room; reading accepts any. Tokens are written as their
coded indexes.
-/

namespace CliMetadata

/-- The coded index of a token, which has to be of a table that coded indexes point into. -/
def Token.codedIndex (token : Token) : Except EncodingFault Nat :=
  match token.codedIndex? with
  | some index => .ok index
  | none => .error (.notTypeToken token)

namespace Compressed

inductive Form where
  | short
  | medium
  | long
deriving DecidableEq, Repr

namespace Form

def width : Form → Nat
  | .short => 1
  | .medium => 2
  | .long => 4

/-- How many numbers the form can hold: it has 7, 14 or 29 bits for them. -/
def capacity : Form → Nat
  | .short => 0x80
  | .medium => 0x4000
  | .long => 0x20000000

/-- The bits that mark the form, as a number of the form's width. -/
def marker : Form → Nat
  | .short => 0
  | .medium => 0x8000
  | .long => 0xC0000000

/-- The form that a first byte announces; a byte that starts with three set bits announces none.
-/
def ofFirstByte? (first : UInt8) : Option Form :=
  if first.toNat < 0x80 then some .short
  else if first.toNat < 0xC0 then some .medium
  else if first.toNat < 0xE0 then some .long
  else none

/-- The shortest form with room for an unsigned number. -/
def ofUnsigned? (n : Nat) : Option Form :=
  if n < capacity .short then some .short
  else if n < capacity .medium then some .medium
  else if n < capacity .long then some .long
  else none

/-- Whether a signed number fits into the form: half of its numbers are negative. -/
def HoldsSigned (form : Form) (i : Int) : Prop :=
  -(form.capacity / 2 : Int) ≤ i ∧ i < (form.capacity / 2 : Int)

instance (form : Form) (i : Int) : Decidable (form.HoldsSigned i) :=
  inferInstanceAs (Decidable (_ ∧ _))

/-- The shortest form with room for a signed number. -/
def ofSigned? (i : Int) : Option Form :=
  if HoldsSigned .short i then some .short
  else if HoldsSigned .medium i then some .medium
  else if HoldsSigned .long i then some .long
  else none

/-- A signed number rotated left: twice the number, or one more than twice what a negative number
lies above the least number of the form. -/
def rotate (form : Form) (i : Int) : Nat :=
  if 0 ≤ i then 2 * i.toNat else 2 * (i + form.capacity / 2).toNat + 1

def unrotate (form : Form) (raw : Nat) : Int :=
  if raw % 2 = 0 then (raw / 2 : Nat) else (raw / 2 : Nat) - (form.capacity / 2 : Int)

/-- The bytes of a number that the form has room for. -/
def bytes (form : Form) (raw : Nat) : Bytes := Bytes.ofNatBE form.width (form.marker + raw)

end Form

/-- The number of bytes that an unsigned number takes, if it has an encoding. -/
def size? (n : Nat) : Option Nat := (Form.ofUnsigned? n).map Form.width

def encodeUnsigned (n : Nat) : Except EncodingFault Bytes :=
  match Form.ofUnsigned? n with
  | some form => .ok (form.bytes n)
  | none => .error (.unsignedTooLarge n)

def encodeSigned (i : Int) : Except EncodingFault Bytes :=
  match Form.ofSigned? i with
  | some form => .ok (form.bytes (form.rotate i))
  | none => .error (.signedOutOfRange i)

def encodeToken (token : Token) : Except EncodingFault Bytes := do
  encodeUnsigned (← token.codedIndex)

end Compressed

namespace Read

open Compressed

/-- The form at the position and the number it holds, without a reading of the sign. -/
def compressed : Read (Form × Nat) := do
  let start ← position
  let first ← peekByte
  match Form.ofFirstByte? first with
  | none => throw (.invalidCompressedInteger first start)
  | some form => return (form, Bytes.toNatBE (← take form.width) % form.capacity)

theorem pos_lt_of_compressed {cursor stopped : Cursor} {result : Form × Nat}
    (h : compressed cursor = .ok result stopped) : cursor.pos < stopped.pos := by
  obtain ⟨start, _, hstart, h⟩ := bind_eq_ok.1 h
  obtain ⟨rfl, rfl⟩ := EStateM.Result.ok.inj hstart
  obtain ⟨first, between, hfirst, h⟩ := bind_eq_ok.1 h
  have hbetween : cursor = between := by
    simp only [peekByte] at hfirst
    split at hfirst <;> simp_all
  subst hbetween
  cases hform : Form.ofFirstByte? first with
  | none =>
    rw [hform] at h
    cases h
  | some form =>
    rw [hform] at h
    obtain ⟨bytes, after, htake, h⟩ := bind_eq_ok.1 h
    obtain ⟨_, _, rfl⟩ := take_eq_ok.1 htake
    obtain ⟨_, rfl⟩ := pure_eq_ok.1 h
    have : 0 < form.width := by cases form <;> decide
    simp only
    omega

def unsigned : Read Nat := do
  return (← compressed).2

def signed : Read Int := do
  let (form, raw) ← compressed
  return form.unrotate raw

/-- A coded index as the token it stands for. -/
def token : Read Token := do
  let index ← unsigned
  ofOption (Token.ofCodedIndex? index) (.malformed (.reservedIndexTag index))

/-- Values that follow their count. -/
def listOf {α : Type} (read : Read α) : Read (List α) := do
  times read (← unsigned)

/-- Bytes that follow their count. -/
def counted : Read Bytes := do
  take (← unsigned)

theorem pos_lt_of_counted {cursor stopped : Cursor} {bytes : Bytes}
    (h : counted cursor = .ok bytes stopped) : cursor.pos < stopped.pos := by
  obtain ⟨count, between, hcount, h⟩ := bind_eq_ok.1 h
  obtain ⟨result, _, hresult, hcount⟩ := bind_eq_ok.1 hcount
  obtain ⟨_, rfl⟩ := pure_eq_ok.1 hcount
  obtain ⟨_, _, rfl⟩ := take_eq_ok.1 h
  exact Nat.lt_of_lt_of_le (pos_lt_of_compressed hresult) (Nat.le_add_right _ _)

end Read

end CliMetadata
