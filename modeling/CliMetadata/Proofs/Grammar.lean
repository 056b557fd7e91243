import CliMetadata.Proofs.Reading

/-!
The grammar of signatures (ECMA-335 II.23.2): which byte strings stand for which trees. It is given
by rules that mention no reader. The readers accept exactly what the grammar derives with no more
than fifty levels, whatever follows it, and stop behind it.
-/

namespace CliMetadata

namespace Grammar

/-- The tags that are a whole type. -/
def primitives : List ElementType :=
  [.void, .boolean, .char, .i1, .u1, .i2, .u2, .i4, .u4, .i8, .u8, .r4, .r8, .string, .typedByRef,
    .i, .u, .object]

/-- A number in one, two or four bytes, the most significant byte first. The first bits of the first
byte tell how many bytes there are, and so many bits are left for the number. -/
inductive Integer : (bits : Nat) → Bytes → Nat → Prop where
  | one (a : UInt8) : a.toNat < 0x80 → Integer 7 [a] a.toNat
  | two (a b : UInt8) : 0x80 ≤ a.toNat → a.toNat < 0xC0 →
    Integer 14 [a, b] ((a.toNat - 0x80) * 0x100 + b.toNat)
  | four (a b c d : UInt8) : 0xC0 ≤ a.toNat → a.toNat < 0xE0 →
    Integer 29 [a, b, c, d]
      ((((a.toNat - 0xC0) * 0x100 + b.toNat) * 0x100 + c.toNat) * 0x100 + d.toNat)

def Unsigned (bytes : Bytes) (n : Nat) : Prop := ∃ bits, Integer bits bytes n

/-- The lowest bit is the sign, and the bits above it are in two's complement. -/
def Signed (bytes : Bytes) (i : Int) : Prop :=
  ∃ bits n, Integer bits bytes n ∧
    i = if n % 2 = 0 then ((n / 2 : Nat) : Int) else (n / 2 : Nat) - (2 ^ (bits - 1) : Nat)

/-- The two lowest bits are the tag of a table, and the bits above them are the row. -/
def CodedIndex (bytes : Bytes) (token : Token) : Prop :=
  ∃ (index : Nat) (table : TypeTable), Unsigned bytes index ∧ index % 4 = table.tag ∧
    token = ⟨UInt32.ofNat (table.number * 0x1000000 ||| index / 4)⟩

inductive Repeated {α : Type} (item : Bytes → α → Prop) : Bytes → List α → Prop where
  | nil : Repeated item [] []
  | cons {front back : Bytes} {a : α} {rest : List α} : item front a → Repeated item back rest →
    Repeated item (front ++ back) (a :: rest)

/-- Items behind their count. -/
def Listed {α : Type} (item : Bytes → α → Prop) (bytes : Bytes) (items : List α) : Prop :=
  ∃ count body, Unsigned count items.length ∧ Repeated item body items ∧ count ++ body = bytes

inductive Shape : Bytes → ArrayShape → Prop where
  | flat {rank : Bytes} : Unsigned rank 0 → Shape rank { rank := 0 }
  | listed {rank sizes bounds : Bytes} {shape : ArrayShape} : Unsigned rank shape.rank →
    0 < shape.rank → Listed Unsigned sizes shape.sizes → Listed Signed bounds shape.lowerBounds →
    Shape (rank ++ sizes ++ bounds) shape

/-- The count of generic parameters stands there only if the convention has the flag for it. -/
def GenericCount (convention : UInt8) (bytes : Bytes) (count : Nat) : Prop :=
  if convention &&& 0x10 = 0 then bytes = [] ∧ count = 0 else Unsigned bytes count

end Grammar

/-- What the rules of the grammar derive. -/
inductive Phrase where
  | type (signature : TypeSignature)
  | types (signatures : List TypeSignature)
  | params (fixed : List TypeSignature) (varargs : Option (List TypeSignature))
  | method (signature : MethodSignature)

open Grammar in
/-- The rules of the grammar. Handles and primitive types have what the resolver gives for them. -/
inductive Derives (resolver : Resolver) : Bytes → Phrase → Prop where
  | primitive {tag : ElementType} : tag ∈ primitives →
    Derives resolver [tag.byte] (.type (.primitive 0 tag (resolver.primitive? tag)))
  | named {index : Bytes} {token : Token} (kind : TypeKind) : CodedIndex index token →
    Derives resolver (kind.tag.byte :: index) (.type (.named 0 kind (resolver.handle token)))
  | typeVar {number : Bytes} {index : Nat} : Unsigned number index →
    Derives resolver (ElementType.typeVar.byte :: number) (.type (.typeVar 0 index))
  | methodVar {number : Bytes} {index : Nat} : Unsigned number index →
    Derives resolver (ElementType.methodVar.byte :: number) (.type (.methodVar 0 index))
  | sentinel : Derives resolver [ElementType.sentinel.byte] (.type (.sentinel 0))
  | functionPointer {body : Bytes} {method : MethodSignature} :
    Derives resolver body (.method method) →
    Derives resolver (ElementType.fnPtr.byte :: body) (.type (.functionPointer 0 method))
  | instantiation {index count body : Bytes} {token : Token} {arguments : List TypeSignature}
    (kind : TypeKind) : CodedIndex index token → Unsigned count arguments.length →
    Derives resolver body (.types arguments) →
    Derives resolver (ElementType.genericInst.byte :: kind.tag.byte :: index ++ count ++ body)
      (.type (.instantiation 0 kind (resolver.handle token) arguments))
  | pointer {inner : Bytes} {next : TypeSignature} : Derives resolver inner (.type next) →
    Derives resolver (ElementType.ptr.byte :: inner) (.type (.wrapped 0 .pointer next))
  | byRef {inner : Bytes} {next : TypeSignature} : Derives resolver inner (.type next) →
    Derives resolver (ElementType.byRef.byte :: inner) (.type (.wrapped 0 .byRef next))
  | vector {inner : Bytes} {next : TypeSignature} : Derives resolver inner (.type next) →
    Derives resolver (ElementType.szArray.byte :: inner) (.type (.wrapped 0 .vector next))
  | pinned {inner : Bytes} {next : TypeSignature} : Derives resolver inner (.type next) →
    Derives resolver (ElementType.pinned.byte :: inner) (.type (.wrapped 0 .pinned next))
  | array {inner dimensions : Bytes} {next : TypeSignature} {shape : ArrayShape} :
    Derives resolver inner (.type next) → Shape dimensions shape →
    Derives resolver (ElementType.array.byte :: inner ++ dimensions)
      (.type (.wrapped 0 (.array shape) next))
  | modifier {index inner : Bytes} {token : Token} {next : TypeSignature} (kind : ModifierKind) :
    CodedIndex index token → Derives resolver inner (.type next) →
    Derives resolver (kind.tag.byte :: index ++ inner)
      (.type (.wrapped 0 (.modifier kind (resolver.handle token)) next))
  | valueArray {inner number : Bytes} {next : TypeSignature} {size : Nat} :
    Derives resolver inner (.type next) → Unsigned number size →
    Derives resolver (ElementType.valueArray.byte :: inner ++ number)
      (.type (.wrapped 0 (.valueArray size) next))
  | scoped {number inner : Bytes} {index : Nat} {next : TypeSignature} : Unsigned number index →
    Derives resolver inner (.type next) →
    Derives resolver (ElementType.moduleType.byte :: number ++ inner)
      (.type (.wrapped 0 (.scoped index) next))
  | noTypes : Derives resolver [] (.types [])
  | moreTypes {first rest : Bytes} {signature : TypeSignature} {signatures : List TypeSignature} :
    Derives resolver first (.type signature) → Derives resolver rest (.types signatures) →
    Derives resolver (first ++ rest) (.types (signature :: signatures))
  | noParams : Derives resolver [] (.params [] none)
  | fixedParam {first rest : Bytes} {param : TypeSignature} {fixed : List TypeSignature}
    {varargs : Option (List TypeSignature)} : Derives resolver first (.type param) →
    first.head? ≠ some ElementType.sentinel.byte → Derives resolver rest (.params fixed varargs) →
    Derives resolver (first ++ rest) (.params (param :: fixed) varargs)
  /-- Where a parameter is expected, the first sentinel is none, but tells that all the parameters
  from there on are variable ones. There is at least one of them. -/
  | varargs {first rest : Bytes} {param : TypeSignature} {params : List TypeSignature} :
    Derives resolver first (.type param) → Derives resolver rest (.types params) →
    Derives resolver (ElementType.sentinel.byte :: first ++ rest)
      (.params [] (some (param :: params)))
  | method {convention : UInt8} {generics count first rest : Bytes} {genericCount : Nat}
    {result : TypeSignature} {fixed : List TypeSignature}
    {varargs : Option (List TypeSignature)} :
    convention.toNat % 16 ∈ MethodSignature.kinds →
    GenericCount convention generics genericCount →
    Unsigned count (fixed.length + (varargs.getD []).length) →
    Derives resolver first (.type result) → Derives resolver rest (.params fixed varargs) →
    Derives resolver (convention :: generics ++ count ++ first ++ rest)
      (.method ⟨convention, genericCount, result, fixed, varargs⟩)

namespace Grammar

open Compressed

theorem mem_primitives_iff {tag : ElementType} : tag ∈ primitives ↔ tag.isPrimitive = true := by
  cases tag <;> decide

/-- How many bits a form has for the number. -/
def bits : Form → Nat
  | .short => 7
  | .medium => 14
  | .long => 29

section

variable {first : UInt8} {rest : Bytes} {n : Nat}

/-- Bytes are a numeral if the first one announces their number, and the marker is left out of the
number. -/
theorem numeral_iff {form : Form} :
    Spelled (fun _ => True) Numeral.bytes (fun numeral => (numeral.form, numeral.raw))
      (first :: rest) (form, n) ↔ Form.ofFirstByte? first = some form ∧
        rest.length + 1 = form.width ∧ Bytes.toNatBE (first :: rest) % form.capacity = n := by
  refine ⟨?_, ?_⟩
  · intro given
    obtain ⟨numeral, -, written, same⟩ := given
    obtain ⟨rfl, rfl⟩ := Prod.mk.inj same
    refine ⟨numeral.announced written, ?_, by rw [← written, numeral.toNatBE_bytes_mod]⟩
    rw [← List.length_cons, ← written, Numeral.bytes, Form.length_bytes]
  · intro given
    obtain ⟨announced, length_eq, rfl⟩ := given
    obtain ⟨numeral, written, rfl⟩ := Numeral.exists_of_announced announced length_eq
    exact ⟨numeral, trivial, written, by rw [← written, numeral.toNatBE_bytes_mod]⟩

theorem announces_short_iff : Form.ofFirstByte? first = some .short ↔ first.toNat < 0x80 := by
  unfold Form.ofFirstByte?
  split_ifs <;> simp <;> omega

theorem announces_medium_iff : Form.ofFirstByte? first = some .medium ↔
    0x80 ≤ first.toNat ∧ first.toNat < 0xC0 := by
  unfold Form.ofFirstByte?
  split_ifs <;> simp <;> omega

theorem announces_long_iff : Form.ofFirstByte? first = some .long ↔
    0xC0 ≤ first.toNat ∧ first.toNat < 0xE0 := by
  unfold Form.ofFirstByte?
  split_ifs <;> simp <;> omega

end

section

variable {a : UInt8}

theorem value_one (low : a.toNat < 0x80) :
    Bytes.toNatBE [a] % Form.capacity .short = a.toNat := by
  simp only [Bytes.toNatBE_cons, Bytes.toNatBE_nil, Form.capacity, List.length_nil]
  omega

theorem value_two (b : UInt8) (low : 0x80 ≤ a.toNat) (high : a.toNat < 0xC0) :
    Bytes.toNatBE [a, b] % Form.capacity .medium = (a.toNat - 0x80) * 0x100 + b.toNat := by
  have := b.toNat_lt
  simp only [Bytes.toNatBE_cons, Bytes.toNatBE_nil, Form.capacity, List.length_cons,
    List.length_nil]
  omega

theorem value_four (b c d : UInt8) (low : 0xC0 ≤ a.toNat) (high : a.toNat < 0xE0) :
    Bytes.toNatBE [a, b, c, d] % Form.capacity .long =
      (((a.toNat - 0xC0) * 0x100 + b.toNat) * 0x100 + c.toNat) * 0x100 + d.toNat := by
  have := b.toNat_lt
  have := c.toNat_lt
  have := d.toNat_lt
  simp only [Bytes.toNatBE_cons, Bytes.toNatBE_nil, Form.capacity, List.length_cons,
    List.length_nil]
  omega

end

theorem integer_of_numeral (numeral : Numeral) :
    Integer (bits numeral.form) numeral.bytes numeral.raw := by
  obtain ⟨first, rest, written⟩ := List.exists_cons_of_ne_nil numeral.bytes_ne_nil
  obtain ⟨announced, length_eq, value⟩ := numeral_iff.mp
    (⟨numeral, trivial, written, rfl⟩ : Spelled _ _ _ _ (numeral.form, numeral.raw))
  rw [written, ← value]
  generalize numeral.form = form at announced length_eq
  cases form with
  | short =>
      have low := announces_short_iff.mp announced
      obtain rfl := List.length_eq_zero_iff.mp (Nat.succ.inj length_eq)
      rw [value_one low]
      exact .one first low
  | medium =>
      obtain ⟨low, high⟩ := announces_medium_iff.mp announced
      obtain ⟨b, rfl⟩ := List.length_eq_one_iff.mp (Nat.succ.inj length_eq)
      rw [value_two b low high]
      exact .two first b low high
  | long =>
      obtain ⟨low, high⟩ := announces_long_iff.mp announced
      obtain ⟨b, c, d, rfl⟩ := List.length_eq_three.mp (Nat.succ.inj length_eq)
      rw [value_four b c d low high]
      exact .four first b c d low high

/-- The numbers of the grammar are the numerals. -/
theorem integer_iff {bytes : Bytes} {width n : Nat} : Integer width bytes n ↔
    Spelled (fun _ => True) Numeral.bytes (fun numeral => (bits numeral.form, numeral.raw)) bytes
      (width, n) := by
  refine ⟨?_, ?_⟩
  · intro derived
    -- Each rule gives a first byte that announces a form, and as many others as the form has.
    suffices ∃ form first rest, bytes = first :: rest ∧ bits form = width ∧
        Form.ofFirstByte? first = some form ∧ rest.length + 1 = form.width ∧
        Bytes.toNatBE (first :: rest) % form.capacity = n by
      obtain ⟨form, first, rest, rfl, rfl, announced, length_eq, value⟩ := this
      obtain ⟨numeral, -, written, same⟩ := numeral_iff.mpr ⟨announced, length_eq, value⟩
      obtain ⟨rfl, rfl⟩ := Prod.mk.inj same
      exact ⟨numeral, trivial, written, rfl⟩
    cases derived with
    | one a low =>
        exact ⟨.short, a, [], rfl, rfl, announces_short_iff.mpr low, rfl, value_one low⟩
    | two a b low high =>
        exact ⟨.medium, a, [b], rfl, rfl, announces_medium_iff.mpr ⟨low, high⟩, rfl,
          value_two b low high⟩
    | four a b c d low high =>
        exact ⟨.long, a, [b, c, d], rfl, rfl, announces_long_iff.mpr ⟨low, high⟩, rfl,
          value_four b c d low high⟩
  · intro given
    obtain ⟨numeral, -, rfl, same⟩ := given
    obtain ⟨rfl, rfl⟩ := Prod.mk.inj same
    exact integer_of_numeral numeral

theorem unsigned_iff {bytes : Bytes} {n : Nat} :
    Unsigned bytes n ↔ Spelled (fun _ => True) Numeral.bytes Numeral.raw bytes n := by
  refine ⟨?_, ?_⟩
  · intro given
    obtain ⟨width, derived⟩ := given
    obtain ⟨numeral, -, rfl, same⟩ := integer_iff.mp derived
    exact ⟨numeral, trivial, rfl, (Prod.mk.inj same).2⟩
  · intro given
    obtain ⟨numeral, -, rfl, rfl⟩ := given
    exact ⟨_, integer_of_numeral numeral⟩

theorem signed_eq (numeral : Numeral) : numeral.signed =
    if numeral.raw % 2 = 0 then ((numeral.raw / 2 : Nat) : Int)
    else (numeral.raw / 2 : Nat) - (2 ^ (bits numeral.form - 1) : Nat) := by
  have half : (numeral.form.capacity / 2 : Int) = (2 ^ (bits numeral.form - 1) : Nat) := by
    cases numeral.form <;> rfl
  rw [Numeral.signed, Form.unrotate, half]

theorem signed_iff {bytes : Bytes} {i : Int} :
    Signed bytes i ↔ Spelled (fun _ => True) Numeral.bytes Numeral.signed bytes i := by
  refine ⟨?_, ?_⟩
  · intro given
    obtain ⟨width, n, derived, rfl⟩ := given
    obtain ⟨numeral, -, rfl, same⟩ := integer_iff.mp derived
    obtain ⟨rfl, rfl⟩ := Prod.mk.inj same
    exact ⟨numeral, trivial, rfl, signed_eq numeral⟩
  · intro given
    obtain ⟨numeral, -, rfl, rfl⟩ := given
    exact ⟨_, _, integer_of_numeral numeral, signed_eq numeral⟩

theorem codedIndex_iff {bytes : Bytes} {token : Token} : CodedIndex bytes token ↔
    Spelled (fun _ => True) (fun index : IndexNumeral => index.bytes) IndexNumeral.token bytes
      token := by
  have token_iff {index : Nat} : Token.ofCodedIndex? index = some token ↔
      ∃ table : TypeTable, index % 4 = table.tag ∧
        token = ⟨UInt32.ofNat (table.number * 0x1000000 ||| index / 4)⟩ := by
    simp only [Token.ofCodedIndex?, Option.map_eq_some_iff, TypeTable.ofTag?_eq_some_iff]
    simp only [eq_comm]
  refine ⟨?_, ?_⟩
  · intro given
    obtain ⟨index, table, derived, found⟩ := given
    obtain ⟨numeral, -, rfl, rfl⟩ := unsigned_iff.mp derived
    exact ⟨⟨numeral, token, token_iff.mpr ⟨table, found⟩⟩, trivial, rfl, rfl⟩
  · intro given
    obtain ⟨⟨numeral, token, token_eq⟩, -, rfl, rfl⟩ := given
    obtain ⟨table, found⟩ := token_iff.mp token_eq
    exact ⟨_, table, unsigned_iff.mpr (spelled_of_valid numeral trivial), found⟩

section

variable {σ α : Type} {item : Bytes → α → Prop} {spell : σ → Bytes} {value : σ → α}
  {bytes : Bytes} {items : List α}

theorem repeated_iff
    (h : ∀ bytes a, item bytes a ↔ Spelled (fun _ => True) spell value bytes a) :
    Repeated item bytes items ↔
      Spelled (fun _ => True) (List.flatMap spell) (List.map value) bytes items := by
  refine ⟨?_, ?_⟩
  · intro derived
    induction derived with
    | nil => exact ⟨[], trivial, rfl, rfl⟩
    | cons first rest ih =>
        obtain ⟨s, -, rfl, rfl⟩ := (h _ _).mp first
        obtain ⟨others, -, rfl, rfl⟩ := ih
        exact ⟨s :: others, trivial, rfl, rfl⟩
  · intro given
    obtain ⟨spellings, -, rfl, rfl⟩ := given
    induction spellings with
    | nil => exact .nil
    | cons s others ih => exact .cons ((h _ _).mpr (spelled_of_valid s trivial)) ih

theorem listed_iff
    (h : ∀ bytes a, item bytes a ↔ Spelled (fun _ => True) spell value bytes a) :
    Listed item bytes items ↔
      Spelled (fun _ => True) (fun list : Counted σ => list.count.bytes ++ list.items.flatMap spell)
        (fun list => list.items.map value) bytes items := by
  refine ⟨?_, ?_⟩
  · intro given
    obtain ⟨_, _, count, body, rfl⟩ := given
    obtain ⟨spellings, -, rfl, rfl⟩ := (repeated_iff h).mp body
    obtain ⟨numeral, -, rfl, count_eq⟩ := unsigned_iff.mp count
    rw [List.length_map] at count_eq
    exact ⟨⟨numeral, spellings, count_eq⟩, trivial, rfl, rfl⟩
  · intro given
    obtain ⟨⟨numeral, spellings, count_eq⟩, -, rfl, rfl⟩ := given
    refine ⟨_, _, unsigned_iff.mpr ⟨numeral, trivial, rfl, ?_⟩, (repeated_iff h).mpr ?_, rfl⟩
    · rw [List.length_map, count_eq]
    · exact spelled_of_valid spellings trivial

end

theorem shape_iff {bytes : Bytes} {shape : ArrayShape} : Shape bytes shape ↔
    Spelled (fun _ => True) ShapeSpelling.bytes ShapeSpelling.shape bytes shape := by
  refine ⟨?_, ?_⟩
  · intro derived
    cases derived with
    | flat rank =>
        obtain ⟨numeral, -, rfl, flat⟩ := unsigned_iff.mp rank
        exact ⟨.flat numeral flat, trivial, List.append_nil _, rfl⟩
    | listed rank positive sizeList boundList =>
        obtain ⟨numeral, -, rfl, rank_eq⟩ := unsigned_iff.mp rank
        obtain ⟨sizes, -, rfl, sizes_eq⟩ := (listed_iff fun _ _ => unsigned_iff).mp sizeList
        obtain ⟨bounds, -, rfl, bounds_eq⟩ := (listed_iff fun _ _ => signed_iff).mp boundList
        have nonflat : numeral.raw ≠ 0 := by omega
        refine ⟨.listed numeral nonflat sizes bounds, trivial, ?_, ?_⟩
        · simp only [Read.bytes_listed, List.append_assoc]
        · simp only [ShapeSpelling.shape, rank_eq, sizes_eq, bounds_eq]
  · intro given
    obtain ⟨spelling, -, rfl, rfl⟩ := given
    cases spelling with
    | flat rank flat =>
        have derived : Unsigned rank.bytes 0 := unsigned_iff.mpr ⟨rank, trivial, rfl, flat⟩
        rw [ShapeSpelling.bytes, ShapeSpelling.lexemes, Lexeme.bytesOf_cons, Lexeme.bytesOf_nil,
          List.append_nil]
        exact .flat derived
    | listed rank nonflat sizes bounds =>
        rw [Read.bytes_listed, ← List.append_assoc]
        refine .listed (unsigned_iff.mpr (spelled_of_valid rank trivial))
          (Nat.pos_of_ne_zero nonflat) ((listed_iff fun _ _ => unsigned_iff).mpr ?_)
          ((listed_iff fun _ _ => signed_iff).mpr ?_)
        · exact spelled_of_valid sizes trivial
        · exact spelled_of_valid bounds trivial

theorem genericCount_iff {convention : UInt8} {bytes : Bytes} {count : Nat} :
    GenericCount convention bytes count ↔
      Spelled (fun generics : Option Numeral => generics.isSome ↔ convention &&& 0x10 ≠ 0)
        (fun generics => Lexeme.bytesOf (generics.toList.map .unsigned))
        (fun generics => (generics.map Numeral.raw).getD 0) bytes count := by
  by_cases noFlag : convention &&& 0x10 = 0
  · rw [GenericCount, if_pos noFlag]
    refine ⟨?_, ?_⟩
    · intro given
      obtain ⟨rfl, rfl⟩ := given
      exact ⟨none, by simpa using noFlag, rfl, rfl⟩
    · intro given
      obtain ⟨_ | numeral, flag, rfl, rfl⟩ := given
      · exact ⟨rfl, rfl⟩
      · exact absurd noFlag (flag.mp rfl)
  · rw [GenericCount, if_neg noFlag, unsigned_iff]
    refine ⟨?_, ?_⟩
    · intro given
      obtain ⟨numeral, -, rfl, rfl⟩ := given
      exact ⟨some numeral, by simpa using noFlag, by simp, rfl⟩
    · intro given
      obtain ⟨_ | numeral, flag, rfl, rfl⟩ := given
      · exact absurd (flag.mpr noFlag) (by simp)
      · exact ⟨numeral, trivial, by simp, rfl⟩

end Grammar

open Grammar

/-- The spellings that stand for what the rules derive. -/
def Phrase.IsSpelled (resolver : Resolver) (bytes : Bytes) : Phrase → Prop
  | .type signature =>
    Spelled TypeSpelling.Valid TypeSpelling.bytes (TypeSpelling.tree resolver) bytes signature
  | .types signatures =>
    Spelled (fun spellings : List TypeSpelling => ∀ s ∈ spellings, s.Valid)
      (List.flatMap TypeSpelling.bytes) (List.map (TypeSpelling.tree resolver)) bytes signatures
  | .params fixed varargs =>
    ParamsSpelled resolver TypeSpelling.Valid (fixed.length + (varargs.getD []).length) bytes
      (fixed, varargs)
  | .method signature =>
    Spelled MethodSpelling.Valid MethodSpelling.bytes (MethodSpelling.tree resolver) bytes
      signature

section

variable {resolver : Resolver} {bytes : Bytes}

theorem isSpelled_wrapped (wrapper : WrapperSpelling) {inner : Bytes} {next : TypeSignature}
    (spelled : (Phrase.type next).IsSpelled resolver inner)
    (written : Lexeme.bytesOf wrapper.before ++ (inner ++ Lexeme.bytesOf wrapper.behind) = bytes) :
    (Phrase.type (.wrapped 0 (wrapper.wrapper resolver) next)).IsSpelled resolver
      (wrapper.tag.byte :: bytes) := by
  obtain ⟨spelling, valid, rfl, rfl⟩ := spelled
  exact ⟨.wrapped wrapper spelling, valid, by rw [TypeSpelling.bytes_wrapped, written], rfl⟩

/-- Every derivation has a spelling. -/
theorem Derives.isSpelled {phrase : Phrase} (derived : Derives resolver bytes phrase) :
    phrase.IsSpelled resolver bytes := by
  induction derived with
  | primitive mem => exact ⟨.primitive _ (mem_primitives_iff.mp mem), trivial, rfl, rfl⟩
  | named kind coded =>
      obtain ⟨index, -, rfl, rfl⟩ := codedIndex_iff.mp coded
      exact ⟨.named kind index, trivial, TypeSpelling.bytes_named _ _, rfl⟩
  | typeVar number =>
      obtain ⟨index, -, rfl, rfl⟩ := unsigned_iff.mp number
      exact ⟨.typeVar index, trivial, TypeSpelling.bytes_typeVar _, rfl⟩
  | methodVar number =>
      obtain ⟨index, -, rfl, rfl⟩ := unsigned_iff.mp number
      exact ⟨.methodVar index, trivial, TypeSpelling.bytes_methodVar _, rfl⟩
  | sentinel => exact ⟨.sentinel, trivial, rfl, rfl⟩
  | functionPointer _ ih =>
      obtain ⟨method, valid, rfl, rfl⟩ := ih
      exact ⟨.functionPointer method, valid, rfl, rfl⟩
  | instantiation kind coded number _ ih =>
      obtain ⟨generic, -, rfl, rfl⟩ := codedIndex_iff.mp coded
      obtain ⟨count, -, rfl, count_eq⟩ := unsigned_iff.mp number
      obtain ⟨arguments, valid, rfl, rfl⟩ := ih
      rw [List.length_map] at count_eq
      refine ⟨.instantiation kind generic count arguments,
        ⟨count_eq, TypeSpelling.allValid_iff.mpr valid⟩, ?_, ?_⟩
      · simp [TypeSpelling.bytes_instantiation]
      · rw [TypeSpelling.tree, TypeSpelling.trees_eq]
  | pointer _ ih => exact isSpelled_wrapped .pointer ih (by simp)
  | byRef _ ih => exact isSpelled_wrapped .byRef ih (by simp)
  | vector _ ih => exact isSpelled_wrapped .vector ih (by simp)
  | pinned _ ih => exact isSpelled_wrapped .pinned ih (by simp)
  | array _ dimensions ih =>
      obtain ⟨shape, -, rfl, rfl⟩ := shape_iff.mp dimensions
      exact isSpelled_wrapped (.array shape) ih rfl
  | modifier kind coded _ ih =>
      obtain ⟨index, -, rfl, rfl⟩ := codedIndex_iff.mp coded
      exact isSpelled_wrapped (.modifier kind index) ih (by simp)
  | valueArray _ number ih =>
      obtain ⟨size, -, rfl, rfl⟩ := unsigned_iff.mp number
      exact isSpelled_wrapped (.valueArray size) ih (by simp)
  | «scoped» number _ ih =>
      obtain ⟨index, -, rfl, rfl⟩ := unsigned_iff.mp number
      exact isSpelled_wrapped (.scoped index) ih (by simp)
  | noTypes => exact ⟨[], by simp, rfl, rfl⟩
  | moreTypes _ _ first rest =>
      obtain ⟨spelling, valid, rfl, rfl⟩ := first
      obtain ⟨others, allValid, rfl, rfl⟩ := rest
      exact ⟨spelling :: others, List.forall_mem_cons.mpr ⟨valid, allValid⟩, rfl, rfl⟩
  | noParams => exact paramsSpelled_zero_iff.mpr ⟨rfl, rfl⟩
  | fixedParam _ notSentinel _ first rest =>
      obtain ⟨param, valid, rfl, rfl⟩ := first
      obtain ⟨params, varargs, length_eq, fixed, allValid, varargsValid, rfl, same⟩ := rest
      obtain ⟨rfl, rfl⟩ := Prod.mk.inj same
      have opening : TypeSpelling.sentinel ≠ param := by
        rintro rfl
        exact notSentinel rfl
      refine ⟨param :: params, varargs, ?_, List.not_mem_cons_of_ne_of_not_mem opening fixed,
        List.forall_mem_cons.mpr ⟨valid, allValid⟩, varargsValid, bytesOf_params _ _ _, rfl⟩
      rw [List.length_cons, List.length_cons]
      omega
  | varargs _ _ first rest =>
      obtain ⟨param, valid, rfl, rfl⟩ := first
      obtain ⟨others, allValid, rfl, rfl⟩ := rest
      refine ⟨[], param :: others, ?_, by simp, by simp,
        List.forall_mem_cons.mpr ⟨valid, allValid⟩, bytesOf_varargs _ _, ?_⟩
      · simp
      · rw [← TypeSpelling.trees_eq]
        rfl
  | method kind flagged number _ _ first rest =>
      obtain ⟨generics, flag, rfl, rfl⟩ := genericCount_iff.mp flagged
      obtain ⟨count, -, rfl, count_eq⟩ := unsigned_iff.mp number
      obtain ⟨result, valid, rfl, rfl⟩ := first
      obtain ⟨params, varargs, length_eq, fixed, allValid, varargsValid, rfl, same⟩ := rest
      obtain ⟨rfl, rfl⟩ := Prod.mk.inj same
      refine ⟨⟨_, generics, count, result, params, varargs⟩, ?_, ?_, rfl⟩
      · refine MethodSpelling.valid_iff.mpr ⟨kind, flag, count_eq.trans length_eq.symm, fixed, ?_⟩
        exact MethodSpelling.forall_parts_iff.mpr ⟨valid, allValid, varargsValid⟩
      · rw [MethodSpelling.bytes_eq]
        simp only [List.append_assoc, List.cons_append, List.nil_append]

end

namespace TypeSpelling

variable {resolver : Resolver}

theorem derives_types {spellings : List TypeSpelling}
    (h : ∀ s ∈ spellings, Derives resolver s.bytes (.type (s.tree resolver))) :
    Derives resolver (spellings.flatMap bytes) (.types (spellings.map (tree resolver))) := by
  induction spellings with
  | nil => exact .noTypes
  | cons spelling rest ih =>
      obtain ⟨first, others⟩ := List.forall_mem_cons.mp h
      exact .moreTypes first (ih others)

theorem derives_params {params varargs : List TypeSpelling} (fixed : sentinel ∉ params)
    (hparams : ∀ s ∈ params, Derives resolver s.bytes (.type (s.tree resolver)))
    (hvarargs : ∀ s ∈ varargs, Derives resolver s.bytes (.type (s.tree resolver))) :
    Derives resolver (Lexeme.bytesOf (allLexemes params ++ varargLexemes varargs))
      (.params (trees resolver params) (varargTrees resolver varargs)) := by
  induction params with
  | nil =>
      cases varargs with
      | nil => exact .noParams
      | cons vararg others =>
          obtain ⟨first, rest⟩ := List.forall_mem_cons.mp hvarargs
          rw [allLexemes, List.nil_append, bytesOf_varargs, trees, varargTrees, trees_eq]
          exact .varargs first (derives_types rest)
  | cons param others ih =>
      obtain ⟨first, rest⟩ := List.forall_mem_cons.mp hparams
      rw [bytesOf_params]
      refine .fixedParam first ?_ (ih (List.not_mem_of_not_mem_cons fixed) rest)
      intro head
      obtain ⟨behind, opening⟩ := List.head?_eq_some_iff.mp head
      rw [eq_sentinel_of_bytes opening] at fixed
      exact fixed List.mem_cons_self

theorem derives_method {method : MethodSpelling} (valid : method.Valid)
    (h : ∀ part ∈ method.parts, Derives resolver part.bytes (.type (part.tree resolver))) :
    Derives resolver method.bytes (.method (method.tree resolver)) := by
  obtain ⟨kind, flag, count_eq, fixed, -⟩ := MethodSpelling.valid_iff.mp valid
  obtain ⟨hresult, hparams, hvarargs⟩ := MethodSpelling.forall_parts_iff.mp h
  obtain ⟨convention, generics, count, result, params, varargs⟩ := method
  have number : Unsigned count.bytes ((trees resolver params).length +
      ((varargTrees resolver varargs).getD []).length) := by
    refine unsigned_iff.mpr ⟨count, trivial, rfl, count_eq.trans ?_⟩
    cases varargs <;> simp [varargTrees]
  have derived := Derives.method kind (genericCount_iff.mpr (spelled_of_valid generics flag)) number
    hresult (derives_params fixed hparams hvarargs)
  simpa [MethodSpelling.bytes_eq, MethodSpelling.tree] using derived

theorem derives_wrapped (wrapper : WrapperSpelling) {next : TypeSpelling}
    (derived : Derives resolver next.bytes (.type (next.tree resolver))) :
    Derives resolver (wrapped wrapper next).bytes
      (.type ((wrapped wrapper next).tree resolver)) := by
  rw [bytes_wrapped, tree]
  cases wrapper with
  | pointer => simpa [WrapperSpelling.wrapper] using Derives.pointer derived
  | byRef => simpa [WrapperSpelling.wrapper] using Derives.byRef derived
  | vector => simpa [WrapperSpelling.wrapper] using Derives.vector derived
  | pinned => simpa [WrapperSpelling.wrapper] using Derives.pinned derived
  | array shape =>
      have dimensions := shape_iff.mpr (spelled_of_valid shape trivial)
      have whole := Derives.array derived dimensions
      exact whole
  | modifier kind index =>
      have coded := codedIndex_iff.mpr (spelled_of_valid index trivial)
      simpa [WrapperSpelling.wrapper] using Derives.modifier kind coded derived
  | valueArray size =>
      have number := unsigned_iff.mpr (spelled_of_valid size trivial)
      simpa [WrapperSpelling.wrapper] using Derives.valueArray derived number
  | «scoped» index =>
      have number := unsigned_iff.mpr (spelled_of_valid index trivial)
      simpa [WrapperSpelling.wrapper] using Derives.scoped number derived

/-- Every valid spelling has a derivation. -/
theorem derives {spelling : TypeSpelling} (valid : spelling.Valid) :
    Derives resolver spelling.bytes (.type (spelling.tree resolver)) := by
  induction spelling with
  | primitive tag isPrimitive => exact .primitive (mem_primitives_iff.mpr isPrimitive)
  | named kind index =>
      rw [bytes_named]
      exact .named kind (codedIndex_iff.mpr (spelled_of_valid index trivial))
  | typeVar index =>
      rw [bytes_typeVar]
      exact .typeVar (unsigned_iff.mpr (spelled_of_valid index trivial))
  | methodVar index =>
      rw [bytes_methodVar]
      exact .methodVar (unsigned_iff.mpr (spelled_of_valid index trivial))
  | sentinel => exact .sentinel
  | functionPointer method ih =>
      obtain ⟨-, -, -, -, parts⟩ := MethodSpelling.valid_iff.mp valid
      exact .functionPointer (derives_method valid fun part mem => ih part mem (parts part mem))
  | instantiation kind generic count arguments ih =>
      obtain ⟨count_eq, allValid⟩ := valid
      rw [allValid_iff] at allValid
      have coded := codedIndex_iff.mpr (spelled_of_valid generic trivial)
      have number : Unsigned count.bytes (arguments.map (tree resolver)).length := by
        rw [List.length_map]
        exact unsigned_iff.mpr ⟨count, trivial, rfl, count_eq⟩
      have derived := Derives.instantiation kind coded number
        (derives_types fun argument mem => ih argument mem (allValid argument mem))
      simpa [bytes_instantiation, tree] using derived
  | wrapped wrapper next ih => exact derives_wrapped wrapper (ih valid)

end TypeSpelling

namespace Read

section

variable {resolver : Resolver} {bytes : Bytes} {levels : Nat}

theorem typeSpelled_iff {t : TypeSignature} : TypeSpelled resolver levels bytes t ↔
    Derives resolver bytes (.type t) ∧ t.nesting ≤ levels := by
  refine ⟨?_, ?_⟩
  · intro given
    obtain ⟨spelling, ⟨valid, shallow⟩, rfl, rfl⟩ := given
    exact ⟨TypeSpelling.derives valid, shallow⟩
  · intro given
    obtain ⟨derived, shallow⟩ := given
    obtain ⟨spelling, valid, rfl, rfl⟩ := derived.isSpelled
    exact ⟨spelling, ⟨valid, shallow⟩, rfl, rfl⟩

theorem methodSpelled_iff {m : MethodSignature} : MethodSpelled resolver levels bytes m ↔
    Derives resolver bytes (.method m) ∧ m.nesting ≤ levels := by
  refine ⟨?_, ?_⟩
  · intro given
    obtain ⟨spelling, ⟨valid, shallow⟩, rfl, rfl⟩ := given
    obtain ⟨-, -, -, -, parts⟩ := MethodSpelling.valid_iff.mp valid
    exact ⟨TypeSpelling.derives_method valid fun part mem => TypeSpelling.derives (parts part mem),
      shallow⟩
  · intro given
    obtain ⟨derived, shallow⟩ := given
    obtain ⟨spelling, valid, rfl, rfl⟩ := derived.isSpelled
    exact ⟨spelling, ⟨valid, shallow⟩, rfl, rfl⟩

end

/-- From the start of the data, what is read is the bytes up to where the reader stops. -/
theorem Accepts.ok_iff {α : Type} {read : Read α} {language : Language α}
    (h : read.Accepts language) {data : Bytes} {a : α} {n : Nat} :
    read { data } = .ok a ⟨data, n⟩ ↔ n ≤ data.length ∧ language (data.take n) a := by
  rw [h]
  refine ⟨?_, ?_⟩
  · intro given
    obtain ⟨bytes, written, leads, stopped⟩ := given
    obtain rfl : n = bytes.length := by simpa [Cursor.advance] using congrArg Cursor.pos stopped
    have leads : bytes <+: data := leads
    rw [← List.prefix_iff_eq_take.mp leads]
    exact ⟨leads.length_le, written⟩
  · intro given
    obtain ⟨inside, written⟩ := given
    refine ⟨_, written, List.take_prefix n data, ?_⟩
    simp [Cursor.advance, inside]

/-- A type is read up to a position if and only if the grammar derives it from the bytes up to there
and it is nested no more than fifty levels deep; and so for methods. -/
theorem ok_iff_derives (resolver : Resolver) (data : Bytes) (n : Nat) :
    (∀ t, type resolver { data } = .ok t ⟨data, n⟩ ↔ n ≤ data.length ∧
      Derives resolver (data.take n) (.type t) ∧ t.nesting ≤ TypeSignature.maxNesting) ∧
    ∀ m, method resolver { data } = .ok m ⟨data, n⟩ ↔ n ≤ data.length ∧
      Derives resolver (data.take n) (.method m) ∧ m.nesting ≤ TypeSignature.maxNesting := by
  constructor
  · intro t
    rw [(accepts_type resolver).ok_iff, typeSpelled_iff]
  · intro m
    rw [(accepts_method resolver).ok_iff, methodSpelled_iff]

/-- Behind the first sentinel another one is a parameter. -/
example : method .empty { data := [0x05, 0x01, 0x13, 0x02, 0x41, 0x41] } =
    .ok ⟨0x05, 0, .typeVar 0 2, [], some [.sentinel 0]⟩
      ⟨[0x05, 0x01, 0x13, 0x02, 0x41, 0x41], 6⟩ :=
  rfl

end Read

end CliMetadata
