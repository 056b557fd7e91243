import CliMetadata.Proofs.Canonical
import CliMetadata.Proofs.Places

/-!
Signatures that are cut off. Where data end inside of a signature, reading it fails with the
innermost node that is open at the end of the data. The fault comes up as a plain end of data, from
a reader of numbers or from the reader of the next tag, and takes the name of the node around it
on its way out. So each reader has a rule: which nodes are in the bytes that it reads, and
which fault their places give for each end of the data before their own end.
-/

namespace CliMetadata

/-- The fault of data that end at a position, if these are the places there are. -/
def cutFault (position : Nat) (places : List Place) : Fault :=
  match Place.innermost? position places with
  | some place => .truncated place.node.tag place.start
  | none => .outOfBounds

section

variable {position : Nat} {front back places : List Place}

theorem cutFault_of_no_open (h : ∀ place ∈ places, ¬place.IsOpen position) :
    cutFault position places = .outOfBounds := by
  rw [cutFault, Place.innermost?_eq_none h]

theorem cutFault_append_left (h : ∀ place ∈ back, ¬place.IsOpen position) :
    cutFault position (front ++ back) = cutFault position front := by
  rw [cutFault, Place.innermost?_append, Place.innermost?_eq_none h, Option.none_or]
  rfl

theorem cutFault_append_right (h : ∀ place ∈ front, ¬place.IsOpen position) :
    cutFault position (front ++ back) = cutFault position back := by
  rw [cutFault, Place.innermost?_append, Place.innermost?_eq_none h, Option.or_none]
  rfl

end

namespace Laid

variable {front back : Bytes} {P Q : Nat → List Place}

/-- No node is open in front of the first byte. -/
theorem cutFault_start (h : Laid front P) (start : Nat) :
    cutFault start (P start) = .outOfBounds :=
  cutFault_of_no_open fun place mem => Place.not_isOpen_of_le_start (h.inside start place mem).1

/-- Where the data end in the front, the nodes behind it are not begun. -/
theorem cutFault_front (h : Laid back Q) {start k : Nat} (inFront : k < front.length) :
    cutFault (start + k) (P start ++ Q (start + front.length)) =
      cutFault (start + k) (P start) := by
  apply cutFault_append_left
  intro place mem
  apply Place.not_isOpen_of_le_start
  have := (h.inside _ place mem).1
  omega

/-- Where the data end behind the front, its nodes are complete. -/
theorem cutFault_back (h : Laid front P) (start k : Nat) :
    cutFault (start + front.length + k) (P start ++ Q (start + front.length)) =
      cutFault (start + front.length + k) (Q (start + front.length)) := by
  apply cutFault_append_right
  intro place mem
  apply Place.not_isOpen_of_stop_le
  have := (h.inside _ place mem).2
  omega

end Laid

namespace Read

variable {α β : Type} {read : Read α} {next : α → Read β} {bytes front back : Bytes}
  {places P Q : Nat → List Place}

/-- The reader reads nodes at these places in the bytes. On data that end before the bytes do, it
fails as the places say. -/
structure Breaks (read : Read α) (bytes : Bytes) (places : Nat → List Place) : Prop where
  laid : Laid bytes places
  fails : ∀ cursor k, k < bytes.length → cursor.unread = bytes.take k →
    ∃ stopped, read cursor = .error (cutFault (cursor.pos + k) (places cursor.pos)) stopped

theorem Breaks.congr {other : Bytes} {otherPlaces : Nat → List Place}
    (h : Breaks read bytes places) (bytes_eq : bytes = other)
    (places_eq : ∀ start, places start = otherPlaces start) : Breaks read other otherPlaces := by
  obtain rfl := bytes_eq
  obtain rfl := funext places_eq
  exact h

theorem breaks_nil (read : Read α) : Breaks read [] fun _ => [] where
  laid := laid_none []
  fails _ _ short := absurd short (Nat.not_lt_zero _)

theorem Breaks.andThen (h : Breaks read bytes places) (next : α → Read β) :
    Breaks (read >>= next) bytes places where
  laid := h.laid
  fails cursor k short here := by
    obtain ⟨stopped, failed⟩ := h.fails cursor k short here
    exact ⟨stopped, by simp [bind, EStateM.bind, failed]⟩

/-- The data end either inside of what the first reader reads or inside of what the second one
reads, and only the nodes of that one are open. -/
theorem breaks_bind {language : Language α} {a : α} (hread : Breaks read front P)
    (accepts : read.Accepts language) (written : language front a)
    (hnext : Breaks (next a) back Q) :
    Breaks (read >>= next) (front ++ back)
      fun start => P start ++ Q (start + front.length) where
  laid := laid_append hread.laid hnext.laid
  fails cursor k short here := by
    by_cases inFront : k < front.length
    · rw [List.take_append_of_le_length (Nat.le_of_lt inFront)] at here
      rw [hnext.laid.cutFault_front inFront]
      exact (hread.andThen next).fails cursor k inFront here
    · obtain ⟨k, rfl⟩ := Nat.exists_eq_add_of_le (Nat.le_of_not_lt inFront)
      rw [List.take_length_add_append] at here
      have whole := accepts.complete written here
      have shortBack : k < back.length := by
        rw [List.length_append] at short
        omega
      have behind : (cursor.advance front.length).unread = back.take k := by
        rw [Cursor.unread_advance, here, List.drop_left]
      obtain ⟨stopped, failed⟩ := hnext.fails _ _ shortBack behind
      refine ⟨stopped, ?_⟩
      rw [← Nat.add_assoc, hread.laid.cutFault_back]
      simp only [bind, EStateM.bind, whole, failed]
      rfl

theorem breaks_behind {language : Language α} {a : α} (hread : Breaks read front fun _ => [])
    (accepts : read.Accepts language) (written : language front a)
    (hnext : Breaks (next a) back Q) :
    Breaks (read >>= next) (front ++ back) fun start => Q (start + front.length) :=
  breaks_bind hread accepts written hnext

theorem breaks_before {language : Language α} {a : α} (hread : Breaks read front P)
    (accepts : read.Accepts language) (written : language front a)
    (hnext : Breaks (next a) back fun _ => []) : Breaks (read >>= next) (front ++ back) P :=
  (breaks_bind hread accepts written hnext).congr rfl fun _ => List.append_nil _

/-- Nothing is missing before the first byte, so that no node is named if there is none. -/
theorem breaks_peekByte {next : UInt8 → Read α} {first : UInt8} {rest : Bytes}
    (h : Breaks (next first) (first :: rest) places) :
    Breaks (peekByte >>= next) (first :: rest) places where
  laid := h.laid
  fails cursor k short here := by
    cases k with
    | zero =>
        have ended : (peekByte >>= next) cursor = .error .outOfBounds cursor := by
          simp [bind, EStateM.bind, peekByte, here]
        rw [← h.laid.cutFault_start cursor.pos] at ended
        exact ⟨cursor, ended⟩
    | succ k =>
        have peeked : (peekByte >>= next) cursor = next first cursor := by
          simp [bind, EStateM.bind, peekByte, here]
        rw [peeked]
        exact h.fails cursor (k + 1) short here

theorem breaks_byte (value : UInt8) : Breaks byte [value] fun _ => [] where
  laid := laid_none _
  fails cursor k short here := by
    obtain rfl : k = 0 := Nat.lt_one_iff.mp short
    exact ⟨cursor, by simp [byte, here]; rfl⟩

/-- Data that end early have no room for the bytes. -/
theorem not_room {cursor : Cursor} {k : Nat} (short : k < bytes.length)
    (here : cursor.unread = bytes.take k) :
    ¬cursor.pos + bytes.length ≤ cursor.data.length := by
  have unread_length := congrArg List.length here
  simp only [Cursor.unread, List.length_drop, List.length_take] at unread_length
  omega

theorem breaks_take {count : Nat} (length_eq : bytes.length = count) :
    Breaks (take count) bytes fun _ => [] where
  laid := laid_none _
  fails cursor k short here := by
    obtain rfl := length_eq
    exact ⟨cursor, by simp only [take, not_room short here, if_false]; rfl⟩

theorem breaks_skip (value : UInt8) : Breaks (skip 1) [value] fun _ => [] where
  laid := laid_none _
  fails cursor k short here := by
    have missing : ¬cursor.pos + 1 ≤ cursor.data.length := not_room short here
    exact ⟨cursor, by simp only [skip, missing, if_false]; rfl⟩

theorem breaks_position {next : Nat → Read α} (h : ∀ start, Breaks (next start) bytes places) :
    Breaks (position >>= next) bytes places where
  laid := (h 0).laid
  fails cursor := (h cursor.pos).fails cursor

theorem breaks_compressed (numeral : Numeral) :
    Breaks compressed numeral.bytes fun _ => [] := by
  obtain ⟨first, rest, bytes_eq⟩ := List.exists_cons_of_ne_nil numeral.bytes_ne_nil
  have length_eq := Compressed.Form.length_bytes numeral.form numeral.raw
  rw [← Numeral.bytes, bytes_eq] at length_eq
  rw [bytes_eq]
  refine breaks_position fun start => breaks_peekByte ?_
  rw [numeral.announced bytes_eq]
  exact (breaks_take length_eq).andThen _

theorem breaks_unsigned (numeral : Numeral) : Breaks unsigned numeral.bytes fun _ => [] :=
  (breaks_compressed numeral).andThen _

theorem breaks_signed (numeral : Numeral) : Breaks signed numeral.bytes fun _ => [] :=
  (breaks_compressed numeral).andThen _

theorem breaks_handle (resolver : Resolver) (index : IndexNumeral) :
    Breaks (handle resolver) index.bytes fun _ => [] :=
  ((breaks_unsigned index.toNumeral).andThen _).andThen _

section

variable {σ : Type} {valid : σ → Prop} {spelled : σ → Bytes} {value : σ → α}
  {placesOf : σ → Nat → List Place} {items : List σ}

theorem breaks_times (accepts : read.Accepts (Spelled valid spelled value))
    (all : ∀ s ∈ items, valid s)
    (h : ∀ s ∈ items, Breaks read (spelled s) (placesOf s)) :
    Breaks (times read items.length) (items.flatMap spelled)
      (Place.ofEach spelled placesOf items) := by
  induction items with
  | nil => exact breaks_nil _
  | cons item rest ih =>
      obtain ⟨hitem, hrest⟩ := List.forall_mem_cons.mp h
      obtain ⟨itemValid, restValid⟩ := List.forall_mem_cons.mp all
      rw [List.length_cons, List.flatMap_cons, times]
      exact breaks_bind hitem accepts (spelled_of_valid item itemValid)
        ((ih restValid hrest).andThen _)

theorem breaks_listOf {count : Numeral} (accepts : read.Accepts (Spelled valid spelled value))
    (count_eq : count.raw = items.length) (all : ∀ s ∈ items, valid s)
    (h : ∀ s ∈ items, Breaks read (spelled s) (placesOf s)) :
    Breaks (listOf read) (count.bytes ++ items.flatMap spelled)
      fun start => Place.ofEach spelled placesOf items (start + count.bytes.length) := by
  have items_eq := breaks_times accepts all h
  rw [← count_eq] at items_eq
  exact breaks_behind (breaks_unsigned count) accepts_unsigned (spelled_of_valid count trivial)
    items_eq

end

theorem breaks_numerals {readNumeral : Read α} {value : Numeral → α} (list : Counted Numeral)
    (accepts : readNumeral.Accepts (Spelled (fun _ => True) Numeral.bytes value))
    (h : ∀ numeral : Numeral, Breaks readNumeral numeral.bytes fun _ => []) :
    Breaks (listOf readNumeral) (list.count.bytes ++ list.items.flatMap Numeral.bytes)
      fun _ => [] :=
  (breaks_listOf accepts list.count_eq (fun _ _ => trivial) fun numeral _ => h numeral).congr rfl
    fun _ => Place.ofEach_none _ _ _

theorem breaks_arrayShape (shape : ShapeSpelling) :
    Breaks arrayShape shape.bytes fun _ => [] := by
  cases shape with
  | flat rank rank_eq =>
      exact ((breaks_unsigned rank).andThen _).congr (by simp [ShapeSpelling.bytes,
        ShapeSpelling.lexemes]) fun _ => rfl
  | listed rank rank_ne sizes lowerBounds =>
      rw [bytes_listed]
      refine breaks_before (breaks_unsigned rank) accepts_unsigned
        (spelled_of_valid rank trivial) ?_
      rw [if_neg rank_ne]
      refine breaks_before (breaks_numerals sizes accepts_unsigned breaks_unsigned)
        (accepts_listOf accepts_unsigned) (spelled_of_valid sizes fun _ _ => trivial) ?_
      exact (breaks_numerals lowerBounds accepts_signed breaks_signed).andThen _

theorem breaks_typeKind (kind : TypeKind) : Breaks typeKind [kind.tag.byte] fun _ => [] := by
  refine breaks_position fun start => breaks_peekByte ?_
  rw [ElementType.ofByte?_byte]
  cases kind <;> exact (breaks_skip _).andThen _

section

variable {resolver : Resolver} {levels : Nat} {type : Read TypeSignature}

/-- The rule for types, where so many levels are left. -/
structure BreaksTypes (resolver : Resolver) (levels : Nat) (type : Read TypeSignature) : Prop where
  accepts : type.Accepts (TypeSpelled resolver levels)
  breaks : ∀ s : TypeSpelling, s.Within resolver levels → Breaks type s.bytes s.places

namespace BreaksTypes

variable {spellings : List TypeSpelling}

theorem times (h : BreaksTypes resolver levels type)
    (within : ∀ s ∈ spellings, s.Within resolver levels) :
    Breaks (times type spellings.length) (spellings.flatMap TypeSpelling.bytes)
      (TypeSpelling.placesOfAll spellings) :=
  (breaks_times h.accepts within fun s mem => h.breaks s (within s mem)).congr rfl
    fun _ => (TypeSpelling.placesOfAll_eq _ _).symm

theorem listOf (h : BreaksTypes resolver levels type) {count : Numeral}
    (count_eq : count.raw = spellings.length)
    (within : ∀ s ∈ spellings, s.Within resolver levels) :
    Breaks (listOf type) (count.bytes ++ spellings.flatMap TypeSpelling.bytes)
      fun start => TypeSpelling.placesOfAll spellings (start + count.bytes.length) :=
  (breaks_listOf h.accepts count_eq within fun s mem => h.breaks s (within s mem)).congr rfl
    fun _ => (TypeSpelling.placesOfAll_eq _ _).symm

end BreaksTypes

theorem breaks_params (h : BreaksTypes resolver levels type) {fixed varargs : List TypeSpelling}
    (noSentinel : TypeSpelling.sentinel ∉ fixed)
    (hfixed : ∀ s ∈ fixed, s.Within resolver levels)
    (hvarargs : ∀ s ∈ varargs, s.Within resolver levels) :
    Breaks (params type (fixed.length + varargs.length))
      (Lexeme.bytesOf (TypeSpelling.allLexemes fixed ++ TypeSpelling.varargLexemes varargs))
      (TypeSpelling.placesOfParams fixed varargs) := by
  -- The reader looks at the next byte before each parameter, and so does the induction.
  induction fixed with
  | nil =>
      cases varargs with
      | nil => exact breaks_nil _
      | cons vararg others =>
          rw [TypeSpelling.allLexemes, List.nil_append, bytesOf_varargs, List.length_nil,
            Nat.zero_add, funext (TypeSpelling.placesOfParams_nil (vararg :: others))]
          refine breaks_peekByte ?_
          rw [if_pos rfl]
          refine breaks_behind (a := ()) (breaks_skip _) (accepts_skip Nat.one_pos) rfl ?_
          exact (h.times hvarargs).andThen _
  | cons param others ih =>
      obtain ⟨within, othersWithin⟩ := List.forall_mem_cons.mp hfixed
      obtain ⟨rest, opening⟩ := param.bytes_eq_cons resolver
      have notSentinel : (param.tree resolver).tag.byte ≠ ElementType.sentinel.byte := by
        intro same
        rw [same] at opening
        rw [TypeSpelling.eq_sentinel_of_bytes opening] at noSentinel
        exact noSentinel List.mem_cons_self
      rw [bytesOf_params, funext (TypeSpelling.placesOfParams_cons param others varargs),
        List.length_cons, Nat.add_right_comm, opening, List.cons_append]
      refine breaks_peekByte ?_
      rw [if_neg notSentinel, ← List.cons_append, ← opening]
      refine breaks_bind (h.breaks param within) h.accepts (spelled_of_valid param within) ?_
      exact (ih (List.not_mem_of_not_mem_cons noSentinel) othersWithin).andThen _

theorem breaks_genericCount {convention : UInt8} {generics : Option Numeral}
    (flag : generics.isSome ↔ convention &&& 0x10 ≠ 0) :
    Breaks (genericCount convention) (Lexeme.bytesOf (generics.toList.map .unsigned))
      fun _ => [] := by
  cases generics with
  | none => exact breaks_nil _
  | some numeral =>
      rw [genericCount, if_pos (by simpa using flag)]
      exact (breaks_unsigned numeral).congr (by simp) fun _ => rfl

theorem breaks_methodOf (h : BreaksTypes resolver levels type) {method : MethodSpelling}
    (within : method.Within resolver levels) :
    Breaks (methodOf type) method.bytes method.places := by
  obtain ⟨kind_mem, flag, count_eq, noSentinel, parts⟩ := MethodSpelling.within_iff.mp within
  obtain ⟨hresult, hparams, hvarargs⟩ := MethodSpelling.forall_parts_iff.mp parts
  have types := breaks_params h noSentinel hparams hvarargs
  rw [← count_eq] at types
  rw [MethodSpelling.bytes_eq, funext method.places_eq]
  refine breaks_behind (Q := fun start => method.placesOfTypes (start + _ + _))
    (breaks_byte method.convention) accepts_byte rfl ?_
  rw [if_pos (isConvention_iff.mpr kind_mem)]
  refine breaks_behind (Q := fun start => method.placesOfTypes (start + _))
    (breaks_genericCount flag) (accepts_genericCount _)
    (spelled_of_valid method.generics flag) ?_
  refine breaks_behind (breaks_unsigned method.count) accepts_unsigned
    (spelled_of_valid method.count trivial) ?_
  refine breaks_bind (h.breaks method.result hresult) h.accepts (spelled_of_valid method.result hresult) ?_
  exact types.andThen _

/-- On its way out of a node, the fault takes the name of the node if it has no name yet. -/
theorem onEnd_cutFault {cursor stopped : Cursor} {position : Nat} {place : Place}
    {inner : List Place} (isOpen : place.IsOpen position)
    (failed : read cursor = .error (cutFault position inner) stopped) :
    onEnd (.truncated place.node.tag place.start) read cursor =
      .error (cutFault position (place :: inner)) stopped := by
  rw [cutFault] at failed ⊢
  rw [Place.innermost?_cons isOpen]
  cases innermost : Place.innermost? position inner with
  | none => simp [onEnd, failed, innermost]
  | some other => simp [onEnd, failed, innermost]

theorem breaks_node {spelling : TypeSpelling} {tag : ElementType} {body : Bytes}
    (opening : spelling.bytes = tag.byte :: body) (tag_eq : spelling.tag = tag)
    (h : Breaks (node resolver (typeWithin resolver levels) tag) body P) :
    Breaks (typeWithin resolver (levels + 1)) spelling.bytes
      fun start => ⟨spelling, start⟩ :: P (start + 1) where
  laid := laid_node opening h.laid
  fails cursor k short here := by
    rw [opening] at here
    -- Without its tag the node is not begun; behind its tag it is open up to its end.
    cases k with
    | zero =>
        have ended : typeWithin resolver (levels + 1) cursor = .error .outOfBounds cursor := by
          simp [typeWithin, position, bind, EStateM.bind, byte, here]
        rw [← (laid_node opening h.laid).cutFault_start cursor.pos] at ended
        exact ⟨cursor, ended⟩
    | succ k =>
        have isNodeTag : tag.isNodeTag := by
          rw [← tag_eq, ← TypeSpelling.tag_tree resolver]
          exact spelling.isNodeTag_tag resolver
        have opened : byte cursor = .ok tag.byte (cursor.advance 1) := by
          simp [byte, here, Cursor.advance]
        have isOpen : Place.IsOpen (cursor.pos + (k + 1)) ⟨spelling, cursor.pos⟩ :=
          ⟨Nat.lt_add_of_pos_right k.succ_pos, Nat.add_lt_add_left short _⟩
        have inside : (cursor.advance 1).unread = body.take k := by
          rw [Cursor.unread_advance, here, List.take_succ_cons, List.drop_one, List.tail_cons]
        rw [opening, List.length_cons] at short
        obtain ⟨stopped, failed⟩ := h.fails _ k (Nat.lt_of_succ_lt_succ short) inside
        refine ⟨stopped, ?_⟩
        have position_eq : (cursor.advance 1).pos + k = cursor.pos + (k + 1) := by
          simp only [Cursor.advance]
          omega
        rw [position_eq] at failed
        have named := onEnd_cutFault isOpen failed
        simp only [tag_eq] at named
        simp only [typeWithin, bind, EStateM.bind, position, opened, ElementType.ofByte?_byte,
          Option.filter_some, isNodeTag, if_true]
        exact named

theorem breaks_wrapped (h : BreaksTypes resolver levels (typeWithin resolver levels))
    (wrapper : WrapperSpelling) {next : TypeSpelling} (within : next.Within resolver levels) :
    Breaks (node resolver (typeWithin resolver levels) wrapper.tag)
      (Lexeme.bytesOf wrapper.before ++ (next.bytes ++ Lexeme.bytesOf wrapper.behind))
      fun start => next.places (start + (Lexeme.bytesOf wrapper.before).length) := by
  have inner := h.breaks next within
  cases wrapper with
  | pointer | byRef | vector | pinned => exact (inner.andThen _).congr (by simp) fun _ => rfl
  | array shape =>
      have whole : Breaks (node resolver (typeWithin resolver levels) .array)
          (next.bytes ++ shape.bytes) next.places := by
        refine breaks_before inner h.accepts (spelled_of_valid next within) ?_
        exact (breaks_arrayShape shape).andThen _
      exact whole
  | valueArray size =>
      have whole : Breaks (node resolver (typeWithin resolver levels) .valueArray)
          (next.bytes ++ size.bytes) next.places := by
        refine breaks_before inner h.accepts (spelled_of_valid next within) ?_
        exact (breaks_unsigned size).andThen _
      exact whole.congr (by simp) fun _ => rfl
  | modifier kind index =>
      have whole : Breaks (modified resolver kind (typeWithin resolver levels))
          (index.bytes ++ next.bytes) fun start => next.places (start + index.bytes.length) := by
        refine breaks_behind (breaks_handle resolver index) (accepts_handle resolver)
          (spelled_of_valid index trivial) ?_
        exact inner.andThen _
      cases kind <;> exact whole.congr (by simp) fun _ => by simp
  | «scoped» index =>
      have whole : Breaks (node resolver (typeWithin resolver levels) .moduleType)
          (index.bytes ++ next.bytes) fun start => next.places (start + index.bytes.length) := by
        refine breaks_behind (breaks_unsigned index) accepts_unsigned
          (spelled_of_valid index trivial) ?_
        exact inner.andThen _
      exact whole.congr (by simp) fun _ => by simp

theorem breaks_instantiation (h : BreaksTypes resolver levels (typeWithin resolver levels))
    (kind : TypeKind) (generic : IndexNumeral) {count : Numeral} {arguments : List TypeSpelling}
    (count_eq : count.raw = arguments.length)
    (within : ∀ s ∈ arguments, s.Within resolver levels) :
    Breaks (node resolver (typeWithin resolver levels) .genericInst)
      ([kind.tag.byte] ++ (generic.bytes ++
        (count.bytes ++ arguments.flatMap TypeSpelling.bytes)))
      fun start => TypeSpelling.placesOfAll arguments
        (start + 1 + generic.bytes.length + count.bytes.length) := by
  refine breaks_behind (Q := fun start => TypeSpelling.placesOfAll arguments (start + _ + _))
    (breaks_typeKind kind) accepts_typeKind rfl ?_
  refine breaks_behind (Q := fun start => TypeSpelling.placesOfAll arguments (start + _))
    (breaks_handle resolver generic) (accepts_handle resolver) (spelled_of_valid generic trivial) ?_
  exact (h.listOf count_eq within).andThen _

theorem breaksTypes_typeWithin (resolver : Resolver) (levels : Nat) :
    BreaksTypes resolver levels (typeWithin resolver levels) := by
  refine ⟨accepts_typeWithin resolver levels, ?_⟩
  induction levels with
  | zero => exact fun s within => absurd within s.not_within_zero
  | succ levels ih =>
      have below : BreaksTypes resolver levels (typeWithin resolver levels) :=
        ⟨accepts_typeWithin resolver levels, ih⟩
      intro s within
      cases s with
      | primitive tag isPrimitive => exact breaks_node (P := fun _ => []) rfl rfl (breaks_nil _)
      | sentinel => exact breaks_node (P := fun _ => []) rfl rfl (breaks_nil _)
      | named kind index =>
          have handle := breaks_handle resolver index
          refine breaks_node (P := fun _ => []) (TypeSpelling.bytes_named kind index) rfl ?_
          cases kind <;> exact handle.andThen _
      | typeVar index =>
          exact breaks_node (P := fun _ => []) (TypeSpelling.bytes_typeVar index) rfl
            ((breaks_unsigned index).andThen _)
      | methodVar index =>
          exact breaks_node (P := fun _ => []) (TypeSpelling.bytes_methodVar index) rfl
            ((breaks_unsigned index).andThen _)
      | functionPointer method =>
          have withinMethod := TypeSpelling.within_functionPointer_iff.mp within
          exact breaks_node (P := method.places) rfl rfl
            ((breaks_methodOf below withinMethod).andThen _)
      | instantiation kind generic count arguments =>
          obtain ⟨count_eq, all⟩ := TypeSpelling.within_instantiation_iff.mp within
          exact breaks_node (P := fun start => TypeSpelling.placesOfAll arguments
              (start + 1 + generic.bytes.length + count.bytes.length))
            (TypeSpelling.bytes_instantiation kind generic count arguments) rfl
            (breaks_instantiation below kind generic count_eq all)
      | wrapped wrapper next =>
          have withinNext := TypeSpelling.within_wrapped_iff.mp within
          exact breaks_node
            (P := fun start => next.places (start + (Lexeme.bytesOf wrapper.before).length))
            (TypeSpelling.bytes_wrapped wrapper next) rfl (breaks_wrapped below wrapper withinNext)

end

/-- Where data end inside of a signature, the fault names the open node that starts last, and where
it starts. -/
theorem truncation_names_innermost (resolver : Resolver) (data : Bytes) (t : TypeSignature)
    (n : Nat) (done : type resolver { data } = .ok t ⟨data, n⟩) :
    (∃ s : TypeSpelling, s.Valid ∧ s.bytes = data.take n) ∧
    ∀ s : TypeSpelling, s.Valid → s.bytes = data.take n →
      (s.places 0).map (fun place => place.node.tree resolver) = t.nodes ∧
      (s.places 0).Pairwise (fun place later => place.start < later.start) ∧
      (∀ place ∈ s.places 0, type resolver ⟨data, place.start⟩ =
        .ok (place.node.tree resolver) ⟨data, place.stop⟩) ∧
      ∀ k, 0 < k → k < n → ∃ place ∈ s.places 0, place.IsOpen k ∧
        (∀ other ∈ s.places 0, other.IsOpen k → other.start ≤ place.start) ∧
        ∃ stopped, type resolver { data := data.take k } =
          .error (.truncated (place.node.tree resolver).tag place.start) stopped := by
  obtain ⟨_, ⟨found, ⟨foundValid, levels⟩, rfl, rfl⟩, leads, stopped_eq⟩ :=
    (accepts_type resolver _ _ _).mp done
  obtain rfl : n = found.bytes.length := by
    simpa [Cursor.advance] using congrArg Cursor.pos stopped_eq
  have found_eq : found.bytes = data.take found.bytes.length := List.prefix_iff_eq_take.mp leads
  refine ⟨⟨found, foundValid, found_eq⟩, ?_⟩
  intro s valid bytes_eq
  rw [← found_eq] at bytes_eq
  have same := TypeSpelling.tree_eq_of_bytes_eq resolver valid foundValid bytes_eq
  have within : s.Within resolver TypeSignature.maxNesting := ⟨valid, by rwa [same]⟩
  obtain ⟨laid, fails⟩ := (breaksTypes_typeWithin resolver TypeSignature.maxNesting).breaks s within
  rw [← same]
  refine ⟨s.map_places resolver 0, laid.ascending 0, ?_, ?_⟩
  · intro place mem
    refine (accepts_type resolver _ _ _).mpr ⟨place.node.bytes, ?_, ?_, rfl⟩
    · exact spelled_of_valid place.node (TypeSpelling.within_of_mem_places within mem)
    · exact laid.written data 0 (bytes_eq ▸ leads) place mem
  · intro k positive short
    have root := TypeSpelling.mem_places s 0
    have rootOpen : Place.IsOpen k ⟨s, 0⟩ := ⟨positive, by simpa [Place.stop, bytes_eq] using short⟩
    obtain ⟨place, innermost⟩ := Place.exists_innermost? root rootOpen
    obtain ⟨mem, isOpen⟩ := Place.isOpen_of_innermost? innermost
    refine ⟨place, mem, isOpen, ?_, ?_⟩
    · exact fun other => Place.start_le_of_innermost? innermost (laid.ascending 0)
    · have here : ({ data := data.take k } : Cursor).unread = s.bytes.take k := by
        rw [bytes_eq, found_eq, List.take_take, Nat.min_eq_left (Nat.le_of_lt short)]
        rfl
      obtain ⟨stopped, failed⟩ := fails { data := data.take k } k (bytes_eq ▸ short) here
      rw [Nat.zero_add, cutFault, innermost] at failed
      rw [TypeSpelling.tag_tree]
      exact ⟨stopped, failed⟩

/-- A vector of value arrays of strings, cut off behind the string and behind its own tag. -/
theorem truncation_names_innermost_vector :
    ∃ t, type .empty { data := [0x1D, 0x17, 0x0E, 0x03, 0xFF] } =
        .ok t ⟨[0x1D, 0x17, 0x0E, 0x03, 0xFF], 4⟩ ∧
      (∃ stopped, type .empty { data := [0x1D, 0x17, 0x0E] } =
        .error (.truncated .valueArray 1) stopped) ∧
      ∃ stopped, type .empty { data := [0x1D] } = .error (.truncated .szArray 0) stopped := by
  refine ⟨_, rfl, ?_⟩
  obtain ⟨-, -, -, cut⟩ :=
    (truncation_names_innermost .empty [0x1D, 0x17, 0x0E, 0x03, 0xFF] _ 4 rfl).2
      (.wrapped .vector (.wrapped (.valueArray ⟨.short, 3, by decide⟩) (.primitive .string rfl)))
      trivial rfl
  refine ⟨?_, ?_⟩
  · obtain ⟨place, mem, isOpen, last, stopped, failed⟩ := cut 3 (by decide) (by decide)
    have inner := last ⟨.wrapped (.valueArray ⟨.short, 3, by decide⟩) (.primitive .string rfl), 1⟩
      (by simp [TypeSpelling.places]) (by decide)
    simp only [TypeSpelling.places, List.mem_cons, List.not_mem_nil, or_false] at mem
    rcases mem with rfl | rfl | rfl
    · contradiction
    · exact ⟨stopped, failed⟩
    · exact absurd isOpen (by decide)
  · obtain ⟨place, mem, isOpen, -, stopped, failed⟩ := cut 1 (by decide) (by decide)
    simp only [TypeSpelling.places, List.mem_cons, List.not_mem_nil, or_false] at mem
    rcases mem with rfl | rfl | rfl
    · exact ⟨stopped, failed⟩
    · exact absurd isOpen (by decide)
    · exact absurd isOpen (by decide)

end Read

end CliMetadata
