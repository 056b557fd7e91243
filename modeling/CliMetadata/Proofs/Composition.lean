import CliMetadata.Signature.Sequence

/-!
How the readers of signatures are put together. They are made of the primitive readers of bytes,
have a use for the position in faults only, and put no other fault than a truncation in the place
of an end of data. What holds for all readers that are put together like this is shown by induction
on it.
-/

namespace CliMetadata

namespace Fault

/-- The fault for data with so many more bytes at the front. -/
def shift (count : Nat) : Fault → Fault
  | .truncated tag offset => .truncated tag (offset + count)
  | .invalidElementType value offset => .invalidElementType value (offset + count)
  | .invalidCompressedInteger first offset => .invalidCompressedInteger first (offset + count)
  | .invalidInstantiation found offset => .invalidInstantiation found (offset + count)
  | fault => fault

end Fault

namespace Read

theorem skip_eq (count : Nat) : skip count = take count >>= fun _ => pure () := by
  funext cursor
  simp only [skip, take, bind, EStateM.bind]
  by_cases room : cursor.pos + count ≤ cursor.data.length
  · rw [if_pos room, if_pos room]
    rfl
  · rw [if_neg room, if_neg room]

/-- A byte is read by a look at it and a step over it. -/
theorem byte_eq : byte = peekByte >>= fun first => skip 1 >>= fun _ => pure first := by
  funext cursor
  simp only [byte, peekByte, bind, EStateM.bind]
  cases unread : cursor.unread with
  | nil => rfl
  | cons first rest =>
      have room : cursor.pos + 1 ≤ cursor.data.length := by
        have length_eq := congrArg List.length unread
        rw [Cursor.unread, List.length_drop, List.length_cons] at length_eq
        omega
      simp only [skip, if_pos room]
      rfl

/-- The second reader reads like the first one, with all the offsets in its faults shifted. -/
inductive Shifted (count : Nat) : {α : Type} → Read α → Read α → Prop where
  | pure {α : Type} (a : α) : Shifted count (pure a : Read α) (pure a)
  | throw {α : Type} (fault : Fault) :
    Shifted count (throw fault : Read α) (throw (fault.shift count))
  | bind {α β : Type} {read read' : Read α} {next next' : α → Read β} :
    Shifted count read read' → (∀ a, Shifted count (next a) (next' a)) →
    Shifted count (read >>= next) (read' >>= next')
  | position {α : Type} {next next' : Nat → Read α} :
    (∀ start, Shifted count (next start) (next' (start + count))) →
    Shifted count (position >>= next) (position >>= next')
  | peekByte : Shifted count peekByte peekByte
  | take (width : Nat) : Shifted count (take width) (take width)
  | onEnd {α : Type} {read read' : Read α} (tag : ElementType) (start : Nat) :
    Shifted count read read' →
    Shifted count (onEnd (.truncated tag start) read) (onEnd (.truncated tag (start + count)) read')

section

variable {count : Nat} {α β : Type} {read read' : Read α}

theorem Shifted.map {f : α → β} (h : Shifted count read read') :
    Shifted count (read >>= fun a => Pure.pure (f a)) (read' >>= fun a => Pure.pure (f a)) :=
  .bind h fun a => .pure (f a)

theorem shifted_skip (width : Nat) : Shifted count (skip width) (skip width) := by
  rw [skip_eq]
  exact (Shifted.take width).map

theorem shifted_byte : Shifted count byte byte := by
  rw [byte_eq]
  exact .bind .peekByte fun _ => (shifted_skip 1).map

theorem shifted_ite {c : Prop} [Decidable c] {other other' : Read α}
    (h : Shifted count read read') (hother : Shifted count other other') :
    Shifted count (if c then read else other) (if c then read' else other') := by
  by_cases holds : c
  · rwa [if_pos holds, if_pos holds]
  · rwa [if_neg holds, if_neg holds]

theorem shifted_times (h : Shifted count read read') (times : Nat) :
    Shifted count (Read.times read times) (Read.times read' times) := by
  induction times with
  | zero => exact .pure []
  | succ times ih => exact .bind h fun _ => ih.map

end

theorem shifted_compressed (count : Nat) : Shifted count compressed compressed := by
  refine .position fun start => .bind .peekByte fun first => ?_
  cases Compressed.Form.ofFirstByte? first with
  | none => exact .throw (.invalidCompressedInteger first start)
  | some form => exact (Shifted.take form.width).map

theorem shifted_unsigned (count : Nat) : Shifted count unsigned unsigned :=
  (shifted_compressed count).map

theorem shifted_signed (count : Nat) : Shifted count signed signed :=
  (shifted_compressed count).map

theorem shifted_token (count : Nat) : Shifted count token token := by
  refine .bind (shifted_unsigned count) fun index => ?_
  cases found : Token.ofCodedIndex? index with
  | none => exact .throw (.malformed (.reservedIndexTag index))
  | some token => exact .pure token

theorem shifted_handle (resolver : Resolver) (count : Nat) :
    Shifted count (handle resolver) (handle resolver) :=
  (shifted_token count).map

theorem shifted_typeKind (count : Nat) : Shifted count typeKind typeKind := by
  refine .position fun start => .bind .peekByte fun found => ?_
  cases ElementType.ofByte? found with
  | none => exact .throw (.invalidInstantiation found start)
  | some tag =>
      cases tag with
      | classType | valueType => exact (shifted_skip 1).map
      | _ => exact .throw (.invalidInstantiation found start)

section

variable {count : Nat} {α : Type} {read read' : Read α} {type type' : Read TypeSignature}

theorem shifted_listOf (h : Shifted count read read') :
    Shifted count (listOf read) (listOf read') :=
  .bind (shifted_unsigned count) fun length => shifted_times h length

theorem shifted_arrayShape (count : Nat) : Shifted count arrayShape arrayShape := by
  refine .bind (shifted_unsigned count) fun rank => shifted_ite (.pure _) ?_
  refine .bind (shifted_listOf (shifted_unsigned count)) fun sizes => ?_
  exact (shifted_listOf (shifted_signed count)).map

theorem shifted_params (h : Shifted count type type') (length : Nat) :
    Shifted count (params type length) (params type' length) := by
  induction length with
  | zero => exact .pure _
  | succ length ih =>
      refine .bind .peekByte fun first => shifted_ite ?_ ?_
      · exact .bind (shifted_skip 1) fun _ => (shifted_times h (length + 1)).map
      · exact .bind h fun param => ih.map

theorem shifted_methodOf (h : Shifted count type type') :
    Shifted count (methodOf type) (methodOf type') := by
  refine .bind shifted_byte fun convention => shifted_ite ?_ (.throw _)
  refine .bind (shifted_ite (shifted_unsigned count) (.pure 0)) fun genericCount => ?_
  refine .bind (shifted_unsigned count) fun length => .bind h fun result => ?_
  exact (shifted_params h length).map

theorem shifted_node (resolver : Resolver) (h : Shifted count type type') (tag : ElementType) :
    Shifted count (node resolver type tag) (node resolver type' tag) := by
  have reference := shifted_handle resolver count
  have number := shifted_unsigned count
  cases tag with
  | ptr | byRef | szArray | pinned => exact h.map
  | classType | valueType => exact reference.map
  | typeVar | methodVar => exact number.map
  | array => exact .bind h fun _ => (shifted_arrayShape count).map
  | valueArray => exact .bind h fun _ => number.map
  | genericInst =>
      refine .bind (shifted_typeKind count) fun kind => .bind reference fun generic => ?_
      exact (shifted_listOf h).map
  | fnPtr => exact (shifted_methodOf h).map
  | modReqd | modOpt => exact .bind reference fun _ => h.map
  | moduleType => exact .bind number fun _ => h.map
  | _ => exact .pure _

end

theorem shifted_typeWithin (resolver : Resolver) (count levels : Nat) :
    Shifted count (typeWithin resolver levels) (typeWithin resolver levels) := by
  induction levels with
  | zero => exact .throw (.nestedTooDeep TypeSignature.maxNesting)
  | succ levels ih =>
      refine .position fun start => .bind shifted_byte fun value => ?_
      cases (ElementType.ofByte? value).filter ElementType.isNodeTag with
      | none => exact .throw (.invalidElementType value start)
      | some tag => exact .onEnd tag start (shifted_node resolver ih tag)

theorem shifted_type (resolver : Resolver) (count : Nat) :
    Shifted count (type resolver) (type resolver) :=
  shifted_typeWithin resolver count TypeSignature.maxNesting

theorem shifted_method (resolver : Resolver) (count : Nat) :
    Shifted count (method resolver) (method resolver) :=
  shifted_methodOf (shifted_type resolver count)

theorem shifted_item (resolver : Resolver) (count : Nat) (kind : ItemKind) :
    Shifted count (item resolver kind) (item resolver kind) := by
  cases kind with
  | type => exact (shifted_type resolver count).map
  | method => exact (shifted_method resolver count).map

end Read

end CliMetadata
