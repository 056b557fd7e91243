import CliMetadata.Signature.Decoder

/-!
Decoders keep their count of open nodes: a decoder gives what the reader with the levels that are
left gives, and counts as many nodes afterwards as before, whether there was a fault or not.
-/

namespace CliMetadata

namespace Decode

open Decoder

/-- Inside of so many nodes the decoder gives what the reader gives, and is inside of as many
afterwards. -/
def Keeps {α : Type} (depth : Nat) (decode : Decode α) (read : Read α) : Prop :=
  ∀ cursor, decode ⟨cursor, depth⟩ = resultAt depth (read cursor)

section

variable {α β : Type} {depth : Nat} {decode : Decode α} {read : Read α}

theorem keeps_pure (a : α) : Keeps depth (pure a) (pure a) := fun _ => rfl

theorem keeps_throw (fault : Fault) : Keeps depth (throw fault : Decode α) (throw fault) :=
  fun _ => rfl

theorem keeps_lift (read : Read α) : Keeps depth (liftM read) read := fun _ => rfl

theorem keeps_bind {next : α → Decode β} {nextRead : α → Read β} (h : Keeps depth decode read)
    (hnext : ∀ a, Keeps depth (next a) (nextRead a)) :
    Keeps depth (decode >>= next) (read >>= nextRead) := by
  intro cursor
  simp only [bind, EStateM.bind, h cursor]
  cases read cursor with
  | ok a stopped => exact hnext a stopped
  | error fault stopped => rfl

/-- What a decoder does with its count it does with the count it has. -/
theorem keeps_depth {next : Nat → Decode α} (h : Keeps depth (next depth) read) :
    Keeps depth (Decode.depth >>= next) read :=
  fun cursor => h cursor

theorem keeps_ite {c : Prop} [Decidable c] {other : Decode α} {otherRead : Read α}
    (h : Keeps depth decode read) (hother : Keeps depth other otherRead) :
    Keeps depth (if c then decode else other) (if c then read else otherRead) := by
  by_cases holds : c
  · rwa [if_pos holds, if_pos holds]
  · rwa [if_neg holds, if_neg holds]

theorem keeps_onEnd (fault : Fault) (h : Keeps depth decode read) :
    Keeps depth (onEnd fault decode) (Read.onEnd fault read) := by
  intro cursor
  simp only [onEnd, Read.onEnd, h cursor]
  cases read cursor with
  | ok a stopped => rfl
  | error cause stopped => cases cause <;> rfl

/-- The count is the same again behind a node, also where the node ends in a fault. -/
theorem keeps_inside (h : Keeps (depth + 1) decode read) : Keeps depth (inside decode) read := by
  intro cursor
  simp only [inside, h cursor]
  cases read cursor <;> rfl

theorem keeps_times (h : Keeps depth decode read) (count : Nat) :
    Keeps depth (times decode count) (Read.times read count) := by
  induction count with
  | zero => exact keeps_pure []
  | succ count ih => exact keeps_bind h fun _ => keeps_bind ih fun _ => keeps_pure _

theorem keeps_listOf (h : Keeps depth decode read) :
    Keeps depth (listOf decode) (Read.listOf read) :=
  keeps_bind (keeps_lift _) fun count => keeps_times h count

end

section

variable {depth : Nat} {type : Decode TypeSignature} {typeRead : Read TypeSignature}

theorem keeps_params (h : Keeps depth type typeRead) (count : Nat) :
    Keeps depth (params type count) (Read.params typeRead count) := by
  induction count with
  | zero => exact keeps_pure _
  | succ count ih =>
      refine keeps_bind (keeps_lift _) fun first => keeps_ite ?_ ?_
      · refine keeps_bind (keeps_lift _) fun _ => ?_
        exact keeps_bind (keeps_times h (count + 1)) fun _ => keeps_pure _
      · exact keeps_bind h fun param => keeps_bind ih fun _ => keeps_pure _

theorem keeps_methodOf (h : Keeps depth type typeRead) :
    Keeps depth (methodOf type) (Read.methodOf typeRead) := by
  refine keeps_bind (keeps_lift _) fun convention => keeps_ite ?_ (keeps_throw _)
  refine keeps_bind (keeps_lift _) fun genericCount => keeps_bind (keeps_lift _) fun count => ?_
  exact keeps_bind h fun result => keeps_bind (keeps_params h count) fun _ => keeps_pure _

theorem keeps_wrappedBy (wrapper : Wrapper) (h : Keeps depth type typeRead) :
    Keeps depth (wrappedBy wrapper type) (Read.wrappedBy wrapper typeRead) :=
  keeps_bind h fun _ => keeps_pure _

theorem keeps_modified (resolver : Resolver) (kind : ModifierKind)
    (h : Keeps depth type typeRead) :
    Keeps depth (modified resolver kind type) (Read.modified resolver kind typeRead) :=
  keeps_bind (keeps_lift _) fun _ => keeps_wrappedBy _ h

theorem keeps_node (resolver : Resolver) (h : Keeps depth type typeRead) (tag : ElementType) :
    Keeps depth (node resolver type tag) (Read.node resolver typeRead tag) := by
  cases tag with
  | ptr | byRef | szArray | pinned => exact keeps_wrappedBy _ h
  | classType | valueType | typeVar | methodVar =>
      exact keeps_bind (keeps_lift _) fun _ => keeps_pure _
  | array | valueArray =>
      exact keeps_bind h fun _ => keeps_bind (keeps_lift _) fun _ => keeps_pure _
  | genericInst =>
      refine keeps_bind (keeps_lift _) fun kind => keeps_bind (keeps_lift _) fun generic => ?_
      exact keeps_bind (keeps_listOf h) fun _ => keeps_pure _
  | fnPtr => exact keeps_bind (keeps_methodOf h) fun _ => keeps_pure _
  | modReqd | modOpt => exact keeps_modified resolver _ h
  | moduleType => exact keeps_bind (keeps_lift _) fun _ => keeps_wrappedBy _ h
  | _ => exact keeps_pure _

end

/-- A decoder inside of some nodes reads with the levels that are left. The bound of the recursion
plays no part if it is greater than their number. -/
theorem keeps_typeUpTo (resolver : Resolver) {bound depth : Nat}
    (enough : TypeSignature.maxNesting < bound + depth) :
    Keeps depth (typeUpTo resolver bound)
      (Read.typeWithin resolver (TypeSignature.maxNesting - depth)) := by
  induction bound generalizing depth with
  | zero =>
      have none : TypeSignature.maxNesting - depth = 0 := by omega
      rw [none]
      exact keeps_throw _
  | succ bound ih =>
      refine keeps_depth ?_
      by_cases full : TypeSignature.maxNesting ≤ depth
      · have none : TypeSignature.maxNesting - depth = 0 := by omega
        rw [if_pos full, none]
        exact keeps_throw _
      · have left : TypeSignature.maxNesting - depth =
            TypeSignature.maxNesting - (depth + 1) + 1 := by omega
        have below := @ih (depth + 1) (by omega)
        rw [if_neg full, left]
        refine keeps_bind (keeps_lift _) fun start => keeps_bind (keeps_lift _) fun value => ?_
        cases (ElementType.ofByte? value).filter ElementType.isNodeTag with
        | none => exact keeps_throw _
        | some tag => exact keeps_onEnd _ (keeps_inside (keeps_node resolver below tag))

theorem keeps_type (resolver : Resolver) : Keeps 0 (type resolver) (Read.type resolver) :=
  keeps_typeUpTo resolver (by decide)

theorem keeps_method (resolver : Resolver) : Keeps 0 (method resolver) (Read.method resolver) :=
  keeps_methodOf (keeps_type resolver)

theorem keeps_item (resolver : Resolver) (kind : ItemKind) :
    Keeps 0 (item resolver kind) (Read.item resolver kind) := by
  cases kind with
  | type => exact keeps_bind (keeps_type resolver) fun _ => keeps_pure _
  | method => exact keeps_bind (keeps_method resolver) fun _ => keeps_pure _

end Decode

end CliMetadata
