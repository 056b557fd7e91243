import CliMetadata.Proofs.Writing
import CliMetadata.Signature.Decoding

/-!
Reading apart from resolving. A bare signature knows no row behind its tokens and no core library
type behind its primitive tags. Reading with any resolver and forgetting what it has found is the
same as reading with a resolver that knows nothing, so that a resolver decides neither what is
accepted nor where reading stops nor which fault there is. Writing does not look behind tokens
either.
-/

namespace CliMetadata

def TypeHandle.bare (handle : TypeHandle) : TypeHandle := .unresolved handle.token

def Wrapper.bare : Wrapper → Wrapper
  | .modifier kind handle => .modifier kind handle.bare
  | wrapper => wrapper

mutual

/-- The signature without what a resolver has found for it. -/
def TypeSignature.bare : TypeSignature → TypeSignature
  | .primitive row tag _ => .primitive row tag none
  | .named row kind handle => .named row kind handle.bare
  | .functionPointer row method => .functionPointer row method.bare
  | .instantiation row kind generic arguments =>
    .instantiation row kind generic.bare (TypeSignature.bareAll arguments)
  | .wrapped row wrapper next => .wrapped row wrapper.bare next.bare
  | .typeVar row index => .typeVar row index
  | .methodVar row index => .methodVar row index
  | .sentinel row => .sentinel row

def MethodSignature.bare : MethodSignature → MethodSignature
  | ⟨convention, genericCount, result, params, varargs⟩ =>
    ⟨convention, genericCount, result.bare, TypeSignature.bareAll params,
      TypeSignature.bareVarargs varargs⟩

def TypeSignature.bareAll : List TypeSignature → List TypeSignature
  | [] => []
  | signature :: rest => signature.bare :: TypeSignature.bareAll rest

def TypeSignature.bareVarargs : Option (List TypeSignature) → Option (List TypeSignature)
  | none => none
  | some signatures => some (TypeSignature.bareAll signatures)

end

namespace TypeSignature

@[simp] theorem bareAll_eq (signatures : List TypeSignature) :
    bareAll signatures = signatures.map bare := by
  induction signatures with
  | nil => rfl
  | cons signature rest ih => rw [bareAll, ih, List.map_cons]

@[simp] theorem bareVarargs_eq (varargs : Option (List TypeSignature)) :
    bareVarargs varargs = varargs.map (List.map bare) := by
  cases varargs with
  | none => rfl
  | some signatures => rw [bareVarargs, bareAll_eq, Option.map_some]

end TypeSignature

/-- Knows no rows and no core library types. -/
def Resolver.blank : Resolver := Resolver.empty.withoutPrimitives

namespace Read

/-- Both results are the same fault at the same place, or both are values that stand in the
relation and end at the same place. -/
inductive Agree {α : Type} (R : α → α → Prop) :
    EStateM.Result Fault Cursor α → EStateM.Result Fault Cursor α → Prop where
  | ok {a b : α} {stopped : Cursor} (related : R a b) : Agree R (.ok a stopped) (.ok b stopped)
  | error {fault : Fault} {stopped : Cursor} :
      Agree R (.error fault stopped) (.error fault stopped)

theorem Agree.mono {α : Type} {R S : α → α → Prop}
    {first second : EStateM.Result Fault Cursor α} (agree : Agree R first second)
    (h : ∀ a b, R a b → S a b) : Agree S first second := by
  cases agree with
  | ok related => exact .ok (h _ _ related)
  | error => exact .error

section

variable {α β : Type} (f : α → β)

theorem map_times (read : Read α) (count : Nat) :
    List.map f <$> times read count = times (f <$> read) count := by
  induction count with
  | zero => rfl
  | succ count ih =>
      simp only [times, ← ih, map_bind, map_pure, bind_map_left, List.map_cons]

theorem map_listOf (read : Read α) : List.map f <$> listOf read = listOf (f <$> read) := by
  simp only [listOf, map_bind, map_times]

theorem map_onEnd (fault : Fault) (read : Read α) :
    f <$> onEnd fault read = onEnd fault (f <$> read) := by
  funext cursor
  simp only [Functor.map, EStateM.map, onEnd]
  cases read cursor with
  | ok a stopped => rfl
  | error cause stopped => cases cause <;> rfl

end

variable (resolver : Resolver) (type : Read TypeSignature)

theorem bare_handle : TypeHandle.bare <$> handle resolver = handle .blank := by
  simp only [handle, map_bind, map_pure]
  rfl

def bareParams (params : List TypeSignature × Option (List TypeSignature)) :
    List TypeSignature × Option (List TypeSignature) :=
  (params.1.map TypeSignature.bare, params.2.map (List.map TypeSignature.bare))

theorem bare_params (count : Nat) :
    bareParams <$> params type count = params (TypeSignature.bare <$> type) count := by
  induction count with
  | zero => rfl
  | succ count ih =>
      simp only [params, ← ih, ← map_times, map_bind, bind_map_left]
      apply bind_congr
      intro first
      split
      · simp only [map_bind, map_pure]
        rfl
      · simp only [map_bind, map_pure]
        rfl

theorem bare_methodOf :
    MethodSignature.bare <$> methodOf type = methodOf (TypeSignature.bare <$> type) := by
  simp only [methodOf, ← bare_params, map_bind, bind_map_left]
  apply bind_congr
  intro convention
  split
  · simp only [map_bind, map_pure, MethodSignature.bare, TypeSignature.bareAll_eq,
      TypeSignature.bareVarargs_eq, bareParams]
  · rfl

theorem bare_wrappedBy (wrapper : Wrapper) : TypeSignature.bare <$> wrappedBy wrapper type =
    wrappedBy wrapper.bare (TypeSignature.bare <$> type) := by
  simp only [wrappedBy, map_bind, map_pure, bind_map_left, TypeSignature.bare]

theorem bare_modified (kind : ModifierKind) : TypeSignature.bare <$> modified resolver kind type =
    modified .blank kind (TypeSignature.bare <$> type) := by
  simp only [modified, ← bare_handle resolver, map_bind, bind_map_left, bare_wrappedBy,
    Wrapper.bare]

theorem bare_node (tag : ElementType) : TypeSignature.bare <$> node resolver type tag =
    node .blank (TypeSignature.bare <$> type) tag := by
  cases tag with
  | ptr | byRef | szArray | pinned => exact bare_wrappedBy type _
  | classType | valueType =>
      simp only [node, ← bare_handle resolver, map_bind, map_pure, bind_map_left,
        TypeSignature.bare]
  | typeVar | methodVar | sentinel =>
      simp only [node, map_bind, map_pure, TypeSignature.bare]
  | array | valueArray =>
      simp only [node, map_bind, map_pure, bind_map_left, TypeSignature.bare, Wrapper.bare]
  | genericInst =>
      simp only [node, ← bare_handle resolver, ← map_listOf, map_bind, map_pure, bind_map_left,
        TypeSignature.bare, TypeSignature.bareAll_eq]
  | fnPtr =>
      simp only [node, ← bare_methodOf, map_bind, map_pure, bind_map_left, TypeSignature.bare]
  | modReqd | modOpt => exact bare_modified resolver type _
  | moduleType =>
      simp only [node, map_bind, bare_wrappedBy, Wrapper.bare]
  | _ => rfl

theorem bare_typeWithin (levels : Nat) :
    TypeSignature.bare <$> typeWithin resolver levels = typeWithin .blank levels := by
  induction levels with
  | zero => rfl
  | succ levels ih =>
      simp only [typeWithin, map_bind]
      apply bind_congr
      intro start
      apply bind_congr
      intro value
      split
      · rw [map_onEnd, bare_node, ih]
      · rfl

theorem bare_type : TypeSignature.bare <$> Read.type resolver = Read.type .blank :=
  bare_typeWithin resolver TypeSignature.maxNesting

theorem bare_method : MethodSignature.bare <$> method resolver = method .blank := by
  rw [method, bare_methodOf, bare_type, method]

section

variable {α β : Type} {f : α → β} {read other : Read α}

/-- Readers that are the same up to a function of their values agree up to it. -/
theorem agree_of_map_eq (same : f <$> read = f <$> other) (cursor : Cursor) :
    Agree (fun a b => f a = f b) (read cursor) (other cursor) := by
  have here : (f <$> read) cursor = (f <$> other) cursor := by rw [same]
  simp only [Functor.map, EStateM.map] at here
  cases first : read cursor with
  | ok a stopped =>
      cases second : other cursor with
      | ok b reached =>
          rw [first, second] at here
          obtain ⟨value, rfl⟩ := EStateM.Result.ok.inj here
          exact .ok value
      | error cause reached =>
          rw [first, second] at here
          cases here
  | error fault stopped =>
      cases second : other cursor with
      | ok b reached =>
          rw [first, second] at here
          cases here
      | error cause reached =>
          rw [first, second] at here
          cases here
          exact .error

end

end Read

theorem Wrapper.encodeBefore_bare (wrapper : Wrapper) :
    wrapper.bare.encodeBefore = wrapper.encodeBefore := by
  cases wrapper <;> rfl

theorem Wrapper.encodeBehind_bare (wrapper : Wrapper) :
    wrapper.bare.encodeBehind = wrapper.encodeBehind := by
  cases wrapper <;> rfl

theorem Wrapper.tag_bare (wrapper : Wrapper) : wrapper.bare.tag = wrapper.tag := by
  cases wrapper <;> rfl

theorem MethodSignature.bare_eq (method : MethodSignature) :
    method.bare = method.mapParts TypeSignature.bare := by
  obtain ⟨convention, genericCount, result, params, varargs⟩ := method
  rw [bare, TypeSignature.bareAll_eq, TypeSignature.bareVarargs_eq, mapParts]

theorem TypeSignature.encode_bare (signature : TypeSignature) :
    signature.bare.encode = signature.encode := by
  induction signature with
  | primitive | named | typeVar | methodVar | sentinel => rfl
  | functionPointer row method ih =>
      simp only [bare, encode, method.bare_eq, MethodSignature.encode_mapParts ih]
  | instantiation row kind generic arguments ih =>
      simp only [bare, encode, encodeAll_eq, bareAll_eq, encodeEach_map_congr ih, List.length_map]
      rfl
  | wrapped row wrapper next ih =>
      simp only [bare, encode, ih, Wrapper.encodeBefore_bare, Wrapper.encodeBehind_bare,
        Wrapper.tag_bare]

theorem MethodSignature.encode_bare (method : MethodSignature) :
    method.bare.encode = method.encode := by
  rw [method.bare_eq]
  exact encode_mapParts fun part _ => part.encode_bare

/-- A resolver decides nothing about reading: with another one the fault is the same at the same
place, or the signature ends at the same place, differs in nothing but what was found behind tokens
and tags, and is written in the same way. -/
theorem Read.agree_of_resolvers (resolver other : Resolver) (cursor : Cursor) :
    Agree (fun t t' : TypeSignature => t.bare = t'.bare ∧ t.encode = t'.encode)
      (type resolver cursor) (type other cursor) ∧
    Agree (fun m m' : MethodSignature => m.bare = m'.bare ∧ m.encode = m'.encode)
      (method resolver cursor) (method other cursor) := by
  have types : TypeSignature.bare <$> type resolver = TypeSignature.bare <$> type other := by
    rw [bare_type, bare_type]
  have methods : MethodSignature.bare <$> method resolver =
      MethodSignature.bare <$> method other := by
    rw [bare_method, bare_method]
  constructor
  · apply (agree_of_map_eq types cursor).mono
    intro t t' bare
    refine ⟨bare, ?_⟩
    calc t.encode
      _ = t.bare.encode := t.encode_bare.symm
      _ = t'.bare.encode := by rw [bare]
      _ = t'.encode := t'.encode_bare
  · apply (agree_of_map_eq methods cursor).mono
    intro m m' bare
    refine ⟨bare, ?_⟩
    calc m.encode
      _ = m.bare.encode := m.encode_bare.symm
      _ = m'.bare.encode := by rw [bare]
      _ = m'.encode := m'.encode_bare

end CliMetadata
