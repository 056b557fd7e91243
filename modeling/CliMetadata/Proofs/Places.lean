import CliMetadata.Proofs.Reading

/-!
Where the nodes of a signature stand in its bytes. The places of a spelling are its nodes with their
starts, from left to right. The class or value type of an instantiation and the sentinel before
variable parameters are bytes of the node around them and have no place of their own. A node is open
at a position if its tag stands before the position and its end behind it. Places ascend, so that
of the open nodes the last is the innermost.
-/

namespace CliMetadata

def TypeSpelling.tag : TypeSpelling → ElementType
  | .primitive tag _ => tag
  | .named kind _ => kind.tag
  | .typeVar _ => .typeVar
  | .methodVar _ => .methodVar
  | .sentinel => .sentinel
  | .functionPointer _ => .fnPtr
  | .instantiation _ _ _ _ => .genericInst
  | .wrapped wrapper _ => wrapper.tag

@[simp] theorem TypeSpelling.tag_tree (resolver : Resolver) (spelling : TypeSpelling) :
    (spelling.tree resolver).tag = spelling.tag := by
  cases spelling with
  | wrapped wrapper next => cases wrapper <;> rfl
  | _ => rfl

/-- A node and the position of its tag. -/
structure Place where
  node : TypeSpelling
  start : Nat

namespace Place

/-- The position behind the node. -/
def stop (place : Place) : Nat := place.start + place.node.bytes.length

def IsOpen (position : Nat) (place : Place) : Prop :=
  place.start < position ∧ position < place.stop

instance (position : Nat) : DecidablePred (IsOpen position) :=
  fun _ => inferInstanceAs (Decidable (_ ∧ _))

/-- The last of the open nodes. -/
def innermost? (position : Nat) (places : List Place) : Option Place :=
  (places.filter (IsOpen position)).getLast?

variable {position : Nat} {place : Place} {front back places : List Place}

theorem start_lt_stop (place : Place) : place.start < place.stop :=
  Nat.lt_add_of_pos_right (List.length_pos_iff.mpr place.node.bytes_ne_nil)

theorem not_isOpen_of_le_start (h : position ≤ place.start) : ¬place.IsOpen position :=
  fun isOpen => Nat.not_lt_of_le h isOpen.1

theorem not_isOpen_of_stop_le (h : place.stop ≤ position) : ¬place.IsOpen position :=
  fun isOpen => Nat.not_lt_of_le h isOpen.2

theorem innermost?_eq_none (h : ∀ place ∈ places, ¬place.IsOpen position) :
    innermost? position places = none := by
  rw [innermost?, List.filter_eq_nil_iff.mpr (by simpa using h), List.getLast?_nil]

theorem innermost?_append : innermost? position (front ++ back) =
    (innermost? position back).or (innermost? position front) := by
  rw [innermost?, List.filter_append, List.getLast?_append]
  rfl

/-- A node that is open is the innermost if none inside of it is. -/
theorem innermost?_cons (isOpen : place.IsOpen position) :
    innermost? position (place :: places) = (innermost? position places).or (some place) := by
  rw [← List.singleton_append, innermost?_append]
  simp [innermost?, isOpen]

theorem exists_innermost? (mem : place ∈ places) (isOpen : place.IsOpen position) :
    ∃ innermost, innermost? position places = some innermost := by
  have openMem : place ∈ places.filter (IsOpen position) := by simp [mem, isOpen]
  exact ⟨_, List.getLast?_eq_some_getLast (List.ne_nil_of_mem openMem)⟩

theorem isOpen_of_innermost? (h : innermost? position places = some place) :
    place ∈ places ∧ place.IsOpen position := by
  simpa using List.mem_of_getLast? h

/-- Where places ascend, no open node starts behind the innermost. -/
theorem start_le_of_innermost? {other : Place} (h : innermost? position places = some place)
    (ascending : places.Pairwise fun p q => p.start < q.start) (mem : other ∈ places)
    (isOpen : other.IsOpen position) : other.start ≤ place.start := by
  obtain ⟨before, split⟩ := List.getLast?_eq_some_iff.mp h
  have openAscending := ascending.filter (IsOpen position)
  have openMem : other ∈ places.filter (IsOpen position) := by simp [mem, isOpen]
  rw [split] at openAscending openMem
  rcases List.mem_append.mp openMem with earlier | last
  · exact Nat.le_of_lt
      ((List.pairwise_append.mp openAscending).2.2 other earlier place List.mem_cons_self)
  · exact Nat.le_of_eq (congrArg Place.start (List.mem_singleton.mp last))

/-- The places of items that stand one behind the other. -/
def ofEach {σ : Type} (bytes : σ → Bytes) (places : σ → Nat → List Place) :
    List σ → (start : Nat) → List Place
  | [], _ => []
  | item :: rest, start =>
    places item start ++ ofEach bytes places rest (start + (bytes item).length)

theorem ofEach_none {σ : Type} (bytes : σ → Bytes) (items : List σ) (start : Nat) :
    ofEach bytes (fun _ _ => []) items start = [] := by
  induction items generalizing start with
  | nil => rfl
  | cons item rest ih => exact ih _

end Place

/-- Places that stand in these bytes, wherever the bytes start: they ascend within the bytes, and
every node is written where its place says. -/
structure Laid (bytes : Bytes) (places : Nat → List Place) : Prop where
  inside : ∀ start, ∀ place ∈ places start,
    start ≤ place.start ∧ place.stop ≤ start + bytes.length
  ascending : ∀ start, (places start).Pairwise fun p q => p.start < q.start
  written : ∀ (data : Bytes) start, bytes <+: data.drop start →
    ∀ place ∈ places start, place.node.bytes <+: data.drop place.start

theorem laid_none (bytes : Bytes) : Laid bytes fun _ => [] where
  inside _ _ mem := absurd mem List.not_mem_nil
  ascending _ := List.Pairwise.nil
  written _ _ _ _ mem := absurd mem List.not_mem_nil

theorem laid_append {front back : Bytes} {frontPlaces backPlaces : Nat → List Place}
    (hfront : Laid front frontPlaces) (hback : Laid back backPlaces) :
    Laid (front ++ back) fun start => frontPlaces start ++ backPlaces (start + front.length) where
  inside start place mem := by
    rw [List.length_append]
    rcases List.mem_append.mp mem with mem | mem
    · have := hfront.inside start place mem
      omega
    · have := hback.inside _ place mem
      omega
  ascending start := by
    refine List.pairwise_append.mpr ⟨hfront.ascending start, hback.ascending _, ?_⟩
    intro place mem later laterMem
    calc place.start < place.stop := place.start_lt_stop
      _ ≤ start + front.length := (hfront.inside start place mem).2
      _ ≤ later.start := (hback.inside _ later laterMem).1
  written data start leads place mem := by
    obtain ⟨frontLeads, backLeads⟩ := append_prefix_iff.mp leads
    rw [List.drop_drop] at backLeads
    rcases List.mem_append.mp mem with mem | mem
    · exact hfront.written data start frontLeads place mem
    · exact hback.written data _ backLeads place mem

theorem laid_node {node : TypeSpelling} {tag : UInt8} {body : Bytes} {places : Nat → List Place}
    (opening : node.bytes = tag :: body) (h : Laid body places) :
    Laid node.bytes fun start => ⟨node, start⟩ :: places (start + 1) where
  inside start place mem := by
    rcases List.mem_cons.mp mem with rfl | mem
    · exact ⟨Nat.le_refl _, Nat.le_refl _⟩
    · have := h.inside _ place mem
      rw [opening, List.length_cons]
      omega
  ascending start := List.pairwise_cons.mpr
    ⟨fun place mem => (h.inside _ place mem).1, h.ascending _⟩
  written data start leads place mem := by
    rcases List.mem_cons.mp mem with rfl | mem
    · exact leads
    · rw [opening, ← List.singleton_append] at leads
      have bodyLeads := (append_prefix_iff.mp leads).2
      rw [List.drop_drop] at bodyLeads
      exact h.written data _ bodyLeads place mem

mutual

/-- The places of a spelling that starts at the given position. -/
def TypeSpelling.places : TypeSpelling → (start : Nat) → List Place
  | .functionPointer method, start =>
    ⟨.functionPointer method, start⟩ :: method.places (start + 1)
  | .instantiation kind generic count arguments, start =>
    ⟨.instantiation kind generic count arguments, start⟩ ::
      TypeSpelling.placesOfAll arguments
        (start + 1 + 1 + generic.bytes.length + count.bytes.length)
  | .wrapped wrapper next, start =>
    ⟨.wrapped wrapper next, start⟩ ::
      next.places (start + 1 + (Lexeme.bytesOf wrapper.before).length)
  | leaf, start => [⟨leaf, start⟩]

def MethodSpelling.places : MethodSpelling → (start : Nat) → List Place
  | ⟨_, generics, count, result, params, varargs⟩, start =>
    let first := start + 1 + (Lexeme.bytesOf (generics.toList.map .unsigned)).length +
      count.bytes.length
    let second := first + result.bytes.length
    result.places first ++ (TypeSpelling.placesOfAll params second ++
      -- The byte in front of the variable parameters is the sentinel.
      TypeSpelling.placesOfAll varargs (second + (params.flatMap TypeSpelling.bytes).length + 1))

def TypeSpelling.placesOfAll : List TypeSpelling → (start : Nat) → List Place
  | [], _ => []
  | spelling :: rest, start =>
    spelling.places start ++ TypeSpelling.placesOfAll rest (start + spelling.bytes.length)

end

namespace TypeSpelling

/-- The places of the parameters of a method. -/
def placesOfParams (params varargs : List TypeSpelling) (start : Nat) : List Place :=
  placesOfAll params start ++
    placesOfAll varargs (start + (params.flatMap bytes).length + 1)

theorem placesOfParams_nil (varargs : List TypeSpelling) (start : Nat) :
    placesOfParams [] varargs start = placesOfAll varargs (start + 1) := rfl

theorem placesOfParams_cons (param : TypeSpelling) (params varargs : List TypeSpelling)
    (start : Nat) : placesOfParams (param :: params) varargs start =
      param.places start ++ placesOfParams params varargs (start + param.bytes.length) := by
  simp [placesOfParams, placesOfAll, Nat.add_assoc]

end TypeSpelling

namespace MethodSpelling

/-- The places of a method whose types start at the given position. -/
def placesOfTypes (method : MethodSpelling) (start : Nat) : List Place :=
  method.result.places start ++ TypeSpelling.placesOfParams method.params method.varargs
    (start + method.result.bytes.length)

theorem places_eq (method : MethodSpelling) (start : Nat) :
    method.places start = method.placesOfTypes (start + [method.convention].length +
      (Lexeme.bytesOf (method.generics.toList.map .unsigned)).length +
        method.count.bytes.length) := by
  obtain ⟨convention, generics, count, result, params, varargs⟩ := method
  rfl

end MethodSpelling

namespace TypeSpelling

variable {resolver : Resolver} {levels start : Nat} {place : Place}

theorem Within.succ {spelling : TypeSpelling} (within : spelling.Within resolver levels) :
    spelling.Within resolver (levels + 1) :=
  ⟨within.1, Nat.le_succ_of_le within.2⟩

theorem map_placesOfAll {f : Place → TypeSignature} {spellings : List TypeSpelling}
    (h : ∀ s ∈ spellings, ∀ start, (s.places start).map f = (s.tree resolver).nodes) :
    (placesOfAll spellings start).map f =
      (spellings.map (tree resolver)).flatMap TypeSignature.nodes := by
  induction spellings generalizing start with
  | nil => rfl
  | cons spelling rest ih =>
      obtain ⟨first, others⟩ := List.forall_mem_cons.mp h
      rw [placesOfAll, List.map_append, first start, ih others, List.map_cons, List.flatMap_cons]

/-- The nodes of a signature have one place each. -/
theorem map_places (resolver : Resolver) (start : Nat) (spelling : TypeSpelling) :
    (spelling.places start).map (fun place => place.node.tree resolver) =
      (spelling.tree resolver).nodes := by
  induction spelling generalizing start with
  | functionPointer method ih =>
      obtain ⟨convention, generics, count, result, params, varargs⟩ := method
      obtain ⟨hresult, hparams, hvarargs⟩ := MethodSpelling.forall_parts_iff.mp ih
      simp only [places, MethodSpelling.places, List.map_cons, List.map_append, hresult,
        map_placesOfAll hparams, map_placesOfAll hvarargs]
      cases varargs <;>
        simp [tree, MethodSpelling.tree, varargTrees, TypeSignature.nodes, MethodSignature.nodes,
          TypeSignature.nodesOfVarargs, List.flatMap_map]
  | instantiation kind generic count arguments ih =>
      simp [places, map_placesOfAll ih, tree, TypeSignature.nodes]
  | wrapped wrapper next ih => simp [places, ih, tree, TypeSignature.nodes]
  | _ => simp [places, tree, TypeSignature.nodes]

theorem placesOfAll_eq (spellings : List TypeSpelling) (start : Nat) :
    placesOfAll spellings start = Place.ofEach bytes places spellings start := by
  induction spellings generalizing start with
  | nil => rfl
  | cons spelling rest ih => rw [placesOfAll, ih, Place.ofEach]

theorem mem_places (spelling : TypeSpelling) (start : Nat) :
    ⟨spelling, start⟩ ∈ spelling.places start := by
  cases spelling <;> exact List.mem_cons_self

theorem exists_of_mem_placesOfAll {spellings : List TypeSpelling}
    (mem : place ∈ placesOfAll spellings start) :
    ∃ s ∈ spellings, ∃ position, place ∈ s.places position := by
  induction spellings generalizing start with
  | nil => cases mem
  | cons spelling rest ih =>
      rcases List.mem_append.mp mem with first | others
      · exact ⟨spelling, List.mem_cons_self, start, first⟩
      · obtain ⟨s, memRest, found⟩ := ih others
        exact ⟨s, List.mem_cons_of_mem _ memRest, found⟩

theorem exists_part_of_mem_places {method : MethodSpelling} (mem : place ∈ method.places start) :
    ∃ part ∈ method.parts, ∃ position, place ∈ part.places position := by
  obtain ⟨convention, generics, count, result, params, varargs⟩ := method
  rcases List.mem_append.mp mem with ofResult | mem
  · exact ⟨result, by simp [MethodSpelling.parts], _, ofResult⟩
  rcases List.mem_append.mp mem with ofParams | ofVarargs
  · obtain ⟨s, memParams, found⟩ := exists_of_mem_placesOfAll ofParams
    exact ⟨s, by simp [MethodSpelling.parts, memParams], found⟩
  · obtain ⟨s, memVarargs, found⟩ := exists_of_mem_placesOfAll ofVarargs
    exact ⟨s, by simp [MethodSpelling.parts, memVarargs], found⟩

/-- A spelling that can be read has only nodes that can be read. -/
theorem within_of_mem_places {spelling : TypeSpelling} (within : spelling.Within resolver levels)
    (mem : place ∈ spelling.places start) : place.node.Within resolver levels := by
  induction spelling generalizing levels start with
  | functionPointer method ih =>
      rcases List.mem_cons.mp mem with rfl | mem
      · exact within
      obtain ⟨part, memParts, position, found⟩ := exists_part_of_mem_places mem
      cases levels with
      | zero => exact absurd within (not_within_zero _)
      | succ levels =>
          have parts := MethodSpelling.within_iff.mp (within_functionPointer_iff.mp within)
          exact (ih part memParts (parts.2.2.2.2 part memParts) found).succ
  | instantiation kind generic count arguments ih =>
      rcases List.mem_cons.mp mem with rfl | mem
      · exact within
      obtain ⟨argument, memArguments, position, found⟩ := exists_of_mem_placesOfAll mem
      cases levels with
      | zero => exact absurd within (not_within_zero _)
      | succ levels =>
          have all := (within_instantiation_iff.mp within).2
          exact (ih argument memArguments (all argument memArguments) found).succ
  | wrapped wrapper next ih =>
      rcases List.mem_cons.mp mem with rfl | mem
      · exact within
      cases levels with
      | zero => exact absurd within (not_within_zero _)
      | succ levels => exact (ih (within_wrapped_iff.mp within) mem).succ
  | _ =>
      rw [List.mem_singleton.mp mem]
      exact within

end TypeSpelling

end CliMetadata
