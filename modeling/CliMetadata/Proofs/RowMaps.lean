import CliMetadata.Proofs.Depth
import CliMetadata.Proofs.References

/-!
Row maps by what was entered into them. Under a token there is the row that was entered last with
it, whatever was entered before or with other tokens. So a handle that was read with a row map has
the last row with its token, and its row never has another token than it has itself.
-/

namespace CliMetadata

namespace RowMap

/-- One insertion decides about the token of its row, and about no other. -/
theorem find?_insert (map : RowMap) (row : TypeRow) (token : Token) :
    (map.insert row).find? token = if row.token = token then some row else map.find? token := by
  by_cases same : row.token = token
  · rw [if_pos same, find?, insert]
    exact List.find?_cons_of_pos (decide_eq_true same)
  · rw [if_neg same, find?, insert, List.find?_cons_of_neg (by simp [same]), List.find?_filter,
      find?]
    congr 1
    funext other
    by_cases found : other.token = token
    · simp [found, Ne.symm same]
    · simp [found]

/-- Of two rows with one token the second takes the place of the first. -/
theorem insert_insert (map : RowMap) {first second : TypeRow}
    (same : first.token = second.token) :
    (map.insert first).insert second = map.insert second := by
  simp only [insert, same, List.filter_cons, List.filter_filter, ne_eq, not_true_eq_false,
    decide_false, Bool.false_eq_true, if_false, Bool.and_self]

/-- Under a token there is what was registered last with it. -/
theorem find?_register (map : RowMap) (registrations : List Registration) (token : Token) :
    (map.register registrations).find? token =
      ((registrations.map Registration.toRow).reverse.find? fun row => row.token = token).or
        (map.find? token) := by
  induction registrations generalizing map with
  | nil => rfl
  | cons first rest ih =>
      have next : map.register (first :: rest) = (map.insert first.toRow).register rest := rfl
      rw [next, ih, find?_insert, List.map_cons, List.reverse_cons, List.find?_append,
        Option.or_assoc]
      congr 1
      by_cases same : first.toRow.token = token <;> simp [same]

/-- The row that is found is the last one with the token. -/
theorem find?_register_eq_some_iff {library : CoreLibrary} {registrations : List Registration}
    {token : Token} {row : TypeRow} :
    (register { library } registrations).find? token = some row ↔
      ∃ earlier registration later, registrations = earlier ++ registration :: later ∧
        registration.toRow = row ∧ registration.toRow.token = token ∧
        ∀ other ∈ later, other.toRow.token ≠ token := by
  have none_before : find? { library } token = none := rfl
  rw [find?_register, none_before, Option.or_none, ← List.map_reverse, List.find?_map,
    Option.map_eq_some_iff]
  refine ⟨?_, ?_⟩
  · rintro ⟨registration, found, rfl⟩
    obtain ⟨same, later, earlier, split, others⟩ := List.find?_eq_some_iff_append.mp found
    refine ⟨earlier.reverse, registration, later.reverse, ?_, rfl, of_decide_eq_true same, ?_⟩
    · rw [← List.reverse_reverse registrations, split]
      simp
    · intro other mem
      simpa using others other (List.mem_reverse.mp mem)
  · rintro ⟨earlier, registration, later, rfl, rfl, same, others⟩
    refine ⟨registration, List.find?_eq_some_iff_append.mpr
      ⟨decide_eq_true same, later.reverse, earlier.reverse, by simp, ?_⟩, rfl⟩
    intro other mem
    simpa using others other (List.mem_reverse.mp mem)

theorem find?_register_isSome_iff {library : CoreLibrary} {registrations : List Registration}
    {token : Token} :
    ((register { library } registrations).find? token).isSome ↔
      ∃ registration ∈ registrations, registration.toRow.token = token := by
  have none_before : find? { library } token = none := rfl
  rw [find?_register, none_before, Option.or_none, List.find?_isSome]
  simp

end RowMap

namespace TypeRow

/-- Of the number of a row of a signature its token keeps 24 bits. -/
theorem token_specification (signature : TypeSignature) :
    (specification signature).token.value.toNat = 0x1B000000 + signature.row % 2 ^ 24 := by
  have kept : signature.row % 0x1000000 < 0x1000000 := Nat.mod_lt _ (by decide)
  simp only [token, TypeSignature.token, Token.ofParts, TypeTable.number]
  rw [UInt32.toNat_ofNat_of_lt' (by rw [UInt32.size]; omega)]
  omega

theorem token_specification_eq_iff {first second : TypeSignature} :
    (specification first).token = (specification second).token ↔
      first.row % 2 ^ 24 = second.row % 2 ^ 24 := by
  refine ⟨?_, ?_⟩
  · intro same
    have values := congrArg (fun token : Token => token.value.toNat) same
    simp only [token_specification] at values
    omega
  · intro agree
    have values : (specification first).token.value = (specification second).token.value :=
      UInt32.toNat_inj.mp (by rw [token_specification, token_specification, agree])
    exact congrArg Token.mk values

theorem token_ofSignature (number : Nat) (signature : TypeSignature) :
    (ofSignature number signature).token.value.toNat = 0x1B000000 + number % 2 ^ 24 := by
  have numbered : (signature.withRow number).row = number := by cases signature <;> rfl
  rw [ofSignature, token_specification, numbered]

end TypeRow

namespace Read

variable {resolver : Resolver} {cursor stopped : Cursor}

theorem target_of_mem_indexes {indexes : List IndexNumeral} {handle : TypeHandle}
    (mem : handle ∈ indexes.map (IndexNumeral.handle resolver)) :
    handle.target = resolver.row? handle.token := by
  obtain ⟨index, -, rfl⟩ := List.mem_map.mp mem
  rfl

/-- Nothing but the resolver gives a handle its row. -/
theorem target_of_type {t : TypeSignature} (done : type resolver cursor = .ok t stopped) :
    ∀ handle ∈ t.handles, handle.target = resolver.row? handle.token := by
  obtain ⟨_, ⟨s, -, rfl, rfl⟩, -, -⟩ := (accepts_type resolver _ _ _).mp done
  intro handle mem
  rw [s.handles_tree] at mem
  exact target_of_mem_indexes mem

theorem target_of_method {m : MethodSignature} (done : method resolver cursor = .ok m stopped) :
    ∀ handle ∈ m.handles, handle.target = resolver.row? handle.token := by
  obtain ⟨_, ⟨s, -, rfl, rfl⟩, -, -⟩ := (accepts_method resolver _ _ _).mp done
  intro handle mem
  -- A pointer to the method has the same handles.
  have handles_eq : ((TypeSpelling.functionPointer s).tree resolver).handles = _ :=
    TypeSpelling.handles_tree _
  rw [TypeSpelling.tree, TypeSignature.handles] at handles_eq
  rw [handles_eq] at mem
  exact target_of_mem_indexes mem

end Read

def SignatureItem.handles : SignatureItem → List TypeHandle
  | .type signature => signature.handles
  | .method signature => signature.handles

theorem Read.target_of_item {resolver : Resolver} {kind : ItemKind} {cursor stopped : Cursor}
    {item : SignatureItem} (done : Read.item resolver kind cursor = .ok item stopped) :
    ∀ handle ∈ item.handles, handle.target = resolver.row? handle.token := by
  cases kind with
  | type =>
      obtain ⟨t, _, read, given⟩ := bind_eq_ok.mp done
      obtain ⟨rfl, -⟩ := EStateM.Result.ok.inj given
      exact target_of_type read
  | method =>
      obtain ⟨m, _, read, given⟩ := bind_eq_ok.mp done
      obtain ⟨rfl, -⟩ := EStateM.Result.ok.inj given
      exact target_of_method read

namespace Decoder

/-- What is read in a run has its rows from the resolver, behind faults as well. -/
theorem target_of_outcomes {resolver : Resolver} {kinds : List ItemKind} {cursor : Cursor}
    {item : SignatureItem} {stopped : Decoder}
    (mem : .ok item stopped ∈ outcomes resolver ⟨cursor, 0⟩ kinds) :
    ∀ handle ∈ item.handles, handle.target = resolver.row? handle.token := by
  induction kinds generalizing cursor with
  | nil => cases mem
  | cons kind rest ih =>
      rw [outcomes, Decode.keeps_item] at mem
      cases read : Read.item resolver kind cursor with
      | ok first next =>
          rw [read] at mem
          rcases List.mem_cons.mp mem with here | later
          · obtain ⟨rfl, -⟩ := EStateM.Result.ok.inj here
            exact Read.target_of_item read
          · exact ih later
      | error fault next =>
          rw [read] at mem
          rcases List.mem_cons.mp mem with here | later
          · cases here
          · exact ih later

end Decoder

/-- The handle has a row if and only if one was registered under its token, and then it is the last
one of those. -/
structure TypeHandle.NamesLast (registrations : List Registration) (handle : TypeHandle) :
    Prop where
  resolved_iff : handle.isResolved ↔
    ∃ registration ∈ registrations, registration.toRow.token = handle.token
  target_iff : ∀ row, handle.target = some row ↔
    ∃ earlier registration later, registrations = earlier ++ registration :: later ∧
      registration.toRow = row ∧ registration.toRow.token = handle.token ∧
      ∀ other ∈ later, other.toRow.token ≠ handle.token
  token_eq : ∀ row, handle.target = some row → row.token = handle.token

namespace RowMap

theorem namesLast_of_target {library : CoreLibrary} {registrations : List Registration}
    {handle : TypeHandle}
    (target : handle.target =
      (register { library } registrations).resolver.row? handle.token) :
    handle.NamesLast registrations where
  resolved_iff := by
    rw [TypeHandle.isResolved, target]
    exact find?_register_isSome_iff
  target_iff row := by
    rw [target]
    exact find?_register_eq_some_iff
  token_eq row found := by
    rw [target] at found
    obtain ⟨-, registration, -, -, rfl, same, -⟩ := find?_register_eq_some_iff.mp found
    exact same

/-- Every handle that is read with the registered rows, in a signature by itself or in a run of
them, names the last row with its token, if there is one. The token of a row of a signature has the
row number by its lower 24 bits, so that of two rows whose numbers agree in them the second takes
the place of the first. -/
theorem handles_name_last_registered (library : CoreLibrary) (registrations : List Registration) :
    let resolver := (register { library } registrations).resolver
    (∀ (data : Bytes) (t : TypeSignature), TypeSignature.decode resolver data = .ok t →
      ∀ handle ∈ t.handles, handle.NamesLast registrations) ∧
    (∀ (data : Bytes) (m : MethodSignature), MethodSignature.decode resolver data = .ok m →
      ∀ handle ∈ m.handles, handle.NamesLast registrations) ∧
    (∀ (data : Bytes) (kinds : List ItemKind) (item : SignatureItem) (stopped : Decoder),
      .ok item stopped ∈ (Decoder.ofData data).outcomes resolver kinds →
        ∀ handle ∈ item.handles, handle.NamesLast registrations) ∧
    (∀ signature : TypeSignature, (TypeRow.specification signature).token.value.toNat =
      0x1B000000 + signature.row % 2 ^ 24) ∧
    (∀ (number : Nat) (signature : TypeSignature),
      (Registration.specification number signature).toRow.token.value.toNat =
        0x1B000000 + number % 2 ^ 24) ∧
    ∀ (map : RowMap) (first second : TypeSignature), first.row % 2 ^ 24 = second.row % 2 ^ 24 →
      (map.insert (.specification first)).insert (.specification second) =
        map.insert (.specification second) := by
  intro resolver
  refine ⟨?_, ?_, ?_, TypeRow.token_specification, TypeRow.token_ofSignature, ?_⟩
  · intro data t decoded handle mem
    obtain ⟨stopped, read⟩ := Read.run?_eq_ok_iff.mp decoded
    exact namesLast_of_target (Read.target_of_type read handle mem)
  · intro data m decoded handle mem
    obtain ⟨stopped, read⟩ := Read.run?_eq_ok_iff.mp decoded
    exact namesLast_of_target (Read.target_of_method read handle mem)
  · intro data kinds item stopped outcome handle mem
    exact namesLast_of_target (Decoder.target_of_outcomes outcome handle mem)
  · intro map first second agree
    exact map.insert_insert (TypeRow.token_specification_eq_iff.mpr agree)

/-- Two rows of signatures whose numbers differ in the 25th bit only, with a definition between
them. -/
def collidingRows : List Registration := [
  .specification 1 (.typeVar 0 0),
  .definition (.topLevel { token := ⟨0x02000005⟩, name := "Node" }),
  .specification 0x1000001 (.methodVar 0 7)]

theorem handles_name_last_registered_colliding :
    let resolver := (register {} collidingRows).resolver
    let handle : TypeHandle := ⟨⟨0x1B000001⟩, some (.specification (.methodVar 0x1000001 7))⟩
    TypeSignature.decode resolver [0x1F, 0x06, 0x12, 0x14] =
      .ok (.wrapped 0 (.modifier .required handle) (.named 0 .classType ⟨⟨0x02000005⟩,
        some (.definition (.topLevel { token := ⟨0x02000005⟩, name := "Node" }))⟩)) ∧
    handle.NamesLast collidingRows ∧
    (insert {} (.specification (.typeVar 1 0))).insert (.specification (.methodVar 0x1000001 7)) =
      insert {} (.specification (.methodVar 0x1000001 7)) := by
  intro resolver handle
  obtain ⟨typeHandles, -, -, -, -, replaced⟩ :=
    handles_name_last_registered .standard collidingRows
  have decoded : TypeSignature.decode resolver [0x1F, 0x06, 0x12, 0x14] =
      .ok (.wrapped 0 (.modifier .required handle) (.named 0 .classType ⟨⟨0x02000005⟩,
        some (.definition (.topLevel { token := ⟨0x02000005⟩, name := "Node" }))⟩)) := rfl
  exact ⟨decoded, typeHandles _ _ decoded handle (List.mem_cons_self ..), replaced {} _ _ rfl⟩

end RowMap

end CliMetadata
