import CliMetadata.Proofs.Texts

/-!
Scanning a text from left to right. A backslash takes the meaning from the character behind it;
brackets that have a meaning are counted. In a text whose brackets are closed in it a scan comes
back to where it began, whatever it began with, and never falls below. A cut at the first comma
outside of brackets goes past such a text if there are no commas outside of its brackets.
-/

namespace CliMetadata.Text

/-- Where a scan stands: how many brackets are open, and whether the next character is escaped. -/
structure Scan where
  depth : Int := 0
  escaped : Bool := false
deriving DecidableEq, Repr

namespace Scan

def step (scan : Scan) (c : Char) : Scan :=
  if scan.escaped then { scan with escaped := false }
  else if c = '\\' then { scan with escaped := true }
  else if c = '[' then { scan with depth := scan.depth + 1 }
  else if c = ']' then { scan with depth := scan.depth - 1 }
  else scan

/-- The scan behind a text. -/
def after (scan : Scan) (text : List Char) : Scan := text.foldl step scan

/-- The two sides of a cut with further text at the front. -/
def putBefore (front : List Char) (sides : List Char × List Char) : List Char × List Char :=
  (front ++ sides.1, sides.2)

/-- The text on the two sides of the first comma that is neither escaped nor inside of brackets. -/
def cut? (scan : Scan) : List Char → Option (List Char × List Char)
  | [] => none
  | c :: rest =>
    if c = ',' ∧ scan = {} then some ([], rest)
    else ((scan.step c).cut? rest).map (putBefore [c])

section

variable (scan : Scan) (depth : Int)

@[simp] theorem after_nil : scan.after [] = scan := rfl

@[simp] theorem after_cons (c : Char) (text : List Char) :
    scan.after (c :: text) = (scan.step c).after text := rfl

theorem after_append (front back : List Char) :
    scan.after (front ++ back) = (scan.after front).after back := List.foldl_append

@[simp] theorem step_backslash : step ⟨depth, false⟩ '\\' = ⟨depth, true⟩ := rfl

@[simp] theorem step_escaped (c : Char) : step ⟨depth, true⟩ c = ⟨depth, false⟩ := rfl

@[simp] theorem step_open : step ⟨depth, false⟩ '[' = ⟨depth + 1, false⟩ := rfl

@[simp] theorem step_close : step ⟨depth, false⟩ ']' = ⟨depth - 1, false⟩ := rfl

theorem putBefore_nil : putBefore [] = id := rfl

theorem putBefore_comp (front back : List Char) :
    putBefore front ∘ putBefore back = putBefore (front ++ back) := by
  funext sides
  simp [putBefore]

end

/-- At no place in the text are fewer brackets open. -/
def StaysAbove (bound : Int) (scan : Scan) (text : List Char) : Prop :=
  ∀ front, front <+: text → bound ≤ (scan.after front).depth

theorem staysAbove_nil_iff {bound : Int} {scan : Scan} :
    StaysAbove bound scan [] ↔ bound ≤ scan.depth := by
  simp [StaysAbove]

theorem staysAbove_cons_iff {bound : Int} {scan : Scan} {c : Char} {text : List Char} :
    StaysAbove bound scan (c :: text) ↔
      bound ≤ scan.depth ∧ StaysAbove bound (scan.step c) text := by
  refine ⟨?_, ?_⟩
  · intro above
    refine ⟨above [] List.nil_prefix, fun front leads => ?_⟩
    exact above (c :: front) (List.cons_prefix_cons.mpr ⟨rfl, leads⟩)
  · intro given front leads
    obtain ⟨here, above⟩ := given
    cases front with
    | nil => exact here
    | cons first front =>
        obtain ⟨rfl, behind⟩ := List.cons_prefix_cons.mp leads
        exact above front behind

theorem StaysAbove.mono {bound lower : Int} {scan : Scan} {text : List Char}
    (h : StaysAbove bound scan text) (le : lower ≤ bound) : StaysAbove lower scan text :=
  fun front leads => Int.le_trans le (h front leads)

theorem staysAbove_append {bound : Int} {scan : Scan} {front back : List Char}
    (first : StaysAbove bound scan front) (second : StaysAbove bound (scan.after front) back) :
    StaysAbove bound scan (front ++ back) := by
  induction front generalizing scan with
  | nil => exact second
  | cons c front ih =>
      obtain ⟨here, above⟩ := staysAbove_cons_iff.mp first
      exact staysAbove_cons_iff.mpr ⟨here, ih above second⟩

end Scan

/-- The character has no meaning for a scan, except as a comma. -/
def isPlain (c : Char) : Bool := c != '[' && c != ']' && c != '\\'

/-- All brackets of the text are closed in it. Outside of them there may be commas or not. -/
inductive Bracketed : (commas : Bool) → List Char → Prop where
  | nil {commas : Bool} : Bracketed commas []
  | plain {commas : Bool} {c : Char} {text : List Char} (solid : isPlain c = true)
    (comma : c = ',' → commas = true) : Bracketed commas text → Bracketed commas (c :: text)
  | escaped {commas : Bool} (c : Char) {text : List Char} :
    Bracketed commas text → Bracketed commas ('\\' :: c :: text)
  | brackets {commas : Bool} {inner text : List Char} :
    Bracketed true inner → Bracketed commas text → Bracketed commas ('[' :: inner ++ ']' :: text)

namespace Bracketed

variable {commas : Bool} {text : List Char}

theorem append {other : List Char} (h : Bracketed commas text) (hother : Bracketed commas other) :
    Bracketed commas (text ++ other) := by
  induction h with
  | nil => exact hother
  | plain solid comma _ ih => exact .plain solid comma (ih hother)
  | escaped c _ ih => exact .escaped c (ih hother)
  | brackets hinner _ _ ih =>
      rw [List.append_assoc, List.cons_append]
      exact .brackets hinner (ih hother)

theorem enclosed (h : Bracketed true text) : Bracketed commas ('[' :: text ++ [']']) :=
  .brackets h .nil

theorem of_forall (solid : ∀ c ∈ text, isPlain c = true ∧ (c = ',' → commas = true)) :
    Bracketed commas text := by
  induction text with
  | nil => exact .nil
  | cons c rest ih =>
      obtain ⟨⟨here, comma⟩, others⟩ := List.forall_mem_cons.mp solid
      exact .plain here comma (ih others)

theorem of_all (text : List Char)
    (solid : (text.all fun c => isPlain c && (c != ',' || commas)) = true) :
    Bracketed commas text := by
  refine .of_forall fun c mem => ?_
  obtain ⟨here, comma⟩ := Bool.and_eq_true_iff.mp (List.all_eq_true.mp solid c mem)
  exact ⟨here, fun same => by simpa [same] using comma⟩

theorem loosen (h : Bracketed commas text) : Bracketed true text := by
  induction h with
  | nil => exact .nil
  | plain solid _ _ ih => exact .plain solid (fun _ => rfl) ih
  | escaped c _ ih => exact .escaped c ih
  | brackets hinner _ _ ih => exact .brackets hinner ih

theorem intercalate {parts : List (List Char)} (h : ∀ part ∈ parts, Bracketed true part) :
    Bracketed true ([','].intercalate parts) := by
  have comma : Bracketed true [','] := .of_all _ (by decide)
  induction parts with
  | nil => exact .nil
  | cons first rest ih =>
      obtain ⟨hfirst, hrest⟩ := List.forall_mem_cons.mp h
      cases rest with
      | nil => simpa using hfirst
      | cons second others =>
          rw [List.intercalate_cons_cons]
          exact (hfirst.append comma).append (ih hrest)

theorem step_plain {c : Char} (solid : isPlain c = true) (depth : Int) :
    Scan.step ⟨depth, false⟩ c = ⟨depth, false⟩ := by
  simp only [isPlain, Bool.and_eq_true, bne_iff_ne] at solid
  simp [Scan.step, solid]

/-- What was open before is open behind the text, and nothing else. -/
theorem after_eq (h : Bracketed commas text) (depth : Int) :
    Scan.after ⟨depth, false⟩ text = ⟨depth, false⟩ := by
  induction h generalizing depth with
  | nil => rfl
  | plain solid _ _ ih => rw [Scan.after_cons, step_plain solid, ih]
  | escaped c _ ih =>
      rw [Scan.after_cons, Scan.step_backslash, Scan.after_cons, Scan.step_escaped, ih]
  | brackets _ _ ihInner ih =>
      rw [List.cons_append, Scan.after_cons, Scan.step_open, Scan.after_append, ihInner,
        Scan.after_cons, Scan.step_close, Int.add_sub_cancel, ih]

theorem staysAbove (h : Bracketed commas text) (depth : Int) :
    Scan.StaysAbove depth ⟨depth, false⟩ text := by
  induction h generalizing depth with
  | nil => exact Scan.staysAbove_nil_iff.mpr (Int.le_refl depth)
  | plain solid _ _ ih =>
      apply Scan.staysAbove_cons_iff.mpr
      rw [step_plain solid]
      exact ⟨Int.le_refl depth, ih depth⟩
  | escaped c _ ih =>
      refine Scan.staysAbove_cons_iff.mpr ⟨Int.le_refl depth, ?_⟩
      exact Scan.staysAbove_cons_iff.mpr ⟨Int.le_refl depth, ih depth⟩
  | brackets hinner _ ihInner ih =>
      have within := (ihInner (depth + 1)).mono (Int.le_add_of_nonneg_right Int.one_nonneg)
      refine Scan.staysAbove_cons_iff.mpr ⟨Int.le_refl depth, Scan.staysAbove_append within ?_⟩
      rw [Scan.step_open, hinner.after_eq]
      refine Scan.staysAbove_cons_iff.mpr ⟨Int.le_add_of_nonneg_right Int.one_nonneg, ?_⟩
      rw [Scan.step_close, Int.add_sub_cancel]
      exact ih depth

/-- A cut goes past the text: its commas are either inside of brackets or not there. -/
theorem cut?_append (h : Bracketed commas text) {depth : Int} (nonneg : 0 ≤ depth)
    (inside : commas = true → 0 < depth) (rest : List Char) :
    Scan.cut? ⟨depth, false⟩ (text ++ rest) =
      (Scan.cut? ⟨depth, false⟩ rest).map (Scan.putBefore text) := by
  have notHere {c : Char} {depth : Int} (comma : c = ',' → 0 < depth) :
      ¬(c = ',' ∧ (⟨depth, false⟩ : Scan) = {}) := by
    rintro ⟨rfl, outside⟩
    obtain rfl : depth = 0 := congrArg Scan.depth outside
    exact Int.lt_irrefl 0 (comma rfl)
  induction h generalizing depth rest with
  | nil => rw [List.nil_append, Scan.putBefore_nil, Option.map_id_fun, id]
  | plain solid comma _ ih =>
      rw [List.cons_append, Scan.cut?, if_neg (notHere fun same => inside (comma same)),
        step_plain solid, ih nonneg inside, Option.map_map, Scan.putBefore_comp]
      rfl
  | escaped c _ ih =>
      rw [List.cons_append, List.cons_append, Scan.cut?, if_neg (by simp), Scan.step_backslash,
        Scan.cut?, if_neg (by simp), Scan.step_escaped, ih nonneg inside, Option.map_map,
        Scan.putBefore_comp, Option.map_map, Scan.putBefore_comp]
      rfl
  | @brackets _ inner text _ _ ihInner ih =>
      -- Inside of the brackets commas do not count, whether there are any or not.
      have deeper : 0 < depth + 1 := Int.lt_add_one_of_le nonneg
      have whole : ['['] ++ inner ++ [']'] ++ text = '[' :: (inner ++ ']' :: text) := by simp
      rw [List.cons_append, List.cons_append, Scan.cut?, if_neg (by simp), Scan.step_open,
        List.append_assoc, ihInner (Int.le_of_lt deeper) (fun _ => deeper), List.cons_append,
        Scan.cut?, if_neg (by simp), Scan.step_close, Int.add_sub_cancel, ih nonneg inside,
        Option.map_map, Scan.putBefore_comp, Option.map_map, Scan.putBefore_comp, Option.map_map,
        Scan.putBefore_comp, whole]

end Bracketed

end CliMetadata.Text
