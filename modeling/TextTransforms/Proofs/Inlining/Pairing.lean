import TextTransforms.Proofs.Inlining.Turns

/-!
# Whose turn it is

The pass over the placeholders without argument starts with some arguments unused, in whatever
way the passes before it have used the others. The cursor stands behind the last argument that
had its turn, so the unused arguments from the cursor on are those still to come
(`takeTurn_cases`). With that the `i`-th placeholder without argument meets the `i`-th
unused argument (`Draft.inlineImplicit_pairs`), whether or not the ones before it have moved.
-/

namespace TextTransforms

/-! ## Unused arguments -/

namespace Arguments

variable {as : Arguments} {i j p start : Nat} {s : Text}

/-- The positions of the unused arguments from a place on, in increasing order. -/
def unusedFrom (as : Arguments) (start : Nat) : List Nat :=
  (((as.drop start).zipIdx start).filter fun a => !a.1.used).map Prod.snd

/-- The positions of the unused arguments, in increasing order. -/
def unused (as : Arguments) : List Nat := as.unusedFrom 0

theorem unusedFrom_of_nextUnused?_eq_none (h : as.nextUnused? start = none) :
    as.unusedFrom start = [] := by
  have hused : ∀ a ∈ as.drop start, a.used = true := by
    simpa using List.findIdx?_eq_none_iff.1 (Option.map_eq_none_iff.1 h)
  rw [unusedFrom, List.map_eq_nil_iff, List.filter_eq_nil_iff]
  intro a ha
  simp [hused a.1 (List.fst_mem_of_mem_zipIdx ha)]

/-- The next unused argument is the first one from the place on. -/
theorem unusedFrom_of_nextUnused? (h : as.nextUnused? start = some i) :
    as.unusedFrom start = i :: as.unusedFrom (i + 1) := by
  obtain ⟨k, hk, rfl⟩ := Option.map_eq_some_iff.1 h
  obtain ⟨mid, x, rest, hdrop, rfl, hmid, hx⟩ := findIdx?_split hk
  have hrest : as.drop (start + mid.length + 1) = rest := by
    rw [Nat.add_assoc, ← List.drop_drop, hdrop]
    simp
  have hpassed : (mid.zipIdx start).filter (fun a => !a.1.used) = [] := by
    rw [List.filter_eq_nil_iff]
    intro a ha
    simpa using hmid a.1 (List.fst_mem_of_mem_zipIdx ha)
  have hunused : x.used = false := by simpa using hx
  rw [unusedFrom, unusedFrom, hdrop, hrest, List.zipIdx_append, List.filter_append, hpassed]
  simp [hunused]

/-- Using an argument does not touch those behind it. -/
theorem unusedFrom_use (as : Arguments) (i : Nat) :
    (as.use i).unusedFrom (i + 1) = as.unusedFrom (i + 1) := by
  have hdrop : (as.use i).drop (i + 1) = as.drop (i + 1) := by
    apply List.ext_getElem?
    intro j
    rw [List.getElem?_drop, List.getElem?_drop, getElem?_use, if_neg (by omega)]
  rw [unusedFrom, unusedFrom, hdrop]

@[simp] theorem inlinable?_use (as : Arguments) (i j : Nat) :
    (as.use i).inlinable? j = as.inlinable? j := by
  have hsource := congrArg (·[j]?) (map_source_use as i)
  simp only [List.getElem?_map] at hsource
  rw [inlinable?, inlinable?, hsource]

end Arguments

/-! ## One turn -/

/-- The field with an argument, if there is one for it. -/
def Field.fill (f : Field) : Option Text → Field
  | some source => { f with argument := .inlined source }
  | none => f

section Turn

variable {as : Arguments} {f : Field} {i p cursor : Nat} {s : Text}

theorem Field.fst_take (as : Arguments) (i : Nat) (f : Field) :
    (f.take as i).1 = f.fill (as.inlinable? i) := by
  rw [take]
  cases as.inlinable? i <;> rfl

theorem Field.unusedFrom_take (as : Arguments) (i : Nat) (f : Field) :
    (f.take as i).2.unusedFrom (i + 1) = as.unusedFrom (i + 1) := by
  rw [take]
  split
  · exact as.unusedFrom_use i
  · rfl

theorem Field.inlinable?_take (as : Arguments) (i j : Nat) (f : Field) :
    (f.take as i).2.inlinable? j = as.inlinable? j := by
  rw [take]
  split
  · exact as.inlinable?_use i j
  · rfl

theorem Field.map_source_take (as : Arguments) (i : Nat) (f : Field) :
    (f.take as i).2.map Argument.source = as.map Argument.source := by
  rw [take]
  split
  · exact as.map_source_use i
  · rfl

/-- An argument that may stand in the field is used by it, and no other one is. -/
theorem Field.isUsed_take_iff :
    (f.take as i).2.IsUsed p s ↔ as.IsUsed p s ∨ i = p ∧ as.inlinable? p = some s := by
  rw [take]
  cases hi : as.inlinable? i with
  | none =>
    constructor
    · exact .inl
    · rintro (h | ⟨rfl, h⟩)
      · exact h
      · exact absurd (hi.symm.trans h) (by simp)
  | some source =>
    obtain ⟨⟨u, ha⟩, hin⟩ := Arguments.inlinable?_eq_some_iff.1 hi
    rw [Arguments.isUsed_use_iff]
    constructor
    · rintro (h | ⟨rfl, u', h⟩)
      · exact .inl h
      · obtain ⟨rfl, -⟩ : source = s ∧ u = u' := by simpa [ha] using h
        exact .inr ⟨rfl, hi⟩
    · rintro (h | ⟨rfl, h⟩)
      · exact .inl h
      · obtain rfl : source = s := by simpa [hi] using h
        exact .inr ⟨rfl, u, ha⟩

theorem inlineImplicit_of_not (hf : ¬ f.isImplicit = true) (cursor : Nat) (as : Arguments) :
    inlineImplicit (cursor, as) f = (f, cursor, as) := by
  simp [inlineImplicit, hf]

/-- The turn of a field goes to the first unused argument from the cursor on. Those behind it
are what the next turn finds. -/
theorem takeTurn_cases (hf : f.isImplicit = true) (cursor : Nat) (as : Arguments) :
    (as.unusedFrom cursor = [] ∧ inlineImplicit (cursor, as) f = (f, cursor, as)) ∨
      ∃ i, as.unusedFrom cursor = i :: (f.take as i).2.unusedFrom (i + 1) ∧
        inlineImplicit (cursor, as) f = ((f.take as i).1, i + 1, (f.take as i).2) := by
  unfold inlineImplicit
  dsimp only
  rw [if_pos hf]
  cases hnext : as.nextUnused? cursor with
  | none => exact .inl ⟨Arguments.unusedFrom_of_nextUnused?_eq_none hnext, rfl⟩
  | some i =>
    refine .inr ⟨i, ?_, rfl⟩
    rw [f.unusedFrom_take]
    exact Arguments.unusedFrom_of_nextUnused? hnext

end Turn

/-! ## All turns -/

/-- The segment with an argument, if it is a placeholder without one and it is given one. -/
def Segment.fill (source? : Option Text) : Segment → Segment
  | text source => text source
  | field f => if f.isImplicit then field (f.fill source?) else field f

section Turns

variable {segments : List Segment} {as : Arguments} {cursor j p : Nat} {s : Text}

/-- A placeholder without argument gets the argument whose turn it is, counted from the cursor. -/
theorem getElem?_turns (segments : List Segment) (cursor : Nat) (as : Arguments) (j : Nat) :
    (mapFields inlineImplicit (cursor, as) segments).1[j]? =
      segments[j]?.map (Segment.fill
        ((as.unusedFrom cursor)[(segments.take j).countP Segment.isImplicit]?.bind
          as.inlinable?)) := by
  induction segments generalizing cursor as j with
  | nil => simp [mapFields]
  | cons segment rest ih =>
    cases segment with
    | text source =>
      cases j with
      | zero => rfl
      | succ j => simpa [mapFields, Segment.isImplicit] using ih cursor as j
    | field f =>
      by_cases hf : f.isImplicit = true
      · have hcount : (Segment.field f).isImplicit = true := hf
        rcases takeTurn_cases hf cursor as with ⟨hnone, hturn⟩ | ⟨i, hunused, hturn⟩
        · cases j with
          | zero => simp [mapFields, hturn, hnone, Segment.fill, hf, Field.fill]
          | succ j => simpa [mapFields, hturn, hnone] using ih cursor as j
        · cases j with
          | zero =>
            simp [mapFields, hturn, hunused, Segment.fill, hf, f.fst_take]
          | succ j =>
            have hrest := ih (i + 1) (f.take as i).2 j
            rw [funext (f.inlinable?_take as i)] at hrest
            simpa [mapFields, hturn, hunused, List.countP_cons_of_pos hcount] using hrest
      · have hcount : ¬ (Segment.field f).isImplicit = true := hf
        have hturn := inlineImplicit_of_not hf cursor as
        cases j with
        | zero => simp [mapFields, hturn, Segment.fill, hf]
        | succ j => simpa [mapFields, hturn, List.countP_cons_of_neg hcount] using ih cursor as j

theorem map_source_turns :
    (mapFields inlineImplicit (cursor, as) segments).2.2.map Argument.source =
      as.map Argument.source := by
  induction segments generalizing cursor as with
  | nil => rfl
  | cons segment rest ih =>
    cases segment with
    | text source => exact ih
    | field f =>
      by_cases hf : f.isImplicit = true
      · rcases takeTurn_cases hf cursor as with ⟨-, hturn⟩ | ⟨i, -, hturn⟩
        · simp only [mapFields, hturn]
          exact ih
        · simp only [mapFields, hturn]
          rw [ih, f.map_source_take]
      · simp only [mapFields, inlineImplicit_of_not hf]
        exact ih

/-- The arguments that have had their turn are used if they may stand in a placeholder. -/
theorem isUsed_turns_iff :
    (mapFields inlineImplicit (cursor, as) segments).2.2.IsUsed p s ↔
      as.IsUsed p s ∨
        (∃ n < segments.countP Segment.isImplicit, (as.unusedFrom cursor)[n]? = some p) ∧
          as.inlinable? p = some s := by
  induction segments generalizing cursor as with
  | nil => simp [mapFields]
  | cons segment rest ih =>
    cases segment with
    | text source => simpa [mapFields, Segment.isImplicit] using ih
    | field f =>
      by_cases hf : f.isImplicit = true
      · have hcount : (Segment.field f).isImplicit = true := hf
        rw [List.countP_cons_of_pos hcount]
        rcases takeTurn_cases hf cursor as with ⟨hnone, hturn⟩ | ⟨i, hunused, hturn⟩
        · simp only [mapFields, hturn]
          rw [ih, hnone]
          simp
        · simp only [mapFields, hturn]
          rw [ih, Field.isUsed_take_iff, f.inlinable?_take, hunused, Nat.exists_lt_succ_left,
            or_assoc, ← or_and_right]
          simp only [List.getElem?_cons_zero, List.getElem?_cons_succ, Option.some.injEq]
      · have hcount : ¬ (Segment.field f).isImplicit = true := hf
        rw [List.countP_cons_of_neg hcount]
        simp only [mapFields, inlineImplicit_of_not hf]
        exact ih

end Turns

/-- The number of placeholders without argument in front of a place. -/
def Draft.turn (d : Draft) (j : Nat) : Nat := (d.segments.take j).countP Segment.isImplicit

/-- The `i`-th placeholder without argument takes the `i`-th argument that was unused before the
pass, if there is one and it may stand in a placeholder; else it stays as it was. Every other
segment stays, and exactly the arguments so taken become used. -/
theorem Draft.inlineImplicit_pairs (d : Draft) :
    (∀ j, d.inlineImplicit.segments[j]? = d.segments[j]?.map (Segment.fill
      (d.arguments.unused[d.turn j]?.bind d.arguments.inlinable?))) ∧
    d.inlineImplicit.arguments.map Argument.source = d.arguments.map Argument.source ∧
    ∀ p s, d.inlineImplicit.arguments.IsUsed p s ↔
      d.arguments.IsUsed p s ∨
        (∃ i < d.left, d.arguments.unused[i]? = some p) ∧ d.arguments.inlinable? p = some s :=
  ⟨fun j => getElem?_turns d.segments 0 d.arguments j, map_source_turns,
    fun _ _ => isUsed_turns_iff⟩

end TextTransforms
