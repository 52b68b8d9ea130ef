import TextTransforms.Inlining.Arguments

/-!
# Used arguments

Using an argument changes neither the texts nor the uses of the others
(`Arguments.isUsed_use_iff`, `Arguments.map_source_use`). A reference to a used
argument is its text, a reference to another is the place of its text among the
arguments that stay behind (`Arguments.remaining_getElem?`).
-/

namespace TextTransforms

theorem notMem_of_isInlinable {t : Text} {c : Char} (h : isInlinable t = true)
    (hc : c ∈ uninlinableChars) : c ∉ t := by
  cases t with
  | nil => simp
  | cons d t =>
    simp only [isInlinable, Bool.and_eq_true, List.all_eq_true] at h
    exact fun hm => absurd (h.2 c hm) (by simp [hc])

theorem exists_cons_of_isInlinable {t : Text} (h : isInlinable t = true) :
    ∃ c s, t = c :: s ∧ c.isDigit = false := by
  cases t with
  | nil => simp [isInlinable] at h
  | cons c s =>
    simp only [isInlinable, Bool.and_eq_true, Bool.not_eq_true'] at h
    exact ⟨c, s, rfl, h.1⟩

namespace Arguments

variable {as : Arguments} {i j : Nat} {s : Text}

def IsUsed (as : Arguments) (i : Nat) (source : Text) : Prop := as[i]? = some ⟨source, true⟩

theorem inlinable?_eq_some_iff :
    as.inlinable? i = some s ↔ (∃ u, as[i]? = some ⟨s, u⟩) ∧ isInlinable s = true := by
  simp only [inlinable?, Option.filter_eq_some_iff, Option.map_eq_some_iff]
  constructor
  · rintro ⟨⟨⟨source, used⟩, ha, rfl⟩, hs⟩
    exact ⟨⟨used, ha⟩, hs⟩
  · rintro ⟨⟨u, ha⟩, hs⟩
    exact ⟨⟨⟨s, u⟩, ha, rfl⟩, hs⟩

theorem getElem?_use (as : Arguments) (i j : Nat) :
    (as.use i)[j]? = if i = j then as[j]?.map (fun a => { a with used := true }) else as[j]? := by
  rw [use, List.getElem?_modify]
  split <;> simp_all

theorem isUsed_use_iff :
    (as.use i).IsUsed j s ↔ as.IsUsed j s ∨ i = j ∧ ∃ u, as[j]? = some ⟨s, u⟩ := by
  unfold IsUsed
  rw [getElem?_use]
  by_cases h : i = j
  · rw [if_pos h]
    cases hj : as[j]? with
    | none => simp
    | some a =>
      obtain ⟨source, used⟩ := a
      simp only [Option.map_some, Option.some.injEq, Argument.mk.injEq, and_true, h, true_and]
      constructor
      · rintro rfl
        exact .inr ⟨used, rfl, rfl⟩
      · rintro (⟨rfl, -⟩ | ⟨_, rfl, -⟩) <;> rfl
  · simp [h]

theorem IsUsed.use (h : as.IsUsed j s) : (as.use i).IsUsed j s := isUsed_use_iff.2 (.inl h)

theorem isUsed_use_of_inlinable? (h : as.inlinable? i = some s) : (as.use i).IsUsed i s :=
  isUsed_use_iff.2 (.inr ⟨rfl, (inlinable?_eq_some_iff.1 h).1⟩)

@[simp] theorem map_source_use (as : Arguments) (i : Nat) :
    (as.use i).map Argument.source = as.map Argument.source := by
  apply List.ext_getElem?
  intro j
  rw [List.getElem?_map, List.getElem?_map, getElem?_use]
  split
  · cases as[j]? <;> rfl
  · rfl

@[simp] theorem map_source_ofTexts (ts : List Text) : (ofTexts ts).map Argument.source = ts := by
  simp [ofTexts, Function.comp_def]

theorem getElem?_ofTexts (ts : List Text) (i : Nat) :
    (ofTexts ts)[i]? = ts[i]?.map fun t => ⟨t, false⟩ := by
  simp [ofTexts]

theorem not_isUsed_ofTexts {ts : List Text} : ¬ (ofTexts ts).IsUsed i s := by
  rw [IsUsed, getElem?_ofTexts]
  cases ts[i]? <;> simp

theorem anyUsed_iff : as.anyUsed = true ↔ ∃ i s, as.IsUsed i s := by
  simp only [anyUsed, List.any_eq_true, IsUsed]
  constructor
  · rintro ⟨⟨source, used⟩, hm, hu⟩
    obtain rfl : used = true := hu
    obtain ⟨i, hi⟩ := List.mem_iff_getElem?.1 hm
    exact ⟨i, source, hi⟩
  · rintro ⟨i, s, h⟩
    exact ⟨⟨s, true⟩, List.mem_iff_getElem?.2 ⟨i, h⟩, rfl⟩

theorem use_append_cons (before behind : Arguments) (a : Argument) :
    Arguments.use (before ++ a :: behind) before.length =
      before ++ { a with used := true } :: behind := by
  rw [use, List.modify_eq_take_cons_drop (by simp)]
  simp

theorem remaining_append (as bs : Arguments) :
    (as ++ bs).remaining = as.remaining ++ bs.remaining := by
  simp [remaining]

@[simp] theorem remaining_ofTexts (ts : List Text) : (ofTexts ts).remaining = ts := by
  simp [remaining, ofTexts, List.filter_map, Function.comp_def]

/-! ## References -/

theorem reference?_of_isUsed (h : as.IsUsed i s) : as.reference? i = some s := by
  have hi : as[i]? = some ⟨s, true⟩ := h
  simp [reference?, hi]

theorem reference?_eq_none_iff : as.reference? i = none ↔ as.length ≤ i := by
  simp [reference?]

theorem reference?_ne_nil (hs : ∀ i s, as.IsUsed i s → s ≠ []) {r : Text}
    (hr : as.reference? i = some r) : r ≠ [] := by
  obtain ⟨⟨s, used⟩, ha, rfl⟩ := Option.map_eq_some_iff.1 hr
  cases used with
  | true => exact hs i s ha
  | false => exact Numeral.ofNat_ne_nil _

/-- An unused argument is found where its reference says. -/
theorem remaining_getElem? (h : as[i]? = some ⟨s, false⟩) :
    as.remaining[(as.take i).countP (!·.used)]? = some s := by
  induction as generalizing i with
  | nil => simp at h
  | cons a as ih =>
    cases i with
    | zero =>
      obtain rfl : a = ⟨s, false⟩ := by simpa using h
      simp [remaining]
    | succ i =>
      have := ih (i := i) (by simpa using h)
      cases ha : a.used with
      | true => simpa [remaining, ha] using this
      | false => simpa [remaining, ha] using this

theorem length_remaining (as : Arguments) : as.remaining.length = as.countP (!·.used) := by
  rw [remaining, List.length_map, List.countP_eq_length_filter]

theorem length_remaining_le (as : Arguments) : as.remaining.length ≤ as.length := by
  rw [length_remaining]
  exact List.countP_le_length

end Arguments

end TextTransforms
