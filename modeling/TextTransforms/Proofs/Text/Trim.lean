import TextTransforms.Text.Blank

/-!
# Trimmed texts

A text is its trimmed form between blanks (`exists_blanks_trim`); blanks around a
text are trimmed away (`trim_blanks`), a text without blanks and a trimmed text stay
as they are (`trim_eq_self`, `trim_trim`).
-/

namespace TextTransforms.Text

def IsBlanks (t : Text) : Prop := ∀ c ∈ t, isBlank c = true

theorem notMem_of_isBlanks {t : Text} {c : Char} (h : IsBlanks t) (hc : isBlank c = false) :
    c ∉ t :=
  fun hm => absurd (h c hm) (by simp [hc])

theorem isBlank_of_isAlphanum {c : Char} (h : c.isAlphanum = true) : isBlank c = false := by
  have hc : (97 ≤ c.toNat ∧ c.toNat ≤ 122) ∨ (65 ≤ c.toNat ∧ c.toNat ≤ 90) ∨
      (48 ≤ c.toNat ∧ c.toNat ≤ 57) := by
    rcases Bool.or_eq_true_iff.1 h with h | h
    · rcases Bool.or_eq_true_iff.1 h with h | h
      · exact .inr (.inl (of_decide_eq_true h))
      · obtain ⟨hlow, hhigh⟩ := Bool.and_eq_true_iff.1 h
        exact .inl ⟨of_decide_eq_true hlow, of_decide_eq_true hhigh⟩
    · obtain ⟨hlow, hhigh⟩ := Bool.and_eq_true_iff.1 h
      exact .inr (.inr ⟨of_decide_eq_true hlow, of_decide_eq_true hhigh⟩)
  simp only [isBlank, blankRanges, CharRanges.contains, Bool.and_eq_false_iff,
    Bool.or_eq_false_iff, decide_eq_false_iff_not]
  omega

theorem trimStart_blanks {s : Text} (t : Text) (hs : IsBlanks s) :
    trimStart (s ++ t) = trimStart t :=
  List.dropWhile_append_of_pos hs

theorem trimStart_eq_nil {s : Text} (hs : IsBlanks s) : trimStart s = [] := by
  have h := trimStart_blanks [] hs
  rwa [List.append_nil] at h

theorem trimEnd_blanks {s : Text} (t : Text) (hs : IsBlanks s) :
    trimEnd (t ++ s) = trimEnd t := by
  have hr : ∀ c ∈ s.reverse, isBlank c = true := fun c hc => hs c (List.mem_reverse.1 hc)
  rw [trimEnd, List.reverse_append, List.dropWhile_append_of_pos hr]
  rfl

theorem trimStart_cons_of_not {c : Char} (t : Text) (h : isBlank c = false) :
    trimStart (c :: t) = c :: t := by
  simp [trimStart, h]

theorem trimEnd_snoc_of_not {c : Char} (t : Text) (h : isBlank c = false) :
    trimEnd (t ++ [c]) = t ++ [c] := by
  simp [trimEnd, h]

theorem exists_blanks_trimStart (t : Text) :
    ∃ s, t = s ++ trimStart t ∧ IsBlanks s :=
  ⟨t.takeWhile isBlank, List.takeWhile_append_dropWhile.symm,
   fun c hc => List.all_eq_true.1 List.all_takeWhile c hc⟩

/-- What is trimmed away is blank. -/
theorem exists_blanks_trim (t : Text) :
    ∃ s u, t = s ++ trim t ++ u ∧ IsBlanks s ∧ IsBlanks u := by
  obtain ⟨s, hs, hb⟩ := exists_blanks_trimStart t
  obtain ⟨u, hu, hb'⟩ := trimEnd_append_blanks (trimStart t)
  refine ⟨s, u, ?_, hb, fun c hc => List.all_eq_true.1 hb' c hc⟩
  rw [List.append_assoc, trim, ← hu]
  exact hs

/-- What a text starts with behind its blanks. -/
theorem trimStart_eq_cons_iff {t rest : Text} {c : Char} :
    trimStart t = c :: rest ↔ isBlank c = false ∧ ∃ s, IsBlanks s ∧ t = s ++ c :: rest := by
  constructor
  · intro h
    obtain ⟨s, hs, hb⟩ := exists_blanks_trimStart t
    refine ⟨isBlank_head_trimStart (t := t) (by rw [h]; rfl), s, hb, ?_⟩
    rwa [h] at hs
  · rintro ⟨hc, s, hs, rfl⟩
    rw [trimStart_blanks _ hs, trimStart_cons_of_not _ hc]

theorem mem_of_mem_trim {t : Text} {c : Char} (h : c ∈ trim t) : c ∈ t := by
  obtain ⟨s, u, e, -, -⟩ := exists_blanks_trim t
  rw [e]
  exact List.mem_append_left _ (List.mem_append_right _ h)

/-- A character that is no blank is not lost. -/
theorem mem_trim {t : Text} {c : Char} (h : c ∈ t) (hc : isBlank c = false) : c ∈ trim t := by
  obtain ⟨s, u, e, hs, hu⟩ := exists_blanks_trim t
  rw [e, List.mem_append, List.mem_append] at h
  rcases h with (h | h) | h
  · exact absurd h (notMem_of_isBlanks hs hc)
  · exact h
  · exact absurd h (notMem_of_isBlanks hu hc)

theorem trimEnd_trimStart_append {t u : Text} (hu : IsBlanks u) :
    trimEnd (trimStart (t ++ u)) = trimEnd (trimStart t) := by
  obtain ⟨s, hs, hb⟩ := exists_blanks_trimStart t
  by_cases ht : trimStart t = []
  · have hall : IsBlanks t := by
      rw [hs, ht, List.append_nil]
      exact hb
    rw [trimStart_blanks u hall, trimStart_eq_nil hu, ht]
  · obtain ⟨c, r, hc⟩ := List.exists_cons_of_ne_nil ht
    have hnot : isBlank c = false := isBlank_head_trimStart (t := t) (by rw [hc]; rfl)
    have hcut : trimStart (t ++ u) = trimStart t ++ u := by
      conv => lhs; rw [hs, List.append_assoc, trimStart_blanks _ hb]
      rw [hc, List.cons_append, trimStart_cons_of_not _ hnot]
    rw [hcut, trimEnd_blanks _ hu]

/-- Blanks around a text do not change what it is trimmed to. -/
theorem trim_blanks {s t u : Text} (hs : IsBlanks s) (hu : IsBlanks u) :
    trim (s ++ t ++ u) = trim t := by
  rw [trim, List.append_assoc, trimStart_blanks _ hs, trimEnd_trimStart_append hu, trim]

/-- A text without blanks is trimmed already. -/
theorem trim_eq_self {t : Text} (h : ∀ c ∈ t, isBlank c = false) : trim t = t := by
  obtain ⟨s, u, e, hs, hu⟩ := exists_blanks_trim t
  have nil (v : Text) (hv : IsBlanks v) (hsub : ∀ c ∈ v, c ∈ t) : v = [] := by
    cases v with
    | nil => rfl
    | cons c v =>
      have hc := h c (hsub c List.mem_cons_self)
      rw [hv c List.mem_cons_self] at hc
      exact nomatch hc
  have hs : s = [] := nil s hs fun c hc => by rw [e]; simp [hc]
  have hu : u = [] := nil u hu fun c hc => by rw [e]; simp [hc]
  rw [hs, hu, List.nil_append, List.append_nil] at e
  exact e.symm

@[simp] theorem trim_trim (t : Text) : trim (trim t) = trim t := by
  obtain ⟨s, u, ht, hs, hu⟩ := exists_blanks_trim t
  conv => rhs; rw [ht, trim_blanks hs hu]

end TextTransforms.Text
