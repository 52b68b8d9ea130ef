import Mathlib.Data.List.TakeWhile
import TextTransforms.Text.Basic

/-!
# Runs

A run of characters of one class, in front of a text that does not go on with
that class, is what `takeWhile` takes and `dropWhile` drops (`takeWhile_run`,
`dropWhile_run`), so the text determines both (`run_append_inj`, `run_cons_inj`). Next to
it, when a word starts a longer text as it starts a part of it (`isPrefixOf?_append`), and
which characters are of which class.
-/

namespace TextTransforms.Text

section Runs

variable {p : Char → Bool} {s rest : Text}

theorem takeWhile_run (hs : ∀ c ∈ s, p c = true) (hr : ∀ c, rest.head? = some c → p c = false) :
    (s ++ rest).takeWhile p = s := by
  rw [List.takeWhile_append_of_pos hs]
  cases rest with
  | nil => simp
  | cons c rest => simp [hr c rfl]

theorem dropWhile_run (hs : ∀ c ∈ s, p c = true) (hr : ∀ c, rest.head? = some c → p c = false) :
    (s ++ rest).dropWhile p = rest := by
  rw [List.dropWhile_append_of_pos hs]
  cases rest with
  | nil => rfl
  | cons c rest => simp [hr c rfl]

/-- A text is such a run in front of such a rest in one way only. -/
theorem run_append_inj {s' rest' : Text} (h : s ++ rest = s' ++ rest')
    (hs : ∀ c ∈ s, p c = true) (hs' : ∀ c ∈ s', p c = true)
    (hr : ∀ c, rest.head? = some c → p c = false)
    (hr' : ∀ c, rest'.head? = some c → p c = false) : s = s' ∧ rest = rest' := by
  have htake := takeWhile_run hs hr
  have hdrop := dropWhile_run hs hr
  rw [h] at htake hdrop
  exact ⟨htake.symm.trans (takeWhile_run hs' hr'), hdrop.symm.trans (dropWhile_run hs' hr')⟩

/-- A text that starts with a character of another class does not go on with the run. -/
theorem stops_cons {c : Char} (t : Text) (hc : p c = false) :
    ∀ d, (c :: t).head? = some d → p d = false := by
  intro d hd
  obtain rfl : c = d := by simpa using hd
  exact hc

theorem run_cons_inj {s' t t' : Text} {c c' : Char} (h : s ++ c :: t = s' ++ c' :: t')
    (hs : ∀ d ∈ s, p d = true) (hs' : ∀ d ∈ s', p d = true) (hc : p c = false)
    (hc' : p c' = false) : s = s' ∧ c = c' ∧ t = t' := by
  obtain ⟨hrun, hrest⟩ := run_append_inj h hs hs' (stops_cons t hc) (stops_cons t' hc')
  exact ⟨hrun, List.cons.inj hrest⟩

theorem head?_dropWhile {t : Text} {c : Char} (h : (t.dropWhile p).head? = some c) :
    p c = false := by
  have := List.head?_dropWhile_not p t
  rw [h] at this
  simpa using this

end Runs

/-- A word that does not reach over the end of `t` starts `t ++ u` as it starts `t`. -/
theorem isPrefixOf?_append {w t u : Text} (h : ∀ c v, w = t ++ c :: v → u.head? ≠ some c) :
    w.isPrefixOf? (t ++ u) = (w.isPrefixOf? t).map (· ++ u) := by
  induction t generalizing w with
  | nil =>
    cases w with
    | nil => rfl
    | cons c w =>
      cases u with
      | nil => rfl
      | cons d u =>
        have hne : c ≠ d := fun e => h c w rfl (by rw [e]; rfl)
        change (if c == d then w.isPrefixOf? u else none) = none
        rw [beq_eq_false_iff_ne.2 hne, if_neg Bool.false_ne_true]
  | cons d t ih =>
    cases w with
    | nil => rfl
    | cons c w =>
      change (if c == d then w.isPrefixOf? (t ++ u) else none) =
        (if c == d then w.isPrefixOf? t else none).map (· ++ u)
      split
      · rename_i hc
        exact ih fun e v hw => h e v (by rw [hw, eq_of_beq hc, List.cons_append])
      · rfl

/-! ## Classes -/

theorem isWordChar_of_isDigit {c : Char} (h : c.isDigit = true) : isWordChar c = true := by
  simp [isWordChar, Char.isAlphanum, h]

theorem isWord_iff {t : Text} :
    isWord t = true ↔ t ≠ [] ∧ ∀ c ∈ t, isWordChar c = true := by
  simp [isWord]

theorem notMem_of_isWord {t : Text} {c : Char} (h : isWord t = true) (hc : isWordChar c = false) :
    c ∉ t :=
  fun hm => absurd ((isWord_iff.1 h).2 c hm) (by simp [hc])

theorem ne_of_isWordChar {c d : Char} (hc : isWordChar c = true) (hd : isWordChar d = false) :
    c ≠ d := by
  rintro rfl
  rw [hc] at hd
  simp at hd

end TextTransforms.Text
