import TextTransforms.Proofs.Text.Runs
import TextTransforms.Template.Spec

/-!
# How a spec is cut into pieces

`SpecPiece.Leads s rest piece` says, without the reader, that a spec that starts
with `s` and goes on with `rest` has `piece` first. Every spec but the empty one
starts so (`exists_leads`) and is read so (`Leads.specPieces_eq`), which gives
induction over the pieces of a spec (`pieces_induction`).
-/

namespace TextTransforms.SpecPiece

open Text (isWordChar)

def IsDigits (t : Text) : Prop := t ≠ [] ∧ ∀ c ∈ t, c.isDigit = true

theorem isDigits_ofNat (n : Nat) : IsDigits (Numeral.ofNat n) :=
  ⟨Numeral.ofNat_ne_nil n, fun _ => Numeral.isDigit_of_mem_ofNat⟩

/-- The source of the first piece, what follows it, and the piece. -/
inductive Leads : Text → Text → SpecPiece → Prop
  | count {digits rest : Text} (h : IsDigits digits)
      (hv : Numeral.value digits < Numeral.indexLimit) :
      Leads (digits ++ ['$']) rest (.count (Numeral.value digits))
  | digits {digits rest : Text} (h : IsDigits digits)
      (hr : ∀ c, rest.head? = some c → c.isDigit = false)
      (hv : rest.head? = some '$' → Numeral.indexLimit ≤ Numeral.value digits) :
      Leads digits rest (.literal digits)
  | name {c : Char} {t rest : Text} (hc : isWordChar c = true) (hd : c.isDigit = false)
      (ht : ∀ d ∈ t, isWordChar d = true) (hr : ∀ d, rest.head? = some d → isWordChar d = false) :
      Leads (c :: t) rest (.literal (c :: t))
  | other {c : Char} {t rest : Text} (hc : isWordChar c = false)
      (ht : ∀ d ∈ t, isWordChar d = false) (hr : ∀ d, rest.head? = some d → isWordChar d = true) :
      Leads (c :: t) rest (.literal (c :: t))

private theorem isDigits_takeWhile {c : Char} (t : Text) (hc : c.isDigit = true) :
    IsDigits (c :: t.takeWhile Char.isDigit) := by
  refine ⟨by simp, fun d hd => ?_⟩
  rcases List.mem_cons.1 hd with rfl | hd
  · exact hc
  · exact List.mem_takeWhile_imp hd

theorem leads_read (c : Char) (t : Text) :
    ∃ s, c :: t = s ++ (read c t).2 ∧ Leads s (read c t).2 (read c t).1 := by
  have cut (p : Char → Bool) : c :: t = (c :: t.takeWhile p) ++ t.dropWhile p := by
    rw [List.cons_append, List.takeWhile_append_dropWhile]
  unfold read
  split
  · rename_i hc
    have hdigits := isDigits_takeWhile t hc
    have hcut := cut Char.isDigit
    have hr : ∀ d, (t.dropWhile Char.isDigit).head? = some d → d.isDigit = false :=
      fun d hd => Text.head?_dropWhile hd
    dsimp only
    split
    · rename_i rest e
      rw [e] at hcut hr
      split
      · rename_i hv
        exact ⟨_, by rw [hcut]; simp, .count hdigits hv⟩
      · rename_i hv
        exact ⟨_, hcut, .digits hdigits hr fun _ => by omega⟩
    · rename_i hne
      refine ⟨_, hcut, .digits hdigits hr fun h => ?_⟩
      obtain ⟨rest, e⟩ : ∃ rest, t.dropWhile Char.isDigit = '$' :: rest := by
        cases hd : t.dropWhile Char.isDigit with
        | nil => rw [hd] at h; simp at h
        | cons d rest => rw [hd] at h; exact ⟨rest, by simpa using h⟩
      exact absurd e (hne rest)
  · split
    · rename_i hd hc
      exact ⟨_, cut isWordChar, .name hc (by simpa using hd) (fun _ => List.mem_takeWhile_imp)
        fun _ => Text.head?_dropWhile⟩
    · rename_i hc
      refine ⟨_, cut (!isWordChar ·), .other (by simpa using hc) (fun d hd => ?_) fun d hd => ?_⟩
      · simpa using List.mem_takeWhile_imp hd
      · simpa using Text.head?_dropWhile hd

theorem exists_leads {t : Text} (h : t ≠ []) :
    ∃ s rest piece, t = s ++ rest ∧ Leads s rest piece := by
  obtain ⟨c, t, rfl⟩ := List.exists_cons_of_ne_nil h
  obtain ⟨s, e, hs⟩ := leads_read c t
  exact ⟨s, _, _, e, hs⟩

theorem Leads.ne_nil {s rest : Text} {piece : SpecPiece} (h : Leads s rest piece) : s ≠ [] := by
  cases h with
  | count => simp
  | digits h => exact h.1
  | name => simp
  | other => simp

private theorem read_eq {c : Char} {s rest : Text} {piece : SpecPiece}
    (h : Leads (c :: s) rest piece) : read c (s ++ rest) = (piece, rest) := by
  have digitRun {digits tail : Text} (hd : IsDigits (c :: digits))
      (hr : ∀ d, tail.head? = some d → d.isDigit = false) :
      (digits ++ tail).takeWhile Char.isDigit = digits ∧
        (digits ++ tail).dropWhile Char.isDigit = tail :=
    have hs : ∀ d ∈ digits, d.isDigit = true := fun d hm => hd.2 d (List.mem_cons_of_mem _ hm)
    ⟨Text.takeWhile_run hs hr, Text.dropWhile_run hs hr⟩
  generalize e : c :: s = source at h
  cases h with
  | @count digits _ hd hv =>
    obtain ⟨d, digits, rfl⟩ := List.exists_cons_of_ne_nil hd.1
    obtain ⟨rfl, rfl⟩ : c = d ∧ s = digits ++ ['$'] := by simpa using e
    obtain ⟨ht, hw⟩ := digitRun hd
      (by simp : ∀ d, ('$' :: rest).head? = some d → d.isDigit = false)
    rw [read, if_pos (hd.2 c (by simp)), List.append_assoc, List.singleton_append]
    dsimp only
    rw [hw, ht]
    simp [hv]
  | digits hd hr hv =>
    subst e
    obtain ⟨ht, hw⟩ := digitRun hd hr
    rw [read, if_pos (hd.2 c (by simp))]
    dsimp only
    rw [hw, ht]
    split
    · have := hv (by simp)
      rw [if_neg (by omega)]
    · rfl
  | name hc hd ht hr =>
    obtain ⟨rfl, rfl⟩ := List.cons.inj e
    rw [read, if_neg (by simp [hd]), if_pos hc, Text.takeWhile_run ht hr, Text.dropWhile_run ht hr]
  | other hc ht hr =>
    obtain ⟨rfl, rfl⟩ := List.cons.inj e
    have hd : ¬ c.isDigit = true := fun hd => by simp [Text.isWordChar_of_isDigit hd] at hc
    have ht' : ∀ d ∈ s, (!isWordChar d) = true := fun d hm => by simp [ht d hm]
    have hr' : ∀ d, rest.head? = some d → (!isWordChar d) = false := fun d hm => by simp [hr d hm]
    rw [read, if_neg hd, if_neg (by simp [hc]), Text.takeWhile_run ht' hr',
      Text.dropWhile_run ht' hr']

theorem Leads.specPieces_eq {s rest : Text} {piece : SpecPiece} (h : Leads s rest piece) :
    specPieces (s ++ rest) = piece :: specPieces rest := by
  obtain ⟨c, s, rfl⟩ := List.exists_cons_of_ne_nil h.ne_nil
  rw [List.cons_append, specPieces, read_eq h]

/-- A character that is in no word makes a piece by itself, or joins the first one, which has
no word character either. -/
theorem leads_cons_other {c : Char} (t : Text) (hc : isWordChar c = false) :
    Leads [c] t (.literal [c]) ∨
      ∃ d s rest, isWordChar d = false ∧ t = d :: s ++ rest ∧
        Leads (d :: s) rest (.literal (d :: s)) ∧
          Leads (c :: d :: s) rest (.literal (c :: d :: s)) := by
  have alone (hr : ∀ d, t.head? = some d → isWordChar d = true) : Leads [c] t (.literal [c]) :=
    .other hc (by simp) hr
  by_cases ht : t = []
  · exact .inl (alone (by simp [ht]))
  · obtain ⟨s, rest, piece, rfl, h⟩ := exists_leads ht
    have digits {d : Char} {ds : Text} (hd : IsDigits (d :: ds)) : isWordChar d = true :=
      Text.isWordChar_of_isDigit (hd.2 d List.mem_cons_self)
    cases h with
    | count hd =>
      obtain ⟨d, ds, rfl⟩ := List.exists_cons_of_ne_nil hd.1
      exact .inl (alone (by simp [digits hd]))
    | digits hd =>
      obtain ⟨d, ds, rfl⟩ := List.exists_cons_of_ne_nil hd.1
      exact .inl (alone (by simp [digits hd]))
    | name hd => exact .inl (alone (by simp [hd]))
    | @other d s _ hd hs hr =>
      exact .inr ⟨d, s, rest, hd, rfl, .other hd hs hr, .other hc (by simpa [hd] using hs) hr⟩

@[simp] theorem specPieces_nil : specPieces [] = [] := by rw [specPieces]

/-- Induction over the pieces of a spec. -/
theorem pieces_induction {motive : Text → Prop} (nil : motive [])
    (cons : ∀ s rest piece, Leads s rest piece → motive rest → motive (s ++ rest)) (t : Text) :
    motive t := by
  by_cases ht : t = []
  · rw [ht]
    exact nil
  · obtain ⟨s, rest, piece, e, h⟩ := exists_leads ht
    have hs := List.length_pos_iff.2 h.ne_nil
    have : rest.length < t.length := by rw [e, List.length_append]; omega
    rw [e]
    exact cons s rest piece h (pieces_induction nil cons rest)
termination_by t.length

end TextTransforms.SpecPiece
