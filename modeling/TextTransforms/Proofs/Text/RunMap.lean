import Mathlib.Data.List.SplitBy
import TextTransforms.Proofs.Text.Runs

/-!
# Rewriting the runs of a text

A text is cut into its longest runs of characters of one class and the other characters, each
of them by itself (`runs`). A function on runs rewrites all of them and keeps the rest
(`mapRuns`). If it makes runs of runs, two such rewritings are one (`mapRuns_mapRuns`), and the
text is unchanged exactly if every run is (`mapRuns_eq_self_iff`). What holds of texts is shown
run by run (`run_induction`).
-/

namespace TextTransforms.Text

variable {p : Char → Bool} {f g : Text → Text} {s t : Text} {c : Char}

/-- The longest runs of characters of a class, and every other character by itself. -/
def runs (p : Char → Bool) (t : Text) : List Text := t.splitBy fun c d => p c && p d

/-- Rewrites every run and keeps the other characters where they are. -/
def mapRuns (p : Char → Bool) (f : Text → Text) (t : Text) : Text :=
  (runs p t).flatMap fun s => if s.all p then f s else s

/-- Characters of a class, at least one. -/
def IsRun (p : Char → Bool) (s : Text) : Prop := s ≠ [] ∧ ∀ c ∈ s, p c = true

theorem IsRun.exists_cons (h : IsRun p s) : ∃ c s', s = c :: s' ∧ p c = true := by
  obtain ⟨c, s', rfl⟩ := List.exists_cons_of_ne_nil h.1
  exact ⟨c, s', rfl, h.2 c List.mem_cons_self⟩

/-! ## Run by run -/

theorem runs_cons (hc : p c = false) : runs p (c :: t) = [c] :: runs p t := by
  have hcut : ∀ x ∈ [c].getLast?, ∀ y ∈ t.head?, (p x && p y) = false := by simp [hc]
  exact List.splitBy_append hcut

theorem runs_append (hs : IsRun p s) (ht : ∀ c, t.head? = some c → p c = false) :
    runs p (s ++ t) = s :: runs p t := by
  have hcut : ∀ x ∈ s.getLast?, ∀ y ∈ t.head?, (p x && p y) = false :=
    fun x _ y hy => by rw [ht y hy, Bool.and_false]
  have hchain : s.IsChain fun x y => (p x && p y) = true := by
    refine List.Pairwise.isChain (List.pairwise_of_forall_mem_list fun x hx y hy => ?_)
    rw [hs.2 x hx, hs.2 y hy]
    rfl
  rw [runs, List.splitBy_append hcut, List.splitBy_of_isChain hs.1 hchain]
  rfl

theorem mapRuns_nil : mapRuns p f [] = [] := rfl

theorem mapRuns_cons (hc : p c = false) : mapRuns p f (c :: t) = c :: mapRuns p f t := by
  rw [mapRuns, runs_cons hc, List.flatMap_cons]
  simp [hc, mapRuns]

theorem mapRuns_append (hs : IsRun p s) (ht : ∀ c, t.head? = some c → p c = false) :
    mapRuns p f (s ++ t) = f s ++ mapRuns p f t := by
  have hall : s.all p = true := List.all_eq_true.2 hs.2
  rw [mapRuns, runs_append hs ht, List.flatMap_cons, if_pos hall, mapRuns]

/-- A text is empty, or it starts with a character of another class, or with a run. -/
theorem run_induction (p : Char → Bool) {motive : Text → Prop} (nil : motive [])
    (other : ∀ c t, p c = false → motive t → motive (c :: t))
    (run : ∀ s t, IsRun p s → (∀ c, t.head? = some c → p c = false) → motive t → motive (s ++ t))
    (t : Text) : motive t := by
  induction hn : t.length using Nat.strongRecOn generalizing t with
  | ind n ih =>
    subst hn
    cases t with
    | nil => exact nil
    | cons c t =>
      cases hc : p c with
      | false => exact other c t hc (ih _ (Nat.lt_succ_self _) t rfl)
      | true =>
        have hrun : IsRun p (c :: t.takeWhile p) := by
          refine ⟨List.cons_ne_nil _ _, fun d hd => ?_⟩
          rcases List.mem_cons.1 hd with rfl | hd
          · exact hc
          · exact List.mem_takeWhile_imp hd
        have hrest := ih _ (Nat.lt_succ_of_le (length_dropWhile_le p t)) (t.dropWhile p) rfl
        have := run _ _ hrun (fun _ => head?_dropWhile) hrest
        rwa [List.cons_append, List.takeWhile_append_dropWhile] at this

/-! ## Rewriting twice -/

theorem mapRuns_self : mapRuns p (fun s => s) t = t := by
  induction t using run_induction p with
  | nil => rfl
  | other c t hc ih => rw [mapRuns_cons hc, ih]
  | run s t hs ht ih => rw [mapRuns_append hs ht, ih]

/-- Rewriting does not make a run where none stood. -/
theorem head?_mapRuns (ht : ∀ c, t.head? = some c → p c = false) :
    ∀ c, (mapRuns p f t).head? = some c → p c = false := by
  cases t with
  | nil => exact ht
  | cons d t =>
    rw [mapRuns_cons (ht d rfl)]
    exact ht

theorem mapRuns_mapRuns (hf : ∀ s, IsRun p s → IsRun p (f s)) :
    mapRuns p g (mapRuns p f t) = mapRuns p (fun s => g (f s)) t := by
  induction t using run_induction p with
  | nil => rfl
  | other c t hc ih => rw [mapRuns_cons hc, mapRuns_cons hc, mapRuns_cons hc, ih]
  | run s t hs ht ih =>
    rw [mapRuns_append hs ht, mapRuns_append (hf s hs) (head?_mapRuns ht), mapRuns_append hs ht,
      ih]

theorem mapRuns_eq_self_iff (hf : ∀ s, IsRun p s → IsRun p (f s)) :
    mapRuns p f t = t ↔ ∀ s ∈ runs p t, IsRun p s → f s = s := by
  induction t using run_induction p with
  | nil => simp [mapRuns_nil, runs]
  | other c t hc ih =>
    have hnot : ¬ IsRun p [c] := fun h => by simpa [hc] using h.2 c List.mem_cons_self
    rw [mapRuns_cons hc, runs_cons hc, List.cons_inj_right, ih, List.forall_mem_cons]
    exact (and_iff_right fun h => absurd h hnot).symm
  | run s t hs ht ih =>
    rw [mapRuns_append hs ht, runs_append hs ht, List.forall_mem_cons, ← ih]
    constructor
    · intro h
      obtain ⟨he, hrest⟩ := run_append_inj h (hf s hs).2 hs.2 (head?_mapRuns ht) ht
      exact ⟨fun _ => he, hrest⟩
    · rintro ⟨he, hrest⟩
      rw [he hs, hrest]

end TextTransforms.Text
