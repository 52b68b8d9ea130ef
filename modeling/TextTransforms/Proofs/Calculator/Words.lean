import TextTransforms.Proofs.Calculator.Flips
import TextTransforms.Proofs.Text.RunMap

/-!
# Boolean words as runs

A boolean word is found where a longest run of word characters is one (`booleanAt?_eq_some_iff`).
Which words these are, and what stands for each of them, is stated by `opposite`, apart from the
table of the readers (`opposite_of_mem`, `opposite_of_notMem`). So flipping rewrites such runs and
nothing else (`flipFrom_eq_mapRuns`), the search for a boolean word goes through the same runs
(`hasBooleanFrom_iff`), and a second flip undoes the first one (`flipBooleans_words`).
-/

namespace TextTransforms.Calculator

open Text (isWordChar runs mapRuns IsRun)

/-! ## The word at the start of a text -/

section Start

variable {t u w : Text} {b b' : BooleanWord}

/-- The text starts with the boolean word, and the word ends there. -/
structure BooleanWord.Starts (b : BooleanWord) (t : Text) : Prop where
  source_eq : t = b.word ++ b.rest
  mem : (b.word, b.opposite) ∈ booleans
  ends : ∀ c, b.rest.head? = some c → isWordChar c = false

theorem isRun_of_mem_booleans {p : Text × Text} (h : p ∈ booleans) :
    IsRun isWordChar p.1 ∧ IsRun isWordChar p.2 := by
  have words : ∀ p ∈ booleans, Text.isWord p.1 = true ∧ Text.isWord p.2 = true := by decide
  exact ⟨Text.isWord_iff.1 (words p h).1, Text.isWord_iff.1 (words p h).2⟩

theorem swap_mem_booleans {p : Text × Text} (h : p ∈ booleans) : p.swap ∈ booleans := by
  have swaps : ∀ p ∈ booleans, p.swap ∈ booleans := by decide
  exact swaps p h

theorem BooleanWord.Starts.isRun (h : b.Starts t) : IsRun isWordChar b.word :=
  (isRun_of_mem_booleans h.mem).1

theorem BooleanWord.Starts.unique (h : b.Starts t) (h' : b'.Starts t) : b = b' := by
  have opposites : ∀ p ∈ booleans, ∀ q ∈ booleans, p.1 = q.1 → p.2 = q.2 := by decide
  obtain ⟨hword, hrest⟩ := Text.run_append_inj (h.source_eq.symm.trans h'.source_eq) h.isRun.2
    h'.isRun.2 h.ends h'.ends
  have hopposite := opposites _ h.mem _ h'.mem hword
  cases b
  cases b'
  cases hword
  cases hrest
  cases hopposite
  rfl

theorem starts_of_booleanAt? (h : booleanAt? t = some b) : b.Starts t := by
  obtain ⟨hsource, hmem⟩ := booleanAt?_eq h
  refine ⟨hsource, hmem, ?_⟩
  obtain ⟨p, -, hp⟩ := List.exists_of_findSome?_eq_some h
  dsimp only at hp
  split at hp
  · split at hp
    · simp at hp
    · rename_i rest _ hends
      obtain rfl : _ = b := by simpa using hp
      exact (Option.any_eq_false ..).1 (Bool.eq_false_iff.2 hends)
  · simp at hp

theorem BooleanWord.Starts.isSome (h : b.Starts t) : (booleanAt? t).isSome = true := by
  have hword : b.word.isPrefixOf? t = some b.rest :=
    List.isPrefixOf?_eq_some_iff_append_eq.2 h.source_eq.symm
  have hends : b.rest.head?.any isWordChar = false := (Option.any_eq_false ..).2 h.ends
  refine List.findSome?_isSome_iff.2 ⟨_, h.mem, ?_⟩
  simp only [hword, hends]
  rfl

theorem booleanAt?_eq_some_iff : booleanAt? t = some b ↔ b.Starts t := by
  refine ⟨starts_of_booleanAt?, fun h => ?_⟩
  obtain ⟨b', hb'⟩ := Option.isSome_iff_exists.1 h.isSome
  rw [hb', (starts_of_booleanAt? hb').unique h]

/-- In front of a text that does not go on with it, a run is found if it is a boolean word. -/
theorem booleanAt?_eq_none_of_run (hw : IsRun isWordChar w)
    (ht : ∀ c, t.head? = some c → isWordChar c = false) (h : w ∉ booleans.map Prod.fst) :
    booleanAt? (w ++ t) = none := by
  cases hb : booleanAt? (w ++ t) with
  | none => rfl
  | some b =>
    have hstarts := starts_of_booleanAt? hb
    obtain ⟨rfl, -⟩ := Text.run_append_inj hstarts.source_eq hw.2 hstarts.isRun.2 ht hstarts.ends
    exact absurd (List.mem_map.2 ⟨_, hstarts.mem, rfl⟩) h

end Start

/-! ## Flipping run by run -/

/-- The opposite of a boolean word in the same case; every other word stands for itself. -/
def opposite (w : Text) : Text :=
  if w = "true".toList then "false".toList
  else if w = "false".toList then "true".toList
  else if w = "True".toList then "False".toList
  else if w = "False".toList then "True".toList
  else w

section Opposite

variable {w : Text}

theorem opposite_of_mem {p : Text × Text} (h : p ∈ booleans) : opposite p.1 = p.2 := by
  have opposites : ∀ p ∈ booleans, opposite p.1 = p.2 := by decide
  exact opposites p h

theorem opposite_of_notMem (h : w ∉ booleans.map Prod.fst) : opposite w = w := by
  simp only [booleans, List.map_cons, List.map_nil, List.mem_cons, List.not_mem_nil, or_false,
    not_or] at h
  obtain ⟨htrue, hfalse, hTrue, hFalse⟩ := h
  rw [opposite, if_neg htrue, if_neg hfalse, if_neg hTrue, if_neg hFalse]

theorem isRun_opposite (h : IsRun isWordChar w) : IsRun isWordChar (opposite w) := by
  by_cases hw : w ∈ booleans.map Prod.fst
  · obtain ⟨p, hp, rfl⟩ := List.mem_map.1 hw
    rw [opposite_of_mem hp]
    exact (isRun_of_mem_booleans hp).2
  · rwa [opposite_of_notMem hw]

theorem opposite_opposite (w : Text) : opposite (opposite w) = w := by
  by_cases hw : w ∈ booleans.map Prod.fst
  · obtain ⟨p, hp, rfl⟩ := List.mem_map.1 hw
    rw [opposite_of_mem hp]
    exact opposite_of_mem (swap_mem_booleans hp)
  · rw [opposite_of_notMem hw, opposite_of_notMem hw]

theorem opposite_eq_self_iff : opposite w = w ↔ w ∉ booleans.map Prod.fst := by
  refine ⟨fun h hw => ?_, opposite_of_notMem⟩
  have differ : ∀ p ∈ booleans, p.2 ≠ p.1 := by decide
  obtain ⟨p, hp, rfl⟩ := List.mem_map.1 hw
  exact differ p hp ((opposite_of_mem hp).symm.trans h)

end Opposite

section Runs

variable {s t w : Text} {inWord : Bool}

/-- In front of what is no word, it does not matter whether a word ends there. -/
theorem flipFrom_of_stop (ht : ∀ c, t.head? = some c → isWordChar c = false) :
    flipFrom inWord t = flipFrom false t := by
  cases t with
  | nil => rw [flipFrom, flipFrom]
  | cons c t =>
    have hnone : booleanAt? (c :: t) = none := booleanAt?_gap (ht c rfl)
    rw [flipFrom_other (.inr hnone), flipFrom_other (.inr hnone)]

theorem flipFrom_inWord (hs : ∀ c ∈ s, isWordChar c = true)
    (ht : ∀ c, t.head? = some c → isWordChar c = false) :
    flipFrom true (s ++ t) = s ++ flipFrom false t := by
  induction s with
  | nil => exact flipFrom_of_stop ht
  | cons c s ih =>
    obtain ⟨hc, hs⟩ := List.forall_mem_cons.1 hs
    rw [List.cons_append, flipFrom_other (.inl rfl), hc, ih hs, List.cons_append]

theorem flipFrom_run (hw : IsRun isWordChar w)
    (ht : ∀ c, t.head? = some c → isWordChar c = false) :
    flipFrom false (w ++ t) = opposite w ++ flipFrom false t := by
  obtain ⟨c, s, rfl, hc⟩ := hw.exists_cons
  by_cases hb : c :: s ∈ booleans.map Prod.fst
  · obtain ⟨p, hp, hword⟩ := List.mem_map.1 hb
    have hstart : booleanAt? (c :: (s ++ t)) = some ⟨p.1, p.2, t⟩ :=
      booleanAt?_eq_some_iff.2 ⟨by rw [hword, List.cons_append], hp, ht⟩
    rw [← hword, opposite_of_mem hp, hword, List.cons_append, flipFrom_word hstart,
      flipFrom_of_stop ht]
  · have hnone : booleanAt? (c :: (s ++ t)) = none := booleanAt?_eq_none_of_run hw ht hb
    rw [opposite_of_notMem hb, List.cons_append, flipFrom_other (.inr hnone), hc,
      flipFrom_inWord (fun d hd => hw.2 d (List.mem_cons_of_mem c hd)) ht, List.cons_append]

theorem flipFrom_eq_mapRuns (t : Text) : flipFrom false t = mapRuns isWordChar opposite t := by
  induction t using Text.run_induction isWordChar with
  | nil => rw [flipFrom, Text.mapRuns_nil]
  | other c t hc ih =>
    rw [flipFrom_other (.inr (booleanAt?_gap hc)), Text.mapRuns_cons hc, hc, ih]
  | run w t hw ht ih => rw [flipFrom_run hw ht, Text.mapRuns_append hw ht, ih]

/-! ## Searching run by run -/

theorem hasBooleanFrom_of_stop (ht : ∀ c, t.head? = some c → isWordChar c = false) :
    hasBooleanFrom inWord t = hasBooleanFrom false t := by
  cases t with
  | nil => rfl
  | cons c t => simp [hasBooleanFrom, booleanAt?_gap (ht c rfl)]

theorem hasBooleanFrom_inWord (hs : ∀ c ∈ s, isWordChar c = true)
    (ht : ∀ c, t.head? = some c → isWordChar c = false) :
    hasBooleanFrom true (s ++ t) = hasBooleanFrom false t := by
  induction s with
  | nil => exact hasBooleanFrom_of_stop ht
  | cons c s ih =>
    obtain ⟨hc, hs⟩ := List.forall_mem_cons.1 hs
    rw [List.cons_append, hasBooleanFrom, hc, ih hs]
    rfl

theorem hasBooleanFrom_run (hw : IsRun isWordChar w)
    (ht : ∀ c, t.head? = some c → isWordChar c = false) :
    hasBooleanFrom false (w ++ t) = true ↔
      w ∈ booleans.map Prod.fst ∨ hasBooleanFrom false t = true := by
  have hstart : (booleanAt? (w ++ t)).isSome = true ↔ w ∈ booleans.map Prod.fst := by
    constructor
    · intro h
      by_contra hnot
      rw [booleanAt?_eq_none_of_run hw ht hnot] at h
      exact nomatch h
    · intro hb
      obtain ⟨p, hp, rfl⟩ := List.mem_map.1 hb
      exact BooleanWord.Starts.isSome (b := ⟨p.1, p.2, t⟩) ⟨rfl, hp, ht⟩
  obtain ⟨c, s, rfl, hc⟩ := hw.exists_cons
  rw [List.cons_append, hasBooleanFrom, hc,
    hasBooleanFrom_inWord (fun d hd => hw.2 d (List.mem_cons_of_mem c hd)) ht, ← hstart]
  simp

theorem hasBooleanFrom_iff (t : Text) :
    hasBooleanFrom false t = true ↔ ∃ w ∈ runs isWordChar t, w ∈ booleans.map Prod.fst := by
  induction t using Text.run_induction isWordChar with
  | nil => simp [hasBooleanFrom, runs]
  | other c t hc ih =>
    have hnot : [c] ∉ booleans.map Prod.fst := by
      intro hb
      obtain ⟨p, hp, hword⟩ := List.mem_map.1 hb
      have hin := (isRun_of_mem_booleans hp).1.2 c (by rw [hword]; exact List.mem_cons_self)
      exact absurd (hc.symm.trans hin) Bool.false_ne_true
    rw [Text.runs_cons hc, List.exists_mem_cons_iff, ← ih, hasBooleanFrom, booleanAt?_gap hc, hc]
    simp [hnot]
  | run w t hw ht ih => rw [hasBooleanFrom_run hw ht, Text.runs_append hw ht, ih]; simp

end Runs

/-- Flipping replaces each longest run of word characters that is a boolean word by the opposite
of it and keeps everything else; so it is its own inverse, and changes exactly the texts in
which a boolean word is found. -/
theorem flipBooleans_words (t : Text) :
    flipBooleans t = mapRuns isWordChar opposite t ∧
    flipBooleans (flipBooleans t) = t ∧
    (flipBooleans t ≠ t ↔ hasBoolean t = true) := by
  have hflip (t : Text) : flipBooleans t = mapRuns isWordChar opposite t := flipFrom_eq_mapRuns t
  refine ⟨hflip t, ?_, ?_⟩
  · rw [hflip, hflip, Text.mapRuns_mapRuns fun _ => isRun_opposite]
    simp only [opposite_opposite, Text.mapRuns_self]
  · rw [hflip, ne_eq, Text.mapRuns_eq_self_iff fun _ => isRun_opposite, hasBoolean,
      hasBooleanFrom_iff]
    simp only [not_forall]
    constructor
    · rintro ⟨w, hm, hw, hne⟩
      exact ⟨w, hm, by_contra fun h => hne (opposite_eq_self_iff.2 h)⟩
    · rintro ⟨w, hm, hb⟩
      obtain ⟨p, hp, rfl⟩ := List.mem_map.1 hb
      exact ⟨_, hm, (isRun_of_mem_booleans hp).1, fun h => opposite_eq_self_iff.1 h hb⟩

/-- Each of the four words is flipped next to a character of two bytes, a bracket, a sign or a
line feed; a word beside a letter, a digit or `_`, or one in capitals, is kept. -/
theorem flipBooleans_words_cases :
    let t := "étrue(False)é true_\nfalse-True TRUE".toList
    let flipped := "éfalse(True)é true_\ntrue-False TRUE".toList
    let kept := "true_ True1 _false xfalse TRUE".toList
    flipBooleans t = flipped ∧ flipBooleans flipped = t ∧ hasBoolean t = true ∧
      flipBooleans kept = kept ∧ hasBoolean kept = false := by
  intro t flipped kept
  obtain ⟨hflip, htwice, hfound⟩ := flipBooleans_words t
  obtain ⟨hkeep, -, hnone⟩ := flipBooleans_words kept
  have hruns : mapRuns isWordChar opposite t = flipped := by decide
  have hsame : mapRuns isWordChar opposite kept = kept := by decide
  have hdiffers : flipped ≠ t := by decide
  rw [hruns] at hflip
  rw [hsame] at hkeep
  rw [hflip] at htwice hfound
  exact ⟨hflip, htwice, hfound.1 hdiffers, hkeep,
    Bool.eq_false_iff.2 fun h => hnone.2 h hkeep⟩

end TextTransforms.Calculator
