import TextTransforms.Calculator.Line
import TextTransforms.Proofs.Text.Runs

/-!
# Flipping between what is no word

A text without word characters (`IsGap`) is kept as it is by flipping, and no boolean word is
made or lost next to it. So a text between two such texts has a boolean word exactly if it has
one by itself, and flips as it does by itself (`hasBoolean_between`, `flipBooleans_between`).
-/

namespace TextTransforms.Calculator

/-- No character of the text is part of a word. -/
def IsGap (t : Text) : Prop := ∀ c ∈ t, Text.isWordChar c = false

section Gap

variable {s t u : Text} {c : Char}

theorem IsGap.head (h : IsGap (c :: t)) : Text.isWordChar c = false := h c List.mem_cons_self

theorem IsGap.tail (h : IsGap (c :: t)) : IsGap t := fun d hd => h d (List.mem_cons_of_mem c hd)

theorem IsGap.of_head? (h : IsGap t) (hc : t.head? = some c) : Text.isWordChar c = false :=
  h c (List.mem_of_mem_head? hc)

theorem any_head?_append (hu : ∀ c, u.head? = some c → Text.isWordChar c = false) :
    (t ++ u).head?.any Text.isWordChar = t.head?.any Text.isWordChar := by
  cases t with
  | cons => rfl
  | nil =>
    cases u with
    | nil => rfl
    | cons c u => exact hu c rfl

/-! ## A word at the start -/

private theorem findSome?_congr {α β : Type} {f g : α → Option β} {l : List α}
    (h : ∀ a ∈ l, f a = g a) : l.findSome? f = l.findSome? g := by
  induction l with
  | nil => rfl
  | cons a l ih =>
    obtain ⟨ha, hl⟩ := List.forall_mem_cons.1 h
    rw [List.findSome?_cons, List.findSome?_cons, ha, ih hl]

/-- No boolean word reaches into a text that does not start with a word character. -/
theorem booleanAt?_append (hu : ∀ c, u.head? = some c → Text.isWordChar c = false) :
    booleanAt? (t ++ u) = (booleanAt? t).map fun b => { b with rest := b.rest ++ u } := by
  have words : ∀ p ∈ booleans, p.1.all Text.isWordChar = true := by decide
  unfold booleanAt?
  rw [List.map_findSome?]
  refine findSome?_congr fun p hp => ?_
  have hprefix : p.1.isPrefixOf? (t ++ u) = (p.1.isPrefixOf? t).map (· ++ u) := by
    refine Text.isPrefixOf?_append fun c v hw hhead => ?_
    have hc : Text.isWordChar c = true := List.all_eq_true.1 (words p hp) c (by simp [hw])
    rw [hu c hhead] at hc
    simp at hc
  simp only [Function.comp, hprefix]
  cases p.1.isPrefixOf? t with
  | none => rfl
  | some rest =>
    simp only [Option.map_some, any_head?_append hu]
    split <;> rfl

theorem booleanAt?_append_gap (hu : IsGap u) :
    booleanAt? (t ++ u) = (booleanAt? t).map fun b => { b with rest := b.rest ++ u } :=
  booleanAt?_append fun _ => hu.of_head?

theorem booleanAt?_eq_none (h : c ∉ ['t', 'f', 'T', 'F']) : booleanAt? (c :: t) = none := by
  cases hb : booleanAt? (c :: t) with
  | none => rfl
  | some b =>
    have heads : ∀ p ∈ booleans, p.1.head? ∈ ['t', 'f', 'T', 'F'].map some := by decide
    obtain ⟨ht, hm⟩ := booleanAt?_eq hb
    obtain ⟨d, hd, hw⟩ := List.mem_map.1 (heads _ hm)
    have hc : (c :: t).head? = some d := by
      rw [ht, List.head?_append, ← hw, Option.some_or]
    exact absurd (Option.some.inj hc ▸ hd) h

theorem booleanAt?_gap (h : Text.isWordChar c = false) : booleanAt? (c :: t) = none := by
  refine booleanAt?_eq_none fun hm => ?_
  have words : ['t', 'f', 'T', 'F'].all Text.isWordChar = true := by decide
  rw [List.all_eq_true.1 words c hm] at h
  exact nomatch h

/-! ## Whether a word is there -/

theorem hasBooleanFrom_gap_append (hs : IsGap s) :
    hasBooleanFrom false (s ++ t) = hasBooleanFrom false t := by
  induction s with
  | nil => rfl
  | cons c s ih =>
    rw [List.cons_append, hasBooleanFrom, booleanAt?_gap hs.head, hs.head, ih hs.tail]
    rfl

theorem hasBooleanFrom_gap (inWord : Bool) (hu : IsGap u) : hasBooleanFrom inWord u = false := by
  induction u generalizing inWord with
  | nil => rfl
  | cons c u ih =>
    rw [hasBooleanFrom, booleanAt?_gap hu.head, ih _ hu.tail]
    simp

theorem hasBooleanFrom_append_gap (inWord : Bool) (hu : IsGap u) :
    hasBooleanFrom inWord (t ++ u) = hasBooleanFrom inWord t := by
  induction t generalizing inWord with
  | nil => exact hasBooleanFrom_gap inWord hu
  | cons c t ih =>
    rw [List.cons_append, hasBooleanFrom, hasBooleanFrom, ih, ← List.cons_append,
      booleanAt?_append_gap hu, Option.isSome_map]

/-! ## Flipping -/

theorem flipFrom_word {b : BooleanWord} (h : booleanAt? (c :: t) = some b) :
    flipFrom false (c :: t) = b.opposite ++ flipFrom true b.rest := by
  rw [flipFrom, if_neg Bool.false_ne_true]
  split
  · rename_i b' hb
    rw [h] at hb
    rw [Option.some.inj hb]
  · rename_i hb
    simp [h] at hb

theorem flipFrom_other {inWord : Bool} (h : inWord = true ∨ booleanAt? (c :: t) = none) :
    flipFrom inWord (c :: t) = c :: flipFrom (Text.isWordChar c) t := by
  rw [flipFrom]
  split
  · rfl
  · rename_i hw
    have hnone := h.resolve_left hw
    split
    · rename_i b hb
      simp [hnone] at hb
    · rfl

theorem flipFrom_gap_append (hs : IsGap s) :
    flipFrom false (s ++ t) = s ++ flipFrom false t := by
  induction s with
  | nil => rfl
  | cons c s ih =>
    rw [List.cons_append, flipFrom_other (.inr (booleanAt?_gap hs.head)), hs.head, ih hs.tail,
      List.cons_append]

theorem flipFrom_gap (inWord : Bool) (hu : IsGap u) : flipFrom inWord u = u := by
  induction u generalizing inWord with
  | nil => rw [flipFrom]
  | cons c u ih => rw [flipFrom_other (.inr (booleanAt?_gap hu.head)), ih _ hu.tail]

theorem flipFrom_append_gap (inWord : Bool) (hu : IsGap u) :
    flipFrom inWord (t ++ u) = flipFrom inWord t ++ u := by
  -- The rest behind a word is shorter, but no tail: the induction follows the flipping.
  fun_induction flipFrom inWord t with
  | case1 inWord => exact flipFrom_gap inWord hu
  | case2 c t ih => rw [List.cons_append, flipFrom_other (.inl rfl), ih, List.cons_append]
  | case3 inWord c t hw b hb _ ih =>
    have hword : booleanAt? (c :: (t ++ u)) = some { b with rest := b.rest ++ u } := by
      rw [← List.cons_append, booleanAt?_append_gap hu, hb, Option.map_some]
    rw [Bool.eq_false_iff.2 hw, List.cons_append, flipFrom_word hword, ih, List.append_assoc]
  | case4 inWord c t hw hb ih =>
    have hword : booleanAt? (c :: (t ++ u)) = none := by
      rw [← List.cons_append, booleanAt?_append_gap hu, hb, Option.map_none]
    rw [List.cons_append, flipFrom_other (.inr hword), ih, List.cons_append]

/-! ## Between gaps -/

theorem hasBoolean_between (hs : IsGap s) (hu : IsGap u) :
    hasBoolean (s ++ t ++ u) = hasBoolean t := by
  rw [hasBoolean, hasBooleanFrom_append_gap false hu, hasBooleanFrom_gap_append hs, hasBoolean]

theorem flipBooleans_between (hs : IsGap s) (hu : IsGap u) :
    flipBooleans (s ++ t ++ u) = s ++ flipBooleans t ++ u := by
  rw [flipBooleans, flipFrom_append_gap false hu, flipFrom_gap_append hs, flipBooleans]

end Gap

end TextTransforms.Calculator
