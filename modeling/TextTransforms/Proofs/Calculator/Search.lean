import TextTransforms.Proofs.Call.Search
import TextTransforms.Proofs.Calculator.Longest

/-!
# The search on a line

The span that is found is the first one that does not start within a word: one starts there, and
none starts further left (`exists_foundBehind`, `spanFrom?_of_foundBehind`). Next to it, the two
things that decide whether it comes to that: where the search starts (`searchRegion_append`), and
that no quoted span is there, which does not depend on what is written for a part without quotes
(`quotedSpan?_exchange`).
-/

namespace TextTransforms.Calculator

open Call (EndsOutside endsOutside_cons)

/-! ## The first span -/

section First

variable {inWord : Bool} {s t u v : Text} {l : Located}

theorem endsOutside_append (hs : u = [] → EndsOutside inWord s) (hu : EndsOutside false u) :
    EndsOutside inWord (s ++ u) := by
  rw [EndsOutside, List.getLast?_append]
  cases hlast : u.getLast? with
  | none => exact hs (List.getLast?_eq_none_iff.1 hlast)
  | some c => simpa [EndsOutside, hlast] using hu

theorem endsOutside_of_append (h : EndsOutside inWord (s ++ u)) : EndsOutside false u := by
  rw [EndsOutside, List.getLast?_append] at h
  cases hlast : u.getLast? with
  | none => simp [EndsOutside, hlast]
  | some c => simpa [EndsOutside, hlast] using h

theorem spanAt?_eq_none_iff :
    spanAt? t = none ↔ booleanAt? t = none ∧ Expr.parseStart? t = none := by
  unfold spanAt?
  cases booleanAt? t <;> simp

theorem spanAt?_of_booleanAt? {b : BooleanWord} (h : booleanAt? t = some b) :
    spanAt? t = some ⟨[], b.word, b.word, b.rest⟩ := by
  rw [spanAt?, h]

theorem spanAt?_nil : spanAt? [] = none := by
  refine spanAt?_eq_none_iff.2 ⟨rfl, ?_⟩
  cases h : Expr.parseStart? [] with
  | none => rfl
  | some r => exact absurd (Expr.length_lt_of_level? h) (Nat.not_lt_zero _)

/-- A span starts behind `s`, where no word goes on, and none starts further left. -/
structure FoundBehind (inWord : Bool) (s v : Text) (l : Located) : Prop where
  found : spanAt? v = some l
  outside : EndsOutside inWord s
  first : ∀ s₁ s₂, s = s₁ ++ s₂ → s₂ ≠ [] → EndsOutside inWord s₁ → spanAt? (s₂ ++ v) = none

/-- What starts at the first character, if that is no part of a word that goes on. -/
private theorem here_eq_none_iff :
    (if inWord then none else spanAt? t) = none ↔ (EndsOutside inWord [] → spanAt? t = none) := by
  cases inWord <;> simp [EndsOutside]

theorem exists_foundBehind (h : spanFrom? inWord t = some l) :
    ∃ s v l', t = s ++ v ∧ l = l'.behind s ∧ FoundBehind inWord s v l' := by
  induction t generalizing inWord l with
  | nil => simp [spanFrom?] at h
  | cons c t ih =>
    rw [spanFrom?] at h
    split at h
    · rename_i l' hl
      obtain rfl : l' = l := by simpa using h
      split at hl
      · simp at hl
      · rename_i hout
        refine ⟨[], c :: t, l', rfl, rfl, hl, Bool.eq_false_iff.2 hout, fun s₁ s₂ hs hne => ?_⟩
        exact absurd (List.append_eq_nil_iff.1 hs.symm).2 hne
    · rename_i hnone
      obtain ⟨l', hl, rfl⟩ := Option.map_eq_some_iff.1 h
      obtain ⟨s, v, l', rfl, rfl, hfound⟩ := ih hl
      refine ⟨c :: s, v, l', rfl, rfl, hfound.found, endsOutside_cons.2 hfound.outside,
        fun s₁ s₂ hs hne hout => ?_⟩
      cases s₁ with
      | nil =>
        obtain rfl : c :: s = s₂ := hs
        exact here_eq_none_iff.1 hnone hout
      | cons d s₁ =>
        obtain ⟨rfl, hrest⟩ := List.cons.inj hs
        exact hfound.first s₁ s₂ hrest hne (endsOutside_cons.1 hout)

theorem spanFrom?_of_foundBehind (h : FoundBehind inWord s v l) :
    spanFrom? inWord (s ++ v) = some (l.behind s) := by
  induction s generalizing inWord with
  | nil =>
    obtain rfl : inWord = false := h.outside
    have hfound := h.found
    cases v with
    | nil =>
      rw [spanAt?_nil] at hfound
      exact nomatch hfound
    | cons c v =>
      rw [List.nil_append, spanFrom?, if_neg Bool.false_ne_true, hfound]
      rfl
  | cons c s ih =>
    have hnone := here_eq_none_iff.2 (h.first [] (c :: s) rfl (List.cons_ne_nil c s))
    have hrest : FoundBehind (Text.isWordChar c) s v l := by
      refine ⟨h.found, endsOutside_cons.1 h.outside, fun s₁ s₂ hs hne hout => ?_⟩
      exact h.first (c :: s₁) s₂ (by rw [hs, List.cons_append]) hne (endsOutside_cons.2 hout)
    rw [List.cons_append] at hnone ⊢
    rw [spanFrom?, hnone, ih hrest]
    rfl

end First

/-! ## Quoted spans -/

section Quoted

variable {s t w w' : Text}

theorem cut?_append_of_some {c : Char} {a b : Text} (h : Text.cut? c s = some (a, b)) (t : Text) :
    Text.cut? c (s ++ t) = some (a, b ++ t) := by
  obtain ⟨rfl, hnot⟩ := Text.cut?_eq_some_iff.1 h
  exact Text.cut?_eq_some_iff.2 ⟨by rw [List.append_assoc, List.cons_append], hnot⟩

theorem cut?_append_of_none {c : Char} (h : Text.cut? c s = none) (t : Text) :
    Text.cut? c (s ++ t) = (Text.cut? c t).map fun (a, b) => (s ++ a, b) := by
  have hs := Text.cut?_eq_none_iff.1 h
  cases ht : Text.cut? c t with
  | none => simpa [Text.cut?_eq_none_iff, hs] using ht
  | some p =>
    obtain ⟨rfl, hnot⟩ := Text.cut?_eq_some_iff.1 ht
    exact Text.cut?_eq_some_iff.2 ⟨by rw [List.append_assoc], by simp [hs, hnot]⟩

/-- Behind a quote, no span is quoted if there is no second one, or if the second one follows at
once and no span is quoted behind it. -/
theorem quotedSpan?_cons_eq_none_iff :
    quotedSpan? (backtick :: t) = none ↔
      Text.cut? backtick t = none ∨ ∃ b, Text.cut? backtick t = some ([], b) ∧
        quotedSpan? t = none := by
  rw [quotedSpan?, if_pos rfl]
  split
  · rename_i h
    simp [h]
  · rename_i h
    simp [h]
  · rename_i content after hne h
    have hcontent : content ≠ [] := hne
    simp [h, hcontent]

theorem quotedSpan?_other_eq_none_iff {c : Char} (hc : c ≠ backtick) :
    quotedSpan? (c :: t) = none ↔ quotedSpan? t = none := by
  rw [quotedSpan?, if_neg hc, Option.map_eq_none_iff]

theorem quotedSpan?_append_eq_none_iff (hw : backtick ∉ w) :
    quotedSpan? (w ++ t) = none ↔ quotedSpan? t = none := by
  induction w with
  | nil => rfl
  | cons c w ih =>
    obtain ⟨hc, hw⟩ := List.ne_and_not_mem_of_not_mem_cons hw
    rw [List.cons_append, quotedSpan?_other_eq_none_iff (Ne.symm hc), ih hw]

/-- What is written for a part that has no quotes does not matter, if it is not empty. -/
theorem quotedSpan?_exchange (hne : w ≠ []) (hw : backtick ∉ w) (hw' : backtick ∉ w')
    (h : quotedSpan? (s ++ (w ++ t)) = none) : quotedSpan? (s ++ (w' ++ t)) = none := by
  induction s with
  | nil => exact (quotedSpan?_append_eq_none_iff hw').2 ((quotedSpan?_append_eq_none_iff hw).1 h)
  | cons c s ih =>
    by_cases hc : c = backtick
    · subst hc
      rw [List.cons_append, quotedSpan?_cons_eq_none_iff] at h ⊢
      cases hs : Text.cut? backtick s with
      | some p =>
        obtain ⟨a, b⟩ := p
        rw [cut?_append_of_some hs] at h ⊢
        rcases h with h | ⟨b', h, hrest⟩
        · exact nomatch h
        · obtain ⟨rfl, -⟩ : a = [] ∧ _ := by simpa using h
          exact .inr ⟨_, rfl, ih hrest⟩
      | none =>
        have hnone : Text.cut? backtick w = none := Text.cut?_eq_none_iff.2 hw
        have hnone' : Text.cut? backtick w' = none := Text.cut?_eq_none_iff.2 hw'
        rw [cut?_append_of_none hs, cut?_append_of_none hnone] at h
        rw [cut?_append_of_none hs, cut?_append_of_none hnone']
        -- A quote behind the part would quote the part.
        cases ht : Text.cut? backtick t with
        | none => exact .inl rfl
        | some p => simp [ht, hne] at h
    · rw [List.cons_append, quotedSpan?_other_eq_none_iff hc] at h ⊢
      exact ih h

end Quoted

/-! ## Where the search starts -/

section Region

variable {s t : Text} {c : Char}

theorem dropWhile_append_cons {p : Char → Bool} (hc : p c = false) :
    (s ++ c :: t).dropWhile p = s.dropWhile p ++ c :: t := by
  rw [List.dropWhile_append]
  split
  · rename_i hs
    rw [List.isEmpty_iff.1 hs, List.dropWhile_cons_of_neg (by simp [hc]), List.nil_append]
  · rfl

/-- Nothing is passed over from a character on that is neither blank nor a comment mark. -/
theorem searchRegion_append (hblank : Text.isBlank c = false) (hmark : c ∉ commentMarks) :
    searchRegion (s ++ c :: t) = searchRegion s ++ c :: t := by
  have hmark : commentMarks.contains c = false := by simpa using hmark
  simp only [searchRegion, Text.trimStart, dropWhile_append_cons hblank,
    dropWhile_append_cons hmark]

end Region

/-! ## What is located -/

section Locate

variable {line head region : Text} {l : Located}

/-- What is found without quotes is the first span of the region that is searched. -/
theorem exists_of_locate (h : locate line = .ok l) (hspan : l.span = l.expression) :
    ∃ head s v l', line = head ++ (s ++ v) ∧ searchRegion line = s ++ v ∧
      quotedSpan? (s ++ v) = none ∧ FoundBehind false s v l' ∧
      l = (l'.behind s).behind head := by
  unfold locate at h
  dsimp only at h
  split at h
  · rename_i l' hl
    obtain rfl : _ = l := by simpa using h
    have hline := append_take_of_suffix (searchRegion_suffix line)
    rcases Option.or_eq_some_iff.1 hl with hq | ⟨hq, hf⟩
    · have hquotes := congrArg List.length ((span_of_quotedSpan? hq).symm.trans hspan)
      simp only [Located.behind, List.length_append, List.length_cons, List.length_nil] at hquotes
      omega
    · obtain ⟨s, v, l'', hregion, rfl, hfound⟩ := exists_foundBehind hf
      rw [hregion] at hline hq ⊢
      exact ⟨_, s, v, l'', hline.symm, rfl, hq, hfound, rfl⟩
  · simp at h

theorem locate_of_foundBehind {s v : Text} (hregion : searchRegion (head ++ (s ++ v)) = s ++ v)
    (hq : quotedSpan? (s ++ v) = none) (hfound : FoundBehind false s v l) :
    locate (head ++ (s ++ v)) = .ok ((l.behind s).behind head) := by
  simp only [locate, hregion, hq, spanFrom?_of_foundBehind hfound, Option.none_or,
    List.length_append, Nat.add_sub_cancel, List.take_left]

end Locate

end TextTransforms.Calculator
