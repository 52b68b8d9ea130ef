import TextTransforms.Proofs.Calculator.Names
import TextTransforms.Proofs.Calculator.Words

/-!
# Toggling a boolean word on a line

Where a boolean word is found on a line, its opposite is found when it takes the place of the
word (`locate_exchange`): the search starts at the same place, nothing is quoted, and no span
starts further left, as neither a boolean word nor an expression that starts there can reach
the word (`FoundBehind.exchange`). So computing the line twice restores it
(`applyToLine_twice`).
-/

namespace TextTransforms.Calculator

open Call (EndsOutside)
open Text (isWordChar)

/-! ## The word in its place -/

section Exchange

variable {s rest w w' : Text} {l : Located}

/-- A boolean word starts as the name of a member could, with a character that is looked for
neither by the search nor in front of it. -/
theorem exists_cons_of_mem_booleans {p : Text × Text} (h : p ∈ booleans) :
    ∃ c u, p.1 = c :: u ∧ Expr.startsName c = true ∧ Text.isBlank c = false ∧
      c ∉ commentMarks := by
  have heads : ∀ p ∈ booleans, p.1.head?.any (fun c => Expr.startsName c && !Text.isBlank c &&
      !commentMarks.contains c) = true := by decide
  obtain ⟨c, hc, hall⟩ := (Option.any_eq_true ..).1 (heads p h)
  obtain ⟨u, hu⟩ := List.head?_eq_some_iff.1 hc
  exact ⟨c, u, hu, by simpa [and_assoc] using hall⟩

/-- Behind `Math.` a boolean word is read with it, as the name of a member. -/
theorem exists_parseStart?_member {p : Text × Text} (h : p ∈ booleans) (rest : Text) :
    ∃ e rest', Expr.parseStart? ("Math.".toList ++ (p.1 ++ rest)) = some (e, rest') := by
  have letters : ∀ p ∈ booleans, p.1.head?.any Char.isAlpha = true := by decide
  obtain ⟨c, hc, halpha⟩ := (Option.any_eq_true ..).1 (letters p h)
  obtain ⟨u, hu⟩ := List.head?_eq_some_iff.1 hc
  have hword := (isRun_of_mem_booleans h).1.2
  let name : Expr.Name :=
    ⟨c, u, halpha, fun d hd => hword d (by rw [hu]; exact List.mem_cons_of_mem c hd)⟩
  rw [hu, ← List.append_assoc]
  exact name.exists_parseStart? rest

theorem backtick_notMem_of_mem_booleans {p : Text × Text} (h : p ∈ booleans) : backtick ∉ p.1 :=
  fun hm => absurd ((isRun_of_mem_booleans h).1.2 backtick hm) (by decide)

/-- A boolean word ends where no word goes on, so it ends in front of `w` and of `w'` alike. -/
theorem booleanAt?_eq_none_exchange (hs : s ≠ []) (hout : EndsOutside false s)
    (h : booleanAt? (s ++ w) = none) : booleanAt? (s ++ w') = none := by
  obtain ⟨u, x, rfl⟩ : ∃ u x, s = u ++ [x] := ⟨_, _, (List.dropLast_concat_getLast hs).symm⟩
  have hx : isWordChar x = false := by simpa [EndsOutside] using hout
  have hcut (t : Text) : booleanAt? (u ++ [x] ++ t) = none ↔ booleanAt? u = none := by
    rw [List.append_assoc, List.singleton_append, booleanAt?_append (Text.stops_cons t hx),
      Option.map_eq_none_iff]
  exact (hcut w').2 ((hcut w).1 h)

/-- A boolean word stands in the place of its opposite, and still nothing is found in front. -/
theorem FoundBehind.exchange {p : Text × Text} (hp : p ∈ booleans)
    (h : FoundBehind false s (p.1 ++ rest) l)
    (hrest : ∀ c, rest.head? = some c → isWordChar c = false) :
    FoundBehind false s (p.2 ++ rest) ⟨[], p.2, p.2, rest⟩ := by
  refine ⟨?_, h.outside, fun s₁ s₂ hs hne hout => ?_⟩
  · exact spanAt?_of_booleanAt? (b := ⟨p.2, p.1, rest⟩)
      (booleanAt?_eq_some_iff.2 ⟨rfl, swap_mem_booleans hp, hrest⟩)
  · have hout₂ : EndsOutside false s₂ := endsOutside_of_append (hs ▸ h.outside)
    obtain ⟨hword, hexpr⟩ := spanAt?_eq_none_iff.1 (h.first s₁ s₂ hs hne hout)
    refine spanAt?_eq_none_iff.2 ⟨booleanAt?_eq_none_exchange hne hout₂ hword, ?_⟩
    obtain ⟨c, u, hcu, hstart, -⟩ := exists_cons_of_mem_booleans (swap_mem_booleans hp)
    rw [Prod.fst_swap] at hcu
    rw [hcu]
    refine Expr.parseStart?_eq_none_exchange hout₂ (fun s' hs' hout' => ?_) hstart hexpr
    -- The search would have found the member.
    have hfirst := h.first (s₁ ++ s') "Math.".toList (by rw [hs, hs', List.append_assoc])
      (by decide) (endsOutside_append (fun _ => hout) hout')
    obtain ⟨e, rest', hread⟩ := exists_parseStart?_member hp rest
    rw [(spanAt?_eq_none_iff.1 hfirst).2] at hread
    exact nomatch hread

end Exchange

/-! ## The line with the other word -/

section Toggle

variable {line : Text} {l : Located}

/-- What is found by a boolean word is that word. -/
theorem exists_starts_of_spanAt? {v : Text} (h : spanAt? v = some l)
    (hw : l.expression ∈ booleans.map Prod.fst) :
    ∃ b : BooleanWord, b.Starts v ∧ l = ⟨[], b.word, b.word, b.rest⟩ := by
  cases hb : booleanAt? v with
  | some b =>
    rw [spanAt?_of_booleanAt? hb] at h
    exact ⟨b, starts_of_booleanAt? hb, (Option.some.inj h).symm⟩
  | none =>
    -- An expression does not start as a boolean word does.
    simp only [spanAt?, hb] at h
    obtain ⟨⟨e, rest⟩, hr, rfl⟩ := Option.map_eq_some_iff.1 h
    obtain ⟨d, rfl, -⟩ := Expr.level?_sound hr
    obtain ⟨p, hp, hword⟩ := List.mem_map.1 hw
    simp only [List.length_append, Nat.add_sub_cancel, List.take_left] at hword
    have hstart : booleanAt? (d.source ++ []) = some ⟨p.1, p.2, []⟩ :=
      booleanAt?_eq_some_iff.2 ⟨by rw [hword], hp, by simp⟩
    exact absurd (hstart.symm.trans (d.booleanAt?_source [])) (Option.some_ne_none _)

/-- The word that is found, the line around it, and what the search finds with the opposite of
the word in its place. -/
theorem locate_exchange (h : locate line = .ok l) (hspan : l.span = l.expression)
    (hw : l.expression ∈ booleans.map Prod.fst) :
    line = l.before ++ l.expression ++ l.after ∧
    (∀ c, l.after.head? = some c → isWordChar c = false) ∧
    locate (l.before ++ opposite l.expression ++ l.after) =
      .ok ⟨l.before, opposite l.expression, opposite l.expression, l.after⟩ := by
  obtain ⟨head, s, v, l', rfl, hregion, hquoted, hfound, rfl⟩ := exists_of_locate h hspan
  obtain ⟨b, hb, rfl⟩ := exists_starts_of_spanAt? hfound.found hw
  obtain ⟨hsource, hmem, hends⟩ := hb
  have hfirst := isRun_of_mem_booleans hmem
  have hswap := swap_mem_booleans hmem
  rw [hsource] at hregion hquoted hfound
  -- Nothing is passed over from the first character of the word on, which the region keeps.
  have hregion' : searchRegion (head ++ (s ++ (b.opposite ++ b.rest))) =
      s ++ (b.opposite ++ b.rest) := by
    obtain ⟨c, u, hc, -, hblank, hmark⟩ := exists_cons_of_mem_booleans hmem
    obtain ⟨c', u', hc', -, hblank', hmark'⟩ := exists_cons_of_mem_booleans hswap
    have hc : b.word = c :: u := hc
    have hc' : b.opposite = c' :: u' := hc'
    rw [hc, List.cons_append, ← List.append_assoc, searchRegion_append hblank hmark] at hregion
    rw [hc', List.cons_append, ← List.append_assoc, searchRegion_append hblank' hmark',
      List.append_cancel_right hregion]
  have hlocate := locate_of_foundBehind hregion'
    (quotedSpan?_exchange hfirst.1.1 (backtick_notMem_of_mem_booleans hmem)
      (backtick_notMem_of_mem_booleans hswap) hquoted)
    (hfound.exchange (p := (b.word, b.opposite)) hmem hends)
  have hopposite : opposite b.word = b.opposite := opposite_of_mem hmem
  refine ⟨?_, hends, ?_⟩
  · simp [Located.behind, hsource]
  · simpa [Located.behind, hopposite] using hlocate

theorem evaluate_boolean {w : Text} (hw : w ∈ booleans.map Prod.fst) :
    evaluate w = .ok (.flipped (opposite w)) := by
  have hrun : Text.IsRun isWordChar w := by
    obtain ⟨p, hp, rfl⟩ := List.mem_map.1 hw
    exact (isRun_of_mem_booleans hp).1
  have hbool : hasBoolean w = true := by
    have := (hasBooleanFrom_run (t := []) hrun (by simp)).2 (.inl hw)
    rwa [List.append_nil] at this
  have hflip : flipBooleans w = opposite w := by
    have := flipFrom_run (t := []) hrun (by simp)
    rwa [List.append_nil, flipFrom, List.append_nil] at this
  rw [evaluate, if_pos hbool, hflip]

/-- A boolean word that is found is replaced by its opposite and by nothing else. -/
theorem applyToLine_boolean (h : locate line = .ok l) (hw : l.expression ∈ booleans.map Prod.fst)
    (hends : ∀ c, l.after.head? = some c → isWordChar c = false) :
    applyToLine line = .ok (l.before ++ opposite l.expression ++ l.after) := by
  have hgap : l.after.head?.any Char.isAlphanum = false := by
    refine (Option.any_eq_false ..).2 fun c hc => ?_
    have hword := hends c hc
    rw [isWordChar, Bool.or_eq_false_iff] at hword
    exact hword.1
  rw [applyToLine_of_locate h hgap, evaluate_boolean hw]
  rfl

end Toggle

/-- A line on which a boolean word is found, not between quotes, is computed to the line with
the opposite word in its place, and that line is computed to the first one. -/
theorem applyToLine_twice {line : Text} {l : Located} (h : locate line = .ok l)
    (hspan : l.span = l.expression) (hw : l.expression ∈ booleans.map Prod.fst) :
    applyToLine line = .ok (l.before ++ opposite l.expression ++ l.after) ∧
    applyToLine (l.before ++ opposite l.expression ++ l.after) = .ok line := by
  obtain ⟨hline, hends, hlocate⟩ := locate_exchange h hspan hw
  have hw' : opposite l.expression ∈ booleans.map Prod.fst := by
    obtain ⟨p, hp, hword⟩ := List.mem_map.1 hw
    rw [← hword, opposite_of_mem hp]
    exact List.mem_map.2 ⟨_, swap_mem_booleans hp, rfl⟩
  refine ⟨applyToLine_boolean h hw hends, ?_⟩
  rw [applyToLine_boolean hlocate hw' hends, opposite_opposite, ← hline]

theorem applyToLine_twice_member :
    locate "\t- xMath.true,".toList =
      .ok ⟨"\t- xMath.".toList, "true".toList, "true".toList, ",".toList⟩ ∧
    applyToLine "\t- xMath.true,".toList = .ok "\t- xMath.false,".toList ∧
    applyToLine "\t- xMath.false,".toList = .ok "\t- xMath.true,".toList := by
  have hfirst : spanAt? "xMath.true,".toList = none :=
    spanAt?_eq_none_iff.2 ⟨by decide, Expr.parseStart?_startsName (c := 'x') _ (by decide)⟩
  have hfound : FoundBehind false "xMath.".toList "true,".toList
      ⟨[], "true".toList, "true".toList, ",".toList⟩ := by
    refine ⟨spanAt?_of_booleanAt? (b := ⟨"true".toList, "false".toList, _⟩) (by decide), rfl,
      fun s₁ s₂ hs hne hout => ?_⟩
    -- The only other place outside of words is in front of `xMath`.
    have inside : ∀ k < 6, k ≠ 0 →
        ("xMath.".toList.take k).getLast?.any isWordChar = true := by decide
    have hshort : s₁.length < 6 := by
      have hlen : 6 = s₁.length + s₂.length := (congrArg List.length hs).trans List.length_append
      have := List.length_pos_iff.2 hne
      omega
    by_cases hzero : s₁.length = 0
    · obtain rfl := List.length_eq_zero_iff.1 hzero
      rw [← List.nil_append s₂, ← hs]
      exact hfirst
    · obtain ⟨c, hc, hword⟩ := (Option.any_eq_true ..).1 (inside _ hshort hzero)
      rw [hs, List.take_left] at hc
      simp [EndsOutside, hc, hword] at hout
  have hlocate : locate ("\t- ".toList ++ ("xMath.".toList ++ "true,".toList)) = _ :=
    locate_of_foundBehind (by decide) (by decide) hfound
  exact ⟨hlocate, applyToLine_twice hlocate rfl (by decide)⟩

end TextTransforms.Calculator
