import Mathlib.Data.List.Induction
import TextTransforms.Call.Arguments
import TextTransforms.Proofs.Call.Lexing
import TextTransforms.Proofs.Text.Trim

/-!
# Pieces of a tail

`depthBehind` follows the brackets of a tail. A tail ends at the first `)` behind
lexemes that leave depth zero (`splitAtClose_eq_some_iff`). The scan for commas follows
them in any text, balanced or not (`depthAfter`, `pieces_append`). Each piece between the
top-level commas of a tail is itself such a stretch without top-level comma (`IsPiece`,
`isPiece_of_mem_pieces`), and stays one without the blanks around it
(`exists_core`).
-/

namespace TextTransforms

/-! ## Depth -/

/-- Bracket depth behind the lexemes; nothing if one of them ends the scan of the
tail, which a closer at depth zero and an unclosed `"` do. -/
def depthBehind (depth : Nat) : List Lexeme → Option Nat
  | [] => some depth
  | l :: ls =>
    if l = .char '"' then none
    else if l.isCloser ∧ depth = 0 then none
    else depthBehind (l.nest depth) ls

theorem depthBehind_append (d : Nat) (ls ms : List Lexeme) :
    depthBehind d (ls ++ ms) = (depthBehind d ls).bind (depthBehind · ms) := by
  induction ls generalizing d with
  | nil => rfl
  | cons l ls ih =>
    simp only [List.cons_append, depthBehind]
    split
    · rfl
    · split
      · rfl
      · exact ih _

theorem depthBehind_of_splitAtClose {d : Nat} {ls inside rest : List Lexeme}
    (h : splitAtClose d ls = some (inside, rest)) : depthBehind d inside = some 0 := by
  induction ls generalizing d inside with
  | nil => simp [splitAtClose] at h
  | cons l ls ih =>
    rw [splitAtClose] at h
    split at h
    · simp at h
    · rename_i hq
      split at h
      · rename_i hl
        split at h
        · obtain ⟨rfl, -⟩ : [] = inside ∧ ls = rest := by simpa using h
          rw [depthBehind, hl.2]
        · simp at h
      · rename_i hl
        obtain ⟨⟨a, b⟩, hr, he⟩ := Option.map_eq_some_iff.1 h
        obtain ⟨rfl, rfl⟩ : l :: a = inside ∧ b = rest := by simpa using he
        rw [depthBehind, if_neg hq, if_neg hl]
        exact ih hr

theorem splitAtClose_of_depthBehind {d : Nat} {inside : List Lexeme} (rest : List Lexeme)
    (h : depthBehind d inside = some 0) :
    splitAtClose d (inside ++ .char ')' :: rest) = some (inside, rest) := by
  induction inside generalizing d with
  | nil =>
    obtain rfl : d = 0 := by simpa [depthBehind] using h
    simp [splitAtClose, Lexeme.isCloser]
  | cons l ls ih =>
    rw [depthBehind] at h
    rw [List.cons_append, splitAtClose]
    split at h
    · simp at h
    · rename_i hq
      rw [if_neg hq]
      split at h
      · simp at h
      · rename_i hl
        rw [if_neg hl, ih h]
        rfl

/-- A tail is closed exactly by a `)` behind lexemes that leave depth zero. -/
theorem splitAtClose_eq_some_iff {d : Nat} {ls inside rest : List Lexeme} :
    splitAtClose d ls = some (inside, rest) ↔
      ls = inside ++ .char ')' :: rest ∧ depthBehind d inside = some 0 := by
  constructor
  · exact fun h => ⟨splitAtClose_eq h, depthBehind_of_splitAtClose h⟩
  · rintro ⟨rfl, h⟩
    exact splitAtClose_of_depthBehind rest h

/-! ## The scan for commas -/

/-- Bracket depth of the scan for commas behind the lexemes. Unlike the scan of the tail it
goes on behind a closer at depth zero and an unclosed `"`. -/
def depthAfter (depth : Nat) (ls : List Lexeme) : Nat := ls.foldl Lexeme.nest depth

theorem depthAfter_append (d : Nat) (ls ms : List Lexeme) :
    depthAfter d (ls ++ ms) = depthAfter (depthAfter d ls) ms :=
  List.foldl_append

theorem depthAfter_of_depthBehind {d d' : Nat} {ls : List Lexeme}
    (h : depthBehind d ls = some d') : depthAfter d ls = d' := by
  induction ls generalizing d with
  | nil => exact Option.some.inj h
  | cons l ls ih =>
    rw [depthBehind] at h
    split at h
    · simp at h
    · split at h
      · simp at h
      · exact ih h

/-- The pieces of two stretches one behind the other: the last piece of the first goes on
in the second. -/
def joinPieces (p : List Lexeme) : List (List Lexeme) → List Lexeme × List (List Lexeme) →
    List Lexeme × List (List Lexeme)
  | [], second => (p ++ second.1, second.2)
  | q :: qs, second => (p, (joinPieces q qs second).1 :: (joinPieces q qs second).2)

/-- Behind a stretch the scan for commas goes on at the depth that the stretch leaves. -/
theorem pieces_append (d : Nat) (ls ms : List Lexeme) :
    pieces d (ls ++ ms) =
      joinPieces (pieces d ls).1 (pieces d ls).2 (pieces (depthAfter d ls) ms) := by
  induction ls generalizing d with
  | nil => rfl
  | cons l ls ih =>
    rw [List.cons_append, pieces, pieces, depthAfter, List.foldl_cons]
    by_cases hc : l = .char ',' ∧ d = 0
    · obtain ⟨rfl, rfl⟩ := hc
      rw [if_pos ⟨rfl, rfl⟩, if_pos ⟨rfl, rfl⟩, ih 0]
      rfl
    · rw [if_neg hc, if_neg hc, ih]
      cases h : (pieces (l.nest d) ls).2 <;> simp [joinPieces, depthAfter]

theorem pieces_of_whole {d : Nat} {ls : List Lexeme} (hw : (pieces d ls).2 = []) :
    pieces d ls = (ls, []) := by
  have hfirst := pieces_eq d ls
  rw [hw, List.flatMap_nil, List.append_nil] at hfirst
  exact Prod.ext hfirst hw

/-- A stretch without top-level comma goes on in the first piece behind it. -/
theorem pieces_append_whole {d : Nat} {ls : List Lexeme} (ms : List Lexeme)
    (hw : (pieces d ls).2 = []) :
    pieces d (ls ++ ms) =
      (ls ++ (pieces (depthAfter d ls) ms).1, (pieces (depthAfter d ls) ms).2) := by
  rw [pieces_append, pieces_of_whole hw, joinPieces]

theorem whole_of_append {d : Nat} {ls ms : List Lexeme} (hw : (pieces d (ls ++ ms)).2 = []) :
    (pieces d ls).2 = [] := by
  rw [pieces_append] at hw
  cases h : (pieces d ls).2 with
  | nil => rfl
  | cons q qs => simp [h, joinPieces] at hw

/-! ## Pieces -/

/-- What may stand between two top-level commas of a tail. -/
structure IsPiece (ls : List Lexeme) : Prop where
  depth : depthBehind 0 ls = some 0
  whole : (pieces 0 ls).2 = []

theorem isPiece_of_mem_pieces {d : Nat} {ls : List Lexeme} (h : depthBehind d ls = some 0) :
    (depthBehind d (pieces d ls).1 = some 0 ∧ (pieces d (pieces d ls).1).2 = []) ∧
      ∀ p ∈ (pieces d ls).2, IsPiece p := by
  induction ls generalizing d with
  | nil =>
    refine ⟨⟨h, rfl⟩, ?_⟩
    simp [pieces]
  | cons l ls ih =>
    rw [depthBehind] at h
    split at h
    · simp at h
    · rename_i hq
      split at h
      · simp at h
      · rename_i hl
        obtain ⟨⟨hd, hw⟩, hrest⟩ := ih h
        by_cases hc : l = .char ',' ∧ d = 0
        · obtain ⟨rfl, rfl⟩ := hc
          have hn : Lexeme.nest 0 (.char ',') = 0 := by decide
          rw [hn] at hd hw hrest
          rw [pieces, if_pos ⟨rfl, rfl⟩]
          refine ⟨⟨rfl, rfl⟩, fun p hp => ?_⟩
          rcases List.mem_cons.1 hp with rfl | hp
          · exact ⟨hd, hw⟩
          · exact hrest p hp
        · rw [pieces, if_neg hc]
          refine ⟨⟨?_, ?_⟩, hrest⟩
          · rw [depthBehind, if_neg hq, if_neg hl]
            exact hd
          · rw [pieces, if_neg hc]
            exact hw

/-! ## Blanks -/

def IsBlankRun (ls : List Lexeme) : Prop :=
  ∀ l ∈ ls, ∃ c, l = .char c ∧ Text.isBlank c = true

private theorem ne_of_isBlank {c d : Char} (hc : Text.isBlank c = true)
    (hd : Text.isBlank d = false) : c ≠ d := by
  rintro rfl
  rw [hc] at hd
  simp at hd

theorem isBlanks_sourceOf {ls : List Lexeme} (h : IsBlankRun ls) : Text.IsBlanks (sourceOf ls) := by
  intro c hc
  obtain ⟨l, hl, hc⟩ := List.mem_flatMap.1 hc
  obtain ⟨d, rfl, hd⟩ := h l hl
  obtain rfl : c = d := by simpa [Lexeme.source] using hc
  exact hd

private theorem isBlankRun_cons {l : Lexeme} {ls : List Lexeme} (h : IsBlankRun (l :: ls)) :
    (∃ c, l = .char c ∧ Text.isBlank c = true) ∧ IsBlankRun ls :=
  ⟨h l List.mem_cons_self, fun m hm => h m (List.mem_cons_of_mem _ hm)⟩

theorem depthBehind_blankRun {ls : List Lexeme} (d : Nat) (h : IsBlankRun ls) :
    depthBehind d ls = some d := by
  induction ls with
  | nil => rfl
  | cons l ls ih =>
    obtain ⟨⟨c, rfl, hc⟩, hls⟩ := isBlankRun_cons h
    have hne (e : Char) (he : Text.isBlank e = false) : c ≠ e := ne_of_isBlank hc he
    have hn : Lexeme.nest d (.char c) = d := by
      simp [Lexeme.nest, Lexeme.isOpener, Lexeme.isCloser, hne '(' (by decide), hne '[' (by decide),
        hne '{' (by decide), hne ')' (by decide), hne ']' (by decide), hne '}' (by decide)]
    have hl : ¬ ((Lexeme.char c).isCloser = true ∧ d = 0) := by
      simp [Lexeme.isCloser, hne ')' (by decide), hne ']' (by decide), hne '}' (by decide)]
    rw [depthBehind, if_neg (by simp [hne '"' (by decide)]), if_neg hl, hn]
    exact ih hls

theorem pieces_blankRun {ls : List Lexeme} (d : Nat) (h : IsBlankRun ls) :
    (pieces d ls).2 = [] := by
  induction ls generalizing d with
  | nil => rfl
  | cons l ls ih =>
    obtain ⟨⟨c, rfl, hc⟩, hls⟩ := isBlankRun_cons h
    rw [pieces, if_neg (by simp [ne_of_isBlank hc (show Text.isBlank ',' = false by decide)])]
    exact ih _ hls

theorem depthAfter_blankRun {ls : List Lexeme} (d : Nat) (h : IsBlankRun ls) :
    depthAfter d ls = d :=
  depthAfter_of_depthBehind (depthBehind_blankRun d h)

/-- Blanks around a stretch hold no comma. -/
theorem whole_of_blanks {ls core rs : List Lexeme} (hl : IsBlankRun ls)
    (hw : (pieces 0 (ls ++ core ++ rs)).2 = []) : (pieces 0 core).2 = [] := by
  have hfront := whole_of_append hw
  rwa [pieces_append_whole core (pieces_blankRun 0 hl), depthAfter_blankRun 0 hl] at hfront

theorem IsPiece.of_blanks {ls core rs : List Lexeme} (hl : IsBlankRun ls) (hr : IsBlankRun rs)
    (h : IsPiece (ls ++ core ++ rs)) : IsPiece core := by
  obtain ⟨hd, hw⟩ := h
  refine ⟨?_, whole_of_blanks hl hw⟩
  rw [List.append_assoc, depthBehind_append, depthBehind_blankRun 0 hl, Option.bind_some,
    depthBehind_append] at hd
  obtain ⟨d, hc, hd⟩ := Option.bind_eq_some_iff.1 hd
  rw [depthBehind_blankRun d hr] at hd
  exact hc.trans hd

/-! ## The core of a piece -/

private theorem exists_blankRun_trimStart {rest : Text} {ls : List Lexeme} (h : Lexed rest ls) :
    ∃ bs core, ls = bs ++ core ∧ IsBlankRun bs ∧
      sourceOf core = Text.trimStart (sourceOf ls) := by
  induction ls with
  | nil => exact ⟨[], [], rfl, by simp [IsBlankRun], rfl⟩
  | cons l ls ih =>
    by_cases hl : ∃ c, l = .char c ∧ Text.isBlank c = true
    · obtain ⟨bs, core, rfl, hb, hs⟩ := ih h.2
      obtain ⟨c, rfl, hc⟩ := hl
      refine ⟨.char c :: bs, core, rfl, ?_, ?_⟩
      · intro m hm
        rcases List.mem_cons.1 hm with rfl | hm
        · exact ⟨c, rfl, hc⟩
        · exact hb m hm
      · rw [hs, sourceOf_cons, Lexeme.source, Text.trimStart_blanks _ (by simpa [Text.IsBlanks])]
    · refine ⟨[], l :: ls, rfl, by simp [IsBlankRun], ?_⟩
      rw [sourceOf_cons]
      cases h.1 with
      | @char c =>
        have hc : Text.isBlank c = false := Bool.eq_false_iff.2 fun hb => hl ⟨c, rfl, hb⟩
        exact (Text.trimStart_cons_of_not _ hc).symm
      | string => exact (Text.trimStart_cons_of_not _ (by decide)).symm
      | character => exact (Text.trimStart_cons_of_not _ (by decide)).symm

private theorem exists_blankRun_trimEnd {rest : Text} {ls : List Lexeme} (h : Lexed rest ls) :
    ∃ core bs, ls = core ++ bs ∧ IsBlankRun bs ∧ sourceOf core = Text.trimEnd (sourceOf ls) := by
  induction ls using List.reverseRecOn generalizing rest with
  | nil => exact ⟨[], [], rfl, by simp [IsBlankRun], rfl⟩
  | append_singleton ls l ih =>
    rw [lexed_append] at h
    by_cases hl : ∃ c, l = .char c ∧ Text.isBlank c = true
    · obtain ⟨core, bs, rfl, hb, hs⟩ := ih h.1
      obtain ⟨c, rfl, hc⟩ := hl
      refine ⟨core, bs ++ [.char c], by simp, ?_, ?_⟩
      · intro m hm
        rcases List.mem_append.1 hm with hm | hm
        · exact hb m hm
        · exact ⟨c, by simpa using hm, hc⟩
      · rw [hs, sourceOf_append (core ++ bs)]
        exact (Text.trimEnd_blanks _ (by simpa [sourceOf, Lexeme.source, Text.IsBlanks])).symm
    · refine ⟨ls ++ [l], [], by simp, by simp [IsBlankRun], ?_⟩
      have snoc (t : Text) (c : Char) (hc : Text.isBlank c = false) {s : Text}
          (hs : s = t ++ [c]) : s = Text.trimEnd s := by
        rw [hs, Text.trimEnd_snoc_of_not _ hc]
      cases h.2.1 with
      | @char c =>
        have hc : Text.isBlank c = false := Bool.eq_false_iff.2 fun hb => hl ⟨c, rfl, hb⟩
        exact snoc (sourceOf ls) c hc (by simp [Lexeme.source])
      | @string body =>
        exact snoc (sourceOf ls ++ '"' :: body) '"' (by decide) (by simp [Lexeme.source])
      | @character body =>
        exact snoc (sourceOf ls ++ '\'' :: body) '\'' (by decide) (by simp [Lexeme.source])

/-- A piece is its trimmed text between blanks, also as lexemes. -/
theorem exists_core {rest : Text} {ls : List Lexeme} (h : Lexed rest ls) :
    ∃ bs core bs', ls = bs ++ core ++ bs' ∧ IsBlankRun bs ∧ IsBlankRun bs' ∧
      sourceOf core = Text.trim (sourceOf ls) := by
  obtain ⟨bs, mid, rfl, hb, hs⟩ := exists_blankRun_trimStart h
  obtain ⟨core, bs', rfl, hb', hs'⟩ := exists_blankRun_trimEnd (lexed_append.1 h).2
  refine ⟨bs, core, bs', by simp, hb, hb', ?_⟩
  rw [hs', hs]
  rfl

end TextTransforms
