import TextTransforms.Proofs.Calculator.Derivation

/-!
# What is accepted

Whatever a reader reads, a tree of its kind spells it and stands for the expression returned
(`level?_sound`). With the converse, a text is an expression exactly if a tree spells all of
it but the blanks at its ends (`parse_eq_ok_iff_derives`); that tree is the only one.
-/

namespace TextTransforms.Expr

/-! ## Leaves -/

theorem exists_space (t : Text) : ∃ s : Space, t = s.1 ++ skipSpace t :=
  ⟨⟨t.takeWhile Char.isWhitespace, fun _ => List.mem_takeWhile_imp⟩,
    (List.takeWhile_append_dropWhile).symm⟩

theorem exists_space_of_skipSpace {t u : Text} (h : skipSpace t = u) :
    ∃ s : Space, t = s.1 ++ u :=
  h ▸ exists_space t

theorem readNumber_sound {t rest : Text} {d : Decimal} (h : readNumber t = some (d, rest)) :
    ∃ n : DecimalText, t = n.source ++ rest ∧ n.value = d := by
  have digits (s : Text) (hs : s.takeWhile Char.isDigit ≠ []) :
      ∃ e : Digits, e.1 = s.takeWhile Char.isDigit :=
    ⟨⟨_, hs, fun _ => List.mem_takeWhile_imp⟩, rfl⟩
  have ht := List.takeWhile_append_dropWhile (p := Char.isDigit) (l := t)
  unfold readNumber at h
  dsimp only at h
  split at h
  · rename_i hc
    obtain ⟨hpoint, hne⟩ := hc
    obtain ⟨fraction, hf⟩ := digits _ hne
    obtain ⟨rfl, rfl⟩ : _ = d ∧ _ = rest := by simpa using h
    -- The point and what is behind it.
    obtain ⟨s, hs⟩ : ∃ s, t.dropWhile Char.isDigit = '.' :: s := List.head?_eq_some_iff.1 hpoint
    rw [hs] at hf ht ⊢
    rw [List.tail_cons] at hf ⊢
    have hsplit := List.takeWhile_append_dropWhile (p := Char.isDigit) (l := s)
    by_cases hw : t.takeWhile Char.isDigit = []
    · refine ⟨.point fraction, ?_, by simp only [DecimalText.value_eq, hf, hw]⟩
      rw [DecimalText.source, hf, List.cons_append, hsplit, ← ht, hw, List.nil_append]
    · obtain ⟨whole, hwhole⟩ := digits t hw
      refine ⟨.decimal whole fraction, ?_, by simp only [DecimalText.value_eq, hf, hwhole]⟩
      rw [DecimalText.source, hf, hwhole, List.append_assoc, List.cons_append, hsplit, ht]
  · split at h
    · rename_i hw
      obtain ⟨whole, hwhole⟩ := digits t hw
      obtain ⟨rfl, rfl⟩ : _ = d ∧ _ = rest := by simpa using h
      exact ⟨.integer whole, by rw [DecimalText.source, hwhole, ht],
        by simp only [DecimalText.value_eq, hwhole]⟩
    · simp at h

theorem readName_sound {t name rest : Text} (h : readName t = some (name, rest)) :
    ∃ n : Name, t = n.source ++ rest ∧ n.text = name := by
  unfold readName at h
  split at h
  · rename_i c s
    split at h
    · rename_i hc
      obtain ⟨rfl, rfl⟩ : _ = name ∧ _ = rest := by simpa using h
      refine ⟨⟨c, s.takeWhile Text.isWordChar, hc, fun _ => List.mem_takeWhile_imp⟩, ?_, rfl⟩
      simp [Name.source, Name.text]
    · simp at h
  · simp at h

/-! ## Readers -/

/-- What is read from a text is spelled by a tree that stands for what is returned. -/
def ReadsTree {α δ : Type} (read : Text → Option (α × Text)) (source : δ → Text) (value : δ → α)
    (t : Text) : Prop :=
  ∀ a rest, read t = some (a, rest) → ∃ d, t = source d ++ rest ∧ value d = a

/-- Every reader reads a tree from each text shorter than `n`. -/
private structure ReadsTreeBelow (n : Nat) : Prop where
  level : ∀ l t, t.length < n → ReadsTree (level? l) (Chain.source (l := l)) Chain.expr t
  signed : ∀ t, t.length < n → ReadsTree signed? Signed.source Signed.expr t
  more : ∀ l left t, t.length < n →
    ∃ m : More l, t = m.source ++ (more l left t).2 ∧ m.join left = (more l left t).1
  arguments : ∀ t, t.length < n → ReadsTree arguments? CallTail.source CallTail.exprs t

namespace ReadsTreeBelow

variable {n : Nat} (ih : ReadsTreeBelow n) {t : Text}
include ih

private theorem operandTree (l : Level) (ht : t.length < n) :
    ReadsTree (operand? l) (Operand.source (l := l)) Operand.expr t := by
  intro e rest h
  cases l with
  | sum =>
    obtain ⟨chain, rfl, rfl⟩ := ih.level .product t ht e rest h
    exact ⟨.product chain, rfl, rfl⟩
  | product =>
    obtain ⟨s, rfl, rfl⟩ := ih.signed t ht e rest h
    exact ⟨.signed s, rfl, rfl⟩

private theorem groupTree (ht : t.length < n + 1) : ReadsTree group? Atom.source Atom.expr t := by
  intro e rest h
  rw [group?_eq] at h
  split at h
  · rename_i inside
    have hb := length_skipSpace_le inside
    rw [List.length_cons] at ht
    split at h
    · simp at h
    · rename_i e' middle hl
      obtain ⟨body, hbody, rfl⟩ := ih.level .sum _ (by omega) _ _ hl
      split at h
      · rename_i hc
        obtain ⟨rfl, rfl⟩ : _ = e ∧ _ = rest := by simpa using h
        obtain ⟨before, hbefore⟩ := exists_space_of_skipSpace hbody
        obtain ⟨behind, rfl⟩ := exists_space_of_skipSpace hc
        exact ⟨.group before body behind, by simp [hbefore, Atom.source], rfl⟩
      · simp at h
  · simp at h

private theorem memberTree (ht : t.length < n + 1) :
    ReadsTree member? Atom.source Atom.expr t := by
  intro e rest h
  rw [member?_eq] at h
  split at h
  · simp at h
  · rename_i name middle hn
    have hl := length_lt_of_readName hn
    obtain ⟨name, rfl, rfl⟩ := readName_sound hn
    split at h
    · rename_i inside hp
      have hb := suffix_of_skipSpace hp
      split at h
      · obtain ⟨rfl, rfl⟩ : _ = e ∧ _ = rest := by simpa using h
        exact ⟨.constant name, rfl, rfl⟩
      · rename_i args rest' ha
        obtain ⟨rfl, rfl⟩ : _ = e ∧ _ = rest := by simpa using h
        have := hb.length_le
        obtain ⟨tail, rfl, rfl⟩ := ih.arguments _ (by omega) _ _ ha
        obtain ⟨behind, rfl⟩ := exists_space_of_skipSpace hp
        exact ⟨.call name behind tail, by simp [Atom.source], rfl⟩
    · obtain ⟨rfl, rfl⟩ : _ = e ∧ _ = rest := by simpa using h
      exact ⟨.constant name, rfl, rfl⟩

private theorem atomTree (ht : t.length < n + 1) : ReadsTree atom? Atom.source Atom.expr t := by
  intro e rest h
  rw [atom?_eq] at h
  split at h
  · rename_i hd
    obtain ⟨rfl, rfl⟩ : _ = e ∧ _ = rest := by simpa using h
    obtain ⟨d, rfl, rfl⟩ := readNumber_sound hd
    exact ⟨.number d, rfl, rfl⟩
  · rcases Option.or_eq_some_iff.1 h with h | ⟨-, h⟩
    · exact ih.memberTree ht e rest h
    · exact ih.groupTree ht e rest h

private theorem signedTree_succ (ht : t.length < n + 1) :
    ReadsTree signed? Signed.source Signed.expr t := by
  intro e rest h
  rw [signed?_eq] at h
  split at h
  · simp at h
  · rename_i c behind
    have hb := length_skipSpace_le behind
    have hc := ht
    rw [List.length_cons] at ht
    obtain ⟨s, hs⟩ := exists_space behind
    split at h
    · rename_i hsign
      obtain ⟨⟨e', rest'⟩, hr, he⟩ := Option.map_eq_some_iff.1 h
      obtain ⟨rfl, rfl⟩ : _ = e ∧ rest' = rest := by simpa using he
      obtain ⟨operand, hread, rfl⟩ := ih.signed _ (by omega) _ _ hr
      exact ⟨.minus s operand, by rw [hs, hread, hsign]; simp [Signed.source], rfl⟩
    · split at h
      · rename_i hsign
        obtain ⟨operand, hread, rfl⟩ := ih.signed _ (by omega) _ _ h
        exact ⟨.plus s operand, by rw [hs, hread, hsign]; simp [Signed.source], rfl⟩
      · obtain ⟨a, ha, rfl⟩ := ih.atomTree hc e rest h
        exact ⟨.atom a, ha, rfl⟩

private theorem moreTree_succ (l : Level) (left : Expr) (ht : t.length < n + 1) :
    ∃ m : More l, t = m.source ++ (Expr.more l left t).2 ∧
      m.join left = (Expr.more l left t).1 := by
  rw [more_eq]
  split
  · exact ⟨.nil, rfl, rfl⟩
  · rename_i c behind hs
    have hb := length_skipSpace_le behind
    have hlen := length_skipSpace_le t
    rw [hs, List.length_cons] at hlen
    split
    · exact ⟨.nil, rfl, rfl⟩
    · rename_i op hop
      split
      · exact ⟨.nil, rfl, rfl⟩
      · rename_i right rest hr
        have hl := length_lt_of_operand? hr
        obtain ⟨operand, hread, rfl⟩ := ih.operandTree l (by omega) _ _ hr
        obtain ⟨m, hm, hjoin⟩ := ih.more l (.binary op left operand.expr) rest (by omega)
        obtain ⟨before, hbefore⟩ := exists_space_of_skipSpace hs
        obtain ⟨after, hafter⟩ := exists_space behind
        have hmark := Level.operator?_eq_some_iff.1 hop
        refine ⟨.cons ⟨before, c, op, hmark, after⟩ operand m, ?_, hjoin⟩
        rw [hbefore, hafter, hread]
        simp only [More.source, List.append_assoc, List.cons_append]
        rw [← hm]

private theorem levelTree_of_operand {l : Level} (ht : t.length < n + 1)
    (hOperand : ReadsTree (operand? l) (Operand.source (l := l)) Operand.expr t) :
    ReadsTree (level? l) (Chain.source (l := l)) Chain.expr t := by
  intro e rest h
  rw [level?_eq] at h
  obtain ⟨⟨e', rest'⟩, hr, he⟩ := Option.map_eq_some_iff.1 h
  have hl := length_lt_of_operand? hr
  obtain ⟨first, rfl, rfl⟩ := hOperand _ _ hr
  obtain ⟨m, hm, hjoin⟩ := ih.moreTree_succ l first.expr (t := rest') (by omega)
  rw [show Expr.more l first.expr rest' = (e, rest) from he] at hm hjoin
  exact ⟨.mk first m, by rw [hm]; simp [Chain.source], hjoin⟩

/-- The operands of a sum are products, those of a product are signed. -/
private theorem levelTree_succ (l : Level) (ht : t.length < n + 1) :
    ReadsTree (level? l) (Chain.source (l := l)) Chain.expr t := by
  have hProduct : ReadsTree (level? .product) (Chain.source (l := .product)) Chain.expr t := by
    refine ih.levelTree_of_operand ht fun e rest h => ?_
    obtain ⟨s, hs, rfl⟩ := ih.signedTree_succ ht e rest h
    exact ⟨.signed s, hs, rfl⟩
  cases l with
  | sum =>
    refine ih.levelTree_of_operand ht fun e rest h => ?_
    obtain ⟨chain, hc, rfl⟩ := hProduct e rest h
    exact ⟨.product chain, hc, rfl⟩
  | product => exact hProduct

private theorem argumentsTree_succ (ht : t.length < n + 1) :
    ReadsTree arguments? CallTail.source CallTail.exprs t := by
  intro args rest h
  rw [arguments?_eq] at h
  have hb := length_skipSpace_le t
  split at h
  · simp at h
  · rename_i e middle hl
    have hlt := length_lt_of_level? hl
    obtain ⟨argument, hread, rfl⟩ := ih.levelTree_succ .sum (by omega) _ _ hl
    obtain ⟨before, hbefore⟩ := exists_space_of_skipSpace hread
    split at h
    · rename_i hc
      obtain ⟨rfl, rfl⟩ : _ = args ∧ _ = rest := by simpa using h
      obtain ⟨behind, rfl⟩ := exists_space_of_skipSpace hc
      exact ⟨.last before argument behind, by rw [hbefore]; simp [CallTail.source], rfl⟩
    · rename_i inside hc
      obtain ⟨⟨args', rest'⟩, hr, he⟩ := Option.map_eq_some_iff.1 h
      obtain ⟨rfl, rfl⟩ : _ = args ∧ rest' = rest := by simpa using he
      have hlen := (suffix_of_skipSpace hc).length_le
      obtain ⟨tail, rfl, rfl⟩ := ih.arguments _ (by omega) _ _ hr
      obtain ⟨behind, rfl⟩ := exists_space_of_skipSpace hc
      exact ⟨.cons before argument behind tail, by rw [hbefore]; simp [CallTail.source], rfl⟩
    · simp at h

end ReadsTreeBelow

private theorem readsTreeBelow (n : Nat) : ReadsTreeBelow n := by
  induction n with
  | zero => exact ⟨by simp, by simp, by simp, by simp⟩
  | succ n ih =>
    exact ⟨fun l _ => ih.levelTree_succ l, fun _ => ih.signedTree_succ,
      fun l e _ => ih.moreTree_succ l e, fun _ => ih.argumentsTree_succ⟩

theorem level?_sound {l : Level} {t rest : Text} {e : Expr} (h : level? l t = some (e, rest)) :
    ∃ chain : Chain l, t = chain.source ++ rest ∧ chain.expr = e :=
  (readsTreeBelow (t.length + 1)).level l t (Nat.lt_succ_self _) e rest h

/-! ## Texts without the blanks at their ends -/

/-- The text without the spaces, tabs and line breaks around it. -/
def strip (t : Text) : Text := (skipSpace (skipSpace t).reverse).reverse

theorem exists_strip (t : Text) : ∃ s : Space, skipSpace t = strip t ++ s.1 := by
  obtain ⟨s, hs⟩ := exists_space (skipSpace t).reverse
  refine ⟨⟨s.1.reverse, fun c hc => s.2 c (List.mem_reverse.1 hc)⟩, ?_⟩
  rw [strip, ← List.reverse_append, ← hs, List.reverse_reverse]

theorem strip_eq {t u : Text} {s : Space} (h : skipSpace t = u ++ s.1) (hu : EndsSolid u) :
    strip t = u := by
  obtain ⟨v, c, rfl, hc⟩ := hu
  have hs : ∀ d ∈ s.1.reverse, d.isWhitespace = true := fun d hd => s.2 d (List.mem_reverse.1 hd)
  rw [strip, h, List.reverse_append, skipSpace_append ⟨s.1.reverse, hs⟩, List.reverse_append,
    List.reverse_singleton, List.singleton_append, skipSpace_cons _ hc, List.reverse_cons,
    List.reverse_reverse]

theorem Space.skipSpace_eq_nil (s : Space) : skipSpace s.1 = [] := by
  simpa [skipSpace] using skipSpace_append s []

/-! ## Whole texts -/

/-- The tree spells the text, with all numbers and names as long as they can be. -/
def Chain.Derives {l : Level} (d : Chain l) (t : Text) : Prop := d.source = t ∧ d.IsLongest []

theorem Chain.parse_of_derives {d : Chain .sum} {t : Text} (h : d.Derives (strip t)) :
    parse t = .ok d.expr := by
  obtain ⟨s, hs⟩ := exists_strip t
  have hread : level? .sum (skipSpace t) = some (d.expr, s.1) := by
    rw [hs, ← h.1]
    exact d.read (by simp [Follows, s.skipSpace_eq_nil])
  rw [parse, parseStart?_eq, hread]
  simp only [s.skipSpace_eq_nil]

theorem exists_derives_of_parse {t : Text} {e : Expr} (h : parse t = .ok e) :
    ∃ d : Chain .sum, d.Derives (strip t) ∧ d.expr = e := by
  unfold parse at h
  split at h
  · simp at h
  · rename_i e' rest hread
    split at h
    · rename_i hrest
      obtain rfl : e' = e := by simpa using h
      obtain ⟨d, hd, rfl⟩ := level?_sound hread
      obtain ⟨s, rfl⟩ := exists_space_of_skipSpace hrest
      rw [List.append_nil] at hd
      exact ⟨d, ⟨(strip_eq hd d.endsSolid).symm, d.isLongest follows_nil⟩, rfl⟩
    · simp at h

/-- A text that is no expression is reported as such. -/
theorem parse_cases (t : Text) :
    (∃ e, parse t = .ok e) ∨ ∃ fault, parse t = .error (.invalidExpression t fault) := by
  unfold parse
  split
  · exact .inr ⟨_, rfl⟩
  · split
    · exact .inl ⟨_, rfl⟩
    · exact .inr ⟨_, rfl⟩

/-- What is read as an expression is what a tree spells, blanks around it aside; one tree at
most spells it, and the expression read is what that tree stands for. -/
theorem parse_eq_ok_iff_derives (t : Text) :
    (∀ e, parse t = .ok e ↔ ∃ d : Chain .sum, d.Derives (strip t) ∧ d.expr = e) ∧
    (∀ d d' : Chain .sum, d.Derives (strip t) → d'.Derives (strip t) → d = d') ∧
    ((∃ fault, parse t = .error (.invalidExpression t fault)) ↔
      ¬ ∃ d : Chain .sum, d.Derives (strip t)) := by
  have hok (e : Expr) : parse t = .ok e ↔ ∃ d : Chain .sum, d.Derives (strip t) ∧ d.expr = e := by
    constructor
    · exact exists_derives_of_parse
    · rintro ⟨d, hd, rfl⟩
      exact Chain.parse_of_derives hd
  refine ⟨hok, fun d d' hd hd' => d.source_inj d' (hd.1.trans hd'.1.symm), ?_⟩
  constructor
  · rintro ⟨fault, herror⟩ ⟨d, hd⟩
    rw [Chain.parse_of_derives hd] at herror
    exact nomatch herror
  · intro hnone
    obtain ⟨e, he⟩ | herror := parse_cases t
    · obtain ⟨d, hd, -⟩ := (hok e).1 he
      exact absurd ⟨d, hd⟩ hnone
    · exact herror

section Written

private def gap : Space := ⟨[' '], by simp⟩

private def noGap : Space := ⟨[], by simp⟩

private def Signed.alone (s : Signed) : Chain .sum := .mk (.product (.mk (.signed s) .nil)) .nil

/-- The tree of `Math.max(1, -.5) % 2`. -/
private def maxRemTwo : Chain .product :=
  let first : Signed := .atom (.number (.integer ⟨['1'], by simp⟩))
  let second : Signed := .minus noGap (.atom (.number (.point ⟨['5'], by simp⟩)))
  let max : Name := ⟨'m', ['a', 'x'], by decide, by simp [Text.isWordChar]⟩
  let two : Atom := .number (.integer ⟨['2'], by simp⟩)
  .mk (.signed (.atom (.call max noGap
      (.cons noGap first.alone noGap (.last gap second.alone noGap)))))
    (.cons ⟨gap, '%', .rem, .rem, gap⟩ (.signed (.atom two)) .nil)

/-- The tree of `30.25 * Math.LOG10_E / 05`. -/
private def scaledLog : Chain .product :=
  let factor : Atom := .number (.decimal ⟨['3', '0'], by simp⟩ ⟨['2', '5'], by simp⟩)
  let log : Name := ⟨'L', "OG10_E".toList, by decide, by simp [Text.isWordChar]⟩
  let five : Atom := .number (.integer ⟨['0', '5'], by simp⟩)
  .mk (.signed (.atom factor))
    (.cons ⟨gap, '*', .mul, .mul, gap⟩ (.signed (.atom (.constant log)))
      (.cons ⟨gap, '/', .div, .div, gap⟩ (.signed (.atom five)) .nil))

private def writtenSum : Chain .sum :=
  let six : Signed := .plus noGap (.atom (.number (.integer ⟨['6'], by simp⟩)))
  .mk (.product maxRemTwo)
    (.cons ⟨gap, '+', .add, .add, gap⟩ (.product scaledLog)
      (.cons ⟨gap, '-', .sub, .sub, gap⟩ (.product (.mk (.signed six) .nil)) .nil))

/-- A number of each form and every operator, in one text. -/
theorem parse_eq_ok_iff_derives_max :
    parse "\tMath.max(1, -.5) % 2 + 30.25 * Math.LOG10_E / 05 - +6\n".toList =
      .ok (.binary .sub
        (.binary .add
          (.binary .rem (.call "max".toList [.number ⟨1, 0⟩, .neg (.number ⟨5, -1⟩)])
            (.number ⟨2, 0⟩))
          (.binary .div (.binary .mul (.number ⟨3025, -2⟩) (.constant "LOG10_E".toList))
            (.number ⟨5, 0⟩)))
        (.number ⟨6, 0⟩)) := by
  refine ((parse_eq_ok_iff_derives _).1 _).2 ⟨writtenSum, ⟨by decide, ?_⟩, rfl⟩
  exact writtenSum.isLongest follows_nil

end Written

end TextTransforms.Expr
