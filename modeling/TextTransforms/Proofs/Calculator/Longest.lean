import Mathlib.Order.Bounds.Defs
import TextTransforms.Calculator.Line
import TextTransforms.Proofs.Calculator.Acceptance

/-!
# The longest expression at the start of a text

A reader that is given what a tree spells, with any text behind it, reads at least that far
(`Chain.readsThrough`): a number or a name may go on behind the tree, an operator may follow,
but nothing is given up. With soundness, what is read from the start of a text is the longest
part of it that is an expression by itself and has no blank at its ends, and it is the same
expression (`parsePrefix?_longest`).
-/

namespace TextTransforms.Expr

/-! ## Nothing is given up -/

/-- In front of any text, `t` is read to its end or further. -/
def ReadsThrough {α : Type} (read : Text → Option (α × Text)) (t : Text) : Prop :=
  ∀ rest, ∃ a rest', read (t ++ rest) = some (a, rest') ∧ rest'.length ≤ rest.length

theorem length_more_le (l : Level) (left : Expr) (t : Text) :
    (more l left t).2.length ≤ t.length :=
  (readMore l left t).property

private theorem dropDigits (d : Digits) (t : Text) :
    (d.1 ++ t).dropWhile Char.isDigit = t.dropWhile Char.isDigit :=
  List.dropWhile_append_of_pos d.2.2

private theorem takeDigits_ne_nil (d : Digits) (t : Text) :
    (d.1 ++ t).takeWhile Char.isDigit ≠ [] := by
  rw [List.takeWhile_append_of_pos d.2.2]
  exact fun h => d.2.1 (List.append_eq_nil_iff.1 h).1

/-- A point with digits behind it ends a number, whatever digits stand before it. -/
private theorem readNumber_point {t : Text} (fraction : Digits) (rest : Text)
    (h : t.dropWhile Char.isDigit = '.' :: (fraction.1 ++ rest)) :
    readNumber t = some (.ofDigits (t.takeWhile Char.isDigit)
      ((fraction.1 ++ rest).takeWhile Char.isDigit), rest.dropWhile Char.isDigit) := by
  have hne := takeDigits_ne_nil fraction rest
  simp [readNumber, h, hne, dropDigits]

theorem DecimalText.readsThrough (n : DecimalText) : ReadsThrough readNumber n.source := by
  intro rest
  have hle := Text.length_dropWhile_le Char.isDigit
  cases n with
  | integer whole =>
    unfold readNumber
    rw [source, dropDigits]
    dsimp only
    split
    · refine ⟨_, _, rfl, (hle _).trans ?_⟩
      rw [List.length_tail]
      exact (Nat.sub_le _ _).trans (hle rest)
    · rw [if_pos (takeDigits_ne_nil whole rest)]
      exact ⟨_, _, rfl, hle rest⟩
  | decimal whole fraction =>
    refine ⟨_, _, readNumber_point fraction rest ?_, hle rest⟩
    rw [source, List.append_assoc, dropDigits]
    rfl
  | point fraction =>
    exact ⟨_, _, readNumber_point fraction rest rfl, hle rest⟩

theorem Name.readsThrough (n : Name) : ReadsThrough readName n.source := by
  intro rest
  have hdrop : (n.others ++ rest).dropWhile Text.isWordChar = rest.dropWhile Text.isWordChar :=
    List.dropWhile_append_of_pos n.isWordChar
  refine ⟨n.first :: (n.others ++ rest).takeWhile Text.isWordChar, _, ?_,
    Text.length_dropWhile_le Text.isWordChar rest⟩
  simp only [source, text, readName, List.cons_append, n.isAlpha, if_true, hdrop]

/-- Behind a name, arguments may follow. -/
private theorem exists_member {t name rest : Text} (h : readName t = some (name, rest)) :
    ∃ e rest', member? t = some (e, rest') ∧ rest'.length ≤ rest.length := by
  rw [member?_eq, h]
  simp only
  split
  · rename_i behind hs
    cases hr : arguments? behind with
    | none => exact ⟨_, _, rfl, Nat.le_refl _⟩
    | some r =>
      have hle := (suffix_of_skipSpace hs).length_le
      have hlt := length_lt_of_arguments? hr
      exact ⟨_, _, rfl, by omega⟩
  · exact ⟨_, _, rfl, Nat.le_refl _⟩

/-- What follows an operand goes on where the operand ends, unless the operand is the last one;
then there is nothing to lose. -/
private theorem ReadsThrough.exists_behind {l : Level} {o : Operand l} {m : More l} {rest : Text}
    (ho : ReadsThrough (operand? l) o.source)
    (hm : ∀ left, (more l left (m.source ++ rest)).2.length ≤ rest.length) :
    ∃ right behind, operand? l (o.source ++ (m.source ++ rest)) = some (right, behind) ∧
      ∀ left, (more l left behind).2.length ≤ rest.length := by
  cases m with
  | nil =>
    obtain ⟨right, behind, hr, hle⟩ := ho rest
    exact ⟨right, behind, hr, fun left => (length_more_le l left behind).trans hle⟩
  | cons link operand m =>
    have hf : Follows l.operandFollow ((More.cons link operand m).source ++ rest) := by
      rw [More.source, List.append_assoc]
      exact follows_cons _ _ link.mark_spec.1 link.mark_spec.2
    exact ⟨_, _, o.read hf, hm⟩

mutual

theorem Operand.readsThrough {l : Level} : (o : Operand l) → ReadsThrough (operand? l) o.source
  | .product chain => chain.readsThrough
  | .signed s => s.readsThrough

theorem Chain.readsThrough {l : Level} : (chain : Chain l) → ReadsThrough (level? l) chain.source
  | .mk first more => fun rest => by
    obtain ⟨right, behind, hr, hle⟩ := first.readsThrough.exists_behind (more.readsThrough rest)
    rw [level?_source, hr]
    exact ⟨_, _, rfl, hle right⟩

theorem More.readsThrough {l : Level} :
    (m : More l) → ∀ rest left, (more l left (m.source ++ rest)).2.length ≤ rest.length
  | .nil => fun rest left => length_more_le l left rest
  | .cons link operand m => fun rest left => by
    obtain ⟨right, behind, hr, hle⟩ := operand.readsThrough.exists_behind (m.readsThrough rest)
    rw [more_source rest hr]
    exact hle _

theorem Signed.readsThrough : (s : Signed) → ReadsThrough signed? s.source
  | .minus behind operand => fun rest => by
    obtain ⟨e, rest', hr, hle⟩ := operand.readsThrough rest
    rw [signed?_minus, hr]
    exact ⟨_, _, rfl, hle⟩
  | .plus behind operand => fun rest => by
    rw [signed?_plus]
    exact operand.readsThrough rest
  | .atom a => fun rest => by
    rw [signed?_atom]
    exact a.readsThrough rest

theorem Atom.readsThrough : (a : Atom) → ReadsThrough atom? a.source
  | .number n => fun rest => by
    obtain ⟨d, rest', hr, hle⟩ := n.readsThrough rest
    rw [Atom.source, atom?_eq, hr]
    exact ⟨_, _, rfl, hle⟩
  | .constant name => fun rest => by
    obtain ⟨text, behind, hn, hle⟩ := name.readsThrough rest
    obtain ⟨e, rest', hr, hle'⟩ := exists_member hn
    rw [Atom.source, atom?_source_of_name, hr]
    exact ⟨_, _, rfl, hle'.trans hle⟩
  | .call name behind tail => fun rest =>
    ⟨_, _, atom?_call (tail.read rest) name behind, Nat.le_refl _⟩
  | .group before body behind => fun rest =>
    ⟨_, _, atom?_group (body.read (follows_paren behind rest)) before, Nat.le_refl _⟩

end

/-! ## The longest expression -/

/-- The expression at the start of a text, and how many bytes it takes. -/
def parsePrefix? (t : Text) : Option (Expr × Nat) :=
  (parseStart? t).map fun (e, rest) => (e, t.utf8Length - rest.utf8Length)

/-- The text is the expression by itself, with no blank at its ends. -/
structure Spells (u : Text) (e : Expr) : Prop where
  startsSolid : StartsSolid u
  endsSolid : EndsSolid u
  parse_eq : parse u = .ok e

/-- The first `n` bytes of the text spell the expression. -/
def IsSpan (t : Text) (n : Nat) (e : Expr) : Prop :=
  ∃ u rest, t = u ++ rest ∧ u.utf8Length = n ∧ Spells u e

theorem strip_eq_self {u : Text} (hs : StartsSolid u) (he : EndsSolid u) : strip u = u := by
  have hskip := skipSpace_of_startsSolid hs []
  exact strip_eq (s := ⟨[], by simp⟩) (by rwa [List.append_nil] at hskip ⊢) he

theorem spells_iff {u : Text} {e : Expr} :
    Spells u e ↔ ∃ d : Chain .sum, d.source = u ∧ d.expr = e := by
  constructor
  · rintro ⟨hs, he, h⟩
    obtain ⟨d, ⟨hd, -⟩, rfl⟩ := exists_derives_of_parse h
    exact ⟨d, hd.trans (strip_eq_self hs he), rfl⟩
  · rintro ⟨d, rfl, rfl⟩
    refine ⟨d.startsSolid, d.endsSolid, Chain.parse_of_derives ⟨?_, d.isLongest follows_nil⟩⟩
    exact (strip_eq_self d.startsSolid d.endsSolid).symm

theorem IsSpan.expr_eq {t : Text} {n : Nat} {e e' : Expr} (h : IsSpan t n e)
    (h' : IsSpan t n e') : e = e' := by
  obtain ⟨u, rest, ht, hn, hu⟩ := h
  obtain ⟨u', rest', ht', hn', hu'⟩ := h'
  obtain rfl := Text.eq_of_utf8Length_eq (ht.symm.trans ht') (hn.trans hn'.symm)
  exact Except.ok.inj (hu.parse_eq.symm.trans hu'.parse_eq)

theorem isSpan_of_parsePrefix? {t : Text} {n : Nat} {e : Expr}
    (h : parsePrefix? t = some (e, n)) : IsSpan t n e := by
  obtain ⟨⟨e', rest⟩, hr, he⟩ := Option.map_eq_some_iff.1 h
  obtain ⟨rfl, rfl⟩ : e' = e ∧ _ = n := by simpa using he
  obtain ⟨d, rfl, rfl⟩ := level?_sound hr
  exact ⟨d.source, rest, rfl, by simp, spells_iff.2 ⟨d, rfl, rfl⟩⟩

/-- No span is longer than what is read. -/
theorem IsSpan.exists_parsePrefix? {t : Text} {m : Nat} {e' : Expr} (h : IsSpan t m e') :
    ∃ e n, parsePrefix? t = some (e, n) ∧ m ≤ n := by
  obtain ⟨u, rest, rfl, rfl, hu⟩ := h
  obtain ⟨d, rfl, -⟩ := spells_iff.1 hu
  obtain ⟨e, rest', hr, hle⟩ := d.readsThrough rest
  refine ⟨e, _, by rw [parsePrefix?, parseStart?_eq, hr]; rfl, ?_⟩
  -- Both rests are ends of the text, so the shorter one is an end of the other.
  obtain ⟨v, rfl⟩ := List.suffix_of_suffix_length_le (level?_suffix hr)
    (List.suffix_append d.source rest) hle
  simp only [Text.utf8Length_append]
  omega

end TextTransforms.Expr

/-! ## What is found on a line -/

namespace TextTransforms.Calculator

open TextTransforms.Expr

/-- What stands between quotes, a boolean word, or an expression by itself. -/
inductive Located.IsFound (l : Located) : Prop
  | quoted (h : l.span = backtick :: l.expression ++ [backtick])
  | word (h : l.span = l.expression) (hw : l.expression ∈ booleans.map Prod.fst)
  | arithmetic (h : l.span = l.expression) (e : Expr) (he : Spells l.expression e)

theorem Located.IsFound.behind {l : Located} (head : Text) (h : l.IsFound) :
    (l.behind head).IsFound := by
  cases h with
  | quoted h => exact .quoted h
  | word h hw => exact .word h hw
  | arithmetic h e he => exact .arithmetic h e he

theorem isFound_of_spanAt? {t : Text} {l : Located} (h : spanAt? t = some l) : l.IsFound := by
  unfold spanAt? at h
  split at h
  · rename_i b hb
    obtain rfl : _ = l := by simpa using h
    exact .word rfl (List.mem_map.2 ⟨_, (booleanAt?_eq hb).2, rfl⟩)
  · obtain ⟨⟨e, rest⟩, hr, rfl⟩ := Option.map_eq_some_iff.1 h
    obtain ⟨d, rfl, rfl⟩ := level?_sound hr
    exact .arithmetic rfl d.expr (spells_iff.2 ⟨d, by simp, rfl⟩)

theorem isFound_of_spanFrom? {inWord : Bool} {t : Text} {l : Located}
    (h : spanFrom? inWord t = some l) : l.IsFound := by
  induction t generalizing inWord l with
  | nil => simp [spanFrom?] at h
  | cons c t ih =>
    rw [spanFrom?] at h
    split at h
    · rename_i l' hl
      obtain rfl : l' = l := by simpa using h
      split at hl
      · simp at hl
      · exact isFound_of_spanAt? hl
    · obtain ⟨l', hl, rfl⟩ := Option.map_eq_some_iff.1 h
      exact (ih hl).behind [c]

theorem span_of_quotedSpan? {t : Text} {l : Located} (h : quotedSpan? t = some l) :
    l.span = backtick :: l.expression ++ [backtick] := by
  induction t generalizing l with
  | nil => simp [quotedSpan?] at h
  | cons c t ih =>
    have step : (quotedSpan? t).map (Located.behind [c]) = some l →
        l.span = backtick :: l.expression ++ [backtick] := by
      intro h
      obtain ⟨l', hl, rfl⟩ := Option.map_eq_some_iff.1 h
      have hl' := ih hl
      exact hl'
    rw [quotedSpan?] at h
    split at h
    · split at h
      · simp at h
      · exact step h
      · obtain rfl : _ = l := by simpa using h
        rfl
    · exact step h

theorem isFound_of_locate {line : Text} {l : Located} (h : locate line = .ok l) : l.IsFound := by
  unfold locate at h
  dsimp only at h
  split at h
  · rename_i l' hl
    obtain rfl : _ = l := by simpa using h
    rcases Option.or_eq_some_iff.1 hl with hl | ⟨-, hl⟩
    · exact Located.IsFound.behind _ (.quoted (span_of_quotedSpan? hl))
    · exact (isFound_of_spanFrom? hl).behind _
  · simp at h

end TextTransforms.Calculator

/-! ## The two readers agree -/

namespace TextTransforms.Expr

/-- What is read from the start of a text is its longest span and the expression that the span
is by itself; nothing is read only if there is no span. So what is found on a line, if it is
neither quoted nor a boolean word, is an expression. -/
theorem parsePrefix?_longest (t : Text) :
    (∀ e n, parsePrefix? t = some (e, n) ↔
      IsSpan t n e ∧ IsGreatest {m | ∃ e', IsSpan t m e'} n) ∧
    (parsePrefix? t = none ↔ ∀ n e, ¬ IsSpan t n e) ∧
    (∀ l, Calculator.locate t = .ok l → l.IsFound) := by
  refine ⟨fun e n => ⟨fun h => ?_, ?_⟩, ⟨fun h n e he => ?_, fun h => ?_⟩,
    fun l => Calculator.isFound_of_locate⟩
  · refine ⟨isSpan_of_parsePrefix? h, ⟨e, isSpan_of_parsePrefix? h⟩, ?_⟩
    rintro m ⟨e', he'⟩
    obtain ⟨e'', n', h', hle⟩ := he'.exists_parsePrefix?
    obtain ⟨rfl, rfl⟩ : e'' = e ∧ n' = n := by simpa [h'] using h
    exact hle
  · rintro ⟨he, -, hgreatest⟩
    obtain ⟨e', n', h', hle⟩ := he.exists_parsePrefix?
    have he' := isSpan_of_parsePrefix? h'
    obtain rfl : n' = n := Nat.le_antisymm (hgreatest ⟨e', he'⟩) hle
    rw [h', he'.expr_eq he]
  · obtain ⟨e', n', h', -⟩ := he.exists_parsePrefix?
    rw [h] at h'
    exact nomatch h'
  · cases hp : parsePrefix? t with
    | none => rfl
    | some p => exact absurd (isSpan_of_parsePrefix? hp) (h p.2 p.1)

/-- There is a tree of `6*7`. -/
private theorem exists_product : ∃ chain : Chain .sum, chain.source = "6*7".toList := by
  let none : Space := ⟨[], by simp⟩
  let number (c : Char) (h : c.isDigit = true) : Operand .product :=
    .signed (.atom (.number (.integer ⟨[c], by simp, by simpa using h⟩)))
  exact ⟨.mk (.product (.mk (number '6' rfl)
    (.cons ⟨none, '*', .mul, .mul, none⟩ (number '7' rfl) .nil))) .nil, rfl⟩

theorem parsePrefix?_longest_product :
    IsGreatest {m | ∃ e, IsSpan "6*7, 8".toList m e} 3 ∧
      ∃ e, Spells "6*7".toList e := by
  obtain ⟨chain, hsource⟩ := exists_product
  have hread := chain.read (follows_comma ⟨[], by simp⟩ " 8".toList)
  rw [hsource] at hread
  have hparse : parsePrefix? "6*7, 8".toList = some (chain.expr, 3) := by
    rw [parsePrefix?, parseStart?_eq]
    exact congrArg _ hread
  refine ⟨(((parsePrefix?_longest _).1 _ _).1 hparse).2, ?_⟩
  let found : Calculator.Located := ⟨[], "6*7".toList, "6*7".toList, ", 8".toList⟩
  have hspan : Calculator.spanAt? "6*7, 8".toList = some found := by
    have hword : Calculator.booleanAt? "6*7, 8".toList = none := by decide
    simp only [Calculator.spanAt?, hword]
    exact congrArg _ hread
  have hlocate : Calculator.locate "6*7, 8".toList = .ok found := by
    have hquoted : Calculator.quotedSpan? "6*7, 8".toList = none := by decide
    have hregion : Calculator.searchRegion "6*7, 8".toList = "6*7, 8".toList := by decide
    have hfrom : Calculator.spanFrom? false "6*7, 8".toList = some found := by
      change Calculator.spanFrom? false ('6' :: "*7, 8".toList) = some found
      rw [Calculator.spanFrom?, if_neg Bool.false_ne_true,
        show Calculator.spanAt? ('6' :: "*7, 8".toList) = some found from hspan]
    simp only [Calculator.locate, hregion, hquoted, hfrom, Option.none_or]
    rfl
  cases (parsePrefix?_longest _).2.2 found hlocate with
  | quoted h => exact absurd h (by decide)
  | word h hw => exact absurd hw (by decide)
  | arithmetic h e he => exact ⟨e, he⟩

end TextTransforms.Expr
