import TextTransforms.Proofs.Calculator.Flips
import TextTransforms.Proofs.Calculator.Written

/-!
# A line that is an expression

The search on a line passes over comment marks, and a minus is one of them. So of a line that
is an expression, the minus signs that stand together at its start are lost, with the blanks
behind them (`Chain.behindMinus`), and the rest is found as a whole (`Chain.locate_between`).
Without such a sign the line is computed as it is by itself (`locate_expression`).
-/

namespace TextTransforms.Calculator

theorem quotedSpan?_eq_none {t : Text} (h : backtick ∉ t) : quotedSpan? t = none := by
  induction t with
  | nil => rfl
  | cons c t ih =>
    have hc : c ≠ backtick := fun e => h (e ▸ List.mem_cons_self)
    rw [quotedSpan?, if_neg hc, ih fun hm => h (List.mem_cons_of_mem c hm)]
    rfl

theorem isGap_of_space (s : Expr.Space) : IsGap s.1 :=
  fun c hc => (Expr.not_isWordChar_of_isWhitespace (s.2 c hc)).1

end TextTransforms.Calculator

namespace TextTransforms.Expr

open Calculator

/-! ## Behind the minus signs -/

/-- The operand behind the minus signs that stand together at its start. -/
def Signed.behindMinus : Signed → Signed
  | .minus behind operand => if behind.1 = [] then operand.behindMinus else operand
  | .plus behind operand => .plus behind operand
  | .atom a => .atom a

def Chain.behindMinus : Chain .sum → Chain .sum
  | .mk (.product (.mk (.signed s) factors)) terms =>
    .mk (.product (.mk (.signed s.behindMinus) factors)) terms

theorem Signed.behindMinus_eq_self {s : Signed} (h : s.source.head? ≠ some '-') :
    s.behindMinus = s := by
  cases s with
  | minus behind operand => exact absurd rfl h
  | plus behind operand => rfl
  | atom a => rfl

theorem Chain.behindMinus_eq_self {d : Chain .sum} (h : d.source.head? ≠ some '-') :
    d.behindMinus = d := by
  match d, h with
  | .mk (.product (.mk (.signed s) factors)) terms, h =>
    obtain ⟨c, t, hs, -⟩ := s.startsSolid
    have hhead : s.source.head? ≠ some '-' := by
      rw [hs]
      simpa [Chain.source, Operand.source, hs] using h
    rw [behindMinus, Signed.behindMinus_eq_self hhead]

/-- An expression starts with the signs and the atom of its first operand. -/
theorem Chain.exists_first (d : Chain .sum) :
    ∃ (s : Signed) (tail : Text),
      d.source = s.source ++ tail ∧ d.behindMinus.source = s.behindMinus.source ++ tail := by
  match d with
  | .mk (.product (.mk (.signed s) factors)) terms =>
    refine ⟨s, factors.source ++ terms.source, ?_, ?_⟩
    · simp only [source, Operand.source, List.append_assoc]
    · simp only [behindMinus, source, Operand.source, List.append_assoc]

/-- An atom does not start with a character that starts no number, name or group. -/
theorem Atom.exists_cons_notMem (a : Atom) (cs : List Char)
    (hdigit : ∀ c ∈ cs, c.isDigit = false) (hcs : ∀ c ∈ ['.', 'M', '('], c ∉ cs) :
    ∃ c t, a.source = c :: t ∧ c ∉ cs := by
  obtain ⟨c, t, e, hc⟩ := a.exists_cons
  refine ⟨c, t, e, ?_⟩
  rcases hc with hc | hc
  · exact fun hm => absurd hc (by simp [hdigit c hm])
  · exact hcs c (by simpa using hc)

section DropWhile

variable {p : Char → Bool} (hminus : p '-' = true) (hp : ∀ c, p c = true → c ∈ commentMarks)
include hminus hp

omit hminus in
private theorem dropWhile_of_notMem {c : Char} (h : c ∉ commentMarks) (t : Text) :
    (c :: t).dropWhile p = c :: t :=
  List.dropWhile_cons_of_neg fun hc => h (hp c hc)

/-- Dropping comment marks, or minus signs alone, stops behind the first minus that is set off. -/
theorem Signed.trimStart_dropWhile (rest : Text) (s : Signed) :
    Text.trimStart ((s.source ++ rest).dropWhile p) = s.behindMinus.source ++ rest := by
  cases s with
  | minus behind operand =>
    rw [source, List.cons_append, List.dropWhile_cons_of_pos hminus, behindMinus]
    split
    · rename_i hb
      rw [hb, List.nil_append]
      exact operand.trimStart_dropWhile rest
    · rename_i hb
      obtain ⟨c, t, hc⟩ := List.exists_cons_of_ne_nil hb
      have hspace : c.isWhitespace = true := behind.2 c (by rw [hc]; exact List.mem_cons_self)
      have hmark : c ∉ commentMarks := fun hm => by
        have marks : commentMarks.all (fun c => !c.isWhitespace) = true := by decide
        have := List.all_eq_true.1 marks c hm
        simp [hspace] at this
      have hdrop : (behind.1 ++ operand.source ++ rest).dropWhile p =
          behind.1 ++ operand.source ++ rest := by
        rw [hc]
        exact dropWhile_of_notMem hp hmark _
      rw [hdrop, List.append_assoc, Text.trimStart_blanks _ behind.isBlanks,
        trimStart_of_startsSolid operand.startsSolid operand.isWritten]
  | plus behind operand =>
    rw [source, List.cons_append, dropWhile_of_notMem hp (by decide), ← List.cons_append, ← source]
    exact trimStart_of_startsSolid (Signed.startsSolid _) (Signed.isWritten _) rest
  | atom a =>
    obtain ⟨c, t, e, hc⟩ := a.exists_cons_notMem commentMarks (by simp [commentMarks])
      (by simp [commentMarks])
    rw [source, e, List.cons_append, dropWhile_of_notMem hp hc, ← List.cons_append, ← e, ← source]
    exact trimStart_of_startsSolid (Signed.startsSolid _) (Signed.isWritten _) rest

theorem Chain.trimStart_dropWhile (rest : Text) (d : Chain .sum) :
    Text.trimStart ((d.source ++ rest).dropWhile p) = d.behindMinus.source ++ rest := by
  obtain ⟨s, tail, hs, hs'⟩ := d.exists_first
  rw [hs, hs', List.append_assoc, List.append_assoc]
  exact s.trimStart_dropWhile hminus hp _

end DropWhile

/-! ## Where the search starts -/

theorem Chain.searchRegion_between (d : Chain .sum) (before after : Space) :
    searchRegion (before.1 ++ d.source ++ after.1) = d.behindMinus.source ++ after.1 := by
  rw [searchRegion, List.append_assoc, Text.trimStart_blanks _ before.isBlanks,
    trimStart_of_startsSolid d.startsSolid d.isWritten]
  exact d.trimStart_dropWhile rfl (fun c hc => List.contains_iff_mem.1 hc) after.1

theorem Chain.trimStart_dropWhile_minus (d : Chain .sum) :
    Text.trimStart (d.source.dropWhile (· == '-')) = d.behindMinus.source := by
  have hdrop := d.trimStart_dropWhile (p := (· == '-')) rfl
    (fun c hc => by rw [eq_of_beq hc]; decide) []
  rwa [List.append_nil, List.append_nil] at hdrop

/-! ## What the search finds -/

theorem Signed.exists_cons (s : Signed) :
    ∃ c t, s.source = c :: t ∧ c ∉ ['t', 'f', 'T', 'F'] := by
  cases s with
  | minus behind operand => exact ⟨'-', _, rfl, by decide⟩
  | plus behind operand => exact ⟨'+', _, rfl, by decide⟩
  | atom a => exact a.exists_cons_notMem _ (by simp) (by simp)

/-- No boolean word starts where an expression starts. -/
theorem Chain.booleanAt?_source (d : Chain .sum) (rest : Text) :
    booleanAt? (d.source ++ rest) = none := by
  obtain ⟨s, tail, hs, -⟩ := d.exists_first
  obtain ⟨c, t, e, hc⟩ := s.exists_cons
  rw [hs, e]
  exact booleanAt?_eq_none hc

theorem Chain.spanFrom?_source (d : Chain .sum) (after : Space) :
    spanFrom? false (d.source ++ after.1) = some ⟨[], d.source, d.source, after.1⟩ := by
  have hread : parseStart? (d.source ++ after.1) = some (d.expr, after.1) :=
    d.read (by simp [Follows, after.skipSpace_eq_nil])
  have hspan : spanAt? (d.source ++ after.1) = some ⟨[], d.source, d.source, after.1⟩ := by
    simp only [spanAt?, d.booleanAt?_source, hread, Option.map_some, List.length_append,
      Nat.add_sub_cancel, List.take_left]
  obtain ⟨c, t, e, -⟩ := d.startsSolid
  rw [e, List.cons_append] at hspan ⊢
  rw [spanFrom?, if_neg Bool.false_ne_true, hspan]

/-- Of an expression between blanks, all is found that is behind its first minus signs. -/
theorem Chain.locate_between (d : Chain .sum) (before after : Space) :
    ∃ head, locate (before.1 ++ d.source ++ after.1) =
      .ok ⟨head, d.behindMinus.source, d.behindMinus.source, after.1⟩ := by
  have hquoted : quotedSpan? (d.behindMinus.source ++ after.1) = none :=
    quotedSpan?_eq_none (notMem_of_isWritten
      (isWritten_append.2 ⟨d.behindMinus.isWritten, after.isWritten⟩) (by decide))
  unfold locate
  simp only [d.searchRegion_between before after, hquoted, d.behindMinus.spanFrom?_source after,
    Option.none_or]
  exact ⟨_, by rw [Located.behind, List.append_nil]⟩

end TextTransforms.Expr

/-! ## What is computed -/

namespace TextTransforms.Calculator

open TextTransforms.Expr

/-- A flipped text with what stands around it; a number stands for itself. -/
def Value.between (s u : Text) : Value → Value
  | number x => .number x
  | flipped t => .flipped (s ++ t ++ u)

theorem evaluate_of_parse {t : Text} {e : Expr} (h : Expr.parse t = .ok e) :
    evaluate t =
      if hasBoolean t then .ok (.flipped (flipBooleans t)) else e.eval.map Value.number := by
  rw [evaluate, h]
  split
  · rfl
  · change (do return Value.number (← e.eval)) = _
    cases e.eval <;> rfl

theorem evaluate_between (d : Chain .sum) (before after : Space) :
    evaluate (before.1 ++ d.source ++ after.1) =
      (evaluate d.source).map (Value.between before.1 after.1) := by
  rw [evaluate_of_parse (d.parse_between before after), evaluate_of_parse d.parse_source,
    hasBoolean_between (isGap_of_space before) (isGap_of_space after),
    flipBooleans_between (isGap_of_space before) (isGap_of_space after)]
  split
  · rfl
  · cases d.expr.eval <;> rfl

theorem evaluateLine_of_locate {line : Text} {l : Located} (h : locate line = .ok l) :
    evaluateLine line = evaluate l.expression := by
  rw [evaluateLine, h]
  rfl

/-- Without a letter or a digit behind it, the span is replaced by the value alone. -/
theorem applyToLine_of_locate {line : Text} {l : Located} (h : locate line = .ok l)
    (hgap : l.after.head?.any Char.isAlphanum = false) :
    applyToLine line = (evaluate l.expression).map fun v => l.before ++ v.text ++ l.after := by
  rw [applyToLine, h]
  change (do
    let value ← evaluate l.expression
    let gap := if l.after.head?.any Char.isAlphanum then [' '] else []
    return l.before ++ value.text ++ gap ++ l.after) = _
  cases evaluate l.expression with
  | error fault => rfl
  | ok value => simp [hgap, Except.map, bind, Except.bind, pure, Except.pure]

theorem any_isAlphanum_of_isBlanks {t : Text} (h : Text.IsBlanks t) :
    t.head?.any Char.isAlphanum = false := by
  cases t with
  | nil => rfl
  | cons c t =>
    refine Bool.eq_false_iff.2 fun hc => ?_
    have hblank := h c List.mem_cons_self
    rw [Text.isBlank_of_isAlphanum hc] at hblank
    exact nomatch hblank

/-! ## The whole line -/

/-- Of a line that is an expression, what is found is all of it but the blanks around it, the
minus signs it starts with and the blanks behind them. That is an expression too, it is what
the line is computed from, and it alone is replaced. Without a minus sign at the start it is the
expression of the line, and the line by itself has the same value. -/
theorem locate_expression {line : Text} {e : Expr} (h : Expr.parse line = .ok e) :
    ∃ l, locate line = .ok l ∧ l.span = l.expression ∧
      line = l.before ++ l.expression ++ l.after ∧ Text.IsBlanks l.after ∧
      l.expression = Text.trimStart ((Text.trim line).dropWhile (· == '-')) ∧
      (∃ e', Expr.parse l.expression = .ok e') ∧
      evaluateLine line = evaluate l.expression ∧
      applyToLine line = (evaluate l.expression).map (fun v => l.before ++ v.text ++ l.after) ∧
      ((Text.trim line).head? ≠ some '-' →
        l.expression = Text.trim line ∧ Text.IsBlanks l.before ∧
        Expr.parse l.expression = .ok e ∧
        evaluate line = (evaluateLine line).map (Value.between l.before l.after)) := by
  obtain ⟨before, d, after, rfl, rfl⟩ := exists_between_of_parse h
  obtain ⟨head, hlocate⟩ := d.locate_between before after
  have hsource : before.1 ++ d.source ++ after.1 = head ++ d.behindMinus.source ++ after.1 :=
    (source_of_locate hlocate).symm
  refine ⟨_, hlocate, rfl, hsource, after.isBlanks, ?_, ⟨_, d.behindMinus.parse_source⟩,
    evaluateLine_of_locate hlocate,
    applyToLine_of_locate hlocate (any_isAlphanum_of_isBlanks after.isBlanks), ?_⟩
  · rw [d.trim_between, d.trimStart_dropWhile_minus]
  · rw [d.trim_between]
    intro hminus
    have hself := Chain.behindMinus_eq_self hminus
    -- The same expression and the same end leave the blanks in front.
    obtain rfl : before.1 = head := by
      rw [hself] at hsource
      exact List.append_cancel_right (List.append_cancel_right hsource)
    refine ⟨congrArg Chain.source hself, before.isBlanks, ?_, ?_⟩
    · simp only [hself, d.parse_source]
    · simp only [evaluateLine_of_locate hlocate, hself, evaluate_between]

/-- There is a tree of `-5 + 3`, and `5 + 3` is behind its sign. -/
private theorem exists_sum :
    ∃ d : Chain .sum, d.source = "-5 + 3".toList ∧ d.behindMinus.source = "5 + 3".toList := by
  let none : Space := ⟨[], by simp⟩
  let one : Space := ⟨[' '], by simp⟩
  let digit (c : Char) (h : c.isDigit = true) : Signed :=
    .atom (.number (.integer ⟨[c], by simp, by simpa using h⟩))
  exact ⟨.mk (.product (.mk (.signed (.minus none (digit '5' rfl))) .nil))
    (.cons ⟨one, '+', .add, .add, one⟩ (.product (.mk (.signed (digit '3' rfl)) .nil)) .nil),
    rfl, rfl⟩

theorem locate_expression_sum :
    ∃ l, locate " 5 + 3\n".toList = .ok l ∧ l.expression = "5 + 3".toList ∧
      evaluateLine " 5 + 3\n".toList = evaluate "5 + 3".toList := by
  obtain ⟨d, -, hd⟩ := exists_sum
  have hparse := d.behindMinus.parse_between ⟨[' '], by simp⟩ ⟨['\n'], by simp⟩
  rw [hd] at hparse
  obtain ⟨l, hl, -, -, -, -, -, heval, -, hwhole⟩ := locate_expression hparse
  have hexpression : l.expression = "5 + 3".toList := (hwhole (by decide)).1.trans (by decide)
  exact ⟨l, hl, hexpression, heval.trans (by rw [hexpression])⟩

/-- A sign at the start is taken for a comment mark. -/
theorem not_forall_located_trim :
    ¬ ∀ line e, Expr.parse line = .ok e → backtick ∉ line →
      ∃ l, locate line = .ok l ∧ l.expression = Text.trim line := by
  intro h
  obtain ⟨d, hd, hd'⟩ := exists_sum
  let none : Space := ⟨[], by simp⟩
  obtain ⟨head, hlocate⟩ := d.locate_between none none
  have hparse := d.parse_between none none
  rw [List.nil_append, List.append_nil, hd] at hparse hlocate
  rw [hd'] at hlocate
  obtain ⟨l, hl, htrim⟩ := h _ _ hparse (by decide)
  obtain rfl := Except.ok.inj (hlocate.symm.trans hl)
  exact absurd (show "5 + 3".toList = Text.trim "-5 + 3".toList from htrim) (by decide)

end TextTransforms.Calculator
