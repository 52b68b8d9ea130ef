import TextTransforms.Proofs.Calculator.Acceptance
import TextTransforms.Proofs.Text.Trim

/-!
# What expressions are written with

Every character of an expression is one of a few (`Chain.isWritten`), so its only blanks are
spaces, tabs and line breaks (`isBlank_eq_isWhitespace`). An accepted text is what a tree
spells, between blanks (`exists_between_of_parse`, `Chain.parse_between`), and trimming it gives
what the tree spells (`Chain.trim_between`).
-/

namespace TextTransforms.Expr

/-- What stands in an expression apart from blanks, digits and letters. -/
def expressionMarks : List Char := ['.', '(', ')', ',', '+', '-', '*', '/', '%']

/-- What numbers, names, operators, groups and arguments are written with. -/
def isExpressionChar (c : Char) : Bool :=
  c.isWhitespace || Text.isWordChar c || expressionMarks.contains c

def IsWritten (t : Text) : Prop := ∀ c ∈ t, isExpressionChar c = true

section Characters

variable {s t : Text} {c : Char}

theorem isExpressionChar_of_isWhitespace (h : c.isWhitespace = true) :
    isExpressionChar c = true := by
  simp [isExpressionChar, h]

theorem isExpressionChar_of_isWordChar (h : Text.isWordChar c = true) :
    isExpressionChar c = true := by
  simp [isExpressionChar, h]

/-- An expression has no blanks but spaces, tabs and line breaks. -/
theorem isBlank_eq_isWhitespace (h : isExpressionChar c = true) :
    Text.isBlank c = c.isWhitespace := by
  cases hs : c.isWhitespace with
  | true => exact Text.isBlank_of_isWhitespace hs
  | false =>
    simp only [isExpressionChar, hs, Bool.false_or, Bool.or_eq_true] at h
    rcases h with h | h
    · rcases Bool.or_eq_true_iff.1 h with h | h
      · exact Text.isBlank_of_isAlphanum h
      · rw [eq_of_beq h]
        decide
    · have marks : expressionMarks.all (fun c => !Text.isBlank c) = true := by decide
      simpa using List.all_eq_true.1 marks c (List.contains_iff_mem.1 h)

@[simp] theorem isWritten_nil : IsWritten [] := by simp [IsWritten]

@[simp] theorem isWritten_cons :
    IsWritten (c :: t) ↔ isExpressionChar c = true ∧ IsWritten t := by
  simp [IsWritten]

@[simp] theorem isWritten_append : IsWritten (s ++ t) ↔ IsWritten s ∧ IsWritten t := by
  simp [IsWritten, or_imp, forall_and]

@[simp] theorem Space.isWritten (s : Space) : IsWritten s.1 :=
  fun c hc => isExpressionChar_of_isWhitespace (s.2 c hc)

theorem Space.isBlanks (s : Space) : Text.IsBlanks s.1 :=
  fun c hc => Text.isBlank_of_isWhitespace (s.2 c hc)

theorem notMem_of_isWritten (h : IsWritten t) (hc : isExpressionChar c = false) : c ∉ t :=
  fun hm => by simp [h c hm] at hc

end Characters

/-! ## Trees -/

theorem DecimalText.isWritten (n : DecimalText) : IsWritten n.source := by
  have digits (d : Digits) : IsWritten d.1 := fun c hc =>
    isExpressionChar_of_isWordChar (Text.isWordChar_of_isDigit (d.2.2 c hc))
  cases n <;> simp [source, digits, isExpressionChar, expressionMarks]

theorem Name.isWritten (n : Name) : IsWritten n.source := by
  have start : IsWritten "Math.".toList := by
    simp [isExpressionChar, Text.isWordChar, expressionMarks]
  have first : isExpressionChar n.first = true :=
    isExpressionChar_of_isWordChar (by simp [Text.isWordChar, Char.isAlphanum, n.isAlpha])
  have others : IsWritten n.others := fun c hc => isExpressionChar_of_isWordChar (n.isWordChar c hc)
  exact isWritten_append.2 ⟨start, isWritten_cons.2 ⟨first, others⟩⟩

theorem Link.isExpressionChar_mark {l : Level} (link : Link l) :
    isExpressionChar link.mark = true := by
  have h := link.isMark
  generalize link.mark = c, link.operator = op at h
  cases h <;> decide

mutual

private theorem Operand.isWritten {l : Level} : (o : Operand l) → IsWritten o.source
  | .product chain => chain.isWritten
  | .signed s => s.isWritten

theorem Chain.isWritten {l : Level} : (chain : Chain l) → IsWritten chain.source
  | .mk first more => isWritten_append.2 ⟨first.isWritten, more.isWritten⟩

private theorem More.isWritten {l : Level} : (m : More l) → IsWritten m.source
  | .nil => isWritten_nil
  | .cons link operand more => by
    simp [More.source, link.isExpressionChar_mark, operand.isWritten, more.isWritten]

theorem Signed.isWritten : (s : Signed) → IsWritten s.source
  | .minus behind operand => by
    simp [Signed.source, isExpressionChar, expressionMarks, operand.isWritten]
  | .plus behind operand => by
    simp [Signed.source, isExpressionChar, expressionMarks, operand.isWritten]
  | .atom a => a.isWritten

private theorem Atom.isWritten : (a : Atom) → IsWritten a.source
  | .number n => n.isWritten
  | .constant name => name.isWritten
  | .call name behind tail => by
    simp [Atom.source, isExpressionChar, expressionMarks, name.isWritten, tail.isWritten]
  | .group before body behind => by
    simp [Atom.source, isExpressionChar, expressionMarks, body.isWritten]

private theorem CallTail.isWritten : (tail : CallTail) → IsWritten tail.source
  | .last before argument behind => by
    simp [CallTail.source, isExpressionChar, expressionMarks, argument.isWritten]
  | .cons before argument behind tail => by
    simp [CallTail.source, isExpressionChar, expressionMarks, argument.isWritten, tail.isWritten]

end

/-! ## Blanks around an expression -/

theorem trimStart_of_startsSolid {t : Text} (h : StartsSolid t) (hw : IsWritten t) (rest : Text) :
    Text.trimStart (t ++ rest) = t ++ rest := by
  obtain ⟨c, s, rfl, hc⟩ := h
  refine Text.trimStart_cons_of_not _ ?_
  rw [isBlank_eq_isWhitespace (isWritten_cons.1 hw).1, hc]

theorem trimEnd_of_endsSolid {t : Text} (h : EndsSolid t) (hw : IsWritten t) :
    Text.trimEnd t = t := by
  obtain ⟨s, c, rfl, hc⟩ := h
  refine Text.trimEnd_snoc_of_not _ ?_
  rw [isBlank_eq_isWhitespace (hw c (by simp)), hc]

theorem Chain.trim_between (d : Chain .sum) (before after : Space) :
    Text.trim (before.1 ++ d.source ++ after.1) = d.source := by
  have hstart := trimStart_of_startsSolid d.startsSolid d.isWritten []
  rw [List.append_nil] at hstart
  rw [Text.trim_blanks before.isBlanks after.isBlanks, Text.trim, hstart,
    trimEnd_of_endsSolid d.endsSolid d.isWritten]

theorem Chain.parse_between (d : Chain .sum) (before after : Space) :
    parse (before.1 ++ d.source ++ after.1) = .ok d.expr := by
  have hskip : skipSpace (before.1 ++ d.source ++ after.1) = d.source ++ after.1 := by
    rw [List.append_assoc, skipSpace_append, skipSpace_of_startsSolid d.startsSolid]
  refine Chain.parse_of_derives ⟨(strip_eq hskip d.endsSolid).symm, d.isLongest follows_nil⟩

theorem Chain.parse_source (d : Chain .sum) : parse d.source = .ok d.expr := by
  simpa using d.parse_between ⟨[], by simp⟩ ⟨[], by simp⟩

/-- An accepted text is what a tree spells, between blanks. -/
theorem exists_between_of_parse {t : Text} {e : Expr} (h : parse t = .ok e) :
    ∃ (before : Space) (d : Chain .sum) (after : Space),
      t = before.1 ++ d.source ++ after.1 ∧ d.expr = e := by
  obtain ⟨d, ⟨hd, -⟩, rfl⟩ := exists_derives_of_parse h
  obtain ⟨before, hbefore⟩ := exists_space t
  obtain ⟨after, hafter⟩ := exists_strip t
  exact ⟨before, d, after, by rw [hd, List.append_assoc, ← hafter]; exact hbefore, rfl⟩

end TextTransforms.Expr
