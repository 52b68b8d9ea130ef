import TextTransforms.Proofs.Clipboard.Joins

/-!
# Comments and line breaks

In a text without block comments the lines are read one by one: a line comment ends in front of
the next line break, and what stands behind the break is read as if nothing stood before it
(`Reads.append_break`). So removing the comments of a text keeps its line breaks, and each line
can be treated by itself (`stripComments_append_lineBreak`).
-/

namespace TextTransforms.Clipboard

/-- The ways in which a line ends. -/
def lineBreaks : List Text := [['\n'], ['\r'], ['\r', '\n']]

section Breaks

variable {previous : Option Char} {c : Char} {a b t : Text} {ps qs : List Piece}

theorem ne_slash_of_isLineBreak (hc : isLineBreak c = true) : c ≠ '/' := by
  rintro rfl
  exact absurd hc (by decide)

/-- A break is no start of a comment, and it stands between the slashes of two lines. -/
theorem opensLine_append_break (hc : isLineBreak c = true) :
    OpensLine previous (a ++ c :: b) ↔ OpensLine previous a := by
  have hslash := ne_slash_of_isLineBreak hc
  cases a with
  | nil => simp [OpensLine, List.cons_prefix_cons, hslash.symm]
  | cons d a =>
    rw [List.cons_append, opensLine_cons_iff, opensLine_cons_iff]
    cases a with
    | nil => simp [hslash]
    | cons e a => rfl

theorem IsLineComment.append_break {comment rest : Text} (h : IsLineComment comment rest)
    (hc : isLineBreak c = true) : IsLineComment comment (rest ++ c :: b) where
  opens := h.opens
  inLine := h.inLine
  ends := by
    intro d hd
    cases rest with
    | nil =>
      obtain rfl : c = d := by simpa using hd
      exact isLineBreak_iff.1 hc
    | cons e rest => exact h.ends d hd

/-- Behind another character than a colon a text is read as it is read alone. -/
theorem Reads.behind (h : Reads none t ps) (hc : c ≠ ':') : Reads (some c) t ps := by
  have hcolon : some c ≠ some ':' := by simpa using hc
  cases h with
  | done => exact .done _
  | line _ hl hr => exact .line hcolon hl hr
  | block hb hr => exact .block hb hr
  | char hl hb hr => exact .char (fun h => hl ⟨h.1, by simp⟩) hb hr

/-- No comment goes over a line break. Without block comments the part before it is read as it is
read alone. -/
theorem Reads.append_break (ha : Reads previous a ps) (hc : isLineBreak c = true)
    (hb : Reads (some c) b qs) (hno : HasNoBlock (a ++ c :: b)) :
    Reads previous (a ++ c :: b) (ps ++ .char c :: qs) := by
  induction ha with
  | done previous =>
    apply Reads.char _ (hno _ (List.suffix_refl _)) hb
    intro hopens
    exact ne_slash_of_isLineBreak hc (opensLine_cons_iff.1 hopens).1
  | @line previous comment rest ps hp hl hr ih =>
    rw [List.append_assoc] at hno ⊢
    apply Reads.line hp (hl.append_break hc)
    exact ih (hno.of_suffix (List.suffix_append _ _))
  | @block previous comment rest ps hblock hr ih =>
    rw [List.append_assoc] at hno
    exact absurd (hblock.opensBlock _) (hno _ (List.suffix_refl _))
  | @char previous d t ps hl hblock hr ih =>
    apply Reads.char
    · intro hopens
      exact hl ((opensLine_append_break (a := d :: t) hc).1 hopens)
    · exact hno _ (List.suffix_refl _)
    · exact ih hno.tail

theorem stripComments_append_break (hc : isLineBreak c = true)
    (hno : HasNoBlock (a ++ c :: b)) :
    stripComments (a ++ c :: b) = stripComments a ++ c :: stripComments b := by
  obtain ⟨ps, hps, ha⟩ := exists_reads a
  obtain ⟨qs, hqs, hb⟩ := exists_reads b
  have hcolon : c ≠ ':' := by
    rintro rfl
    exact absurd hc (by decide)
  have hreads := hps.append_break hc (hqs.behind hcolon) hno
  rw [← hreads.left_eq_stripComments, left_append, left, ha, hb]

end Breaks

/-- A text in which no block comment starts is stripped of its comments line by line. -/
theorem stripComments_append_lineBreak {a b lineBreak : Text} (hl : lineBreak ∈ lineBreaks)
    (h : ¬ ['/', '*'] <:+: a ++ lineBreak ++ b) :
    stripComments (a ++ lineBreak ++ b) = stripComments a ++ lineBreak ++ stripComments b := by
  have hno := hasNoBlock_of_not_infix h
  have hfeed : isLineBreak '\n' = true := by decide
  have hreturn : isLineBreak '\r' = true := by decide
  rw [List.append_assoc] at hno ⊢
  rw [List.append_assoc]
  simp only [lineBreaks, List.mem_cons, List.not_mem_nil, or_false] at hl
  rcases hl with rfl | rfl | rfl
  · exact stripComments_append_break hfeed hno
  · exact stripComments_append_break hreturn hno
  · -- The line between the two characters is empty.
    have hrest : HasNoBlock ('\n' :: b) := hno.of_suffix ⟨a ++ ['\r'], by simp⟩
    have hempty : stripComments [] = [] := by simp [stripComments, stripCommentsFrom]
    have hline : stripComments ('\n' :: b) = '\n' :: stripComments b := by
      have h := stripComments_append_break (a := []) hfeed hrest
      rw [hempty] at h
      exact h
    calc stripComments (a ++ '\r' :: '\n' :: b)
        = stripComments a ++ '\r' :: stripComments ('\n' :: b) :=
          stripComments_append_break hreturn hno
      _ = stripComments a ++ '\r' :: '\n' :: stripComments b := by rw [hline]

/-- A colon in front of a break saves no slashes behind it, and a comment ends at a carriage
return. -/
theorem stripComments_append_lineBreak_colon :
    ['\r', '\n'] ∈ lineBreaks ∧
      ¬ ['/', '*'] <:+: "a: // b:".toList ++ ['\r', '\n'] ++ "//c".toList ∧
      stripComments "a: // b:\r\n//c".toList = "a: \r\n".toList := by
  have hmem : ['\r', '\n'] ∈ lineBreaks := by decide
  have hno : ¬ ['/', '*'] <:+: "a: // b:".toList ++ ['\r', '\n'] ++ "//c".toList := by
    simp [List.infix_cons_iff]
  have hfirst : stripComments "a: // b:".toList = "a: ".toList := by
    simp [stripComments, stripCommentsFrom, isLineBreak]
  have hsecond : stripComments "//c".toList = [] := by
    simp [stripComments, stripCommentsFrom, isLineBreak]
  have hstrip := stripComments_append_lineBreak hmem hno
  rw [hfirst, hsecond] at hstrip
  exact ⟨hmem, hno, hstrip⟩

end TextTransforms.Clipboard
