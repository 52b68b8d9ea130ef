import TextTransforms.CommandLine.Command
import TextTransforms.Proofs.Inlining.ReadBack

/-!
# Inlining line by line

Only a call that spans lines is written with line breaks of its own. A line can have its line
feed only behind the call, where everything is kept, so inlining a line gives one line again
(`exists_inlineArguments_line`). With `line_induction` the lines of the output are the lines of
the input, each inlined by itself (`run_inline_perLine`).
-/

namespace TextTransforms

/-! ## Lines -/

namespace Text

variable {s t : Text}

/-- A line with its line feed stands apart from what follows. -/
theorem lines_append_feed (hs : '\n' ∉ s) :
    lines (s ++ '\n' :: t) = (s ++ ['\n']) :: lines t := by
  induction s with
  | nil => simp [lines]
  | cons c s ih =>
    obtain ⟨hc, hs⟩ : '\n' ≠ c ∧ '\n' ∉ s := by simpa using hs
    rw [List.cons_append, lines, if_neg (Ne.symm hc), ih hs]
    rfl

/-- A last line without line feed. -/
theorem lines_of_notMem (hs : '\n' ∉ s) (hne : s ≠ []) : lines s = [s] := by
  induction s with
  | nil => exact absurd rfl hne
  | cons c s ih =>
    obtain ⟨hc, hs⟩ : '\n' ≠ c ∧ '\n' ∉ s := by simpa using hs
    rw [lines, if_neg (Ne.symm hc)]
    cases s with
    | nil => rfl
    | cons d s => rw [ih hs (List.cons_ne_nil d s)]

/-- A text is empty, or it is a last line, or it starts with a line that a line feed ends. -/
theorem line_induction {motive : Text → Prop} (nil : motive [])
    (last : ∀ s, s ≠ [] → '\n' ∉ s → motive s)
    (line : ∀ s t, '\n' ∉ s → motive t → motive (s ++ '\n' :: t)) (t : Text) : motive t := by
  induction hn : t.length using Nat.strongRecOn generalizing t with
  | ind n ih =>
    subst hn
    cases hc : cut? '\n' t with
    | none =>
      have hs := cut?_eq_none_iff.1 hc
      by_cases hne : t = []
      · rw [hne]
        exact nil
      · exact last t hne hs
    | some p =>
      obtain ⟨s, rest⟩ := p
      obtain ⟨rfl, hs⟩ := cut?_eq_some_iff.1 hc
      apply line s rest hs
      apply ih rest.length _ rest rfl
      rw [List.length_append, List.length_cons]
      omega

end Text

/-! ## One line -/

/-- What stands behind the parenthesis that closes the call is kept. No line feed comes into the
text before it if there was none. -/
theorem exists_of_inlined? {t u : Text} (h : inlined? t = some u) :
    ∃ front front' after, t = front ++ ')' :: after ∧ u = front' ++ ')' :: after ∧
      ('\n' ∉ front → '\n' ∉ front') := by
  obtain ⟨call, d, hc, hd, rfl⟩ := inlined?_eq_some_iff.1 h
  obtain ⟨-, front, gap, hlaid, ht⟩ := Call.exists_of_find? hc
  obtain ⟨m, -, rfl, traces, ⟨i, s, hu⟩, -, htokens⟩ := Call.exists_of_rewritten? hd
  obtain ⟨raw, hraw⟩ := call.exists_rawArguments traces hu
  have hfeeds := line_cases traces hraw hlaid (source_of_tokens htokens)
  refine ⟨call.before ++ (call.name ++ (front ++ call.quote :: (call.literal ++ call.quote ::
      (gap ++ ',' :: raw)))),
    call.before ++ (call.name ++ ('!' :: '(' :: (call.lineStart ++ call.quote ::
      (m.resolve.template ++ call.quote :: (m.arguments.remaining.flatMap (", ".toList ++ ·) ++
        call.lineEnd))))), call.after, ?_, ?_, ?_⟩
  · rw [ht, hraw]
    simp [Call.closing]
  · rw [Call.assemble_eq, Draft.arguments_resolve]
    simp [Call.written, writeTail]
  · intro hnone
    simp only [List.mem_append, List.mem_cons, not_or] at hnone
    obtain ⟨hbefore, hname, hfront, hquote, hliteral, -, hgap, hcomma, hrawline⟩ := hnone
    have hsingle : call.isMultiline = false := by
      rw [hlaid.isMultiline, hraw, ← Bool.not_eq_true, List.contains_iff_mem]
      simp [Call.closing, hfront, hquote, hliteral, hgap, hrawline]
    obtain ⟨htemplate, hkept⟩ := hfeeds.resolve_left (by simp [hsingle])
    simpa [Call.lineStart, Call.lineEnd, hsingle, hbefore, hname, hquote, htemplate] using hkept

section Line

variable {s : Text}

theorem feed_notMem_inlineArguments (hs : '\n' ∉ s) : '\n' ∉ inlineArguments s := by
  unfold inlineArguments
  cases h : inlined? s with
  | none => exact hs
  | some u =>
    obtain ⟨front, front', after, rfl, rfl, hfront⟩ := exists_of_inlined? h
    simp only [List.mem_append, not_or] at hs
    simp only [Option.getD_some, List.mem_append, not_or]
    exact ⟨hfront hs.1, hs.2⟩

theorem inlineArguments_ne_nil (hs : s ≠ []) : inlineArguments s ≠ [] := by
  unfold inlineArguments
  cases h : inlined? s with
  | none => exact hs
  | some u =>
    obtain ⟨front, front', after, -, rfl, -⟩ := exists_of_inlined? h
    simp

/-- A line that a line feed ends becomes one line that a line feed ends. -/
theorem exists_inlineArguments_line (hs : '\n' ∉ s) :
    ∃ v, '\n' ∉ v ∧ inlineArguments (s ++ ['\n']) = v ++ ['\n'] := by
  unfold inlineArguments
  cases h : inlined? (s ++ ['\n']) with
  | none => exact ⟨s, hs, rfl⟩
  | some u =>
    obtain ⟨front, front', after, ht, rfl, hfront⟩ := exists_of_inlined? h
    rcases after.eq_nil_or_concat with rfl | ⟨after, c, rfl⟩
    · -- The line feed would be the parenthesis.
      have hlast := congrArg List.getLast? ht
      simp at hlast
    · rw [List.concat_eq_append, ← List.cons_append, ← List.append_assoc] at ht
      obtain ⟨rfl, hc⟩ := List.append_inj' ht rfl
      obtain rfl : '\n' = c := by simpa using hc
      simp only [List.mem_append, not_or] at hs
      refine ⟨front' ++ ')' :: after, ?_, by simp⟩
      simp only [List.mem_append, not_or]
      exact ⟨hfront hs.1, hs.2⟩

end Line

/-! ## All lines -/

theorem lines_flatMap_inlineArguments (t : Text) :
    Text.lines ((Text.lines t).flatMap inlineArguments) =
      (Text.lines t).map inlineArguments := by
  induction t using Text.line_induction with
  | nil => rfl
  | last s hne hs =>
    rw [Text.lines_of_notMem hs hne, List.flatMap_singleton, List.map_singleton]
    exact Text.lines_of_notMem (feed_notMem_inlineArguments hs) (inlineArguments_ne_nil hne)
  | line s t hs ih =>
    obtain ⟨v, hv, hline⟩ := exists_inlineArguments_line hs
    rw [Text.lines_append_feed hs, List.flatMap_cons, List.map_cons, hline, List.append_assoc,
      List.singleton_append, Text.lines_append_feed hv, ih]

namespace CommandLine

/-- Inlining per line succeeds, and the lines of its output are those of its input, each inlined
by itself. A line keeps its line feed, and none gets one. -/
theorem run_inline_perLine (settings : Clipboard.Settings) (input : Text) :
    ∃ output, (Command.inline true).run settings input = .ok (output, none) ∧
      Text.lines output = (Text.lines input).map inlineArguments ∧
      ∀ line ∈ Text.lines input,
        (inlineArguments line).getLast? = some '\n' ↔ line.getLast? = some '\n' := by
  refine ⟨_, rfl, lines_flatMap_inlineArguments input, ?_⟩
  intro line hline
  rcases Text.eq_of_mem_lines hline with hs | ⟨s, rfl, hs⟩
  · have hs' := feed_notMem_inlineArguments hs
    constructor
    · intro h
      exact absurd (List.mem_of_getLast? h) hs'
    · intro h
      exact absurd (List.mem_of_getLast? h) hs
  · obtain ⟨v, -, hv⟩ := exists_inlineArguments_line hs
    rw [hv]
    simp

/-- A call in each line, and no line feed behind the second one. -/
theorem run_inline_perLine_print :
    ∃ output, (Command.inline true).run {} "print!(\"{}\", a)\nprint!(\"{0}\", b)".toList =
        .ok (output, none) ∧
      Text.lines output = ["print!(\"{a}\")\n".toList, "print!(\"{b}\")".toList] ∧
      ("print!(\"{a}\")\n".toList.getLast? = some '\n' ↔
        "print!(\"{}\", a)\n".toList.getLast? = some '\n') := by
  have hlines : Text.lines "print!(\"{}\", a)\nprint!(\"{0}\", b)".toList =
      ["print!(\"{}\", a)\n".toList, "print!(\"{0}\", b)".toList] := by decide
  have hfirst : inlineArguments "print!(\"{}\", a)\n".toList = "print!(\"{a}\")\n".toList := by
    decide +kernel
  have hsecond : inlineArguments "print!(\"{0}\", b)".toList = "print!(\"{b}\")".toList := by
    decide +kernel
  obtain ⟨output, hrun, houtput, hfeed⟩ :=
    run_inline_perLine {} "print!(\"{}\", a)\nprint!(\"{0}\", b)".toList
  rw [hlines] at houtput hfeed
  rw [List.map_cons, List.map_singleton, hfirst, hsecond] at houtput
  have hline := hfeed _ List.mem_cons_self
  rw [hfirst] at hline
  exact ⟨output, hrun, houtput, hline⟩

end CommandLine

end TextTransforms
