import Mathlib.Data.Finset.Basic
import TextTransforms.Proofs.Call.Layout
import TextTransforms.Proofs.Inlining.Placing

/-!
# Rewritten calls

The text of a call that is rewritten is the call written around the template and the
arguments that its draft leaves (`inlined?_eq_some_iff`), and the draft is what
`Draft.Traces` says (`Call.exists_of_rewritten?`). So no argument is lost: each one
stands in the template or stays behind.
-/

namespace TextTransforms

namespace Call

/-- The arguments of a call, none if it has no tail. -/
def arguments (call : Call) : List Text := (call.rawArguments.map splitArguments).getD []

/-- The tokens of the template, as far as it can be read. -/
def tokens (call : Call) : List Token := (readTokens call.literal).1

/-- The draft that a call is written from, if an argument moves. -/
def rewritten? (call : Call) : Option Draft := do
  let d := (← call.draft?).moveArguments
  if d.arguments.anyUsed then some d.resolve else none

/-- The draft of a call before anything has moved. -/
def draft (call : Call) : Draft := ⟨call.tokens.map .ofToken, .ofTexts call.arguments⟩

theorem draft?_eq_some_iff {call : Call} {d : Draft} :
    call.draft? = some d ↔
      call.arguments ≠ [] ∧ call.arguments.length ≤ argumentLimit ∧
        templateTokens call.literal = .ok call.tokens ∧ d = call.draft := by
  unfold draft? arguments draft
  cases hraw : call.rawArguments with
  | none => simp
  | some raw =>
    simp only [Option.bind_eq_bind, Option.bind_some, Option.map_some, Option.getD_some,
      arguments, hraw]
    by_cases h : (splitArguments raw).isEmpty ∨ argumentLimit < (splitArguments raw).length
    · rw [if_pos (by simpa using h)]
      simp only [reduceCtorEq, false_iff]
      rintro ⟨hne, hle, -⟩
      rcases h with h | h
      · exact hne (List.isEmpty_iff.1 h)
      · omega
    · rw [if_neg (by simpa using h)]
      rw [not_or] at h
      have hne : splitArguments raw ≠ [] := by simpa using h.1
      cases ht : templateTokens call.literal with
      | error => simp [Except.toOption]
      | ok tokens =>
        obtain rfl : call.tokens = tokens :=
          congrArg Prod.fst (templateTokens_eq_ok_iff.1 ht).2.2
        have hle : (splitArguments raw).length ≤ argumentLimit := by omega
        simp [Except.toOption, hne, hle, eq_comm]

end Call

theorem inlined?_eq_some_iff {t u : Text} :
    inlined? t = some u ↔
      ∃ call d, Call.find? t = some call ∧ call.rewritten? = some d ∧ call.assemble d = u := by
  simp only [inlined?, Call.rewritten?, Option.bind_eq_bind, Option.bind_eq_some_iff,
    Option.ite_none_right_eq_some, Option.some.injEq]
  constructor
  · rintro ⟨call, hc, d, hd, hu, rfl⟩
    exact ⟨call, _, hc, ⟨d, hd, hu, rfl⟩, rfl⟩
  · rintro ⟨call, _, hc, ⟨d, hd, hu, rfl⟩, rfl⟩
    exact ⟨call, hc, d, hd, hu, rfl⟩

theorem Call.assemble_eq (call : Call) (d : Draft) :
    call.assemble d = call.before ++ call.written d.template d.arguments.remaining := by
  simp [assemble, written, writeTail, lineStart, lineEnd, Draft.template]

/-- What the rewritten draft of a call comes from. -/
theorem Call.exists_of_rewritten? {call : Call} {d : Draft} (h : call.rewritten? = some d) :
    ∃ moved : Draft, moved = call.draft.moveArguments ∧ d = moved.resolve ∧
      moved.Traces call.tokens call.arguments ∧ (∃ i s, moved.arguments.IsUsed i s) ∧
      call.arguments.length ≤ argumentLimit ∧
      templateTokens call.literal = .ok call.tokens := by
  simp only [rewritten?, Option.bind_eq_bind, Option.bind_eq_some_iff,
    Option.ite_none_right_eq_some, Option.some.injEq] at h
  obtain ⟨d₀, hd, hu, rfl⟩ := h
  obtain ⟨-, hlimit, htokens, rfl⟩ := draft?_eq_some_iff.1 hd
  exact ⟨_, rfl, rfl, call.draft.moves_moveArguments.traces (traces_start _ _),
    Arguments.anyUsed_iff.1 hu, hlimit, htokens⟩

theorem Call.spells_tokens {call : Call} (h : templateTokens call.literal = .ok call.tokens) :
    Token.Spells call.tokens :=
  Token.spells_readTokens _ (congrArg Prod.snd (templateTokens_eq_ok_iff.1 h).2.2)

theorem Call.exists_rawArguments (call : Call) {moved : Draft} {i : Nat} {s : Text}
    (h : moved.Traces call.tokens call.arguments) (hu : moved.arguments.IsUsed i s) :
    ∃ raw, call.rawArguments = some raw := by
  cases hr : call.rawArguments with
  | some raw => exact ⟨raw, rfl⟩
  | none =>
    have hs := h.sources
    rw [arguments, hr] at hs
    rw [List.map_eq_nil_iff.1 hs] at hu
    simp [Arguments.IsUsed] at hu

/-! ## Nothing is lost -/

/-- The arguments that stay behind are those that are not used, in their order. -/
private theorem remaining_eq_filter (as : Arguments) (n : Nat) (moved : Finset Nat)
    (h : ∀ i a, as[i]? = some a → (n + i ∈ moved ↔ a.used = true)) :
    as.remaining = (((as.map Argument.source).zipIdx n).filter fun a => a.2 ∉ moved).map
      Prod.fst := by
  induction as generalizing n with
  | nil => rfl
  | cons a as ih =>
    have hfirst := h 0 a rfl
    have hrest := ih (n + 1) fun i b hb => by
      have := h (i + 1) b (by simpa using hb)
      rwa [Nat.add_assoc, Nat.add_comm 1 i]
    rw [Nat.add_zero] at hfirst
    rw [List.map_cons, List.zipIdx_cons, List.filter_cons, Arguments.remaining, List.filter_cons]
    rw [Arguments.remaining] at hrest
    cases hu : a.used with
    | true => simpa [hfirst.2 hu] using hrest
    | false =>
      have hn : n ∉ moved := fun hm => by simp [hfirst.1 hm] at hu
      simpa [hn] using hrest

/-- The arguments that moved can stand in a placeholder, and each does or stands before
the `$` of a count; the others are written behind the literal. Everything around the
literal and its arguments is kept. -/
theorem inlined?_conserves {t u : Text} (h : inlined? t = some u) :
    ∃ (call : Call) (d : Draft) (front gap : Text) (moved : Finset Nat),
      Call.find? t = some call ∧ call.rewritten? = some d ∧
      t = call.before ++ (call.name ++ (front ++ call.quote :: (call.literal ++ call.quote ::
        (gap ++ Call.closing call.rawArguments)) ++ call.after)) ∧
      u = call.before ++ call.written d.template
        ((call.arguments.zipIdx.filter fun a => a.2 ∉ moved).map Prod.fst) ∧
      (readTokens d.template).2 = [] ∧ moved.Nonempty ∧
      ∀ i ∈ moved, ∃ a, call.arguments[i]? = some a ∧ isInlinable a = true ∧
        ∃ p, .placeholder p ∈ (readTokens d.template).1 ∧
          (p.argument = a ∨ ∃ before behind, p.spec = some (before ++ a ++ '$' :: behind)) := by
  obtain ⟨call, d, hc, hd, rfl⟩ := inlined?_eq_some_iff.1 h
  obtain ⟨-, front, gap, -, ht⟩ := Call.exists_of_find? hc
  obtain ⟨m, -, rfl, traces, ⟨i₀, s₀, hu₀⟩, -, htokens⟩ := Call.exists_of_rewritten? hd
  have hread := traces.readTokens_template (Call.spells_tokens htokens)
  let moved := (Finset.range m.arguments.length).filter fun i =>
    (m.arguments[i]?.any Argument.used) = true
  have hmoved (i : Nat) : i ∈ moved ↔ ∃ s, m.arguments.IsUsed i s := by
    simp only [moved, Finset.mem_filter, Finset.mem_range, Arguments.IsUsed]
    cases ha : m.arguments[i]? with
    | none => simp
    | some a =>
      have hlt := (List.getElem?_eq_some_iff.1 ha).1
      obtain ⟨s, used⟩ := a
      simp [hlt]
  refine ⟨call, m.resolve, front, gap, moved, hc, hd, ht, ?_, by rw [hread],
    ⟨i₀, (hmoved i₀).2 ⟨s₀, hu₀⟩⟩, fun i hi => ?_⟩
  · rw [Call.assemble_eq, Draft.arguments_resolve, ← traces.sources,
      remaining_eq_filter m.arguments 0 moved]
    intro i a ha
    rw [Nat.zero_add, hmoved]
    obtain ⟨s, used⟩ := a
    simp [Arguments.IsUsed, ha]
  · obtain ⟨s, hu⟩ := (hmoved i).1 hi
    refine ⟨s, ?_, traces.inlinable i s hu, ?_⟩
    · rw [← traces.sources, List.getElem?_map, show m.arguments[i]? = some ⟨s, true⟩ from hu]
      rfl
    · rw [hread]
      exact traces.exists_holds i s hu

theorem inlined?_conserves_println :
    ∃ (call : Call) (moved : Finset Nat),
      Call.find? "println!(\"{} {}\", a, f(b))".toList = some call ∧ moved.Nonempty ∧
      ∀ i ∈ moved, ∃ a, call.arguments[i]? = some a ∧ isInlinable a = true := by
  have h : inlined? "println!(\"{} {}\", a, f(b))".toList =
      some "println!(\"{a} {}\", f(b))".toList := by decide +kernel
  obtain ⟨call, _, _, _, moved, hc, -, -, -, -, hne, hmoved⟩ := inlined?_conserves h
  refine ⟨call, moved, hc, hne, fun i hi => ?_⟩
  obtain ⟨a, ha, hin, -⟩ := hmoved i hi
  exact ⟨a, ha, hin⟩

end TextTransforms
