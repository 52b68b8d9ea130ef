import TextTransforms.Proofs.Inlining.Commas
import TextTransforms.Proofs.Inlining.Implicit

/-!
# Settled calls

A call stays as it is exactly if it is settled: no index, no turn and no precision of
its template reaches an argument that may stand in a placeholder
(`Call.rewritten?_eq_none_iff`). This says without the passes when a second run
changes nothing (`inlineArguments_eq_self_iff`).
-/

namespace TextTransforms

/-- There is no such argument, or it may not stand in a placeholder. -/
def Stays (argument : Option Text) : Prop := ∀ a, argument = some a → isInlinable a = false

/-- The argument of a placeholder, renamed and without a trailing `v` in front of a spec. -/
def Placeholder.lastName (p : Placeholder) : Text :=
  (stripVerbose (renameField (.ofPlaceholder p))).argument.text

/-- No argument can move into the template. -/
structure IsSettled (texts : List Text) (tokens : List Token) : Prop where
  index : ∀ p, .placeholder p ∈ tokens → ∀ i, p.index? = some i → Stays texts[i]?
  turn : ∀ n, n < tokens.countP Token.isImplicit → Stays texts[n]?
  precision : ∀ p, .placeholder p ∈ tokens → p.spec = some ['.', '*'] →
    Text.isWord p.lastName = true → Stays (texts.find? (· != p.lastName))

theorem stays_iff {a : Option Text} : Stays a ↔ a.filter isInlinable = none := by
  cases a with
  | none => simp [Stays]
  | some a => simp [Stays]

section Cases

variable {texts : List Text}

theorem inlinable?_ofTexts (i : Nat) :
    (Arguments.ofTexts texts).inlinable? i = texts[i]?.filter isInlinable := by
  rw [← Arguments.afterTurns_zero, Arguments.inlinable?_afterTurns]

theorem anyUsed_use {as : Arguments} {i : Nat} {s : Text} (h : as.inlinable? i = some s) :
    (as.use i).anyUsed = true :=
  Arguments.anyUsed_iff.2 ⟨i, s, Arguments.isUsed_use_of_inlinable? h⟩

/-! ## Pass by pass -/

/-- A step leaves field and arguments alone if `C` holds of the field, and uses an argument
otherwise. -/
private def Decides (texts : List Text) (step : Arguments → Field → Field × Arguments)
    (C : Field → Prop) : Prop :=
  ∀ f, C f ∧ step (.ofTexts texts) f = (f, .ofTexts texts) ∨
    ¬ C f ∧ (step (.ofTexts texts) f).2.anyUsed = true

private theorem anyUsed_of_moves {d d' : Draft} (h : Draft.Moves d d')
    (hu : d.arguments.anyUsed = true) : d'.arguments.anyUsed = true := by
  obtain ⟨i, s, hu⟩ := Arguments.anyUsed_iff.1 hu
  exact Arguments.anyUsed_iff.2 ⟨i, s, h.isUsed_mono i s hu⟩

private theorem run_cases {step : Arguments → Field → Field × Arguments} {C : Field → Prop}
    (hmoves : ∀ as f, Draft.MovesField as f (step as f).1 (step as f).2)
    (h : Decides texts step C) (segments : List Segment) :
    (∀ f, .field f ∈ segments → C f) ∧
        Draft.run step ⟨segments, .ofTexts texts⟩ = ⟨segments, .ofTexts texts⟩ ∨
      (¬ ∀ f, .field f ∈ segments → C f) ∧
        (Draft.run step ⟨segments, .ofTexts texts⟩).arguments.anyUsed = true := by
  by_cases hall : ∀ f, .field f ∈ segments → C f
  · refine .inl ⟨hall, Draft.run_eq_self fun f hf => ?_⟩
    exact ((h f).resolve_right fun hn => hn.1 (hall f hf)).2
  · refine .inr ⟨hall, ?_⟩
    show (mapFields step (.ofTexts texts) segments).2.anyUsed = true
    induction segments with
    | nil => simp at hall
    | cons segment rest ih =>
      cases segment with
      | text s =>
        have hrest := ih (by simpa using hall)
        simpa [mapFields] using hrest
      | field f =>
        simp only [mapFields]
        rcases h f with ⟨hf, e⟩ | ⟨-, hu⟩
        · have hrest := ih fun hr => hall fun g hg => by
            rcases List.mem_cons.1 hg with e | hg
            · obtain rfl : g = f := by simpa using e
              exact hf
            · exact hr g hg
          rw [e]
          exact hrest
        · exact anyUsed_of_moves (Draft.moves_mapFields id hmoves _ [] rest) hu

private theorem inlinable?_ofTexts_cases (texts : List Text) (i : Nat) :
    Stays texts[i]? ∧ (Arguments.ofTexts texts).inlinable? i = none ∨
      ¬ Stays texts[i]? ∧ ∃ s, (Arguments.ofTexts texts).inlinable? i = some s := by
  rw [stays_iff, inlinable?_ofTexts]
  cases texts[i]?.filter isInlinable with
  | none => exact .inl ⟨rfl, rfl⟩
  | some s => exact .inr ⟨by simp, s, rfl⟩

private theorem decides_inlineIndexed : Decides texts inlineIndexed fun f =>
    f.width? = none → ∀ i, f.index? = some i → Stays texts[i]? := by
  intro f
  unfold inlineIndexed
  split
  · rename_i i hw hi
    unfold Field.take
    rcases inlinable?_ofTexts_cases texts i with ⟨hs, e⟩ | ⟨hs, s, e⟩
    · rw [e]
      refine .inl ⟨fun _ j hj => ?_, rfl⟩
      obtain rfl : i = j := by simpa [hi] using hj
      exact hs
    · rw [e]
      exact .inr ⟨fun h => hs (h hw i hi), anyUsed_use e⟩
  · rename_i hne
    exact .inl ⟨fun hw i hi => absurd hi (hne i hw), rfl⟩

private theorem decides_inlineWidth : Decides texts inlineWidth fun f =>
    f.width? ≠ none → ∀ i, f.index? = some i → Stays texts[i]? := by
  intro f
  unfold inlineWidth
  split
  · rename_i k i hw hi
    rcases inlinable?_ofTexts_cases texts i with ⟨hs, e⟩ | ⟨hs, s, e⟩
    · rw [e]
      refine .inl ⟨fun _ j hj => ?_, rfl⟩
      obtain rfl : i = j := by simpa [hi] using hj
      exact hs
    · refine .inr ⟨fun h => hs (h (by simp [hw]) i hi), ?_⟩
      simp only [Field.take, e, Field.takeCount]
      split
      · exact Arguments.anyUsed_iff.2 ⟨i, s, (Arguments.isUsed_use_of_inlinable? e).use⟩
      · exact anyUsed_use e
  · rename_i hne
    refine .inl ⟨fun hw i hi => ?_, rfl⟩
    obtain ⟨k, hk⟩ := Option.ne_none_iff_exists'.1 hw
    exact absurd hi (hne k i hk)

private theorem unusedOtherThan?_ofTexts (t : Text) :
    (Arguments.ofTexts texts).unusedOtherThan? t = texts.findIdx? (· != t) := by
  simp [Arguments.unusedOtherThan?, Arguments.ofTexts, List.findIdx?_map, Function.comp_def]

private theorem decides_inlinePrecision : Decides texts inlinePrecision fun f =>
    f.spec.map Part.text = some ['.', '*'] → Text.isWord f.argument.text = true →
      Stays (texts.find? (· != f.argument.text)) := by
  intro f
  unfold inlinePrecision
  split
  · rename_i hf
    have hfind : texts.find? (· != f.argument.text) =
        (texts.findIdx? (· != f.argument.text)).bind (texts[·]?) :=
      List.find?_eq_bind_findIdx?_getElem?
    rw [unusedOtherThan?_ofTexts]
    beta_reduce
    rw [hfind]
    cases hi : texts.findIdx? (· != f.argument.text) with
    | none =>
      refine .inl ⟨fun _ _ => ?_, rfl⟩
      simp [Stays]
    | some i =>
      dsimp only [Field.takeCount, Option.bind_some]
      rcases inlinable?_ofTexts_cases texts i with ⟨hs, e⟩ | ⟨hs, s, e⟩
      · rw [e]
        exact .inl ⟨fun _ _ => hs, rfl⟩
      · rw [e]
        exact .inr ⟨fun h => hs (h hf.1 hf.2), anyUsed_use e⟩
  · rename_i hf
    exact .inl ⟨fun hs hw => absurd ⟨hs, hw⟩ hf, rfl⟩

private theorem afterTurns_eq_ofTexts {n : Nat} (h : ∀ i, i < n → Stays texts[i]?) :
    Arguments.afterTurns texts n = .ofTexts texts := by
  induction n with
  | zero => exact Arguments.afterTurns_zero texts
  | succ n ih =>
    rw [Arguments.afterTurns_succ (stays_iff.1 (h n (Nat.lt_succ_self n)))]
    exact ih fun i hi => h i (Nat.lt_succ_of_lt hi)

private theorem fill_ofTexts (n : Nat) (tokens : List Token) :
    fill (.ofTexts texts) n tokens = tokens.map .ofToken := by
  have hturn (n : Nat) (p : Placeholder) :
      Field.afterTurn (.ofTexts texts) n p = .ofPlaceholder p := by
    rw [Field.afterTurn, Arguments.getElem?_ofTexts]
    cases texts[n]? <;> rfl
  induction tokens generalizing n with
  | nil => rfl
  | cons token tokens ih =>
    cases token with
    | text s => simp [fill, ih, Segment.ofToken]
    | placeholder p => simp [fill, ih, hturn, Segment.ofToken]

/-- The turns change nothing, or one of them uses an argument. -/
private theorem inlineImplicit_cases (tokens : List Token) :
    (∀ n, n < tokens.countP Token.isImplicit → Stays texts[n]?) ∧
        Draft.inlineImplicit ⟨tokens.map .ofToken, .ofTexts texts⟩ =
          ⟨tokens.map .ofToken, .ofTexts texts⟩ ∨
      (¬ ∀ n, n < tokens.countP Token.isImplicit → Stays texts[n]?) ∧
        (Draft.inlineImplicit ⟨tokens.map .ofToken, .ofTexts texts⟩).arguments.anyUsed = true := by
  have e := mapFields_inlineImplicit texts (Nat.zero_add (tokens.countP Token.isImplicit))
  rw [Nat.zero_min, Arguments.afterTurns_zero] at e
  simp only [Draft.inlineImplicit, e]
  by_cases hall : ∀ n, n < tokens.countP Token.isImplicit → Stays texts[n]?
  · exact .inl ⟨hall, by rw [afterTurns_eq_ofTexts hall, fill_ofTexts]⟩
  · refine .inr ⟨hall, ?_⟩
    simp only [Stays, not_forall] at hall
    obtain ⟨n, hn, a, ha, hin⟩ := hall
    refine Arguments.anyUsed_iff.2 ⟨n, a, ?_⟩
    rw [Arguments.IsUsed, Arguments.getElem?_afterTurns, ha]
    simpa [hn] using hin

/-! ## All passes -/

@[simp] theorem spec_renameField (f : Field) : (renameField f).spec = f.spec := by
  unfold renameField
  split
  · split
    · dsimp only
      split <;> rfl
    · rfl
  · rfl

@[simp] theorem spec_stripVerbose (f : Field) : (stripVerbose f).spec = f.spec := by
  unfold stripVerbose
  split
  · split <;> rfl
  · rfl

private theorem field_mem_ofTokens {f : Field} {tokens : List Token} :
    .field f ∈ tokens.map Segment.ofToken ↔
      ∃ p, .placeholder p ∈ tokens ∧ f = .ofPlaceholder p := by
  simp only [List.mem_map]
  constructor
  · rintro ⟨token, ht, e⟩
    cases token with
    | text => simp [Segment.ofToken] at e
    | placeholder p => exact ⟨p, ht, by simpa [Segment.ofToken] using e.symm⟩
  · rintro ⟨p, hp, rfl⟩
    exact ⟨_, hp, rfl⟩

private theorem field_mem_edit {f : Field} {step : Field → Field} {segments : List Segment} :
    .field f ∈ segments.map (Segment.edit step) ↔ ∃ g, .field g ∈ segments ∧ f = step g := by
  simp only [List.mem_map]
  constructor
  · rintro ⟨segment, hs, e⟩
    cases segment with
    | text => simp [Segment.edit] at e
    | field g => exact ⟨g, hs, by simpa [Segment.edit] using e.symm⟩
  · rintro ⟨g, hg, rfl⟩
    exact ⟨_, hg, rfl⟩

/-- The passes leave the arguments alone, or they use one. -/
theorem moveArguments_cases (texts : List Text) (tokens : List Token) :
    IsSettled texts tokens ∧
        (Draft.moveArguments ⟨tokens.map .ofToken, .ofTexts texts⟩).arguments = .ofTexts texts ∨
      ¬ IsSettled texts tokens ∧
        (Draft.moveArguments ⟨tokens.map .ofToken, .ofTexts texts⟩).arguments.anyUsed = true := by
  rw [Draft.moveArguments]
  rcases run_cases Draft.movesField_inlineIndexed decides_inlineIndexed
    (tokens.map Segment.ofToken) with ⟨h₁, e₁⟩ | ⟨h₁, u₁⟩
  rotate_left
  · refine .inr ⟨fun hs => h₁ fun f hf _ i hi => ?_, anyUsed_of_moves ?_ u₁⟩
    · obtain ⟨p, hp, rfl⟩ := field_mem_ofTokens.1 hf
      exact hs.index p hp i hi
    · exact ((Draft.moves_run Draft.movesField_inlineWidth _).trans
        (Draft.moves_inlineImplicit _)).trans (Draft.moves_lastPasses _)
  rw [e₁]
  rcases run_cases Draft.movesField_inlineWidth decides_inlineWidth
    (tokens.map Segment.ofToken) with ⟨h₂, e₂⟩ | ⟨h₂, u₂⟩
  rotate_left
  · refine .inr ⟨fun hs => h₂ fun f hf _ i hi => ?_, anyUsed_of_moves ?_ u₂⟩
    · obtain ⟨p, hp, rfl⟩ := field_mem_ofTokens.1 hf
      exact hs.index p hp i hi
    · exact (Draft.moves_inlineImplicit _).trans (Draft.moves_lastPasses _)
  rw [e₂]
  rcases inlineImplicit_cases tokens with ⟨h₃, e₃⟩ | ⟨h₃, u₃⟩
  rotate_left
  · exact .inr ⟨fun hs => h₃ hs.turn, anyUsed_of_moves (Draft.moves_lastPasses _) u₃⟩
  rw [e₃, Draft.edit_eq, Draft.edit_eq]
  dsimp only
  rcases run_cases Draft.movesField_inlinePrecision decides_inlinePrecision
    (((tokens.map Segment.ofToken).map (Segment.edit renameField)).map
      (Segment.edit stripVerbose))  with ⟨h₄, e₄⟩ | ⟨h₄, u₄⟩
  rotate_left
  · refine .inr ⟨fun hs => h₄ fun f hf hspec hw => ?_, u₄⟩
    obtain ⟨_, hf₅, rfl⟩ := field_mem_edit.1 hf
    obtain ⟨_, hf₄, rfl⟩ := field_mem_edit.1 hf₅
    obtain ⟨p, hp, rfl⟩ := field_mem_ofTokens.1 hf₄
    refine hs.precision p hp ?_ hw
    rw [spec_stripVerbose, spec_renameField] at hspec
    cases hq : p.spec with
    | none => simp [Field.ofPlaceholder, hq] at hspec
    | some spec => simpa [Field.ofPlaceholder, Part.text, hq] using hspec
  rw [e₄]
  refine .inl ⟨⟨fun p hp i hi => ?_, h₃, fun p hp hspec hw => ?_⟩, rfl⟩
  · have hf := field_mem_ofTokens.2 ⟨p, hp, rfl⟩
    by_cases hw : (Field.ofPlaceholder p).width? = none
    · exact h₁ _ hf hw i hi
    · exact h₂ _ hf hw i hi
  · refine h₄ _ (field_mem_edit.2 ⟨_, field_mem_edit.2 ⟨_, field_mem_ofTokens.2 ⟨p, hp, rfl⟩,
      rfl⟩, rfl⟩) ?_ hw
    simp [Field.ofPlaceholder, hspec, Part.text]

end Cases

/-! ## Calls and texts -/

/-- Nothing of the call can move: it has no arguments or too many, its template is not
accepted, or its template is settled. -/
def Call.IsSettled (call : Call) : Prop :=
  call.arguments = [] ∨ argumentLimit < call.arguments.length ∨
    templateTokens call.literal ≠ .ok call.tokens ∨
    TextTransforms.IsSettled call.arguments call.tokens

theorem Call.rewritten?_eq_none_iff {call : Call} : call.rewritten? = none ↔ call.IsSettled := by
  have hdraft (hd : call.draft? = none) : call.IsSettled := by
    by_contra hs
    simp only [IsSettled, not_or, not_not] at hs
    rw [draft?_eq_some_iff.2 ⟨hs.1, by omega, hs.2.2.1, rfl⟩] at hd
    simp at hd
  cases hd : call.draft? with
  | none =>
    have hnone : call.rewritten? = none := by simp [rewritten?, hd]
    exact ⟨fun _ => hdraft hd, fun _ => hnone⟩
  | some d =>
    obtain ⟨hne, hle, ht, rfl⟩ := draft?_eq_some_iff.1 hd
    have hsettled : call.IsSettled ↔ TextTransforms.IsSettled call.arguments call.tokens := by
      simp only [IsSettled, hne, ht, ne_eq, not_true, false_or, or_iff_right_iff_imp]
      intro h
      omega
    rw [hsettled]
    have hcases := moveArguments_cases call.arguments call.tokens
    have hunused : (Arguments.ofTexts call.arguments).anyUsed = false := by
      simp [Arguments.anyUsed, Arguments.ofTexts]
    simp only [rewritten?, hd, Option.bind_eq_bind, Option.bind_some, draft]
    rcases hcases with ⟨hs, e⟩ | ⟨hs, hu⟩
    · simp [hs, e, hunused]
    · simp [hs, hu]

theorem inlined?_eq_none_iff {t : Text} :
    inlined? t = none ↔ ∀ call, Call.find? t = some call → call.IsSettled := by
  constructor
  · intro h call hc
    refine Call.rewritten?_eq_none_iff.1 ?_
    by_contra hd
    obtain ⟨d, hd⟩ := Option.ne_none_iff_exists'.1 hd
    rw [inlined?_eq_some_iff.2 ⟨call, d, hc, hd, rfl⟩] at h
    simp at h
  · intro h
    by_contra hu
    obtain ⟨u, hu⟩ := Option.ne_none_iff_exists'.1 hu
    obtain ⟨call, d, hc, hd, -⟩ := inlined?_eq_some_iff.1 hu
    rw [Call.rewritten?_eq_none_iff.2 (h call hc)] at hd
    simp at hd

/-- A text stays as it is exactly if its first call is settled. -/
theorem inlineArguments_eq_self_iff {t : Text} :
    inlineArguments t = t ↔ ∀ call, Call.find? t = some call → call.IsSettled := by
  rw [← inlined?_eq_none_iff, inlineArguments]
  cases h : inlined? t with
  | none => simp
  | some u => simpa using ne_of_inlined? h

end TextTransforms
