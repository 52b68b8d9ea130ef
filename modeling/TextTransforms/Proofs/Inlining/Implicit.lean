import TextTransforms.Proofs.Inlining.Denotations
import TextTransforms.Proofs.Inlining.Rewritten

/-!
# Placeholders without argument

Without indices in the template, the placeholders without argument take their turns
one after the other: the `n`-th takes argument `n` if that may stand there, and stays
as it is otherwise (`moveArguments_eq_fill`). So each denotes what it denoted
(`readings_fill`): the arguments that stay behind keep the order of the placeholders
that stay without argument. With that, a rewritten call refers to what it referred to.
-/

namespace TextTransforms

/-- The arguments when `n` placeholders have had their turn. -/
def Arguments.afterTurns (texts : List Text) (n : Nat) : Arguments :=
  texts.mapIdx fun i t => ⟨t, decide (i < n) && isInlinable t⟩

/-- The field of a placeholder that has had turn `n`. -/
def Field.afterTurn (as : Arguments) (n : Nat) (p : Placeholder) : Field :=
  match as[n]? with
  | some ⟨s, true⟩ => { Field.ofPlaceholder p with argument := .inlined s }
  | _ => .ofPlaceholder p

/-- A template whose placeholders without argument have had their turns, from `n` on. -/
def fill (as : Arguments) (n : Nat) : List Token → List Segment
  | [] => []
  | .text s :: tokens => .text s :: fill as n tokens
  | .placeholder p :: tokens =>
    if p.isImplicit then .field (.afterTurn as n p) :: fill as (n + 1) tokens
    else .field (.ofPlaceholder p) :: fill as n tokens

/-- Whether the token is a placeholder without argument. -/
def Token.isImplicit : Token → Bool
  | .text _ => false
  | .placeholder p => p.isImplicit

/-! ## The turns -/

namespace Arguments

theorem getElem?_afterTurns (texts : List Text) (n i : Nat) :
    (afterTurns texts n)[i]? = texts[i]?.map fun t => ⟨t, decide (i < n) && isInlinable t⟩ := by
  rw [afterTurns, List.getElem?_mapIdx]

@[simp] theorem length_afterTurns (texts : List Text) (n : Nat) :
    (afterTurns texts n).length = texts.length := by
  simp [afterTurns]

theorem afterTurns_zero (texts : List Text) : afterTurns texts 0 = ofTexts texts := by
  apply List.ext_getElem?
  intro i
  rw [getElem?_afterTurns, getElem?_ofTexts]
  simp

theorem inlinable?_afterTurns (texts : List Text) (n i : Nat) :
    (afterTurns texts n).inlinable? i = texts[i]?.filter isInlinable := by
  rw [inlinable?, getElem?_afterTurns]
  cases texts[i]? <;> rfl

theorem afterTurns_succ {texts : List Text} {n : Nat} (h : texts[n]?.filter isInlinable = none) :
    afterTurns texts (n + 1) = afterTurns texts n := by
  apply List.ext_getElem?
  intro i
  rw [getElem?_afterTurns, getElem?_afterTurns]
  by_cases hi : i = n
  · subst hi
    cases ht : texts[i]? with
    | none => rfl
    | some t =>
      have hin : isInlinable t = false := by simpa [ht] using h
      simp [hin]
  · have : i < n + 1 ↔ i < n := by omega
    simp [this]

theorem use_afterTurns {texts : List Text} {n : Nat} {s : Text}
    (h : texts[n]?.filter isInlinable = some s) :
    (afterTurns texts n).use n = afterTurns texts (n + 1) := by
  obtain ⟨ht, hin⟩ := Option.filter_eq_some_iff.1 h
  apply List.ext_getElem?
  intro i
  rw [getElem?_use, getElem?_afterTurns, getElem?_afterTurns]
  by_cases hi : i = n
  · subst hi
    simp [ht, hin]
  · have : i < n + 1 ↔ i < n := by omega
    simp [this, Ne.symm hi]

theorem nextUnused?_of_unused {as : Arguments} {i : Nat} {s : Text}
    (h : as[i]? = some ⟨s, false⟩) : as.nextUnused? i = some i := by
  obtain ⟨hlt, he⟩ := List.getElem?_eq_some_iff.1 h
  simp [nextUnused?, List.drop_eq_getElem_cons hlt, he, List.findIdx?_cons]

theorem nextUnused?_of_length_le {as : Arguments} {i : Nat} (h : as.length ≤ i) :
    as.nextUnused? i = none := by
  simp [nextUnused?, List.drop_eq_nil_of_le h]

end Arguments

/-- One turn: argument `n` if it may stand in the field, nothing otherwise. -/
theorem inlineImplicit_turn (texts : List Text) {n m : Nat} (hm : n < m) {p : Placeholder}
    (hp : p.isImplicit = true) :
    inlineImplicit (min n texts.length, .afterTurns texts n) (.ofPlaceholder p) =
      (.afterTurn (.afterTurns texts m) n p,
        min (n + 1) texts.length, .afterTurns texts (n + 1)) := by
  have hf : (Field.ofPlaceholder p).isImplicit = true := by
    simpa [Field.isImplicit, Field.ofPlaceholder, Placeholder.isImplicit] using hp
  rw [Field.afterTurn, Arguments.getElem?_afterTurns]
  cases ht : texts[n]? with
  | none =>
    have hlen : texts.length ≤ n := List.getElem?_eq_none_iff.1 ht
    have hnext : (Arguments.afterTurns texts n).nextUnused? texts.length = none :=
      Arguments.nextUnused?_of_length_le (by simp)
    rw [Arguments.afterTurns_succ (by simp [ht])]
    simp [inlineImplicit, hf, Nat.min_eq_right hlen, hnext,
      Nat.min_eq_right (show texts.length ≤ n + 1 by omega)]
  | some t =>
    have hlen : n < texts.length := (List.getElem?_eq_some_iff.1 ht).1
    have hnext : (Arguments.afterTurns texts n).nextUnused? n = some n :=
      Arguments.nextUnused?_of_unused (s := t) (by simp [Arguments.getElem?_afterTurns, ht])
    have hmin : min n texts.length = n := by omega
    have hmin' : min (n + 1) texts.length = n + 1 := by omega
    have htake := Arguments.inlinable?_afterTurns texts n n
    cases hin : isInlinable t with
    | true =>
      have hfilter : texts[n]?.filter isInlinable = some t := by simp [ht, hin]
      rw [hfilter] at htake
      rw [hmin, hmin', ← Arguments.use_afterTurns hfilter]
      simp [inlineImplicit, hf, hnext, Field.take, htake, hm, hin]
    | false =>
      have hfilter : texts[n]?.filter isInlinable = none := by simp [ht, hin]
      rw [hfilter] at htake
      rw [hmin, hmin', Arguments.afterTurns_succ hfilter]
      simp [inlineImplicit, hf, hnext, Field.take, htake, hin]

theorem mapFields_inlineImplicit (texts : List Text) {n m : Nat} {tokens : List Token}
    (hm : n + tokens.countP Token.isImplicit = m) :
    mapFields inlineImplicit (min n texts.length, .afterTurns texts n)
        (tokens.map Segment.ofToken) =
      (fill (.afterTurns texts m) n tokens, min m texts.length, .afterTurns texts m) := by
  induction tokens generalizing n with
  | nil =>
    obtain rfl : n = m := by simpa using hm
    rfl
  | cons token tokens ih =>
    cases token with
    | text s =>
      rw [List.countP_cons_of_neg (by simp [Token.isImplicit])] at hm
      simp [mapFields, Segment.ofToken, fill, ih hm]
    | placeholder p =>
      by_cases hp : p.isImplicit = true
      · have ht : (Token.placeholder p).isImplicit = true := hp
        rw [List.countP_cons_of_pos ht] at hm
        have hrest := ih (show n + 1 + tokens.countP Token.isImplicit = m by omega)
        have hturn := inlineImplicit_turn texts (show n < m by omega) hp
        simp [mapFields, Segment.ofToken, fill, hp, hturn, hrest]
      · have ht : ¬ (Token.placeholder p).isImplicit = true := hp
        rw [List.countP_cons_of_neg ht] at hm
        have hf : (Field.ofPlaceholder p).isImplicit = false := by
          simpa [Field.isImplicit, Field.ofPlaceholder, Placeholder.isImplicit] using hp
        simp [mapFields, Segment.ofToken, fill, hp, inlineImplicit, hf, ih hm]

/-! ## The other passes -/

theorem mapFields_eq_self {σ : Type} {step : σ → Field → Field × σ} {segments : List Segment}
    {s : σ} (h : ∀ f, .field f ∈ segments → step s f = (f, s)) :
    mapFields step s segments = (segments, s) := by
  induction segments with
  | nil => rfl
  | cons segment rest ih =>
    have hrest := ih fun f hf => h f (List.mem_cons_of_mem _ hf)
    cases segment with
    | text source => simp [mapFields, hrest]
    | field f => simp [mapFields, hrest, h f List.mem_cons_self]

theorem Draft.run_eq_self {step : Arguments → Field → Field × Arguments} {d : Draft}
    (h : ∀ f, .field f ∈ d.segments → step d.arguments f = (f, d.arguments)) :
    d.run step = d := by
  rw [Draft.run, mapFields_eq_self h]

/-- The fields of the filled template are the placeholders, as far as specs and written
arguments go. -/
private theorem exists_of_mem_fill {as : Arguments} {n : Nat} {tokens : List Token} {f : Field}
    (h : .field f ∈ fill as n tokens) :
    ∃ p, .placeholder p ∈ tokens ∧ f.spec = p.spec.map .written ∧
      (f.argument = .written p.argument ∨ ∃ s, f.argument = .inlined s) := by
  induction tokens generalizing n with
  | nil => simp [fill] at h
  | cons token tokens ih =>
    cases token with
    | text s =>
      obtain ⟨p, hp, hf⟩ := ih (by simpa [fill] using h)
      exact ⟨p, List.mem_cons_of_mem _ hp, hf⟩
    | placeholder p =>
      have later (k : Nat) (hk : .field f ∈ fill as k tokens) :
          ∃ q, .placeholder q ∈ Token.placeholder p :: tokens ∧ f.spec = q.spec.map .written ∧
            (f.argument = .written q.argument ∨ ∃ s, f.argument = .inlined s) := by
        obtain ⟨q, hq, hf⟩ := ih hk
        exact ⟨q, List.mem_cons_of_mem _ hq, hf⟩
      rw [fill] at h
      split at h
      · rcases List.mem_cons.1 h with e | h
        · obtain rfl : f = Field.afterTurn as n p := by simpa using e
          refine ⟨p, List.mem_cons_self, ?_⟩
          unfold Field.afterTurn
          split
          · exact ⟨rfl, .inr ⟨_, rfl⟩⟩
          · exact ⟨rfl, .inl rfl⟩
        · exact later _ h
      · rcases List.mem_cons.1 h with e | h
        · obtain rfl : f = Field.ofPlaceholder p := by simpa using e
          exact ⟨p, List.mem_cons_self, rfl, .inl rfl⟩
        · exact later _ h

section Plain

variable {p : Placeholder} (hn : ∀ t, ¬ Renames p.spec.isSome p.argument t) {f : Field}
  (hs : f.spec = p.spec.map .written)
  (ha : f.argument = .written p.argument ∨ ∃ s, f.argument = .inlined s)
include hn ha

private theorem renameField_eq_self : renameField f = f := by
  unfold renameField
  rcases ha with ha | ⟨s, ha⟩
  · rw [ha]
    dsimp only
    split
    · rename_i name target hcut
      rw [if_neg]
      intro hw
      obtain ⟨hname, htarget⟩ := Bool.and_eq_true_iff.1 hw
      exact hn _ (.target hcut hname htarget)
    · rfl
  · simp only [ha]

include hs

private theorem stripVerbose_eq_self : stripVerbose f = f := by
  unfold stripVerbose
  rcases ha with ha | ⟨s, ha⟩
  · cases hspec : p.spec with
    | none => simp only [ha, hs, hspec, Option.map_none]
    | some spec =>
      simp only [ha, hs, hspec, Option.map_some]
      rw [if_neg]
      rintro ⟨hv, hw⟩
      obtain ⟨t, ht⟩ := List.getLast?_eq_some_iff.1 hv
      refine hn t ?_
      rw [ht] at hw ⊢
      rw [List.dropLast_concat] at hw
      exact .bare (by rw [hspec]; rfl) hw
  · simp only [ha]

end Plain

/-- Only a spec `.*` takes a precision. -/
theorem inlinePrecision_eq_self {p : Placeholder} {f : Field} (hs : f.spec = p.spec.map .written)
    (hp : p.spec ≠ some ['.', '*']) (as : Arguments) : inlinePrecision as f = (f, as) := by
  have hspec : f.spec.map Part.text = p.spec := by
    simp [hs, Function.comp_def, Part.text]
  rw [inlinePrecision, if_neg]
  rintro ⟨he, -⟩
  exact hp (hspec ▸ he)

/-- A step that keeps the fields of each placeholder keeps the filled template. -/
private theorem run_fill_eq_self {step : Arguments → Field → Field × Arguments} {as : Arguments}
    {tokens : List Token}
    (h : ∀ p, .placeholder p ∈ tokens → ∀ f : Field, f.spec = p.spec.map .written →
      (f.argument = .written p.argument ∨ ∃ s, f.argument = .inlined s) → step as f = (f, as)) :
    Draft.run step ⟨fill as 0 tokens, as⟩ = ⟨fill as 0 tokens, as⟩ := by
  refine Draft.run_eq_self fun f hf => ?_
  obtain ⟨p, hm, hs, ha⟩ := exists_of_mem_fill hf
  exact h p hm f hs ha

/-- Without indices and renamed placeholders, only the turns and the last pass move arguments. -/
theorem moveArguments_eq_run_fill (texts : List Text) {tokens : List Token}
    (hn : ∀ p, .placeholder p ∈ tokens → ∀ t, ¬ Renames p.spec.isSome p.argument t)
    (hi : ∀ p, .placeholder p ∈ tokens → p.index? = none) :
    Draft.moveArguments ⟨tokens.map .ofToken, .ofTexts texts⟩ =
      Draft.run inlinePrecision
        ⟨fill (.afterTurns texts (tokens.countP Token.isImplicit)) 0 tokens,
          .afterTurns texts (tokens.countP Token.isImplicit)⟩ := by
  have e := mapFields_inlineImplicit texts (Nat.zero_add (tokens.countP Token.isImplicit))
  rw [Nat.zero_min, Arguments.afterTurns_zero] at e
  have hindex (f : Field) (hf : .field f ∈ tokens.map Segment.ofToken) : f.index? = none := by
    obtain ⟨token, ht, hseg⟩ := List.mem_map.1 hf
    cases token with
    | text => simp [Segment.ofToken] at hseg
    | placeholder p =>
      obtain rfl : Field.ofPlaceholder p = f := by simpa [Segment.ofToken] using hseg
      exact hi p ht
  have h₁ : Draft.run inlineIndexed ⟨tokens.map .ofToken, .ofTexts texts⟩ =
      ⟨tokens.map .ofToken, .ofTexts texts⟩ := by
    refine Draft.run_eq_self fun f hf => ?_
    simp [inlineIndexed, hindex f hf]
  have h₂ : Draft.run inlineWidth ⟨tokens.map .ofToken, .ofTexts texts⟩ =
      ⟨tokens.map .ofToken, .ofTexts texts⟩ := by
    refine Draft.run_eq_self fun f hf => ?_
    simp [inlineWidth, hindex f hf]
  generalize Arguments.afterTurns texts (tokens.countP Token.isImplicit) = as at e ⊢
  have h₃ : Draft.inlineImplicit ⟨tokens.map .ofToken, .ofTexts texts⟩ =
      ⟨fill as 0 tokens, as⟩ := by
    simp [Draft.inlineImplicit, e]
  have h₄ : Draft.edit renameField ⟨fill as 0 tokens, as⟩ = ⟨fill as 0 tokens, as⟩ :=
    run_fill_eq_self fun p hm f _ ha => by rw [renameField_eq_self (hn p hm) ha]
  have h₅ : Draft.edit stripVerbose ⟨fill as 0 tokens, as⟩ = ⟨fill as 0 tokens, as⟩ :=
    run_fill_eq_self fun p hm f hs ha => by rw [stripVerbose_eq_self (hn p hm) hs ha]
  rw [Draft.moveArguments, h₁, h₂, h₃, h₄, h₅]

/-- Without indices, only the turns move arguments. -/
theorem moveArguments_eq_fill (texts : List Text) {tokens : List Token}
    (hp : ∀ p, .placeholder p ∈ tokens → p.IsPlain)
    (hi : ∀ p, .placeholder p ∈ tokens → p.index? = none) :
    ∃ n, Draft.moveArguments ⟨tokens.map .ofToken, .ofTexts texts⟩ =
      ⟨fill (.afterTurns texts n) 0 tokens, .afterTurns texts n⟩ := by
  refine ⟨tokens.countP Token.isImplicit, ?_⟩
  rw [moveArguments_eq_run_fill texts (fun p hm => (hp p hm).not_renames) hi]
  refine run_fill_eq_self fun p hm f hs _ => inlinePrecision_eq_self hs (fun hstar => ?_) _
  exact (hp p hm).noPrecision _ hstar List.infix_rfl

/-! ## What they denote -/

/-- The place of argument `n` among the arguments that stay behind, if it is one of them;
beyond the list the places go on. -/
private def placeOf (as : Arguments) (n : Nat) : Nat :=
  (as.take n).countP (!·.used) + (n - as.length)

private theorem placeOf_succ (as : Arguments) (n : Nat) :
    placeOf as (n + 1) = placeOf as n + if as[n]?.any Argument.used then 0 else 1 := by
  unfold placeOf
  rw [List.take_add_one, List.countP_append]
  cases ha : as[n]? with
  | none =>
    have := List.getElem?_eq_none_iff.1 ha
    simp
    omega
  | some a =>
    have := (List.getElem?_eq_some_iff.1 ha).1
    cases hu : a.used <;> simp [hu] <;> omega

private theorem remaining_placeOf {as : Arguments} {n : Nat}
    (h : as[n]?.any Argument.used = false) :
    as.remaining[placeOf as n]? = (as.map Argument.source)[n]? := by
  unfold placeOf
  rw [List.getElem?_map]
  cases ha : as[n]? with
  | none =>
    have hlen := List.getElem?_eq_none_iff.1 ha
    rw [List.take_of_length_le hlen, ← Arguments.length_remaining]
    simp
  | some a =>
    obtain ⟨s, used⟩ := a
    obtain rfl : used = false := by simpa [ha] using h
    have hlt := (List.getElem?_eq_some_iff.1 ha).1
    rw [Nat.sub_eq_zero_of_le (by omega), Nat.add_zero, Arguments.remaining_getElem? ha]
    rfl

theorem argument_resolveField {as : Arguments} {f : Field} (h : f.index? = none) :
    (resolveField as f).placeholder.argument = f.argument.text := by
  simp [Field.placeholder, resolveField, h]

/-- A placeholder that has had its turn denotes the argument whose turn it was, and takes a
turn among the arguments that stay behind only if that one stays. -/
private theorem value_afterTurn {as : Arguments} (h : as.AreWords) {p : Placeholder} (n : Nat)
    (hp : p.isImplicit = true) :
    let q := (resolveField as (Field.afterTurn as n p)).placeholder
    q.value as.remaining (placeOf as n) = (as.map Argument.source)[n]? ∧
      (if q.isImplicit then placeOf as n + 1 else placeOf as n) = placeOf as (n + 1) := by
  have hempty : p.argument = [] := List.isEmpty_iff.1 hp
  rw [placeOf_succ]
  cases hused : as[n]?.any Argument.used with
  | true =>
    obtain ⟨s, ha⟩ : ∃ s, as[n]? = some ⟨s, true⟩ := by
      cases ha : as[n]? with
      | none => simp [ha] at hused
      | some a => exact ⟨a.source, by rw [← show a.used = true by simpa [ha] using hused]⟩
    have hrefers := refers_of_reference? h (Arguments.reference?_of_isUsed ha)
    have harg : (resolveField as (Field.afterTurn as n p)).placeholder.argument = s := by
      rw [argument_resolveField] <;>
        simp [Field.afterTurn, ha, Field.index?, Part.written?, Part.text]
    refine ⟨value_of_refers _ (harg ▸ hrefers), ?_⟩
    obtain ⟨c, t, e, -⟩ := hrefers.exists_head
    simp [Placeholder.isImplicit, harg, e]
  | false =>
    have hturn : Field.afterTurn as n p = .ofPlaceholder p := by
      unfold Field.afterTurn
      split
      · rename_i s ha
        simp [ha] at hused
      · rfl
    have harg : (resolveField as (Field.ofPlaceholder p)).placeholder.argument = [] := by
      rw [argument_resolveField] <;>
        simp [Field.ofPlaceholder, hempty, Field.index?, Part.written?, Part.text, Numeral.index?]
    have hvalue := remaining_placeOf hused
    rw [hturn]
    simp [Placeholder.value, Placeholder.isImplicit, harg, hvalue]

/-- Position by position the arguments of the filled template denote what they denoted. -/
theorem readings_fill {as : Arguments} (h : as.AreWords) {tokens : List Token}
    (hi : ∀ p, .placeholder p ∈ tokens → p.index? = none) (n : Nat) :
    List.Forall₂ (fun r r' : Reading => r'.value = r.value)
      (readings (as.map Argument.source) n tokens)
      (readings as.remaining (placeOf as n)
        ((fill as n tokens).map fun s => (s.edit (resolveField as)).token)) := by
  induction tokens generalizing n with
  | nil => exact .nil
  | cons token tokens ih =>
    have hrest := ih fun p hm => hi p (List.mem_cons_of_mem _ hm)
    cases token with
    | text s => exact hrest n
    | placeholder p =>
      by_cases hp : p.isImplicit = true
      · obtain ⟨hvalue, hnext⟩ := value_afterTurn h n hp
        rw [fill, if_pos hp, List.map_cons, Segment.edit, Segment.token, readings, readings, hnext,
          if_pos hp]
        refine .cons ?_ (hrest (n + 1))
        dsimp only
        rw [hvalue, Placeholder.value, if_pos hp]
      · have hindex := hi p List.mem_cons_self
        have harg : (resolveField as (Field.ofPlaceholder p)).placeholder.argument = p.argument :=
          argument_resolveField hindex
        rw [fill, if_neg hp, List.map_cons, Segment.edit, Segment.token, readings, readings]
        have himp : (resolveField as (Field.ofPlaceholder p)).placeholder.isImplicit = false := by
          simpa [Placeholder.isImplicit, harg] using hp
        rw [himp, if_neg hp]
        refine .cons ?_ (hrest n)
        simp only [Placeholder.index?] at hindex
        simp [Placeholder.value, himp, hp, Placeholder.index?, harg, hindex]

/-! ## The rewritten call -/

/-- If the arguments that can move are words and no placeholder is renamed or takes its
precision from the list, the rewritten template refers to the expressions that the old one
referred to: position by position in its counts and its written arguments, and without
indices in the placeholders without argument as well. -/
theorem readings_inlined {t u : Text} {call : Call} (h : inlined? t = some u)
    (hc : Call.find? t = some call)
    (hwords : ∀ a ∈ call.arguments, isInlinable a = true → Text.isWord a = true)
    (hplain : ∀ p, .placeholder p ∈ call.tokens → p.IsPlain) :
    ∃ d : Draft, call.rewritten? = some d ∧
      u = call.before ++ call.written d.template d.arguments.remaining ∧
      (readTokens d.template).2 = [] ∧
      List.Forall₂ (fun r r' : Reading =>
          r'.counts = r.counts ∧ (r.isImplicit = false → r'.value = r.value))
        (readings call.arguments 0 call.tokens)
        (readings d.arguments.remaining 0 (readTokens d.template).1) ∧
      ((∀ p, .placeholder p ∈ call.tokens → p.index? = none) →
        List.Forall₂ (fun r r' : Reading => r'.value = r.value)
          (readings call.arguments 0 call.tokens)
          (readings d.arguments.remaining 0 (readTokens d.template).1)) := by
  obtain ⟨call', d, hc', hd, rfl⟩ := inlined?_eq_some_iff.1 h
  obtain rfl : call = call' := by simpa [hc] using hc'
  obtain ⟨m, hm, rfl, traces, -, hlimit, htokens⟩ := Call.exists_of_rewritten? hd
  have hwordsUsed : m.arguments.AreWords := by
    refine ⟨traces.inlinable, fun i s hu => hwords s ?_ (traces.inlinable i s hu), ?_⟩
    · rw [← traces.sources]
      exact List.mem_map.2 ⟨⟨s, true⟩, List.mem_of_getElem? hu, rfl⟩
    · have hlen := congrArg List.length traces.sources
      rw [List.length_map] at hlen
      rw [hlen]
      exact Nat.lt_of_le_of_lt hlimit (by decide)
  have hread := traces.readTokens_template (Call.spells_tokens htokens)
  have hsources := traces.sources
  refine ⟨m.resolve, hd, call.assemble_eq _, by rw [hread], ?_, fun hindex => ?_⟩
  · rw [hread, Draft.arguments_resolve, ← hsources]
    exact readings_becomes hwordsUsed traces.becomes_resolve hplain 0 0
  · obtain ⟨n, hfill⟩ := moveArguments_eq_fill call.arguments hplain hindex
    rw [Call.draft, hfill] at hm
    have hplace : placeOf m.arguments 0 = 0 := by simp [placeOf]
    have hvalues := readings_fill hwordsUsed hindex 0
    rw [hplace] at hvalues
    rw [hread, Draft.arguments_resolve, ← hsources, Draft.tokens, Draft.segments_resolve,
      List.map_map]
    rw [show m.segments = fill m.arguments 0 call.tokens by rw [hm]]
    exact hvalues

/-- A width that numbers an argument that moves, next to an index that stays. -/
theorem readings_inlined_width :
    ∃ (call : Call) (d : Draft),
      Call.find? "print!(\"{:0$} {1}\", w, f(x))".toList = some call ∧ call.rewritten? = some d ∧
      List.Forall₂ (fun r r' : Reading =>
          r'.counts = r.counts ∧ (r.isImplicit = false → r'.value = r.value))
        (readings call.arguments 0 call.tokens)
        (readings d.arguments.remaining 0 (readTokens d.template).1) := by
  let call : Call :=
    ⟨[], "print".toList, '"', "{:0$} {1}".toList, some " w, f(x)".toList, [], false⟩
  have hc : Call.find? "print!(\"{:0$} {1}\", w, f(x))".toList = some call := by decide +kernel
  have hu : inlined? "print!(\"{:0$} {1}\", w, f(x))".toList =
      some "print!(\"{w:w$} {0}\", f(x))".toList := by decide +kernel
  have hwords : ∀ a ∈ call.arguments, isInlinable a = true → Text.isWord a = true := by
    decide +kernel
  have htokens : call.tokens =
      [.placeholder ⟨[], some "0$".toList⟩, .text [' '], .placeholder ⟨['1'], none⟩] := by
    decide +kernel
  have hplain : ∀ p, .placeholder p ∈ call.tokens → p.IsPlain := by
    intro p hp
    rw [htokens] at hp
    rcases (by simpa using hp : p = ⟨[], some "0$".toList⟩ ∨ p = ⟨['1'], none⟩) with rfl | rfl
    · exact ⟨by decide, fun spec hs => (by cases hs; decide), by decide⟩
    · exact ⟨by decide, fun spec hs => (by cases hs), by decide⟩
  obtain ⟨d, hd, -, -, hreadings, -⟩ := readings_inlined hu hc hwords hplain
  exact ⟨call, d, hc, hd, hreadings⟩

end TextTransforms
