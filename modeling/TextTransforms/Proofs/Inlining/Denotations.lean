import TextTransforms.Proofs.Inlining.Outcome
import TextTransforms.Proofs.Template.Readings

/-!
# What references denote afterwards

If the arguments that moved are words, a reference that is written denotes against the
remaining arguments what its old form denoted against all of them (`Refers`). So do
the counts of a spec (`countsOf_resolveSpec`) and the placeholders with an argument
(`readings_becomes`).
-/

namespace TextTransforms

open Text (isWordChar)

/-- The text denotes `meaning` against the remaining arguments: a numeral by its place
among them, a word by itself. -/
inductive Refers (as : Arguments) (meaning : Option Text) : Text → Prop
  | index {n : Nat} (hn : n < Numeral.indexLimit) (h : as.remaining[n]? = meaning) :
      Refers as meaning (Numeral.ofNat n)
  | name {c : Char} {t : Text} (hc : isWordChar c = true) (hd : c.isDigit = false)
      (ht : ∀ d ∈ t, isWordChar d = true) (h : some (c :: t) = meaning) :
      Refers as meaning (c :: t)

theorem Refers.exists_head {as : Arguments} {meaning : Option Text} {t : Text}
    (h : Refers as meaning t) : ∃ c s, t = c :: s ∧ isWordChar c = true := by
  cases h with
  | @index n =>
    obtain ⟨c, s, e⟩ := List.exists_cons_of_ne_nil (Numeral.ofNat_ne_nil n)
    refine ⟨c, s, e, Text.isWordChar_of_isDigit (Numeral.isDigit_of_mem_ofNat (n := n) ?_)⟩
    rw [e]
    exact List.mem_cons_self
  | name hc => exact ⟨_, _, rfl, hc⟩

/-- The arguments that moved may stand in a placeholder and are words, and all can be
counted. -/
structure Arguments.AreWords (as : Arguments) : Prop where
  isInlinable : ∀ i s, as.IsUsed i s → isInlinable s = true
  isWord : ∀ i s, as.IsUsed i s → Text.isWord s = true
  limit : as.length < Numeral.indexLimit

section References

variable {as : Arguments} (h : as.AreWords)
include h

theorem refers_of_reference? {i : Nat} {r : Text} (hr : as.reference? i = some r) :
    Refers as (as.map Argument.source)[i]? r := by
  obtain ⟨⟨s, used⟩, ha, rfl⟩ := Option.map_eq_some_iff.1 hr
  rw [List.getElem?_map, ha]
  cases used with
  | true =>
    obtain ⟨c, s, rfl, hd⟩ := exists_cons_of_isInlinable (h.isInlinable i _ ha)
    obtain ⟨hc, hs⟩ := List.forall_mem_cons.1 (Text.isWord_iff.1 (h.isWord i _ ha)).2
    exact .name hc hd hs rfl
  | false =>
    refine .index ?_ (Arguments.remaining_getElem? ha)
    have hle : (as.take i).countP (!·.used) ≤ (as.take i).length := List.countP_le_length
    have := h.limit
    rw [List.length_take] at hle
    omega

omit h in
theorem refers_of_length_le {i : Nat} (hi : i < Numeral.indexLimit) (hle : as.length ≤ i) :
    Refers as (as.map Argument.source)[i]? (Numeral.ofNat i) := by
  refine .index hi ?_
  have hmissing : (as.map Argument.source)[i]? = none :=
    List.getElem?_eq_none (by simpa using hle)
  rw [hmissing, List.getElem?_eq_none (as.length_remaining_le.trans hle)]

theorem refers_countText {k : Nat} (hk : k < Numeral.indexLimit) :
    Refers as (as.map Argument.source)[k]? (SpecPiece.countText as k) := by
  unfold SpecPiece.countText
  cases hr : as.reference? k with
  | some r => exact refers_of_reference? h hr
  | none => exact refers_of_length_le hk (Arguments.reference?_eq_none_iff.1 hr)

/-! ## Specs -/

/-- A spec still starts as it did, or with a word character instead of a digit. -/
private theorem head?_resolveSpec (t : Text) :
    (resolveSpec as t).head? = t.head? ∨
      ∃ c d, t.head? = some c ∧ c.isDigit = true ∧
        (resolveSpec as t).head? = some d ∧ isWordChar d = true := by
  by_cases ht : t = []
  · simp [ht]
  · obtain ⟨s, rest, piece, rfl, hs⟩ := SpecPiece.exists_leads ht
    rw [resolveSpec_leads as hs]
    cases hs with
    | @count digits _ hd hv =>
      obtain ⟨c, ds, rfl⟩ := List.exists_cons_of_ne_nil hd.1
      obtain ⟨d, r, hr, hw⟩ := (refers_countText h hv).exists_head
      refine .inr ⟨c, d, rfl, hd.2 c List.mem_cons_self, ?_, hw⟩
      simp only [SpecPiece.resolve]
      rw [show (as.reference? (Numeral.value (c :: ds))).getD _ =
        SpecPiece.countText as (Numeral.value (c :: ds)) from rfl, hr]
      rfl
    | digits hd =>
      obtain ⟨c, ds, rfl⟩ := List.exists_cons_of_ne_nil hd.1
      exact .inl rfl
    | name => exact .inl rfl
    | other => exact .inl rfl

private theorem head?_resolveSpec_of_not {t : Text}
    (ht : ∀ c, t.head? = some c → c.isDigit = false) :
    (resolveSpec as t).head? = t.head? := by
  rcases head?_resolveSpec h t with e | ⟨c, d, hc, hcd, -⟩
  · exact e
  · exact absurd hcd (by simp [ht c hc])

private theorem head?_resolveSpec_eq_dollar_iff (t : Text) :
    (resolveSpec as t).head? = some '$' ↔ t.head? = some '$' := by
  rcases head?_resolveSpec h t with e | ⟨c, d, hc, hcd, hd, hdw⟩
  · rw [e]
  · have hne := Text.ne_of_isWordChar (Text.isWordChar_of_isDigit hcd) (d := '$') (by decide)
    have hne' := Text.ne_of_isWordChar hdw (d := '$') (by decide)
    simp [hc, hd, hne, hne']

/-- What is read as it stands is still read so in front of the rest as it is written. -/
private theorem SpecPiece.Leads.resolveSpec {s rest source : Text}
    (hs : SpecPiece.Leads s rest (.literal source)) :
    SpecPiece.Leads s (resolveSpec as rest) (.literal source) := by
  cases hs with
  | digits hd hr hv =>
    have hhead := head?_resolveSpec_of_not h hr
    exact .digits hd (by rwa [hhead]) (by rwa [hhead])
  | name hc hd ht hr =>
    have hdigit (d : Char) (hd : rest.head? = some d) : d.isDigit = false := by
      by_contra hdigit
      have hw : isWordChar d = true := Text.isWordChar_of_isDigit (by simpa using hdigit)
      exact absurd hw (by simp [hr d hd])
    have hhead := head?_resolveSpec_of_not h hdigit
    exact .name hc hd ht (by rwa [hhead])
  | other hc ht hr =>
    refine .other hc ht fun d hd => ?_
    rcases head?_resolveSpec h rest with e | ⟨x, y, -, -, hy, hyw⟩
    · exact hr d (e ▸ hd)
    · obtain rfl : y = d := by simpa [hy] using hd
      exact hyw

omit h in
/-- A count that is written denotes what its text refers to. -/
private theorem Refers.countsOf_eq {meaning : Option Text} {text : Text}
    (hr : Refers as meaning text) (t : Text) :
    SpecPiece.countsOf as.remaining (text ++ '$' :: t) =
      meaning :: SpecPiece.countsOf as.remaining t := by
  cases hr with
  | @index n hn hmean =>
    have hlead : SpecPiece.Leads (Numeral.ofNat n ++ ['$']) t
        (.count (Numeral.value (Numeral.ofNat n))) :=
      .count (SpecPiece.isDigits_ofNat n) (by simpa using hn)
    have := SpecPiece.countsOf_count as.remaining hlead
    rw [Numeral.value_ofNat, hmean, List.append_assoc] at this
    exact this
  | @name c s hc hcd hs hmean =>
    have hlead : SpecPiece.Leads (c :: s) ('$' :: t) (.literal (c :: s)) :=
      .name hc hcd hs fun d hd => by
        obtain rfl : '$' = d := by simpa using hd
        decide
    have hw : Text.isWord (c :: s) = true := by
      simpa [Text.isWord, hc] using hs
    rw [SpecPiece.countsOf_literal hlead, if_pos ⟨hw, rfl⟩, SpecPiece.countsOf_dollar, hmean]

/-- Each count of a spec denotes what it denoted. -/
theorem countsOf_resolveSpec (t : Text) :
    SpecPiece.countsOf as.remaining (resolveSpec as t) =
      SpecPiece.countsOf (as.map Argument.source) t := by
  induction t using SpecPiece.pieces_induction with
  | nil => simp
  | cons s rest piece hs ih =>
    have literal {source : Text} (hold : SpecPiece.Leads s rest (.literal source)) :
        SpecPiece.countsOf as.remaining (s ++ resolveSpec as rest) =
          SpecPiece.countsOf (as.map Argument.source) (s ++ rest) := by
      rw [SpecPiece.countsOf_literal (hold.resolveSpec h), SpecPiece.countsOf_literal hold, ih]
      simp only [head?_resolveSpec_eq_dollar_iff h]
    rw [resolveSpec_leads as hs]
    have hold := hs
    cases hs with
    | @count digits _ hd hv =>
      rw [SpecPiece.countsOf_count _ hold, ← ih, ← (refers_countText h hv).countsOf_eq]
      simp [SpecPiece.resolve, SpecPiece.countText]
    | digits | name | other => exact literal hold

/-! ## Placeholders -/

omit h in
theorem value_of_refers {meaning : Option Text} {p : Placeholder} (next : Nat)
    (hp : Refers as meaning p.argument) : p.value as.remaining next = meaning := by
  obtain ⟨argument, spec⟩ := p
  dsimp only at hp
  cases hp with
  | @index n hn hmean =>
    simp [Placeholder.value, Placeholder.isImplicit, Placeholder.index?, Numeral.ofNat_ne_nil,
      Numeral.index?_ofNat hn, hmean]
  | @name c t hc hd ht hmean =>
    have hindex : Numeral.index? (c :: t) = none := by simp [Numeral.index?, hd]
    simp [Placeholder.value, Placeholder.isImplicit, Placeholder.index?, hindex, hmean]

theorem ArgumentBecomes.value_eq {p p' : Placeholder} (next next' : Nat)
    (ha : ArgumentBecomes as p.argument p'.argument) (hp : p.isImplicit = false) :
    p'.value as.remaining next' = p.value (as.map Argument.source) next := by
  obtain ⟨t, spec⟩ := p
  obtain ⟨a, spec'⟩ := p'
  simp only [Placeholder.isImplicit] at hp
  dsimp only at ha
  cases ha with
  | kept hk =>
    cases hi : Numeral.index? t with
    | none => simp [Placeholder.value, Placeholder.isImplicit, Placeholder.index?, hi, hp]
    | some i =>
      rw [hi, Option.bind_some, Arguments.reference?_eq_none_iff] at hk
      have hmissing : as.remaining[i]? = none :=
        List.getElem?_eq_none (as.length_remaining_le.trans hk)
      have hmissing' : (as.map Argument.source)[i]? = none :=
        List.getElem?_eq_none (by simpa using hk)
      simp [Placeholder.value, Placeholder.isImplicit, Placeholder.index?, hi, hp, hmissing,
        hmissing', -List.getElem?_map]
  | @reference _ _ i hi hr =>
    have hold : (Placeholder.mk t spec).value (as.map Argument.source) next =
        (as.map Argument.source)[i]? := by
      simp [Placeholder.value, Placeholder.isImplicit, Placeholder.index?, hi, hp]
    rw [hold]
    exact value_of_refers next' (refers_of_reference? h hr)
  | implicit => simp at hp

end References

/-- A placeholder that is neither renamed nor has its precision taken from the list. -/
structure Placeholder.IsPlain (p : Placeholder) : Prop where
  noAlias : '=' ∉ p.argument
  noPrecision : ∀ spec, p.spec = some spec → ¬ ['.', '*'] <:+: spec
  noVerbose : p.spec.isSome = true → Text.isWord p.argument = true → p.argument.getLast? ≠ some 'v'

namespace Placeholder.IsPlain

variable {p : Placeholder} (h : p.IsPlain)
include h

theorem not_renames (t : Text) : ¬ Renames p.spec.isSome p.argument t := by
  intro hr
  generalize e : p.argument = s at hr
  cases hr with
  | target hcut =>
    refine h.noAlias ?_
    rw [e, (Text.cut?_eq_some_iff.1 hcut).1]
    simp
  | bare hs ht =>
    refine h.noVerbose hs ?_ (by rw [e, List.getLast?_concat])
    have hv : Text.isWordChar 'v' = true := by decide
    rw [e, Text.isWord_iff]
    refine ⟨by simp, fun c hc => ?_⟩
    rcases List.mem_append.1 hc with hc | hc
    · exact (Text.isWord_iff.1 ht).2 c hc
    · obtain rfl : c = 'v' := by simpa using hc
      exact hv

theorem becomes {as : Arguments} {p' : Placeholder} (hb : p.Becomes as p') :
    ArgumentBecomes as p.argument p'.argument ∧ p'.spec = p.spec.map (resolveSpec as) := by
  constructor
  · obtain ⟨t, hr, ha⟩ := hb.argument
    rcases Relation.ReflTransGen.cases_head hr with rfl | ⟨s, hs, -⟩
    · exact ha
    · exact absurd hs (h.not_renames s)
  · have hspec := hb.spec
    have hno := h.noPrecision
    generalize p.spec = spec at hspec hno
    generalize p'.spec = spec' at hspec
    cases hspec with
    | none => rfl
    | resolved => rfl
    | precision => exact absurd (List.infix_rfl) (hno _ rfl)

end Placeholder.IsPlain

/-- Position by position the counts denote what they denoted, and so do the arguments
that were written. -/
theorem readings_becomes {as : Arguments} (h : as.AreWords) {tokens tokens' : List Token}
    (hb : List.Forall₂ (Token.Becomes as) tokens tokens')
    (hp : ∀ p, .placeholder p ∈ tokens → p.IsPlain) (next next' : Nat) :
    List.Forall₂ (fun r r' : Reading =>
        r'.counts = r.counts ∧ (r.isImplicit = false → r'.value = r.value))
      (readings (as.map Argument.source) next tokens) (readings as.remaining next' tokens') := by
  induction hb generalizing next next' with
  | nil => exact .nil
  | @cons token token' tokens tokens' hb _ ih =>
    have hrest := ih fun p hm => hp p (List.mem_cons_of_mem _ hm)
    cases token <;> cases token' <;> simp only [Token.Becomes] at hb
    · exact hrest next next'
    · rename_i p p'
      obtain ⟨ha, hspec⟩ := (hp p List.mem_cons_self).becomes hb
      refine .cons ⟨?_, fun hi => ha.value_eq h next next' hi⟩ (hrest _ _)
      dsimp only [Placeholder.counts]
      rw [hspec]
      cases p.spec with
      | none => rfl
      | some spec => exact countsOf_resolveSpec h spec

end TextTransforms
