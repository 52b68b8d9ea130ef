import TextTransforms.Proofs.Calculator.Search
import TextTransforms.Proofs.Calculator.WholeLine

/-!
# Words in an expression

A word of an expression is a number, is `Math`, or is the name of a member and stands behind
`Math.` (`Chain.namesBehindMath`). So what is written for the word behind a text can be
part of an expression that starts in that text only if the text ends with `Math.`; if it does
not, whether an expression starts there does not depend on the word
(`parseStart?_eq_none_exchange`).
-/

namespace TextTransforms.Expr

open Call (EndsOutside endsOutside_cons)
open Calculator (endsOutside_append endsOutside_of_append)

/-- A word that starts so is neither a number nor `Math`. -/
def startsName (c : Char) : Bool := Text.isWordChar c && !c.isDigit && c != 'M'

/-- A word that is neither a number nor `Math` stands behind `Math.`, and that `Math` is a word. -/
def NamesBehindMath (t : Text) : Prop :=
  ∀ s c v, t = s ++ c :: v → startsName c = true → EndsOutside false s →
    ∃ s', s = s' ++ "Math.".toList ∧ EndsOutside false s'

section Texts

variable {a b t : Text} {c : Char}

theorem isWordChar_of_startsName (h : startsName c = true) : Text.isWordChar c = true :=
  (Bool.and_eq_true_iff.1 (Bool.and_eq_true_iff.1 h).1).1

theorem namesBehindMath_of_forall (h : ∀ c ∈ t, startsName c = false) : NamesBehindMath t := by
  intro s c v ht hc
  rw [h c (by simp [ht])] at hc
  exact nomatch hc

theorem namesBehindMath_paren : NamesBehindMath [')'] :=
  namesBehindMath_of_forall (List.forall_mem_singleton.2 rfl)

theorem NamesBehindMath.cons (ht : NamesBehindMath t) (hc : Text.isWordChar c = false) :
    NamesBehindMath (c :: t) := by
  intro s d v hd hstart hout
  cases s with
  | nil =>
    obtain ⟨rfl, -⟩ := List.cons.inj hd
    rw [isWordChar_of_startsName hstart] at hc
    exact nomatch hc
  | cons e s =>
    obtain ⟨rfl, hrest⟩ := List.cons.inj hd
    rw [endsOutside_cons, hc] at hout
    obtain ⟨s', rfl, hs'⟩ := ht s d v hrest hstart hout
    exact ⟨c :: s', rfl, endsOutside_cons.2 (by rwa [hc])⟩

theorem NamesBehindMath.append (ha : NamesBehindMath a) (hb : NamesBehindMath b)
    (hhead : ∀ c, b.head? = some c → Text.isWordChar c = false) : NamesBehindMath (a ++ b) := by
  intro s c v h hstart hout
  have behind (s₂ : Text) (hs : s = a ++ s₂) (hv : b = s₂ ++ c :: v) :
      ∃ s', s = s' ++ "Math.".toList ∧ EndsOutside false s' := by
    obtain ⟨s', rfl, hs'⟩ := hb s₂ c v hv hstart (endsOutside_of_append (hs ▸ hout))
    refine ⟨a ++ s', by rw [hs, List.append_assoc], endsOutside_append (fun hnil => ?_) hs'⟩
    -- The second text would start with `Math`.
    rw [hnil] at hv
    exact absurd (hhead 'M' (by rw [hv]; rfl)) (by decide)
  rcases List.append_eq_append_iff.1 h with ⟨s₂, hs, hv⟩ | ⟨a', ha', hv⟩
  · exact behind s₂ hs hv
  · cases a' with
    | nil => exact behind [] (by simpa using ha'.symm) hv.symm
    | cons d a' =>
      obtain ⟨rfl, -⟩ := List.cons.inj hv
      exact ha s c a' ha' hstart hout

theorem Space.namesBehindMath_append (s : Space) (ht : NamesBehindMath t) :
    NamesBehindMath (s.1 ++ t) := by
  have hgap := Calculator.isGap_of_space s
  generalize s.1 = u at hgap
  induction u with
  | nil => exact ht
  | cons c u ih => exact (ih hgap.tail).cons hgap.head

theorem head?_space_append (s : Space) (hc : Text.isWordChar c = false) :
    ∀ d, (s.1 ++ c :: t).head? = some d → Text.isWordChar d = false := by
  intro d hd
  rw [List.head?_append] at hd
  cases hs : s.1.head? with
  | none =>
    obtain rfl : c = d := by simpa [hs] using hd
    exact hc
  | some e =>
    obtain rfl : e = d := by simpa [hs] using hd
    exact (Calculator.isGap_of_space s).of_head? hs

end Texts

/-! ## Trees -/

theorem DecimalText.namesBehindMath (n : DecimalText) : NamesBehindMath n.source := by
  have digits (d : Digits) : ∀ c ∈ d.1, startsName c = false := fun c hc => by
    simp [startsName, d.2.2 c hc]
  refine namesBehindMath_of_forall fun c hc => ?_
  cases n with
  | integer whole => exact digits whole c hc
  | decimal whole fraction =>
    rcases List.mem_append.1 hc with hc | hc
    · exact digits whole c hc
    · rcases List.mem_cons.1 hc with rfl | hc
      · decide
      · exact digits fraction c hc
  | point fraction =>
    rcases List.mem_cons.1 hc with rfl | hc
    · decide
    · exact digits fraction c hc

/-- The name itself is the only such word: all its other characters stand inside a word. -/
theorem Name.namesBehindMath (n : Name) : NamesBehindMath n.source := by
  have inside : ∀ k < 5, "Math.".toList[k]? ≠ some 'M' →
      ("Math.".toList.take k).getLast?.any Text.isWordChar = true := by decide
  have text : ∀ c ∈ n.text, Text.isWordChar c = true := by
    intro c hc
    rcases List.mem_cons.1 hc with rfl | hc
    · simp [Text.isWordChar, Char.isAlphanum, n.isAlpha]
    · exact n.isWordChar c hc
  intro s c v h hstart hout
  have outside {d : Char} (hd : s.getLast? = some d) : Text.isWordChar d ≠ true := by
    have : Text.isWordChar d = false := by simpa [EndsOutside, hd] using hout
    simp [this]
  change "Math.".toList ++ n.text = s ++ c :: v at h
  rcases List.append_eq_append_iff.1 h with ⟨a, rfl, ha⟩ | ⟨a, ha, hv⟩
  · cases hlast : a.getLast? with
    | none =>
      rw [List.getLast?_eq_none_iff.1 hlast, List.append_nil]
      exact ⟨[], rfl, rfl⟩
    | some d =>
      have hmem : d ∈ n.text := ha ▸ List.mem_append_left _ (List.mem_of_getLast? hlast)
      exact absurd (text d hmem) (outside (by rw [List.getLast?_append, hlast, Option.some_or]))
  · cases a with
    | nil => exact ⟨[], by simpa using ha.symm, rfl⟩
    | cons d a =>
      obtain ⟨rfl, -⟩ := List.cons.inj hv
      have hM : c ≠ 'M' := by rintro rfl; exact absurd hstart (by decide)
      have hlen : s.length < 5 := by
        have := congrArg List.length ha
        simp only [List.length_append, List.length_cons] at this
        exact Nat.lt_of_lt_of_eq (by omega) this.symm
      have hlast := inside s.length hlen (by rw [ha]; simpa using hM)
      obtain ⟨d, hd, hword⟩ := (Option.any_eq_true ..).1 hlast
      rw [ha, List.take_left] at hd
      exact absurd hword (outside hd)

theorem Link.isWordChar_mark {l : Level} (link : Link l) : Text.isWordChar link.mark = false := by
  have marks : l.operandFollow.all (fun c => !Text.isWordChar c) = true := by cases l <;> decide
  simpa using List.all_eq_true.1 marks _ link.mark_spec.1

theorem More.head?_source {l : Level} (m : More l) :
    ∀ c, m.source.head? = some c → Text.isWordChar c = false := by
  cases m with
  | nil => simp [source]
  | cons link operand more => exact head?_space_append link.before link.isWordChar_mark

mutual

private theorem Operand.namesBehindMath {l : Level} :
    (o : Operand l) → NamesBehindMath o.source
  | .product chain => chain.namesBehindMath
  | .signed s => s.namesBehindMath

theorem Chain.namesBehindMath {l : Level} : (chain : Chain l) → NamesBehindMath chain.source
  | .mk first more => first.namesBehindMath.append more.namesBehindMath more.head?_source

private theorem More.namesBehindMath {l : Level} : (m : More l) → NamesBehindMath m.source
  | .nil => namesBehindMath_of_forall (by simp [More.source])
  | .cons link operand more =>
    link.before.namesBehindMath_append (.cons
      (link.behind.namesBehindMath_append
        (operand.namesBehindMath.append more.namesBehindMath more.head?_source))
      link.isWordChar_mark)

private theorem Signed.namesBehindMath : (s : Signed) → NamesBehindMath s.source
  | .minus behind operand =>
    .cons (behind.namesBehindMath_append operand.namesBehindMath) (by decide)
  | .plus behind operand =>
    .cons (behind.namesBehindMath_append operand.namesBehindMath) (by decide)
  | .atom a => a.namesBehindMath

private theorem Atom.namesBehindMath : (a : Atom) → NamesBehindMath a.source
  | .number n => n.namesBehindMath
  | .constant name => name.namesBehindMath
  | .call name behind tail =>
    name.namesBehindMath.append
      (behind.namesBehindMath_append (.cons tail.namesBehindMath (by decide)))
      (head?_space_append behind (by decide))
  | .group before body behind =>
    .cons (before.namesBehindMath_append (body.namesBehindMath.append
      (behind.namesBehindMath_append namesBehindMath_paren)
      (head?_space_append behind (by decide)))) (by decide)

private theorem CallTail.namesBehindMath : (tail : CallTail) → NamesBehindMath tail.source
  | .last before argument behind =>
    before.namesBehindMath_append (argument.namesBehindMath.append
      (behind.namesBehindMath_append namesBehindMath_paren)
      (head?_space_append behind (by decide)))
  | .cons before argument behind tail =>
    before.namesBehindMath_append (argument.namesBehindMath.append
      (behind.namesBehindMath_append (.cons tail.namesBehindMath (by decide)))
      (head?_space_append behind (by decide)))

end

/-! ## Another word in its place -/

/-- A name by itself is an expression, whatever follows. -/
theorem Name.exists_parseStart? (n : Name) (rest : Text) :
    ∃ e rest', parseStart? (n.source ++ rest) = some (e, rest') := by
  let chain : Chain .sum := .mk (.product (.mk (.signed (.atom (.constant n))) .nil)) .nil
  have hsource : chain.source = n.source := by
    simp [chain, Chain.source, Operand.source, Signed.source, Atom.source, More.source]
  obtain ⟨e, rest', hread, -⟩ := chain.readsThrough rest
  rw [hsource] at hread
  exact ⟨e, rest', hread⟩

/-- If no expression starts in front of a word, none does with another word in its place,
unless the text in front ends with `Math.`. -/
theorem parseStart?_eq_none_exchange {s w u rest : Text} {c : Char} (hout : EndsOutside false s)
    (hmath : ∀ s', s = s' ++ "Math.".toList → ¬ EndsOutside false s')
    (hc : startsName c = true) (h : parseStart? (s ++ w) = none) :
    parseStart? (s ++ (c :: u ++ rest)) = none := by
  cases hread : parseStart? (s ++ (c :: u ++ rest)) with
  | none => rfl
  | some r =>
    obtain ⟨e, rest'⟩ := r
    obtain ⟨d, hd, -⟩ := level?_sound hread
    -- An expression inside `s` would be read in front of `w` too.
    have within {m : Text} (hs : s = d.source ++ m) : False := by
      obtain ⟨e', rest'', hr, -⟩ := d.readsThrough (m ++ w)
      rw [← List.append_assoc, ← hs, ← parseStart?_eq, h] at hr
      exact nomatch hr
    rcases List.append_eq_append_iff.1 hd with ⟨m, hm, hrest⟩ | ⟨m, hs, -⟩
    · cases m with
      | nil => exact (within (m := []) (by simpa using hm.symm)).elim
      | cons b m =>
        obtain ⟨rfl, -⟩ := List.cons.inj hrest
        obtain ⟨s', hs, hs'⟩ := d.namesBehindMath s c m hm hc hout
        exact absurd hs' (hmath s' hs)
    · exact (within hs).elim

/-- No expression starts with a word that is neither a number nor `Math`. -/
theorem parseStart?_startsName {c : Char} (t : Text) (hc : startsName c = true) :
    parseStart? (c :: t) = none := by
  have hnil : parseStart? ([] ++ []) = none := by
    cases h : parseStart? ([] ++ []) with
    | none => rfl
    | some r => exact absurd (length_lt_of_level? h) (Nat.not_lt_zero _)
  have hnone : parseStart? ([] ++ (c :: t ++ [])) = none :=
    parseStart?_eq_none_exchange rfl (fun s' hs => by simp at hs) hc hnil
  rwa [List.nil_append, List.append_nil] at hnone

end TextTransforms.Expr
