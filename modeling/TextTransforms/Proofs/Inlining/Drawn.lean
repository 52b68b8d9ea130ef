import TextTransforms.Proofs.Inlining.Moves
import TextTransforms.Proofs.Inlining.Uses
import TextTransforms.Proofs.Template.Draws

/-!
# Arguments where they are drawn

If every argument that moves goes where it is drawn (`place`), the arguments that stay behind are
drawn as before: the template denotes what it denoted (`drawings_place`).
-/

namespace TextTransforms

/-- A placeholder that draws arguments or names one, and counts none. -/
structure Placeholder.OnlyDraws (p : Placeholder) : Prop where
  argument : p.argument = [] ∨ IsIdentifier p.argument
  noVerbose : p.argument.getLast? ≠ some 'v'
  noCount : ∀ spec, p.spec = some spec → '$' ∉ spec

/-- The text of the first argument, if it has moved. -/
def Arguments.moved? : Arguments → Option Text
  | ⟨s, true⟩ :: _ => some s
  | _ => none

/-- The placeholder with those of the arguments that it draws which have moved. -/
def Placeholder.placed (as : Arguments) (p : Placeholder) : Placeholder where
  argument :=
    if p.isImplicit then (Arguments.moved? (as.drop p.isStarred.toNat)).getD p.argument
    else p.argument
  spec :=
    if p.isStarred then as.moved?.elim p.spec fun s => some ('.' :: (s ++ ['$'])) else p.spec

/-- The template with every argument that has moved where it is drawn. -/
def place (as : Arguments) : List Token → List Token
  | [] => []
  | .text s :: tokens => .text s :: place as tokens
  | .placeholder p :: tokens => .placeholder (p.placed as) :: place (as.drop p.draws) tokens

/-! ## Names -/

namespace IsIdentifier

variable {t : Text} (h : IsIdentifier t)
include h

theorem ne_nil : t ≠ [] := by
  obtain ⟨c, s, rfl, -⟩ := h.starts
  simp

theorem index?_eq_none : Numeral.index? t = none := by
  obtain ⟨c, s, rfl, hc⟩ := h.starts
  simp [Numeral.index?, hc]

theorem precisionText?_eq : precisionText? ('.' :: (t ++ ['$'])) = some t :=
  precisionText?_reference h.isIdentifierChar

variable {p : Placeholder}

theorem value_eq (ha : p.argument = t) (args : List Text) (next : Nat) :
    p.value args next = some t := by
  simp [Placeholder.value, Placeholder.isImplicit, Placeholder.index?, ha, h.index?_eq_none,
    h.ne_nil]

theorem isStarred_eq_false (hs : p.spec = some ('.' :: (t ++ ['$']))) : p.isStarred = false := by
  rw [Placeholder.isStarred, hs, Option.any_some, decide_eq_false_iff_not]
  intro hm
  have hstar : '*' ∈ '.' :: (t ++ ['$']) := hm.subset (by simp)
  exact absurd (h.isIdentifierChar '*' (by simpa using hstar)) (by decide)

/-- A name that was put into the spec is its precision. -/
theorem precision_eq (hs : p.spec = some ('.' :: (t ++ ['$']))) (args : List Text) (next : Nat) :
    p.precision args next = some (some t) := by
  rw [Placeholder.precision, if_neg (by simp [h.isStarred_eq_false hs]), hs, Option.bind_some,
    h.precisionText?_eq, Option.map_some, Placeholder.denoted, h.index?_eq_none]

end IsIdentifier

namespace Placeholder

variable {p : Placeholder}

theorem index?_eq_none (h : p.argument = [] ∨ IsIdentifier p.argument) : p.index? = none := by
  rcases h with h | h
  · simp [index?, h, Numeral.index?]
  · exact h.index?_eq_none

theorem precision_of_isStarred (h : p.isStarred = true) (args : List Text) (next : Nat) :
    p.precision args next = some args[next]? := by
  rw [precision, if_pos h]

namespace OnlyDraws

variable (h : p.OnlyDraws)
include h

theorem precisionText?_eq_none : p.spec.bind precisionText? = none := by
  cases hs : p.spec with
  | none => rfl
  | some spec => exact precisionText?_of_notMem (.inr (h.noCount spec hs))

theorem hasNoIndex : p.HasNoIndex where
  argument := index?_eq_none h.argument
  precision t ht := by simp [h.precisionText?_eq_none] at ht

theorem not_renames (t : Text) : ¬ Renames p.spec.isSome p.argument t := by
  intro hr
  generalize hs : p.argument = s at hr
  cases hr with
  | target hcut =>
    have hmem : '=' ∈ p.argument := by
      rw [hs, (Text.cut?_eq_some_iff.1 hcut).1]
      simp
    rcases h.argument with ha | ha
    · simp [ha] at hmem
    · exact absurd (ha.isIdentifierChar '=' hmem) (by decide)
  | bare => exact h.noVerbose (by rw [hs, List.getLast?_concat])

end OnlyDraws

end Placeholder

/-! ## One placeholder -/

namespace Arguments

variable {as : Arguments}

theorem moved?_eq_some_iff {s : Text} : as.moved? = some s ↔ ∃ rest, as = ⟨s, true⟩ :: rest := by
  match as with
  | [] => simp [moved?]
  | ⟨_, true⟩ :: _ => simp [moved?]
  | ⟨_, false⟩ :: _ => simp [moved?]

/-- If the first argument has not moved, it is the first of those that stay behind. -/
theorem of_moved?_eq_none (h : as.moved? = none) :
    as.remaining[0]? = (as.map Argument.source)[0]? ∧
      as.remaining.drop 1 = Arguments.remaining (as.drop 1) := by
  match as, h with
  | [], _ => exact ⟨rfl, rfl⟩
  | ⟨s, false⟩ :: _, _ => exact ⟨rfl, rfl⟩

theorem of_moved?_eq_some {s : Text} (h : as.moved? = some s) :
    (as.map Argument.source)[0]? = some s ∧ as.remaining = Arguments.remaining (as.drop 1) := by
  obtain ⟨rest, rfl⟩ := moved?_eq_some_iff.1 h
  exact ⟨rfl, rfl⟩

end Arguments

section Placed

variable {as : Arguments} (hused : ∀ s, ⟨s, true⟩ ∈ as → IsIdentifier s) (p : Placeholder)
include hused

private theorem isIdentifier_of_moved? {s : Text} {k : Nat}
    (h : Arguments.moved? (as.drop k) = some s) : IsIdentifier s := by
  obtain ⟨rest, hrest⟩ := Arguments.moved?_eq_some_iff.1 h
  refine hused s (List.mem_of_mem_drop (i := k) ?_)
  rw [hrest]
  exact List.mem_cons_self

private theorem spec_placed :
    ((p.placed as).spec = p.spec ∧ (p.isStarred = true → as.moved? = none)) ∨
      ∃ s, IsIdentifier s ∧ p.isStarred = true ∧ as.moved? = some s ∧
        (p.placed as).spec = some ('.' :: (s ++ ['$'])) := by
  cases hstar : p.isStarred with
  | false => exact .inl ⟨by simp [Placeholder.placed, hstar], by simp⟩
  | true =>
    cases hm : as.moved? with
    | none => exact .inl ⟨by simp [Placeholder.placed, hm], by simp⟩
    | some s =>
      refine .inr ⟨s, isIdentifier_of_moved? hused (k := 0) hm, rfl, rfl, ?_⟩
      simp [Placeholder.placed, hstar, hm]

private theorem argument_placed :
    ((p.placed as).argument = p.argument ∧
        (p.isImplicit = true → Arguments.moved? (as.drop p.isStarred.toNat) = none)) ∨
      ∃ s, IsIdentifier s ∧ p.isImplicit = true ∧
        Arguments.moved? (as.drop p.isStarred.toNat) = some s ∧ (p.placed as).argument = s := by
  cases himp : p.isImplicit with
  | false => exact .inl ⟨by simp [Placeholder.placed, himp], by simp⟩
  | true =>
    cases hm : Arguments.moved? (as.drop p.isStarred.toNat) with
    | none => exact .inl ⟨by simp [Placeholder.placed, hm], by simp⟩
    | some s =>
      refine .inr ⟨s, isIdentifier_of_moved? hused hm, rfl, rfl, ?_⟩
      simp [Placeholder.placed, himp, hm]

variable {p} (hp : p.OnlyDraws)
include hp

private theorem hasNoIndex_placed : (p.placed as).HasNoIndex where
  argument := by
    refine Placeholder.index?_eq_none ?_
    rcases argument_placed hused p with ⟨harg, -⟩ | ⟨s, hs, -, -, harg⟩
    · exact harg ▸ hp.argument
    · exact .inr (harg ▸ hs)
  precision t ht := by
    rcases spec_placed hused p with ⟨hspec, -⟩ | ⟨s, hs, -, -, hspec⟩
    · simp [hspec, hp.precisionText?_eq_none] at ht
    · rw [hspec, Option.bind_some, hs.precisionText?_eq] at ht
      obtain rfl := Option.some.inj ht
      exact hs.index?_eq_none

/-- The precision is drawn from those that stay behind, or stands in the spec. -/
private theorem precision_placed :
    (p.placed as).precision as.remaining 0 = p.precision (as.map Argument.source) 0 ∧
      as.remaining.drop (p.placed as).isStarred.toNat =
        Arguments.remaining (as.drop p.isStarred.toNat) := by
  rcases spec_placed hused p with ⟨hspec, hstay⟩ | ⟨s, hs, hstar, hm, hspec⟩
  · have hsame : (p.placed as).isStarred = p.isStarred := by
      rw [Placeholder.isStarred, hspec, Placeholder.isStarred]
    cases hstar : p.isStarred with
    | false =>
      have hnone : (p.placed as).precision as.remaining 0 = none := by
        simp [Placeholder.precision, hsame, hstar, hspec, hp.precisionText?_eq_none]
      have hnone' : p.precision (as.map Argument.source) 0 = none := by
        simp [Placeholder.precision, hstar, hp.precisionText?_eq_none]
      exact ⟨hnone.trans hnone'.symm, by rw [hsame, hstar]; rfl⟩
    | true =>
      obtain ⟨hhead, hdrop⟩ := Arguments.of_moved?_eq_none (hstay hstar)
      rw [Placeholder.precision_of_isStarred (hsame.trans hstar),
        Placeholder.precision_of_isStarred hstar, hhead, hsame, hstar]
      exact ⟨rfl, hdrop⟩
  · obtain ⟨hhead, hdrop⟩ := Arguments.of_moved?_eq_some hm
    rw [hs.precision_eq hspec, Placeholder.precision_of_isStarred hstar, hhead,
      hs.isStarred_eq_false hspec, hstar]
    exact ⟨rfl, hdrop⟩

/-- The value is drawn from those that stay behind, or stands in the placeholder. -/
private theorem value_placed :
    let behind := as.drop p.isStarred.toNat
    (p.placed as).value (Arguments.remaining behind) 0 = p.value (behind.map Argument.source) 0 ∧
      (Arguments.remaining behind).drop (p.placed as).isImplicit.toNat =
        Arguments.remaining (as.drop p.draws) := by
  intro behind
  have hdraws : as.drop p.draws = behind.drop p.isImplicit.toNat := by
    rw [Placeholder.draws, List.drop_drop]
  rw [hdraws]
  rcases argument_placed hused p with ⟨harg, hstay⟩ | ⟨s, hs, himp, hm, harg⟩
  · have hsame : (p.placed as).isImplicit = p.isImplicit := by
      rw [Placeholder.isImplicit, harg, Placeholder.isImplicit]
    cases himp : p.isImplicit with
    | false =>
      rw [hsame, himp]
      refine ⟨?_, rfl⟩
      have hindex := hp.hasNoIndex.argument
      simp only [Placeholder.index?] at hindex
      simp [Placeholder.value, hsame, himp, Placeholder.index?, harg, hindex]
    | true =>
      obtain ⟨hhead, hdrop⟩ := Arguments.of_moved?_eq_none (hstay himp)
      rw [hsame, himp, Placeholder.value, if_pos (hsame.trans himp), Placeholder.value, if_pos himp]
      exact ⟨hhead, hdrop⟩
  · obtain ⟨hhead, hdrop⟩ := Arguments.of_moved?_eq_some hm
    have hkept : (p.placed as).isImplicit = false := by
      simp [Placeholder.isImplicit, harg, hs.ne_nil]
    rw [hs.value_eq harg, hkept, himp, Placeholder.value, if_pos himp]
    exact ⟨hhead.symm, hdrop⟩

end Placed

/-! ## Templates -/

private theorem hasNoIndex_of_mem_place {as : Arguments} {tokens : List Token}
    (hused : ∀ s, ⟨s, true⟩ ∈ as → IsIdentifier s)
    (hd : ∀ p, .placeholder p ∈ tokens → p.OnlyDraws) :
    ∀ q, .placeholder q ∈ place as tokens → q.HasNoIndex := by
  induction tokens generalizing as with
  | nil => simp [place]
  | cons token tokens ih =>
    have hd' := fun p hp => hd p (List.mem_cons_of_mem _ hp)
    intro q hq
    cases token with
    | text s => exact ih hused hd' q (by simpa [place] using hq)
    | placeholder p =>
      rcases List.mem_cons.1 hq with e | hq
      · obtain rfl : q = p.placed as := by simpa using e
        exact hasNoIndex_placed hused (hd p List.mem_cons_self)
      · exact ih (fun s hs => hused s (List.mem_of_mem_drop hs)) hd' q hq

/-- With every argument that has moved where it is drawn, the template denotes against those that
stay behind what it denoted against all of them. -/
theorem drawings_place {as : Arguments} {tokens : List Token}
    (hused : ∀ s, ⟨s, true⟩ ∈ as → IsIdentifier s)
    (hd : ∀ p, .placeholder p ∈ tokens → p.OnlyDraws) :
    drawings as.remaining 0 (place as tokens) =
      drawings (as.map Argument.source) 0 tokens := by
  induction tokens generalizing as with
  | nil => rfl
  | cons token tokens ih =>
    have hd' := fun p hp => hd p (List.mem_cons_of_mem _ hp)
    cases token with
    | text s => exact ih hused hd'
    | placeholder p =>
      have hp := hd p List.mem_cons_self
      have hq := hasNoIndex_placed hused hp
      have hrest : ∀ s, ⟨s, true⟩ ∈ as.drop p.draws → IsIdentifier s :=
        fun s hs => hused s (List.mem_of_mem_drop hs)
      have hindex := fun p hp => (hd' p hp).hasNoIndex
      obtain ⟨hprecision, hbehind⟩ := precision_placed hused hp
      obtain ⟨hvalue, hleft⟩ := value_placed hused hp
      have hsame : (p.placed as).value as.remaining (p.placed as).isStarred.toNat =
          p.value (as.map Argument.source) p.isStarred.toNat := by
        rw [Placeholder.value_eq_drop hq.argument, hbehind, hvalue, List.map_drop,
          ← Placeholder.value_eq_drop hp.hasNoIndex.argument]
      have htail : drawings as.remaining (p.placed as).draws (place (as.drop p.draws) tokens) =
          drawings (as.map Argument.source) p.draws tokens := by
        rw [drawings_eq_drop (hasNoIndex_of_mem_place hrest hd'), Placeholder.draws,
          ← List.drop_drop, hbehind, hleft, ih hrest hd', List.map_drop, ← drawings_eq_drop hindex]
      rw [place, drawings, drawings, Nat.zero_add, Nat.zero_add, Nat.zero_add, Nat.zero_add,
        hprecision, hsame, htail]

end TextTransforms
