import Mathlib.Data.List.Infix
import TextTransforms.Proofs.Template.FormatSpec
import TextTransforms.Proofs.Template.Readings

/-!
# What a template draws

Placeholders without argument and precisions `.*` draw the arguments one after the other, a
placeholder its precision before its value. So a template is read against an argument list with
one counter for both (`drawings`).

For specs that follow the grammar of formatting, the precision that is read is that of the
grammar (`FormatSpec.isStarred_source_iff`, `FormatSpec.precisionText?_source`).
-/

namespace TextTransforms

/-- The reference that is the precision of a spec: a count between a dot and a `$`. -/
def precisionText? : Text → Option Text
  | [] => none
  | c :: t =>
    if c = '.' ∧ (t.dropWhile isIdentifierChar).head? = some '$' then
      some (t.takeWhile isIdentifierChar)
    else precisionText? t

namespace Placeholder

/-- Whether the precision is drawn. -/
def isStarred (p : Placeholder) : Bool := p.spec.any fun spec => decide (['.', '*'] <:+: spec)

/-- What a written reference denotes. -/
def denoted (args : List Text) (reference : Text) : Option Text :=
  match Numeral.index? reference with
  | some index => args[index]?
  | none => some reference

/-- What the precision denotes, if an argument gives it; `next` is the argument to be drawn. -/
def precision (args : List Text) (next : Nat) (p : Placeholder) : Option (Option Text) :=
  if p.isStarred then some args[next]? else (p.spec.bind precisionText?).map (denoted args)

/-- The number of arguments that a placeholder draws. -/
def draws (p : Placeholder) : Nat := p.isStarred.toNat + p.isImplicit.toNat

end Placeholder

/-- The number of arguments that a template draws. -/
def draws : List Token → Nat
  | [] => 0
  | .text _ :: tokens => draws tokens
  | .placeholder p :: tokens => p.draws + draws tokens

/-- What a placeholder denotes. -/
structure Drawing where
  value : Option Text
  precision : Option (Option Text)
  deriving DecidableEq, Repr

/-- The placeholders among the tokens read against an argument list, if `next` arguments have
been drawn before. -/
def drawings (args : List Text) (next : Nat) : List Token → List Drawing
  | [] => []
  | .text _ :: tokens => drawings args next tokens
  | .placeholder p :: tokens =>
    ⟨p.value args (next + p.isStarred.toNat), p.precision args next⟩ ::
      drawings args (next + p.draws) tokens

example :
    drawings [['p'], ['x'], ['y']] 0
        [.placeholder ⟨[], some ".*".toList⟩, .placeholder ⟨[], some ".w$".toList⟩] =
      [⟨some ['x'], some (some ['p'])⟩, ⟨some ['y'], some (some ['w'])⟩] := by decide +kernel

/-! ## Precisions -/

section Precisions

variable {s t : Text}

theorem precisionText?_append (h : '.' ∉ s) : precisionText? (s ++ t) = precisionText? t := by
  induction s with
  | nil => rfl
  | cons c s ih =>
    obtain ⟨hc, hs⟩ := List.ne_and_not_mem_of_not_mem_cons h
    rw [List.cons_append, precisionText?, if_neg fun hdot => hc hdot.1.symm, ih hs]

theorem precisionText?_of_notMem (h : '.' ∉ s ∨ '$' ∉ s) : precisionText? s = none := by
  induction s with
  | nil => rfl
  | cons c s ih =>
    rw [precisionText?, if_neg,
      ih (h.imp List.not_mem_of_not_mem_cons List.not_mem_of_not_mem_cons)]
    rintro ⟨rfl, hdollar⟩
    rcases h with h | h
    · exact h List.mem_cons_self
    · have hm := (List.dropWhile_suffix isIdentifierChar).mem (List.mem_of_head? hdollar)
      exact h (List.mem_cons_of_mem _ hm)

theorem precisionText?_reference (hs : ∀ c ∈ s, isIdentifierChar c = true) :
    precisionText? ('.' :: (s ++ '$' :: t)) = some s := by
  have hstop : ∀ c, ('$' :: t).head? = some c → isIdentifierChar c = false :=
    Text.stops_cons t (by decide)
  rw [precisionText?, Text.dropWhile_run hs hstop, Text.takeWhile_run hs hstop, if_pos ⟨rfl, rfl⟩]

end Precisions

namespace FormatSpec

/-- The reference that a precision is written with. -/
def Precision.reference? : Precision → Option Text
  | .count (.index d) => some d
  | .count (.name n) => some n
  | _ => none

/-- The spec between its alignment and its precision. -/
private def middle (f : FormatSpec) : Text :=
  textOf (fun s => [s.mark]) f.sign ++ (flagText '#' f.alternate ++ (flagText '0' f.zero ++
    textOf Count.source f.width))

private theorem source_eq_middle (f : FormatSpec) :
    f.source = textOf Alignment.source f.align ++ (f.middle ++ behindWidth f.precision f.kind) := by
  simp [source, middle]

private theorem notMem_count {c : Char} (hc : isIdentifierChar c = false) (hdollar : c ≠ '$')
    (w : Count) : c ∉ w.source := by
  have digits (d : Digits) : c ∉ d.1 := fun hm =>
    absurd (isIdentifierChar_of_isDigit (d.2.2 c hm)) (by simp [hc])
  cases w with
  | literal d => exact digits d
  | index d => simpa [Count.source, hdollar] using digits d
  | name n =>
    have hn : c ∉ n.1 := fun hm => absurd (n.2.isIdentifierChar c hm) (by simp [hc])
    simpa [Count.source, hdollar] using hn

private theorem notMem_middle {c : Char} (hc : isIdentifierChar c = false)
    (hplain : c ∉ ['$', '+', '-', '#']) (f : FormatSpec) : c ∉ f.middle := by
  have hzero : c ≠ '0' := by
    rintro rfl
    exact absurd hc (by decide)
  simp only [List.mem_cons, List.not_mem_nil, or_false, not_or] at hplain
  obtain ⟨hdollar, hplus, hminus, hsharp⟩ := hplain
  have flag (mark : Char) (b : Bool) (hm : c ≠ mark) : c ∉ flagText mark b := by
    cases b <;> simp [flagText, hm]
  have hsign : c ∉ textOf (fun s => [s.mark]) f.sign := by
    rcases f.sign with _ | _ | _
    · simp [textOf]
    · simpa [textOf, Sign.mark] using hplus
    · simpa [textOf, Sign.mark] using hminus
  have hwidth : c ∉ textOf Count.source f.width := by
    cases f.width with
    | none => simp [textOf]
    | some w => exact notMem_count hc hdollar w
  simp [middle, hsign, flag '#' _ hsharp, flag '0' _ hzero, hwidth]

/-- A fill is no dot that a precision follows. -/
private theorem precisionText?_align (a : Option Alignment) (t : Text) :
    precisionText? (textOf Alignment.source a ++ t) = precisionText? t := by
  have mark (side : Side) : side.mark ≠ '.' ∧ side.mark ≠ '$' ∧
      isIdentifierChar side.mark = false := by cases side <;> decide
  have behind (side : Side) (t : Text) : precisionText? (side.mark :: t) = precisionText? t := by
    rw [precisionText?, if_neg fun h => (mark side).1 h.1]
  match a with
  | none => rfl
  | some ⟨none, side⟩ => exact behind side t
  | some ⟨some fill, side⟩ =>
    change precisionText? (fill :: side.mark :: t) = precisionText? t
    rw [precisionText?, if_neg, behind]
    rintro ⟨-, hdollar⟩
    rw [List.dropWhile_cons_of_neg (by simp [(mark side).2.2])] at hdollar
    exact (mark side).2.1 (by simpa using hdollar)

/-- The reference that is read as precision is that of the grammar. -/
theorem precisionText?_source (f : FormatSpec) :
    precisionText? f.source = f.precision.bind Precision.reference? := by
  rw [source_eq_middle, precisionText?_align,
    precisionText?_append (f.notMem_middle (by decide) (by decide))]
  have hkind (c : Char) (hc : c = '.' ∨ c = '$') : c ∉ f.kind.1 := by
    rcases hc with rfl | rfl <;> exact f.kind.notMem (by decide) (by decide)
  match hp : f.precision with
  | none => exact precisionText?_of_notMem (.inl (hkind '.' (.inl rfl)))
  | some (.count (.literal d)) =>
    have hd : '$' ∉ d.1 := fun hm => absurd (d.2.2 '$' hm) (by decide)
    refine precisionText?_of_notMem (.inr ?_)
    simpa [behindWidth, textOf, Precision.source, Count.source, hd] using hkind '$' (.inr rfl)
  | some (.count (.index d)) =>
    have hd := precisionText?_reference (t := f.kind.1)
      fun c hc => isIdentifierChar_of_isDigit (d.2.2 c hc)
    simpa [behindWidth, textOf, Precision.source, Count.source, Precision.reference?] using hd
  | some (.count (.name n)) =>
    have hn := precisionText?_reference (t := f.kind.1) n.2.isIdentifierChar
    simpa [behindWidth, textOf, Precision.source, Count.source, Precision.reference?] using hn
  | some .star =>
    refine precisionText?_of_notMem (.inr ?_)
    simpa [behindWidth, textOf, Precision.source] using hkind '$' (.inr rfl)

/-- A precision is drawn exactly if the grammar has it as `.*`. -/
theorem isStarred_source_iff (f : FormatSpec) (argument : Text) :
    Placeholder.isStarred ⟨argument, some f.source⟩ = true ↔ f.precision = some .star := by
  rw [Placeholder.isStarred, Option.any_some, decide_eq_true_iff, source_eq_middle]
  constructor
  · intro h
    by_contra hstar
    have hbehind : '*' ∉ behindWidth f.precision f.kind := by
      have hkind : '*' ∉ f.kind.1 := f.kind.notMem (by decide) (by decide)
      match hp : f.precision with
      | none => simpa [behindWidth, textOf] using hkind
      | some (.count c) =>
        simpa [behindWidth, textOf, Precision.source, hkind]
          using notMem_count (by decide) (by decide) c
      | some .star => exact absurd hp hstar
    have hrest : '*' ∉ f.middle ++ behindWidth f.precision f.kind := by
      simpa [hbehind] using f.notMem_middle (by decide) (by decide)
    -- A star in front of that is the fill, and has no dot before it.
    have htail : '*' ∈ (textOf Alignment.source f.align ++
        (f.middle ++ behindWidth f.precision f.kind)).tail := by
      obtain ⟨s, t, ht⟩ := h
      rw [← ht]
      cases s <;> simp
    generalize f.align = align at htail
    rcases align with _ | ⟨_ | fill, side⟩
    · exact hrest (List.mem_of_mem_tail htail)
    · exact hrest htail
    · have hmark : '*' ≠ side.mark := by cases side <;> decide
      exact hrest ((List.mem_cons.1 htail).resolve_left hmark)
  · intro h
    refine ⟨textOf Alignment.source f.align ++ f.middle, f.kind.1, ?_⟩
    simp [behindWidth, h, textOf, Precision.source]

end FormatSpec

/-! ## Drawing without indices -/

/-- No argument is numbered by the placeholder. -/
structure Placeholder.HasNoIndex (p : Placeholder) : Prop where
  argument : p.index? = none
  precision : ∀ t, p.spec.bind precisionText? = some t → Numeral.index? t = none

section Drop

variable {p : Placeholder}

theorem Placeholder.value_eq_drop (h : p.index? = none) (args : List Text) (next : Nat) :
    p.value args next = p.value (args.drop next) 0 := by
  simp [value, h]

theorem Placeholder.precision_eq_drop (h : p.HasNoIndex) (args : List Text) (next : Nat) :
    p.precision args next = p.precision (args.drop next) 0 := by
  unfold precision
  split
  · simp
  · cases ht : p.spec.bind precisionText? with
    | none => rfl
    | some t => simp [denoted, h.precision t ht]

/-- Without indices a template is read against the arguments that have not been drawn. -/
theorem drawings_eq_drop {tokens : List Token}
    (h : ∀ p, .placeholder p ∈ tokens → p.HasNoIndex) (args : List Text) (next : Nat) :
    drawings args next tokens = drawings (args.drop next) 0 tokens := by
  have shift (k next : Nat) :
      drawings args (k + next) tokens = drawings (args.drop k) next tokens := by
    induction tokens generalizing next with
    | nil => rfl
    | cons token tokens ih =>
      have hrest := ih fun p hp => h p (List.mem_cons_of_mem _ hp)
      cases token with
      | text s => exact hrest next
      | placeholder p =>
        have hp := h p List.mem_cons_self
        rw [drawings, drawings, p.value_eq_drop hp.argument, p.precision_eq_drop hp,
          p.value_eq_drop hp.argument (args.drop k), p.precision_eq_drop hp (args.drop k),
          List.drop_drop, List.drop_drop, ← hrest, Nat.add_assoc, Nat.add_assoc]
  exact shift next 0

end Drop

end TextTransforms
