import TextTransforms.Proofs.Template.Choice

/-!
# Where a spec has counts

A spec has a count where the digits of a number below `2 ^ 64` stand with `$` right behind them
and no word character right before them (`IsCountRun`). The pieces of a spec spell it, but for
leading zeros of their counts (`IsCut`), and the counts among them are those of the spec, each
in its place (`specPieces_counts`). The step is `isCountRun_leads`: behind its first piece a
spec has the counts of the rest, and the first piece is a count exactly if the spec starts with
one.
-/

namespace TextTransforms

open Text (isWordChar)
open SpecPiece (Leads IsDigits)

/-- A count of the spec: digits with `$` behind them and no word character before them, so that
no digit can be added on either side. The bound is the one of indices (`Numeral.indexLimit`). -/
structure IsCountRun (t before digits after : Text) : Prop where
  text : t = before ++ (digits ++ '$' :: after)
  isDigits : IsDigits digits
  value : Numeral.value digits < 2 ^ 64
  start : ∀ c, before.getLast? = some c → isWordChar c = false

namespace SpecPiece

/-- The text is what the piece was read from: its source, with zeros before a count. -/
def Spells (s : Text) : SpecPiece → Prop
  | literal source => s = source
  | count index => ∃ k, s = List.replicate k '0' ++ (count index).source

theorem Leads.spells {s rest : Text} {piece : SpecPiece} (h : Leads s rest piece) :
    piece.Spells s := by
  cases h with
  | @count digits _ hd =>
    obtain ⟨k, hk⟩ := Numeral.exists_zeros hd.1 hd.2
    refine ⟨k, ?_⟩
    rw [source, ← List.append_assoc, ← hk]
  | digits | name | other => rfl

theorem Leads.exists_digits {s rest : Text} {n : Nat} (h : Leads s rest (.count n)) :
    ∃ d, s = d ++ ['$'] ∧ IsDigits d ∧ Numeral.value d = n ∧ n < Numeral.indexLimit := by
  cases h with
  | count hd hv => exact ⟨_, rfl, hd, rfl, hv⟩

/-! ## The first piece -/

private theorem isWordChar_of_mem {d : Text} (hd : IsDigits d) {c : Char} (hc : c ∈ d) :
    isWordChar c = true :=
  Text.isWordChar_of_isDigit (hd.2 c hc)

/-- Digits behind the first piece have no word character before them. -/
theorem Leads.getLast?_of_digit {s rest : Text} {piece : SpecPiece} (h : Leads s rest piece)
    {x : Char} (hx : rest.head? = some x) (hd : x.isDigit = true) {c : Char}
    (hc : s.getLast? = some c) : isWordChar c = false := by
  cases h with
  | count =>
    obtain rfl : '$' = c := by simpa using hc
    decide
  | digits _ hr => exact absurd hd (by simp [hr x hx])
  | name _ _ _ hr => exact absurd (Text.isWordChar_of_isDigit hd) (by simp [hr x hx])
  | @other y t _ hy ht =>
    rcases List.mem_cons.1 (List.mem_of_getLast? hc) with rfl | hm
    · exact hy
    · exact ht c hm

/-- Inside the first piece no word character can be missing in front of a digit. -/
theorem Leads.eq_nil_of_digit {s rest before u : Text} {piece : SpecPiece} {x : Char}
    (h : Leads s rest piece) (hs : s = before ++ x :: u) (hx : x.isDigit = true)
    (hstart : ∀ c, before.getLast? = some c → isWordChar c = false) : before = [] := by
  by_contra hne
  obtain ⟨front, y, rfl⟩ : ∃ front y, before = front ++ [y] :=
    ⟨_, _, (List.dropLast_concat_getLast hne).symm⟩
  have hy : isWordChar y = false := hstart y (by simp)
  have hyx : y ∈ s ∧ x ∈ s := by
    rw [hs]
    simp
  cases h with
  | @count d _ hd =>
    -- what stands in front of the last character of the piece is a digit
    have hfront : d = (front ++ [y]) ++ (x :: u).dropLast := by
      have := congrArg List.dropLast hs
      rwa [List.dropLast_concat, List.dropLast_append_of_ne_nil (by simp)] at this
    have hmem : y ∈ d := by
      rw [hfront]
      simp
    exact absurd (isWordChar_of_mem hd hmem) (by simp [hy])
  | digits hd => exact absurd (isWordChar_of_mem hd hyx.1) (by simp [hy])
  | @name c t _ hc _ ht =>
    rcases List.mem_cons.1 hyx.1 with rfl | hm
    · exact absurd hc (by simp [hy])
    · exact absurd (ht y hm) (by simp [hy])
  | @other c t _ hc ht =>
    have hxword := Text.isWordChar_of_isDigit hx
    rcases List.mem_cons.1 hyx.2 with rfl | hm
    · exact absurd hxword (by simp [hc])
    · exact absurd hxword (by simp [ht x hm])

/-- A spec that starts with a count has it as its first piece. -/
theorem Leads.eq_count {s rest digits after : Text} {piece : SpecPiece} (h : Leads s rest piece)
    (hd : IsDigits digits) (hv : Numeral.value digits < Numeral.indexLimit)
    (ht : s ++ rest = digits ++ '$' :: after) :
    s = digits ++ ['$'] ∧ piece = .count (Numeral.value digits) ∧ after = rest := by
  have hstop := Text.stops_cons (p := Char.isDigit) after (by decide : '$'.isDigit = false)
  obtain ⟨x, ds, rfl⟩ := List.exists_cons_of_ne_nil hd.1
  have hx : x.isDigit = true := hd.2 x List.mem_cons_self
  cases h with
  | @count d _ hd' =>
    rw [List.append_assoc, List.singleton_append] at ht
    obtain ⟨rfl, hrest⟩ := Text.run_append_inj ht hd'.2 hd.2
      (Text.stops_cons rest (by decide)) hstop
    exact ⟨rfl, rfl, (List.cons.inj hrest).2.symm⟩
  | digits hd' hr hlimit =>
    obtain ⟨rfl, rfl⟩ := Text.run_append_inj ht hd'.2 hd.2 hr hstop
    exact absurd (hlimit rfl) (by omega)
  | name _ hc =>
    obtain ⟨rfl, -⟩ := List.cons.inj ht
    exact absurd hx (by simp [hc])
  | other hc =>
    obtain ⟨rfl, -⟩ := List.cons.inj ht
    exact absurd (Text.isWordChar_of_isDigit hx) (by simp [hc])

end SpecPiece

/-! ## Piece by piece -/

theorem isCountRun_leads {s rest before digits after : Text} {piece : SpecPiece}
    (h : Leads s rest piece) :
    IsCountRun (s ++ rest) before digits after ↔
      (before = [] ∧ s = digits ++ ['$'] ∧ piece = .count (Numeral.value digits) ∧
        after = rest) ∨
      ∃ before', before = s ++ before' ∧ IsCountRun rest before' digits after := by
  constructor
  · rintro ⟨ht, hd, hv, hstart⟩
    obtain ⟨x, ds, rfl⟩ := List.exists_cons_of_ne_nil hd.1
    have hx : x.isDigit = true := hd.2 x List.mem_cons_self
    rcases List.append_eq_append_iff.1 ht with ⟨u, rfl, hrest⟩ | ⟨u, hs, hrest⟩
    · refine .inr ⟨u, rfl, hrest, hd, hv, fun c hc => hstart c ?_⟩
      rw [List.getLast?_append, hc]
      rfl
    · cases u with
      | nil =>
        rw [List.append_nil] at hs
        exact .inr ⟨[], by rw [hs, List.append_nil], hrest.symm, hd, hv, by simp⟩
      | cons y u =>
        obtain rfl : x = y := (List.cons.inj hrest).1
        obtain rfl := h.eq_nil_of_digit hs hx hstart
        obtain ⟨hsource, hpiece, hafter⟩ := h.eq_count hd hv ht
        exact .inl ⟨rfl, hsource, hpiece, hafter⟩
  · rintro (⟨rfl, rfl, hpiece, rfl⟩ | ⟨before', rfl, ht, hd, hv, hstart⟩)
    · rw [hpiece] at h
      obtain ⟨d, hs, hd, -, hv⟩ := h.exists_digits
      obtain rfl : digits = d := List.append_cancel_right hs
      exact ⟨by simp, hd, hv, by simp⟩
    · refine ⟨by rw [ht]; simp, hd, hv, fun c hc => ?_⟩
      rw [List.getLast?_append] at hc
      cases hlast : before'.getLast? with
      | some d =>
        obtain rfl : d = c := by simpa [hlast] using hc
        exact hstart d hlast
      | none =>
        obtain rfl := List.getLast?_eq_none_iff.1 hlast
        obtain ⟨x, ds, rfl⟩ := List.exists_cons_of_ne_nil hd.1
        exact h.getLast?_of_digit (by rw [ht]; rfl) (hd.2 x List.mem_cons_self) (by simpa using hc)

/-- The text cut into its pieces, each with what it was read from. -/
structure IsCut (t : Text) (parts : List (Text × SpecPiece)) : Prop where
  pieces : parts.map Prod.snd = specPieces t
  source : parts.flatMap Prod.fst = t
  spells : ∀ part ∈ parts, part.2.Spells part.1

/-- The piece is one of the parts, with these texts on its two sides. -/
def StandsAt (parts : List (Text × SpecPiece)) (before s : Text) (piece : SpecPiece)
    (after : Text) : Prop :=
  ∃ front back, parts = front ++ (s, piece) :: back ∧
    before = front.flatMap Prod.fst ∧ after = back.flatMap Prod.fst

theorem not_standsAt_nil {before s after : Text} {piece : SpecPiece} :
    ¬ StandsAt [] before s piece after := by
  rintro ⟨front, back, e, -⟩
  simp at e

theorem standsAt_cons {parts : List (Text × SpecPiece)} {s₀ before s after : Text}
    {piece₀ piece : SpecPiece} :
    StandsAt ((s₀, piece₀) :: parts) before s piece after ↔
      (before = [] ∧ s₀ = s ∧ piece₀ = piece ∧ after = parts.flatMap Prod.fst) ∨
      ∃ before', before = s₀ ++ before' ∧ StandsAt parts before' s piece after := by
  constructor
  · rintro ⟨front, back, e, rfl, rfl⟩
    cases front with
    | nil =>
      obtain ⟨hpart, rfl⟩ := List.cons.inj e
      obtain ⟨hs, hpiece⟩ := Prod.mk.inj hpart
      exact .inl ⟨rfl, hs, hpiece, rfl⟩
    | cons part front =>
      obtain ⟨rfl, rfl⟩ := List.cons.inj e
      exact .inr ⟨front.flatMap Prod.fst, rfl, front, back, rfl, rfl, rfl⟩
  · rintro (⟨rfl, rfl, rfl, rfl⟩ | ⟨-, rfl, front, back, rfl, rfl, rfl⟩)
    · exact ⟨[], parts, rfl, rfl, rfl⟩
    · exact ⟨(s₀, piece₀) :: front, back, rfl, rfl, rfl⟩

private theorem exists_isCut (t : Text) :
    ∃ parts, IsCut t parts ∧ ∀ before digits after,
      IsCountRun t before digits after ↔
        StandsAt parts before (digits ++ ['$']) (.count (Numeral.value digits)) after := by
  induction t using SpecPiece.pieces_induction with
  | nil =>
    refine ⟨[], ⟨by simp, rfl, by simp⟩, fun before digits after => ?_⟩
    exact ⟨fun h => by simpa using h.text, fun h => absurd h not_standsAt_nil⟩
  | cons s rest piece hs ih =>
    obtain ⟨parts, ⟨hpieces, hsource, hspells⟩, hruns⟩ := ih
    refine ⟨(s, piece) :: parts, ⟨?_, ?_, ?_⟩, fun before digits after => ?_⟩
    · rw [hs.specPieces_eq, List.map_cons, hpieces]
    · rw [List.flatMap_cons, hsource]
    · exact List.forall_mem_cons.2 ⟨hs.spells, hspells⟩
    · rw [isCountRun_leads hs, standsAt_cons, hsource]
      simp only [hruns]

/-- Every count was read from digits that denote it. -/
theorem IsCut.exists_digits {t before s after : Text} {parts : List (Text × SpecPiece)} {n : Nat}
    (h : IsCut t parts) (hs : StandsAt parts before s (.count n) after) :
    ∃ digits, s = digits ++ ['$'] ∧ n = Numeral.value digits := by
  obtain ⟨front, back, rfl, -, -⟩ := hs
  obtain ⟨k, hk⟩ : SpecPiece.Spells s (.count n) := h.spells (s, .count n) (by simp)
  refine ⟨List.replicate k '0' ++ Numeral.ofNat n, ?_, ?_⟩
  · rw [hk, SpecPiece.source, List.append_assoc]
  · rw [Numeral.value_zeros_append, Numeral.value_ofNat]

/-- The pieces are all that the alternatives read from the spec, they spell it but for leading
zeros of counts, and a count stands among them exactly where the spec has it. -/
theorem specPieces_counts (t : Text) :
    SpecPiece.readAll t = some (specPieces t, []) ∧ ∃ parts, IsCut t parts ∧
      ∀ before s n after, StandsAt parts before s (.count n) after ↔
        ∃ digits, s = digits ++ ['$'] ∧ n = Numeral.value digits ∧
          IsCountRun t before digits after := by
  obtain ⟨parts, hcut, hruns⟩ := exists_isCut t
  refine ⟨SpecPiece.readAll_eq t, parts, hcut, fun before s n after => ⟨fun h => ?_, ?_⟩⟩
  · obtain ⟨digits, rfl, rfl⟩ := hcut.exists_digits h
    exact ⟨digits, rfl, rfl, (hruns before digits after).2 h⟩
  · rintro ⟨digits, rfl, rfl, h⟩
    exact (hruns before digits after).1 h

end TextTransforms
