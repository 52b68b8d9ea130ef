import TextTransforms.Inlining.Passes
import TextTransforms.Proofs.Call.Body
import TextTransforms.Proofs.Inlining.Uses
import TextTransforms.Proofs.Template.WrittenCounts

/-!
# Specs with their counts written

The counts of a spec are written piece by piece (`resolveSpec_leads`,
`resolveSpec_eq_writeCounts`). Every new character is supplied by the arguments
(`mem_resolveSpec`), and a literal around the spec is read to the same end as before
(`scansAs_resolveSpec`).
-/

namespace TextTransforms

/-- The characters that a template may get when arguments move into it. -/
def Arguments.Supplies (as : Arguments) (c : Char) : Prop :=
  c = '$' ∨ c.isDigit = true ∨ ∃ i s, as.IsUsed i s ∧ c ∈ s

variable {as : Arguments}

theorem Arguments.supplies_of_mem_reference? {i : Nat} {r : Text} {c : Char}
    (h : as.reference? i = some r) (hc : c ∈ r) : as.Supplies c := by
  obtain ⟨⟨s, used⟩, ha, rfl⟩ := Option.map_eq_some_iff.1 h
  cases used with
  | true => exact .inr (.inr ⟨i, s, ha, by simpa using hc⟩)
  | false => exact .inr (.inl (Numeral.isDigit_of_mem_ofNat (by simpa using hc)))

/-- Neither a brace, a quote nor a colon is supplied by arguments that may stand in
a placeholder. -/
theorem Arguments.not_supplies (h : ∀ i s, as.IsUsed i s → isInlinable s = true) {c : Char}
    (hc : c ∈ uninlinableChars) : ¬ as.Supplies c := by
  have hplain : c ≠ '$' ∧ c.isDigit = false := by
    have : uninlinableChars.all (fun d => d != '$' && !d.isDigit) = true := by decide
    simpa using List.all_eq_true.1 this c hc
  rintro (e | hd | ⟨i, s, hu, hm⟩)
  · exact hplain.1 e
  · exact absurd hd (by simp [hplain.2])
  · exact notMem_of_isInlinable (h i s hu) hc hm

/-! ## Piece by piece -/

private theorem flatMap_resolve_of_literals {t : Text}
    (h : (specPieces t).any SpecPiece.isCount = false) :
    (specPieces t).flatMap (SpecPiece.resolve as) = t := by
  induction t using SpecPiece.pieces_induction with
  | nil => simp
  | cons s rest piece hs ih =>
    rw [hs.specPieces_eq] at h ⊢
    obtain ⟨hp, hr⟩ : piece.isCount = false ∧ (specPieces rest).any SpecPiece.isCount = false := by
      simpa using h
    rw [List.flatMap_cons, ih hr]
    cases hs with
    | count => simp [SpecPiece.isCount] at hp
    | digits | name | other => rfl

theorem resolveSpec_eq (as : Arguments) (t : Text) :
    resolveSpec as t = (specPieces t).flatMap (SpecPiece.resolve as) := by
  unfold resolveSpec
  dsimp only
  split
  · rfl
  · rename_i h
    rw [flatMap_resolve_of_literals (by simpa using h)]

@[simp] theorem resolveSpec_nil (as : Arguments) : resolveSpec as [] = [] := by
  simp [resolveSpec_eq]

theorem resolveSpec_leads (as : Arguments) {s rest : Text} {piece : SpecPiece}
    (h : SpecPiece.Leads s rest piece) :
    resolveSpec as (s ++ rest) = piece.resolve as ++ resolveSpec as rest := by
  rw [resolveSpec_eq, h.specPieces_eq, List.flatMap_cons, resolveSpec_eq]

/-- What a count is written as, without the `$`. -/
def SpecPiece.countText (as : Arguments) (index : Nat) : Text :=
  (as.reference? index).getD (Numeral.ofNat index)

theorem resolveSpec_eq_writeCounts (as : Arguments) (t : Text) :
    resolveSpec as t = writeCounts (SpecPiece.countText as) t := by
  have hpiece : SpecPiece.resolve as = SpecPiece.writeWith (SpecPiece.countText as) := by
    funext piece
    cases piece <;> rfl
  rw [resolveSpec_eq, writeCounts, hpiece]

theorem SpecPiece.supplies_of_mem_countText {index : Nat} {c : Char}
    (h : c ∈ SpecPiece.countText as index) : as.Supplies c := by
  unfold SpecPiece.countText at h
  cases hr : as.reference? index with
  | none =>
    rw [hr] at h
    exact .inr (.inl (Numeral.isDigit_of_mem_ofNat h))
  | some r =>
    rw [hr] at h
    exact Arguments.supplies_of_mem_reference? hr h

theorem mem_resolveSpec {t : Text} {c : Char} (h : c ∈ resolveSpec as t) :
    c ∈ t ∨ as.Supplies c := by
  induction t using SpecPiece.pieces_induction with
  | nil => simp at h
  | cons s rest piece hs ih =>
    rw [resolveSpec_leads as hs] at h
    rcases List.mem_append.1 h with h | h
    · cases hs with
      | count =>
        rcases List.mem_append.1 h with h | h
        · exact .inr (SpecPiece.supplies_of_mem_countText h)
        · exact .inr (.inl (by simpa using h))
      | digits | name | other => exact .inl (List.mem_append_left _ h)
    · exact (ih h).imp (List.mem_append_right s) id

/-- A literal around a spec does not end elsewhere once the counts are written. -/
theorem scansAs_resolveSpec {mark : Char} (hm : mark ≠ '$') (hd : mark.isDigit = false)
    (h : ¬ as.Supplies mark) (t : Text) : ScansAs mark t (resolveSpec as t) := by
  induction t using SpecPiece.pieces_induction with
  | nil =>
    rw [resolveSpec_nil]
    exact ScansAs.refl []
  | cons s rest piece hs ih =>
    rw [resolveSpec_leads as hs]
    cases hs with
    | @count digits _ hds hv =>
      have hold : mark ∉ digits := fun hmem => by simp [hds.2 _ hmem] at hd
      have hnew : mark ∉ SpecPiece.countText as (Numeral.value digits) :=
        fun hmem => h (SpecPiece.supplies_of_mem_countText hmem)
      have := scansAs_of_unmarked hold hnew hm.symm (by decide) ih
      simpa [SpecPiece.resolve, SpecPiece.countText] using this
    | digits | name | other => exact (ScansAs.refl _).append ih

end TextTransforms
