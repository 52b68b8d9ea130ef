import Mathlib.Data.List.Basic
import TextTransforms.Proofs.Template.FormatSpec

/-!
# Specs whose counts are written anew

Every positional count that is read in a spec is written as a numeral or a name
(`writeCounts`). What is read around the counts stays (`writeCounts_leads` and the lemmas behind
it), so a spec that follows the grammar still does, with the same flags
(`FormatSpec.exists_written`), unless its zero flag was read as the first digit of a count
(`FormatSpec.LosesZero`).
-/

namespace TextTransforms

open Text (isWordChar)
open SpecPiece (Leads IsDigits)

/-- A piece with its count written as `write` says. -/
def SpecPiece.writeWith (write : Nat → Text) : SpecPiece → Text
  | literal source => source
  | count index => write index ++ ['$']

def writeCounts (write : Nat → Text) (t : Text) : Text :=
  (specPieces t).flatMap (SpecPiece.writeWith write)

/-! ## Piece by piece -/

section Pieces

variable {write : Nat → Text} {rest : Text}

@[simp] theorem writeCounts_nil : writeCounts write [] = [] := by simp [writeCounts]

theorem writeCounts_leads {s : Text} {piece : SpecPiece} (h : Leads s rest piece) :
    writeCounts write (s ++ rest) = piece.writeWith write ++ writeCounts write rest := by
  rw [writeCounts, h.specPieces_eq, List.flatMap_cons, writeCounts]

/-- A character that is in no word is written by itself. -/
theorem writeCounts_other {c : Char} (t : Text) (hc : isWordChar c = false) :
    writeCounts write (c :: t) = c :: writeCounts write t := by
  rcases SpecPiece.leads_cons_other t hc with h | ⟨d, s, rest, -, rfl, h, h'⟩
  · exact writeCounts_leads h
  · rw [← List.cons_append, writeCounts_leads h', writeCounts_leads h]
    rfl

theorem writeCounts_digits {d : Text} (hd : IsDigits d)
    (hr : ∀ c, rest.head? = some c → c.isDigit = false ∧ c ≠ '$') :
    writeCounts write (d ++ rest) = d ++ writeCounts write rest :=
  writeCounts_leads (.digits hd (fun c hc => (hr c hc).1) fun hc => absurd rfl (hr '$' hc).2)

theorem writeCounts_index {d : Text} (hd : IsDigits d)
    (hv : Numeral.value d < Numeral.indexLimit) :
    writeCounts write (d ++ '$' :: rest) =
      write (Numeral.value d) ++ '$' :: writeCounts write rest := by
  have h : writeCounts write (d ++ ['$'] ++ rest) =
      (SpecPiece.count (Numeral.value d)).writeWith write ++ writeCounts write rest :=
    writeCounts_leads (.count hd hv)
  rwa [List.append_assoc, SpecPiece.writeWith, List.append_assoc] at h

/-- A number beyond the limit is no count. -/
theorem writeCounts_long {d : Text} (hd : IsDigits d)
    (hv : Numeral.indexLimit ≤ Numeral.value d) :
    writeCounts write (d ++ '$' :: rest) = d ++ '$' :: writeCounts write rest := by
  have h : Leads d ('$' :: rest) (.literal d) :=
    .digits hd (Text.stops_cons rest (by decide)) fun _ => hv
  rw [writeCounts_leads h, writeCounts_other rest (by decide)]
  rfl

theorem writeCounts_word {c : Char} {s : Text} (hc : isWordChar c = true)
    (hd : c.isDigit = false) (hs : ∀ d ∈ s, isWordChar d = true)
    (hr : ∀ d, rest.head? = some d → isWordChar d = false) :
    writeCounts write (c :: s ++ rest) = c :: s ++ writeCounts write rest :=
  writeCounts_leads (.name hc hd hs hr)

theorem writeCounts_of_notMem {t : Text} (h : '$' ∉ t) : writeCounts write t = t := by
  induction t using SpecPiece.pieces_induction with
  | nil => exact writeCounts_nil
  | cons s rest piece hs ih =>
    have hrest := ih fun hm => h (List.mem_append_right s hm)
    rw [writeCounts_leads hs, hrest]
    cases hs with
    | count => exact absurd (by simp) h
    | digits | name | other => rfl

end Pieces

/-! ## What a count is written as -/

/-- A numeral or a name. -/
def IsCountText (t : Text) : Prop := (∃ n, t = Numeral.ofNat n) ∨ IsIdentifier t

theorem IsCountText.isIdentifierChar {t : Text} (h : IsCountText t) :
    ∀ c ∈ t, isIdentifierChar c = true := by
  rcases h with ⟨n, rfl⟩ | h
  · exact fun c hc =>
      FormatSpec.isIdentifierChar_of_isDigit (Numeral.isDigit_of_mem_ofNat hc)
  · exact h.isIdentifierChar

/-- Only zero is written with a leading zero. -/
theorem ofNat_eq_of_head? {n : Nat} (h : (Numeral.ofNat n).head? = some '0') :
    Numeral.ofNat n = ['0'] := by
  induction n using Nat.strong_induction_on with
  | _ n ih =>
    rw [Numeral.ofNat, Nat.toDigits_eq_if (by decide)] at h ⊢
    split at h
    · rename_i hn
      rw [if_pos hn]
      simpa using h
    · rename_i hn
      have hne := Numeral.ofNat_ne_nil (n / 10)
      have hhead : (Numeral.ofNat (n / 10)).head? = some '0' := by
        rwa [← Numeral.ofNat, List.head?_append_of_ne_nil _ hne] at h
      have hzero := congrArg Numeral.value (ih (n / 10) (by omega) hhead)
      rw [Numeral.value_ofNat] at hzero
      have : Numeral.value ['0'] = 0 := by decide
      omega

namespace FormatSpec

/-- What a count is written as is a reference. -/
theorem exists_count {t : Text} (h : IsCountText t) :
    ∃ c : Count, c.source = t ++ ['$'] ∧ c.literal? = none ∧
      (c.source.head? = some '0' → c.source = ['0', '$']) := by
  rcases h with ⟨n, rfl⟩ | h
  · refine ⟨.index ⟨Numeral.ofNat n, SpecPiece.isDigits_ofNat n⟩, rfl, rfl, fun hz => ?_⟩
    rw [Count.source, List.head?_append_of_ne_nil _ (Numeral.ofNat_ne_nil n)] at hz
    change Numeral.ofNat n ++ ['$'] = ['0', '$']
    rw [ofNat_eq_of_head? hz]
    rfl
  · refine ⟨.name ⟨t, h⟩, rfl, rfl, fun hz => ?_⟩
    obtain ⟨c, s, rfl, hc⟩ := h.starts
    obtain rfl : c = '0' := by simpa [Count.source] using hz
    exact absurd hc (by decide)

/-! ## Names

A name with characters that are in no word is read in parts, and digits at its end are read as
a count if they are a part. -/

/-- The text in front of a `$` is written as characters of a name, the first one the same if it
is no digit. -/
private def WritesName (write : Nat → Text) (rest n : Text) : Prop :=
  ∃ n', (∀ c ∈ n', isIdentifierChar c = true) ∧
    (∀ c, n.head? = some c → c.isDigit = false → n'.head? = some c) ∧
    writeCounts write (n ++ '$' :: rest) = n' ++ '$' :: writeCounts write rest

namespace WritesName

variable {write : Nat → Text} {rest n : Text} {c : Char}

private theorem nil : WritesName write rest [] :=
  ⟨[], by simp, by simp, writeCounts_other rest (by decide)⟩

private theorem cons (h : WritesName write rest n) (hc : isIdentifierChar c = true)
    (hword : isWordChar c = false) : WritesName write rest (c :: n) := by
  obtain ⟨n', hn', -, h⟩ := h
  refine ⟨c :: n', List.forall_mem_cons.2 ⟨hc, hn'⟩, by simp, ?_⟩
  rw [List.cons_append, writeCounts_other _ hword, h, List.cons_append]

private theorem word {s : Text} (h : WritesName write rest n) (hc : isWordChar c = true)
    (hd : c.isDigit = false) (hs : ∀ d ∈ s, isWordChar d = true)
    (hr : ∀ d, n.head? = some d → isWordChar d = false) :
    WritesName write rest (c :: s ++ n) := by
  have named {d : Char} (hd : isWordChar d = true) : isIdentifierChar d = true := by
    simp [isIdentifierChar, hd]
  obtain ⟨n', hn', -, h⟩ := h
  refine ⟨c :: s ++ n', ?_, by simp, ?_⟩
  · intro d hd
    rcases List.mem_append.1 hd with hd | hd
    · rcases List.mem_cons.1 hd with rfl | hd
      · exact named hc
      · exact named (hs d hd)
    · exact hn' d hd
  · have hstop : ∀ d, (n ++ '$' :: rest).head? = some d → isWordChar d = false := by
      intro d hd
      cases n with
      | nil =>
        obtain rfl : '$' = d := by simpa using hd
        decide
      | cons x n => exact hr d (by simpa using hd)
    rw [List.append_assoc, writeCounts_word hc hd hs hstop, h, List.append_assoc]

private theorem digits {d : Text} (h : WritesName write rest n) (hd : IsDigits d)
    (hn : ∀ c ∈ n, isIdentifierChar c = true) (hne : n ≠ [])
    (hr : ∀ c, n.head? = some c → c.isDigit = false) : WritesName write rest (d ++ n) := by
  obtain ⟨n', hn', -, h⟩ := h
  obtain ⟨x, n, rfl⟩ := List.exists_cons_of_ne_nil hne
  refine ⟨d ++ n', ?_, ?_, ?_⟩
  · intro c hc
    rcases List.mem_append.1 hc with hc | hc
    · exact isIdentifierChar_of_isDigit (hd.2 c hc)
    · exact hn' c hc
  · intro c hc hcd
    rw [List.head?_append_of_ne_nil _ hd.1] at hc
    exact absurd (hd.2 c (List.mem_of_head? hc)) (by simp [hcd])
  · have hstop : ∀ c, (x :: n ++ '$' :: rest).head? = some c → c.isDigit = false ∧ c ≠ '$' := by
      intro c hc
      obtain rfl : x = c := by simpa using hc
      refine ⟨hr x rfl, ?_⟩
      rintro rfl
      exact absurd (hn '$' List.mem_cons_self) (by decide)
    rw [List.append_assoc, writeCounts_digits hd hstop, h, List.append_assoc]

private theorem count {d : Text} (hd : IsDigits d)
    (hw : Numeral.value d < Numeral.indexLimit → IsCountText (write (Numeral.value d))) :
    WritesName write rest d := by
  have vacuous (n' : Text) : ∀ c, d.head? = some c → c.isDigit = false → n'.head? = some c := by
    intro c hc hcd
    exact absurd (hd.2 c (List.mem_of_head? hc)) (by simp [hcd])
  by_cases hv : Numeral.value d < Numeral.indexLimit
  · exact ⟨_, (hw hv).isIdentifierChar, vacuous _, writeCounts_index hd hv⟩
  · exact ⟨d, fun c hc => isIdentifierChar_of_isDigit (hd.2 c hc), vacuous _,
      writeCounts_long hd (Nat.le_of_not_lt hv)⟩

end WritesName

/-- The number at the end of the text, if no word character stands before it, is written as a
count. -/
private def CountsAtEnd (write : Nat → Text) (n : Text) : Prop :=
  ∀ s d, n = s ++ d → IsDigits d → (∀ c, s.getLast? = some c → isWordChar c = false) →
    Numeral.value d < Numeral.indexLimit → IsCountText (write (Numeral.value d))

/-- Behind a run that ends at a word character no digit follows. -/
private theorem CountsAtEnd.drop {write : Nat → Text} {r n : Text}
    (h : CountsAtEnd write (r ++ n))
    (hr : (∀ c, r.getLast? = some c → isWordChar c = false) ∨
      ∀ c, n.head? = some c → c.isDigit = false) :
    CountsAtEnd write n := by
  intro s d hn hd hs
  refine h (r ++ s) d (by rw [hn, List.append_assoc]) hd fun c hc => ?_
  rw [List.getLast?_append] at hc
  cases hlast : s.getLast? with
  | some x =>
    obtain rfl : x = c := by simpa [hlast] using hc
    exact hs x hlast
  | none =>
    obtain rfl := List.getLast?_eq_none_iff.1 hlast
    rcases hr with hr | hr
    · exact hr c (by simpa using hc)
    · obtain ⟨x, d, rfl⟩ := List.exists_cons_of_ne_nil hd.1
      exact absurd (hd.2 x List.mem_cons_self) (by simp [hr x (by rw [hn]; rfl)])

private theorem writesName {write : Nat → Text} (rest : Text) :
    (n : Text) → (∀ c ∈ n, isIdentifierChar c = true) → CountsAtEnd write n →
      WritesName write rest n
  | [], _, _ => .nil
  | c :: n, hn, hw => by
    obtain ⟨hc, hn⟩ := List.forall_mem_cons.1 hn
    have hdrop (p : Char → Bool) : ∀ d ∈ n.dropWhile p, isIdentifierChar d = true :=
      fun d hd => hn d ((List.dropWhile_suffix p).mem hd)
    by_cases hword : isWordChar c = true
    · by_cases hdigit : c.isDigit = true
      · have hd : IsDigits (c :: n.takeWhile Char.isDigit) :=
          ⟨by simp, List.forall_mem_cons.2 ⟨hdigit, fun _ => List.mem_takeWhile_imp⟩⟩
        rw [← List.takeWhile_append_dropWhile (p := Char.isDigit) (l := n), ← List.cons_append]
          at hw ⊢
        by_cases hne : n.dropWhile Char.isDigit = []
        · rw [hne, List.append_nil] at hw ⊢
          exact .count hd (hw [] _ rfl hd (by simp))
        · have hstop := fun d => Text.head?_dropWhile (p := Char.isDigit) (t := n) (c := d)
          exact (writesName rest _ (hdrop _) (hw.drop (.inr hstop))).digits hd (hdrop _) hne hstop
      · rw [← List.takeWhile_append_dropWhile (p := isWordChar) (l := n), ← List.cons_append]
          at hw ⊢
        have hstop := fun d => Text.head?_dropWhile (p := isWordChar) (t := n) (c := d)
        have hdigits : ∀ d, (n.dropWhile isWordChar).head? = some d → d.isDigit = false := by
          intro d hd
          by_contra hdd
          exact absurd (Text.isWordChar_of_isDigit (by simpa using hdd)) (by simp [hstop d hd])
        exact (writesName rest _ (hdrop _) (hw.drop (.inr hdigits))).word hword
          (by simpa using hdigit) (fun _ => List.mem_takeWhile_imp) hstop
    · have hother : isWordChar c = false := by simpa using hword
      have hrest : CountsAtEnd write n := CountsAtEnd.drop (r := [c]) hw (.inl (by simp [hother]))
      exact (writesName rest n hn hrest).cons hc hother
termination_by n => n.length
decreasing_by
  · exact Nat.lt_succ_of_le (Text.length_dropWhile_le _ n)
  · exact Nat.lt_succ_of_le (Text.length_dropWhile_le _ n)
  · exact Nat.lt_succ_self _

/-! ## Parts -/

theorem refersTo_index (d : Digits) (hv : Numeral.value d.1 < Numeral.indexLimit) :
    (Count.index d).RefersTo (Numeral.value d.1) :=
  ⟨[], d.1, rfl, d.2, by simp, rfl, hv⟩

section Parts

variable {write : Nat → Text} {rest : Text}

/-- A count is written as a count that shows the same; a leading zero is not new. -/
theorem exists_written_count (c : Count) (hw : ∀ k, c.RefersTo k → IsCountText (write k))
    (hr : Stops rest) :
    ∃ c' : Count, writeCounts write (c.source ++ rest) = c'.source ++ writeCounts write rest ∧
      c'.literal? = c.literal? ∧ ((c.source.head? = some '0' → c.source = ['0', '$']) →
        c'.source.head? = some '0' → c'.source = ['0', '$']) := by
  cases c with
  | literal d => exact ⟨.literal d, writeCounts_digits d.2 hr.head, rfl, id⟩
  | index d =>
    rw [Count.source, List.append_assoc, List.singleton_append]
    by_cases hv : Numeral.value d.1 < Numeral.indexLimit
    · obtain ⟨c', hc', hliteral, hzero⟩ := exists_count (hw _ (refersTo_index d hv))
      refine ⟨c', ?_, hliteral, fun _ => hzero⟩
      rw [writeCounts_index d.2 hv, hc', List.append_assoc, List.singleton_append]
    · refine ⟨.index d, ?_, rfl, id⟩
      rw [writeCounts_long d.2 (Nat.le_of_not_lt hv), Count.source, List.append_assoc,
        List.singleton_append]
  | name n =>
    rw [Count.source, List.append_assoc, List.singleton_append]
    obtain ⟨n', hn', hhead, h⟩ := writesName rest n.1 n.2.isIdentifierChar
      fun s d hn hd hs hv => hw _ ⟨s, d, by rw [Count.source, ← hn], hd, hs, rfl, hv⟩
    obtain ⟨c, s, hc, hd⟩ := n.2.starts
    obtain ⟨s', rfl⟩ : ∃ s', n' = c :: s' :=
      List.head?_eq_some_iff.1 (hhead c (by rw [hc]; rfl) hd)
    refine ⟨.name ⟨c :: s', ⟨c, s', rfl, hd⟩, hn'⟩, ?_, rfl, fun _ hz => ?_⟩
    · rw [h, Count.source, List.append_assoc, List.singleton_append]
    · obtain rfl : c = '0' := by simpa [Count.source] using hz
      exact absurd hd (by decide)

theorem writeCounts_kind (k : Kind) : writeCounts write k.1 = k.1 :=
  writeCounts_of_notMem (k.notMem (by decide) (by decide))

theorem exists_written_precision (p : Option Precision) (k : Kind)
    (hw : ∀ c, p = some (.count c) → ∀ k, c.RefersTo k → IsCountText (write k)) :
    ∃ p' : Option Precision, writeCounts write (behindWidth p k) = behindWidth p' k ∧
      p'.map Precision.literal? = p.map Precision.literal? := by
  match p with
  | none => exact ⟨none, writeCounts_kind k, rfl⟩
  | some (.count c) =>
    obtain ⟨c', hc', hliteral, -⟩ := exists_written_count c (hw c rfl) k.stops
    refine ⟨some (.count c'), ?_, by simpa [Precision.literal?] using hliteral⟩
    change writeCounts write ('.' :: (c.source ++ k.1)) = '.' :: (c'.source ++ k.1)
    rw [writeCounts_other _ (by decide), hc', writeCounts_kind]
  | some .star =>
    refine ⟨some .star, ?_, rfl⟩
    change writeCounts write ('.' :: '*' :: k.1) = '.' :: '*' :: k.1
    rw [writeCounts_other _ (by decide), writeCounts_other _ (by decide), writeCounts_kind]

end Parts

/-! ## Specs -/

/-- A zero flag in front of a count `K$` is read as a digit of the count, and is gone once the
count is written. -/
def LosesZero (f : FormatSpec) : Prop :=
  f.zero = true ∧ ∃ d, f.width = some (.index d) ∧ Numeral.value d.1 < Numeral.indexLimit

section Specs

variable {write : Nat → Text} {rest : Text}

theorem writeCounts_flag {mark : Char} (hm : isWordChar mark = false) (flag : Bool) :
    writeCounts write (flagText mark flag ++ rest) =
      flagText mark flag ++ writeCounts write rest := by
  cases flag with
  | false => rfl
  | true => exact writeCounts_other rest hm

theorem writeCounts_sign (s : Option Sign) :
    writeCounts write (textOf (fun s => [s.mark]) s ++ rest) =
      textOf (fun s => [s.mark]) s ++ writeCounts write rest := by
  match s with
  | none => rfl
  | some .plus => exact writeCounts_other rest (by decide)
  | some .minus => exact writeCounts_other rest (by decide)

/-- A fill is read by itself, as the mark behind it is in no word. -/
theorem writeCounts_align (a : Option Alignment) :
    writeCounts write (textOf Alignment.source a ++ rest) =
      textOf Alignment.source a ++ writeCounts write rest := by
  have mark (side : Side) : isWordChar side.mark = false := by cases side <;> decide
  match a with
  | none => rfl
  | some ⟨none, side⟩ => exact writeCounts_other rest (mark side)
  | some ⟨some fill, side⟩ =>
    change writeCounts write ([fill] ++ side.mark :: rest) =
      [fill] ++ side.mark :: writeCounts write rest
    have hmark : writeCounts write (side.mark :: rest) = side.mark :: writeCounts write rest :=
      writeCounts_other rest (mark side)
    by_cases hword : isWordChar fill = true
    · by_cases hdigit : fill.isDigit = true
      · have hd : IsDigits [fill] := ⟨by simp, by simpa using hdigit⟩
        have hstop : ∀ c, (side.mark :: rest).head? = some c → c.isDigit = false ∧ c ≠ '$' := by
          intro c hc
          obtain rfl : side.mark = c := by simpa using hc
          cases side <;> decide
        rw [writeCounts_digits hd hstop, hmark]
      · rw [writeCounts_word hword (by simpa using hdigit) (by simp)
          (Text.stops_cons rest (mark side)), hmark]
    · rw [List.singleton_append, writeCounts_other _ (by simpa using hword), hmark]
      rfl

/-- The zero flag is written with the width. -/
theorem exists_written_width (f : FormatSpec)
    (hw : ∀ c, f.width = some c → ∀ k, c.RefersTo k → IsCountText (write k)) (hr : Stops rest) :
    ∃ (zero : Bool) (width : Option Count),
      writeCounts write (flagText '0' f.zero ++ (textOf Count.source f.width ++ rest)) =
        flagText '0' zero ++ (textOf Count.source width ++ writeCounts write rest) ∧
      (zero = false → ∀ c, width = some c → c.source.head? = some '0' → c.source = ['0', '$']) ∧
      width.map Count.literal? = f.width.map Count.literal? ∧
      (f.LosesZero → zero = false) ∧ (¬ f.LosesZero → zero = f.zero) := by
  cases hz : f.zero with
  | false =>
    have hkeep : ¬ f.LosesZero := fun h => absurd (h.1.symm.trans hz) (by decide)
    cases hwidth : f.width with
    | none => exact ⟨false, none, rfl, by simp, rfl, fun _ => rfl, fun _ => rfl⟩
    | some c =>
      obtain ⟨c', hc', hliteral, hzero⟩ := exists_written_count c (hw c hwidth) hr
      refine ⟨false, some c', hc', fun _ d hd => ?_, by simpa using hliteral,
        fun _ => rfl, fun _ => rfl⟩
      obtain rfl : c' = d := Option.some.inj hd
      exact hzero (f.leading hz c hwidth)
  | true =>
    have hzero : IsDigits ['0'] := ⟨by simp, by simp⟩
    have digits (d : Digits) : IsDigits ('0' :: d.1) :=
      ⟨by simp, List.forall_mem_cons.2 ⟨rfl, d.2.2⟩⟩
    match hwidth : f.width with
    | none =>
      have hkeep : ¬ f.LosesZero := fun ⟨_, d, hd, _⟩ => by simp [hwidth] at hd
      exact ⟨true, none, writeCounts_digits hzero hr.head, by simp, rfl,
        fun h => absurd h hkeep, fun _ => rfl⟩
    | some (.literal d) =>
      have hkeep : ¬ f.LosesZero := fun ⟨_, d, hd, _⟩ => by simp [hwidth] at hd
      exact ⟨true, some (.literal d), writeCounts_digits (digits d) hr.head, by simp, rfl,
        fun h => absurd h hkeep, fun _ => rfl⟩
    | some (.name n) =>
      have hkeep : ¬ f.LosesZero := fun ⟨_, d, hd, _⟩ => by simp [hwidth] at hd
      obtain ⟨c', hc', hliteral, -⟩ := exists_written_count (.name n) (hw _ hwidth) hr
      refine ⟨true, some c', ?_, by simp, by simpa using hliteral,
        fun h => absurd h hkeep, fun _ => rfl⟩
      have hstop : ∀ c, (Count.source (.name n) ++ rest).head? = some c →
          c.isDigit = false ∧ c ≠ '$' := by
        intro c hc
        refine ⟨?_, fun hdollar => head?_count_ne (some (.name n)) hr (hdollar ▸ hc)⟩
        obtain ⟨d, s, hn, hd⟩ := n.2.starts
        obtain rfl : d = c := by simpa [Count.source, hn] using hc
        exact hd
      exact (writeCounts_digits hzero hstop).trans (congrArg _ hc')
    | some (.index d) =>
      have hsource (t : Text) :
          ['0'] ++ (Count.source (.index d) ++ t) = '0' :: d.1 ++ '$' :: t := by
        simp [Count.source]
      change ∃ zero width, writeCounts write (['0'] ++ (Count.source (.index d) ++ rest)) = _ ∧ _
      rw [hsource]
      by_cases hv : Numeral.value d.1 < Numeral.indexLimit
      · obtain ⟨c', hc', hliteral, hlead⟩ := exists_count (hw _ hwidth _ (refersTo_index d hv))
        refine ⟨false, some c', ?_, fun _ c hc => Option.some.inj hc ▸ hlead,
          congrArg some hliteral, fun _ => rfl, fun h => absurd ⟨hz, d, hwidth, hv⟩ h⟩
        rw [writeCounts_index (digits d) hv, textOf, Option.elim_some, hc', List.append_assoc]
        rfl
      · have hkeep : ¬ f.LosesZero := fun ⟨_, d', hd, hv'⟩ => by
          obtain rfl : d = d' := by simpa [hwidth] using hd
          exact hv hv'
        refine ⟨true, some (.index d), ?_, by simp, rfl, fun h => absurd h hkeep, fun _ => rfl⟩
        rw [writeCounts_long (digits d) (Nat.le_of_not_lt hv)]
        exact (hsource _).symm

/-- The spec still follows the grammar, and shows the same but for a zero flag that is lost. -/
theorem exists_written (f : FormatSpec)
    (hw : ∀ c, f.HasCount c → ∀ k, c.RefersTo k → IsCountText (write k)) :
    ∃ f' : FormatSpec, f'.source = writeCounts write f.source ∧
      (f.LosesZero → f'.flags = { f.flags with zero := false }) ∧
      (¬ f.LosesZero → f'.flags = f.flags) := by
  obtain ⟨p', hp, hprecision⟩ := exists_written_precision f.precision f.kind
    fun c hc => hw c (.inr hc)
  obtain ⟨zero, width, h, hlead, hwidth, hlose, hkeep⟩ :=
    exists_written_width f (fun c hc => hw c (.inl hc))
      (stops_behindWidth f.precision f.kind)
  refine ⟨⟨f.align, f.sign, f.alternate, zero, width, p', f.kind, hlead⟩, ?_,
    fun hl => ?_, fun hn => ?_⟩
  · rw [source, source, writeCounts_align, writeCounts_sign, writeCounts_flag (by decide), h, hp]
  · simp only [flags, hlose hl, hwidth, hprecision]
  · simp only [flags, hkeep hn, hwidth, hprecision]

end Specs

end FormatSpec

end TextTransforms
