import TextTransforms.Proofs.Clipboard.Reading

/-!
# Texts without comments

A text stays as it is exactly if no comment opens in it (`stripComments_eq_self_iff`). If the
start of a block comment does not occur, the slashes decide: each run of two or more has two and
stands behind a colon (`stripComments_eq_self_iff_slashRuns`). The colon saves two slashes only,
as the second and the third one have no colon in front of them (`stripComments_three_slashes`).
-/

namespace TextTransforms.Clipboard

/-! ## No comment opens -/

/-- At no place of the text a comment opens. -/
def IsBare (previous : Option Char) (t : Text) : Prop :=
  ∀ u v, t = u ++ v → ¬ OpensLine (u.getLast?.or previous) v ∧ ¬ OpensBlock v

section Bare

variable {previous : Option Char} {c : Char} {t : Text} {ps : List Piece}

/-- The character before the second part of a text, with the one before the text. -/
theorem getLast?_cons_or (c : Char) (u : Text) (previous : Option Char) :
    (c :: u).getLast?.or previous = u.getLast?.or (some c) := by
  rw [List.getLast?_cons, Option.some_or, Option.or_some]

theorem isBare_nil : IsBare previous [] := by
  intro u v h
  obtain ⟨-, rfl⟩ := List.append_eq_nil_iff.1 h.symm
  exact ⟨fun hl => by simp [OpensLine] at hl, fun ⟨_, h, _⟩ => nomatch h⟩

theorem isBare_cons :
    IsBare previous (c :: t) ↔
      ¬ OpensLine previous (c :: t) ∧ ¬ OpensBlock (c :: t) ∧ IsBare (some c) t := by
  constructor
  · intro h
    refine ⟨(h [] (c :: t) rfl).1, (h [] (c :: t) rfl).2, fun u v ht => ?_⟩
    rw [← getLast?_cons_or c u previous]
    exact h (c :: u) v (by rw [ht, List.cons_append])
  · rintro ⟨hl, hb, h⟩ u v ht
    cases u with
    | nil =>
      obtain rfl : c :: t = v := ht
      exact ⟨hl, hb⟩
    | cons d u =>
      obtain ⟨rfl, hrest⟩ := List.cons.inj ht
      rw [getLast?_cons_or]
      exact h u v hrest

/-- Nothing is taken away exactly if no comment opens. -/
theorem Reads.left_eq_iff (h : Reads previous t ps) : left ps = t ↔ IsBare previous t := by
  have shorter {comment rest : Text} {ps : List Piece} (hne : comment ≠ [])
      (hle : (left ps).length ≤ rest.length) : left (.comment comment :: ps) ≠ comment ++ rest := by
    intro he
    have := congrArg List.length he
    have := List.length_pos_iff.2 hne
    rw [left, List.length_append] at *
    omega
  induction h with
  | done => exact ⟨fun _ => isBare_nil, fun _ => rfl⟩
  | @line previous comment rest ps hp hc hr =>
    have hne : comment ≠ [] := by
      obtain ⟨body, rfl⟩ := hc.exists_cons
      exact List.cons_ne_nil _ _
    constructor
    · exact fun he => absurd he (shorter hne hr.length_left_le)
    · exact fun hbare => absurd (hc.opensLine hp) (hbare [] _ rfl).1
  | @block previous comment rest ps hc hr =>
    have hne : comment ≠ [] := by
      obtain ⟨body, rfl, -⟩ := hc
      exact List.cons_ne_nil _ _
    constructor
    · exact fun he => absurd he (shorter hne hr.length_left_le)
    · exact fun hbare => absurd (hc.opensBlock rest) (hbare [] _ rfl).2
  | @char previous c t ps hl hb hr ih =>
    rw [left, isBare_cons]
    exact ⟨fun he => ⟨hl, hb, ih.1 (List.cons.inj he).2⟩, fun hbare => by rw [ih.2 hbare.2.2]⟩

theorem stripComments_eq_self_iff : stripComments t = t ↔ IsBare none t := by
  obtain ⟨ps, hr, hleft⟩ := exists_reads t
  rw [← hleft, hr.left_eq_iff]

theorem isBare_iff : IsBare none t ↔
    (∀ u v, t = u ++ '/' :: '/' :: v → u.getLast? = some ':') ∧ HasNoBlock t := by
  constructor
  · intro h
    refine ⟨fun u v ht => ?_, fun v ⟨u, ht⟩ => (h u v ht.symm).2⟩
    by_contra hne
    exact (h u ('/' :: '/' :: v) ht).1 ⟨⟨v, rfl⟩, by rwa [Option.or_none]⟩
  · rintro ⟨hline, hblock⟩ u v ht
    refine ⟨?_, hblock v ⟨u, ht.symm⟩⟩
    rintro ⟨⟨w, rfl⟩, hne⟩
    rw [Option.or_none] at hne
    exact hne (hline u w ht)

end Bare

/-! ## Runs of slashes -/

/-- Two or more slashes in a row, with all that there are. -/
structure IsSlashRun (t before : Text) (n : Nat) (after : Text) : Prop where
  source_eq : t = before ++ List.replicate n '/' ++ after
  two_le : 2 ≤ n
  behind : before.getLast? ≠ some '/'
  front : after.head? ≠ some '/'

section Runs

variable {t before after : Text} {n : Nat}

theorem exists_replicate_slash (t : Text) :
    ∃ n rest, t = List.replicate n '/' ++ rest ∧ rest.head? ≠ some '/' := by
  induction t with
  | nil => exact ⟨0, [], rfl, by simp⟩
  | cons c t ih =>
    by_cases hc : c = '/'
    · obtain ⟨n, rest, rfl, hrest⟩ := ih
      exact ⟨n + 1, rest, by rw [hc, List.replicate_succ, List.cons_append], hrest⟩
    · exact ⟨0, c :: t, rfl, by simpa using hc⟩

theorem exists_append_replicate_slash (t : Text) :
    ∃ before n, t = before ++ List.replicate n '/' ∧ before.getLast? ≠ some '/' := by
  obtain ⟨n, rest, ht, hrest⟩ := exists_replicate_slash t.reverse
  refine ⟨rest.reverse, n, ?_, by rwa [List.getLast?_reverse]⟩
  rw [← List.reverse_reverse t, ht, List.reverse_append, List.reverse_replicate]

/-- Two slashes stand in a run, behind some of its slashes. -/
theorem exists_isSlashRun {u v : Text} (h : t = u ++ '/' :: '/' :: v) :
    ∃ before m n after, u = before ++ List.replicate m '/' ∧
      IsSlashRun t before (m + (n + 2)) after := by
  obtain ⟨before, m, rfl, hbefore⟩ := exists_append_replicate_slash u
  obtain ⟨n, after, rfl, hafter⟩ := exists_replicate_slash v
  refine ⟨before, m, n, after, rfl, ?_, by omega, hbefore, hafter⟩
  rw [h, ← List.replicate_append_replicate, List.replicate_succ, List.replicate_succ]
  simp only [List.append_assoc, List.cons_append]

/-- Where a run begins, by its place in the text. -/
theorem IsSlashRun.place (h : IsSlashRun t before n after) :
    before = t.take before.length ∧ before.length < t.length ∧
      ∀ m ≤ n, List.replicate m '/' <+: t.drop before.length := by
  have hlen := congrArg List.length h.source_eq
  have htwo := h.two_le
  simp only [List.length_append, List.length_replicate] at hlen
  refine ⟨?_, by omega, fun m hm => ?_⟩
  · rw [h.source_eq, List.append_assoc, List.take_left]
  · obtain ⟨k, rfl⟩ := Nat.exists_eq_add_of_le hm
    rw [h.source_eq, List.append_assoc, List.drop_left, ← List.replicate_append_replicate,
      List.append_assoc]
    exact List.prefix_append _ _

end Runs

/-- A text in which no block comment starts stays as it is exactly if all its runs of slashes,
apart from single ones, are two slashes behind a colon. -/
theorem stripComments_eq_self_iff_slashRuns {t : Text} (h : ¬ ['/', '*'] <:+: t) :
    stripComments t = t ↔
      ∀ before n after, IsSlashRun t before n after → before.getLast? = some ':' ∧ n = 2 := by
  have hblock : HasNoBlock t := by
    rintro v hv ⟨inside, rfl, -⟩
    exact h (List.IsInfix.trans ⟨[], inside, rfl⟩ hv.isInfix)
  rw [stripComments_eq_self_iff, isBare_iff, and_iff_left hblock]
  constructor
  · intro hline before n after hrun
    obtain ⟨k, rfl⟩ := Nat.exists_eq_add_of_le' hrun.two_le
    have hcut : t = before ++ '/' :: '/' :: (List.replicate k '/' ++ after) := by
      rw [hrun.source_eq, List.append_assoc, List.replicate_succ, List.replicate_succ]
      rfl
    refine ⟨hline before _ hcut, ?_⟩
    cases k with
    | zero => rfl
    | succ k =>
      -- The second and the third slash stand behind the first one.
      have hcolon := hline (before ++ ['/']) (List.replicate k '/' ++ after)
        (by rw [hcut, List.replicate_succ]; simp)
      simp at hcolon
  · intro hruns u v ht
    obtain ⟨before, m, n, after, rfl, hrun⟩ := exists_isSlashRun ht
    obtain ⟨hcolon, hn⟩ := hruns before _ after hrun
    obtain rfl : m = 0 := by omega
    simpa using hcolon

theorem stripComments_eq_self_iff_slashRuns_addresses :
    stripComments "ftp://a/b|https://c/".toList = "ftp://a/b|https://c/".toList := by
  have hno : ¬ ['/', '*'] <:+: "ftp://a/b|https://c/".toList := by simp [List.infix_cons_iff]
  have hplace : ∀ k < 20, ['/', '/'] <+: "ftp://a/b|https://c/".toList.drop k →
      ("ftp://a/b|https://c/".toList.take k).getLast? = some ':' ∧
        ¬ ['/', '/', '/'] <+: "ftp://a/b|https://c/".toList.drop k := by decide
  refine (stripComments_eq_self_iff_slashRuns hno).2 fun before n after hrun => ?_
  have htwo := hrun.two_le
  obtain ⟨htake, hlt, hslashes⟩ := hrun.place
  obtain ⟨hcolon, hthree⟩ := hplace _ hlt (hslashes 2 htwo)
  refine ⟨by rwa [htake], ?_⟩
  have hn : ¬ 3 ≤ n := fun h => hthree (hslashes 3 h)
  omega

/-- A third slash behind the colon takes the line with it, though its run stands behind the
colon. -/
theorem stripComments_three_slashes :
    ¬ ∀ t : Text, ¬ ['/', '*'] <:+: t →
      (∀ before n after, IsSlashRun t before n after → before.getLast? = some ':') →
      stripComments t = t := by
  intro h
  have hno : ¬ ['/', '*'] <:+: "file:///a".toList := by simp [List.infix_cons_iff]
  have hplace : ∀ k < 9, ['/', '/'] <+: "file:///a".toList.drop k →
      ("file:///a".toList.take k).getLast? ≠ some '/' →
      ("file:///a".toList.take k).getLast? = some ':' := by decide
  have hruns : ∀ before n after, IsSlashRun "file:///a".toList before n after →
      before.getLast? = some ':' := by
    intro before n after hrun
    obtain ⟨htake, hlt, hslashes⟩ := hrun.place
    have hbehind := hrun.behind
    rw [htake] at hbehind ⊢
    exact hplace _ hlt (hslashes 2 hrun.two_le) hbehind
  have hbare := isBare_iff.1 (stripComments_eq_self_iff.1 (h _ hno hruns))
  exact absurd (hbare.1 "file:/".toList "a".toList rfl) (by decide)

end TextTransforms.Clipboard
