import Mathlib.Dynamics.FixedPoints.Basic
import TextTransforms.Proofs.Inlining.Commas

/-!
# Inlining again and again

A run that changes a text takes commas away, one at least for every argument that moved
(`count_comma_inlineArguments`). So while the runs go on, the commas of the text pay for them
(`count_comma_iterate`), and a text is settled after as many runs as it has commas
(`inlineArguments_settles`).
-/

namespace TextTransforms

open Function (IsFixedPt)

theorem exists_of_inlineArguments_ne {t : Text} (h : inlineArguments t ≠ t) :
    ∃ call d, Call.find? t = some call ∧ call.rewritten? = some d ∧
      inlineArguments t = call.assemble d := by
  cases hu : inlined? t with
  | none => exact absurd (by rw [inlineArguments, hu, Option.getD_none]) h
  | some u =>
    obtain ⟨call, d, hc, hd, rfl⟩ := inlined?_eq_some_iff.1 hu
    exact ⟨call, d, hc, hd, by rw [inlineArguments, hu, Option.getD_some]⟩

theorem Call.countP_used_pos {call : Call} {d : Draft} (h : call.rewritten? = some d) :
    0 < d.arguments.countP Argument.used := by
  obtain ⟨m, -, rfl, -, ⟨i, s, hused⟩, -, -⟩ := Call.exists_of_rewritten? h
  rw [Draft.arguments_resolve, List.countP_pos_iff]
  exact ⟨⟨s, true⟩, List.mem_of_getElem? hused, rfl⟩

/-- A run that changes the text takes away a comma for each argument that moved. -/
theorem count_comma_inlineArguments {t : Text} (h : inlineArguments t ≠ t) :
    (inlineArguments t).count ',' < t.count ',' := by
  obtain ⟨call, d, hc, hd, hu⟩ := exists_of_inlineArguments_ne h
  have hcount := count_comma_inlined hc hd rfl
  have hpos := Call.countP_used_pos hd
  rw [hu]
  omega

/-- While the runs go on, each of them has taken a comma away. -/
theorem count_comma_iterate {t : Text} {n : Nat}
    (h : ¬ IsFixedPt inlineArguments (inlineArguments^[n] t)) :
    (inlineArguments^[n + 1] t).count ',' + (n + 1) ≤ t.count ',' := by
  induction n with
  | zero => exact count_comma_inlineArguments h
  | succ n ih =>
    have hstep := count_comma_inlineArguments h
    have hbefore : ¬ IsFixedPt inlineArguments (inlineArguments^[n] t) := by
      intro hf
      rw [Function.iterate_succ_apply', hf.eq] at h
      exact h hf
    have hcount := ih hbefore
    rw [Function.iterate_succ_apply' _ (n + 1)]
    omega

theorem isFixedPt_iterate (t : Text) :
    IsFixedPt inlineArguments (inlineArguments^[t.count ','] t) := by
  by_contra h
  have := count_comma_iterate h
  omega

/-- Behind a fixed point all runs are the same. -/
theorem iterate_eq_of_isFixedPt {t : Text} {m n : Nat}
    (h : IsFixedPt inlineArguments (inlineArguments^[m] t)) (hn : m ≤ n) :
    inlineArguments^[n] t = inlineArguments^[m] t := by
  obtain ⟨k, rfl⟩ := Nat.exists_eq_add_of_le' hn
  rw [Function.iterate_add_apply]
  exact h.iterate k

/-- A text that comes back has not been changed in between. -/
theorem isFixedPt_of_iterate_eq {t : Text} {m n : Nat} (hn : m < n)
    (h : inlineArguments^[m] t = inlineArguments^[n] t) :
    IsFixedPt inlineArguments (inlineArguments^[m] t) := by
  obtain ⟨k, rfl⟩ := Nat.exists_eq_add_of_lt hn
  by_contra hm
  have hback : inlineArguments^[k + 1] (inlineArguments^[m] t) = inlineArguments^[m] t := by
    rw [← Function.iterate_add_apply, Nat.add_comm (k + 1), ← Nat.add_assoc, ← h]
  have hk : ¬ IsFixedPt inlineArguments (inlineArguments^[k] (inlineArguments^[m] t)) := by
    intro hf
    have hsame := iterate_eq_of_isFixedPt hf (Nat.le_succ k)
    rw [hback] at hsame
    rw [← hsame] at hf
    exact hm hf
  have hcount := count_comma_iterate hk
  rw [hback] at hcount
  omega

/-- A run that changes a text leaves fewer commas, so repeated runs settle after at most as
many steps as the text has commas, and a text never comes back once it has changed. -/
theorem inlineArguments_settles (t : Text) :
    (inlineArguments t ≠ t → (inlineArguments t).count ',' < t.count ',' ∧
      ∃ call d, Call.find? t = some call ∧ call.rewritten? = some d ∧
        inlineArguments t = call.assemble d ∧
        (inlineArguments t).count ',' + d.arguments.countP Argument.used ≤ t.count ',') ∧
    (∃ k ≤ t.count ',', ∀ n, k ≤ n → inlineArguments^[n] t = inlineArguments^[k] t) ∧
    ∀ m n, m < n → inlineArguments^[m] t = inlineArguments^[n] t →
      ∀ k, m ≤ k → inlineArguments^[k] t = inlineArguments^[m] t := by
  refine ⟨fun h => ⟨count_comma_inlineArguments h, ?_⟩,
    ⟨t.count ',', Nat.le_refl _, fun n => iterate_eq_of_isFixedPt (isFixedPt_iterate t)⟩,
    fun m n hn h k => iterate_eq_of_isFixedPt (isFixedPt_of_iterate_eq hn h)⟩
  obtain ⟨call, d, hc, hd, hu⟩ := exists_of_inlineArguments_ne h
  exact ⟨call, d, hc, hd, hu, count_comma_inlined hc hd hu.symm⟩

theorem inlineArguments_settles_println :
    (inlineArguments "println!(\"{x=1} {0}\", a, b)".toList).count ',' <
      "println!(\"{x=1} {0}\", a, b)".toList.count ',' ∧
    ∃ k ≤ 2, ∀ n, k ≤ n → inlineArguments^[n] "println!(\"{x=1} {0}\", a, b)".toList =
      inlineArguments^[k] "println!(\"{x=1} {0}\", a, b)".toList := by
  have hne : inlineArguments "println!(\"{x=1} {0}\", a, b)".toList ≠
      "println!(\"{x=1} {0}\", a, b)".toList := by decide +kernel
  obtain ⟨hstep, ⟨k, hk, hconst⟩, -⟩ :=
    inlineArguments_settles "println!(\"{x=1} {0}\", a, b)".toList
  exact ⟨(hstep hne).1, k, hk, hconst⟩

end TextTransforms
