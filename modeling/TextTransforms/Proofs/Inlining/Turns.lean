import TextTransforms.Proofs.Inlining.Outcome

/-!
# The turns are over

A placeholder is left without argument when its turn came to an argument that may not
stand there, or when no argument was left. So once the turns are over, the placeholders
that are left without argument would take nothing in another round
(`Draft.turnsOver_moveArguments`, `TurnsOver.stays`).
-/

namespace TextTransforms

/-- `left` placeholders are left without argument. Up to some place the unused arguments
may not stand in a placeholder, and either there is one for each of them or none is
unused behind that place. -/
def TurnsOver (as : Arguments) (left : Nat) : Prop :=
  ∃ place, (∀ a ∈ as.take place, a.used = false → isInlinable a.source = false) ∧
    (left ≤ (Arguments.remaining (as.take place)).length ∨
      Arguments.remaining (as.drop place) = [])

namespace Arguments

theorem remaining_eq_nil_iff {as : Arguments} : as.remaining = [] ↔ ∀ a ∈ as, a.used = true := by
  simp [remaining]

end Arguments

/-- Another round would take nothing. -/
theorem TurnsOver.stays {as : Arguments} {left : Nat} (h : TurnsOver as left) {n : Nat}
    (hn : n < left) {a : Text} (ha : as.remaining[n]? = some a) : isInlinable a = false := by
  obtain ⟨place, hbefore, hleft⟩ := h
  have hcut := Arguments.remaining_append (as.take place) (as.drop place)
  rw [List.take_append_drop] at hcut
  have hm : a ∈ Arguments.remaining (as.take place) := by
    rw [hcut] at ha
    rcases hleft with hle | hnil
    · rw [List.getElem?_append_left (by omega)] at ha
      exact List.mem_of_getElem? ha
    · rw [hnil, List.append_nil] at ha
      exact List.mem_of_getElem? ha
  obtain ⟨b, hb, rfl⟩ := List.mem_map.1 hm
  obtain ⟨hb, hu⟩ := List.mem_filter.1 hb
  exact hbefore b hb (by simpa using hu)

/-! ## Later moves -/

/-- Using one more argument that may stand in a placeholder changes nothing. -/
theorem TurnsOver.use {as : Arguments} {left i : Nat} {s : Text} (h : TurnsOver as left)
    (hi : as.inlinable? i = some s) : TurnsOver (as.use i) left := by
  obtain ⟨place, hbefore, hleft⟩ := h
  obtain ⟨⟨u, ha⟩, hin⟩ := Arguments.inlinable?_eq_some_iff.1 hi
  have htake : (as.use i).take place = as.take place := by
    apply List.ext_getElem?
    intro j
    rw [List.getElem?_take, List.getElem?_take, Arguments.getElem?_use]
    split
    · rename_i hj
      split
      · rename_i hij
        subst hij
        have hm : ⟨s, u⟩ ∈ as.take place :=
          List.mem_of_getElem? (by rw [List.getElem?_take, if_pos hj, ha])
        cases u with
        | true => rw [ha]; rfl
        | false =>
          have := hbefore _ hm rfl
          rw [hin] at this
          simp at this
      · rfl
    · rfl
  refine ⟨place, by rwa [htake], ?_⟩
  rw [htake]
  refine hleft.imp id fun hnil => ?_
  rw [Arguments.remaining_eq_nil_iff] at hnil ⊢
  intro a hm
  obtain ⟨j, hj⟩ := List.mem_iff_getElem?.1 hm
  rw [List.getElem?_drop, Arguments.getElem?_use] at hj
  have hused (b : Argument) (hb : as[place + j]? = some b) : b.used = true :=
    hnil b (List.mem_of_getElem? (by rw [List.getElem?_drop, hb]))
  split at hj
  · obtain ⟨b, hb, rfl⟩ := Option.map_eq_some_iff.1 hj
    rfl
  · exact hused a hj

theorem TurnsOver.mono {as : Arguments} {left left' : Nat} (h : TurnsOver as left)
    (hle : left' ≤ left) : TurnsOver as left' := by
  obtain ⟨place, hbefore, hleft⟩ := h
  exact ⟨place, hbefore, hleft.imp (Nat.le_trans hle) id⟩

def Segment.isImplicit : Segment → Bool
  | text _ => false
  | field f => f.isImplicit

/-- The number of placeholders without argument. -/
def Draft.left (d : Draft) : Nat := d.segments.countP Segment.isImplicit

theorem Field.Move.isImplicit_of {as as' : Arguments} {f f' : Field} (h : f.Move as f' as')
    (hf : f'.isImplicit = true) : f.isImplicit = true := by
  cases h with
  | take => simp [isImplicit] at hf
  | width => exact hf
  | precision => exact hf
  | @rename _ t _ hr =>
    obtain rfl : t = [] := by simpa [isImplicit] using hf
    exact absurd hr.isWord (by decide)

theorem Draft.Move.turnsOver {d d' : Draft} (h : d.Move d') (ht : TurnsOver d.arguments d.left) :
    TurnsOver d'.arguments d'.left := by
  cases h with
  | @field pre post f f' as as' hf =>
    have hle : Draft.left ⟨pre ++ .field f' :: post, as'⟩ ≤
        Draft.left ⟨pre ++ .field f :: post, as⟩ := by
      simp only [left, List.countP_append, List.countP_cons]
      have := hf.isImplicit_of
      cases hi : f'.isImplicit with
      | false => simp [Segment.isImplicit, hi]
      | true => simp [Segment.isImplicit, hi, this hi]
    refine TurnsOver.mono ?_ hle
    cases hf with
    | take ha => exact ht.use ha
    | width ha => exact ht.use ha
    | precision ha => exact ht.use ha
    | rename => exact ht

theorem Draft.Moves.turnsOver {d d' : Draft} (h : Draft.Moves d d')
    (ht : TurnsOver d.arguments d.left) : TurnsOver d'.arguments d'.left := by
  induction h with
  | refl => exact ht
  | tail _ hm ih => exact hm.turnsOver ih

/-! ## The turns themselves -/

theorem findIdx?_split {α : Type} {p : α → Bool} {l : List α} {k : Nat}
    (h : l.findIdx? p = some k) :
    ∃ mid x rest, l = mid ++ x :: rest ∧ mid.length = k ∧ (∀ a ∈ mid, p a = false) ∧
      p x = true := by
  obtain ⟨hk, hp, hbefore⟩ := List.findIdx?_eq_some_iff_getElem.1 h
  refine ⟨l.take k, l[k], l.drop (k + 1), ?_, List.length_take_of_le (by omega), ?_, hp⟩
  · rw [← List.drop_eq_getElem_cons hk, List.take_append_drop]
  · intro a ha
    obtain ⟨j, hj, rfl⟩ := List.mem_take_iff_getElem.1 ha
    simpa using hbefore j (by omega)

/-- The state of the turns: `before` has been passed, with `left` placeholders left. -/
private def Passed (before behind : Arguments) (left : Nat) : Prop :=
  (∀ a ∈ before, a.used = false → isInlinable a.source = false) ∧
    (left ≤ before.remaining.length ∨ behind.remaining = [])

/-- The turn of a placeholder passes the used arguments up to `x`, which becomes `y`. -/
private theorem Passed.pass {before mid rest : Arguments} {x y : Argument} {left : Nat}
    (h : Passed before (mid ++ x :: rest) left) (hmid : ∀ a ∈ mid, a.used = true)
    (hx : x.used = false) (hy : y.used = false → isInlinable y.source = false) :
    Passed (before ++ mid ++ [y]) rest (left + (Arguments.remaining [y]).length) := by
  obtain ⟨hbefore, hleft⟩ := h
  constructor
  · intro a ha hu
    rcases List.mem_append.1 ha with ha | ha
    · rcases List.mem_append.1 ha with ha | ha
      · exact hbefore a ha hu
      · exact absurd (hmid a ha) (by simp [hu])
    · obtain rfl : a = y := by simpa using ha
      exact hy hu
  · have hle : left ≤ before.remaining.length := by
      refine hleft.resolve_right fun hnil => ?_
      exact absurd (Arguments.remaining_eq_nil_iff.1 hnil x (by simp)) (by simp [hx])
    have hremaining : Arguments.remaining (before ++ mid ++ [y]) =
        before.remaining ++ Arguments.remaining [y] := by
      rw [Arguments.remaining_append, Arguments.remaining_append,
        Arguments.remaining_eq_nil_iff.2 hmid, List.append_nil]
    rw [hremaining, List.length_append]
    exact .inl (Nat.add_le_add_right hle _)

private theorem exists_turn {before behind : Arguments} {left : Nat}
    (h : Passed before behind left) {f : Field} (hf : f.isImplicit = true) :
    ∃ f' before' behind', inlineImplicit (before.length, before ++ behind) f =
        (f', before'.length, before' ++ behind') ∧
      Passed before' behind' (left + if f'.isImplicit then 1 else 0) := by
  unfold inlineImplicit
  dsimp only
  rw [if_pos hf, Arguments.nextUnused?, List.drop_left]
  cases hk : behind.findIdx? (!·.used) with
  | none =>
    refine ⟨f, before, behind, rfl, h.1, .inr ?_⟩
    rw [Arguments.remaining_eq_nil_iff]
    simpa using List.findIdx?_eq_none_iff.1 hk
  | some k =>
    obtain ⟨mid, x, rest, rfl, rfl, hmid, hx⟩ := findIdx?_split hk
    have hxu : x.used = false := by simpa using hx
    have hused : ∀ a ∈ mid, a.used = true := fun a ha => by simpa using hmid a ha
    have hin : Arguments.inlinable? (before ++ (mid ++ x :: rest)) (before.length + mid.length) =
        (some x.source).filter isInlinable := by
      simp [Arguments.inlinable?]
    dsimp only [Option.map_some]
    rw [Field.take, hin]
    cases hxin : isInlinable x.source with
    | true =>
      refine ⟨{ f with argument := .inlined x.source }, before ++ mid ++ [{ x with used := true }],
        rest, ?_, ?_⟩
      · have huse := Arguments.use_append_cons (before ++ mid) rest x
        rw [List.length_append, List.append_assoc] at huse
        simp [hxin, huse, Option.filter, Nat.add_assoc]
      · have := h.pass (y := { x with used := true }) hused hxu (by simp)
        simpa [Arguments.remaining, Field.isImplicit] using this
    | false =>
      refine ⟨f, before ++ mid ++ [x], rest, ?_, ?_⟩
      · simp [hxin, Option.filter, Nat.add_assoc]
      · have := h.pass (y := x) hused hxu fun _ => hxin
        simpa [Arguments.remaining, hxu, hf] using this

/-- When all placeholders have had their turns. -/
private theorem exists_turns {before behind : Arguments} {left : Nat}
    (h : Passed before behind left) (segments : List Segment) :
    ∃ segments' before' behind', mapFields inlineImplicit (before.length, before ++ behind) segments
        = (segments', before'.length, before' ++ behind') ∧
      Passed before' behind' (left + segments'.countP Segment.isImplicit) := by
  induction segments generalizing before behind left with
  | nil => exact ⟨[], before, behind, rfl, h⟩
  | cons segment rest ih =>
    cases segment with
    | text s =>
      obtain ⟨rest', before', behind', e, hp⟩ := ih h
      refine ⟨.text s :: rest', before', behind', by simp [mapFields, e], ?_⟩
      simpa [Segment.isImplicit] using hp
    | field f =>
      obtain ⟨f', before₁, behind₁, e₁, h₁⟩ : ∃ f' before' behind',
          inlineImplicit (before.length, before ++ behind) f =
            (f', before'.length, before' ++ behind') ∧
          Passed before' behind' (left + if f'.isImplicit then 1 else 0) := by
        by_cases hf : f.isImplicit = true
        · exact exists_turn h hf
        · exact ⟨f, before, behind, by simp [inlineImplicit, hf], by simpa [hf] using h⟩
      obtain ⟨rest', before', behind', e, hp⟩ := ih h₁
      refine ⟨.field f' :: rest', before', behind', by simp [mapFields, e₁, e], ?_⟩
      have hcount : (Segment.field f' :: rest').countP Segment.isImplicit =
          (if f'.isImplicit then 1 else 0) + rest'.countP Segment.isImplicit := by
        rw [List.countP_cons, Nat.add_comm]
        rfl
      rw [hcount, ← Nat.add_assoc]
      exact hp

theorem Draft.turnsOver_inlineImplicit (d : Draft) :
    TurnsOver d.inlineImplicit.arguments d.inlineImplicit.left := by
  have hstart : Passed [] d.arguments 0 := ⟨by simp, .inl (Nat.zero_le _)⟩
  obtain ⟨segments, before, behind, e, hbefore, hleft⟩ := exists_turns hstart d.segments
  rw [List.length_nil, List.nil_append] at e
  simp only [Draft.inlineImplicit, e, Draft.left]
  refine ⟨before.length, ?_, ?_⟩
  · rwa [List.take_left]
  · rw [List.take_left, List.drop_left]
    simpa using hleft

theorem Draft.turnsOver_moveArguments (d : Draft) :
    TurnsOver d.moveArguments.arguments d.moveArguments.left :=
  (Draft.moves_lastPasses _).turnsOver (Draft.turnsOver_inlineImplicit _)

end TextTransforms
