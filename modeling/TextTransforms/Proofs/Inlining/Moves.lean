import Mathlib.Logic.Relation
import TextTransforms.Inlining.Passes

/-!
# Moves

Whatever the six passes do to a template, they do in four kinds of moves, each on
one field: an argument goes into an index or implicit field, goes into a spec as
width or as precision, or a written argument is renamed (`Field.Move`). So what
every move keeps, the passes keep (`moves_moveArguments`).
-/

namespace TextTransforms

/-- The two ways in which a written argument is renamed; the second one only next
to a spec. -/
inductive Renames (hasSpec : Bool) : Text → Text → Prop
  | target {t name rest : Text} (h : Text.cut? '=' t = some (name, rest))
      (hn : Text.isWord (Text.trimEnd name) = true)
      (ht : Text.isWord (Text.trimStart rest) = true) : Renames hasSpec t (Text.trimStart rest)
  | bare {t : Text} (hs : hasSpec = true) (ht : Text.isWord t = true) :
      Renames hasSpec (t ++ ['v']) t

theorem Renames.isWord {hasSpec : Bool} {s t : Text} (h : Renames hasSpec s t) :
    Text.isWord t = true := by
  cases h with
  | target _ _ ht => exact ht
  | bare _ ht => exact ht

/-- What a pass may do to one field of a template. -/
inductive Field.Move (as : Arguments) (f : Field) : Field → Arguments → Prop
  | take {i : Nat} {source : Text} (ha : as.inlinable? i = some source)
      (hf : f.index? = some i ∨ f.isImplicit = true) :
      Move as f { f with argument := .inlined source } (as.use i)
  | width {k : Nat} {source : Text} (ha : as.inlinable? k = some source)
      (hf : f.width? = some k) :
      Move as f { f with spec := some (.inlined (source ++ ['$'])) } (as.use k)
  | precision {i : Nat} {source : Text} (ha : as.inlinable? i = some source)
      (hf : f.spec.map Part.text = some ['.', '*']) :
      Move as f { f with spec := some (.inlined ('.' :: source ++ ['$'])) } (as.use i)
  | rename {s t : Text} (hf : f.argument = .written s) (hr : Renames f.spec.isSome s t) :
      Move as f { f with argument := .written t } as

namespace Draft

/-- A move on one field of a draft. -/
inductive Move : Draft → Draft → Prop
  | field {pre post : List Segment} {f f' : Field} {as as' : Arguments}
      (h : f.Move as f' as') : Move ⟨pre ++ .field f :: post, as⟩ ⟨pre ++ .field f' :: post, as'⟩

abbrev Moves : Draft → Draft → Prop := Relation.ReflTransGen Move

/-- A step on a field that a pass runs with state `s` is made of moves. -/
def MovesField (as : Arguments) (f : Field) (f' : Field) (as' : Arguments) : Prop :=
  ∀ pre post, Moves ⟨pre ++ .field f :: post, as⟩ ⟨pre ++ .field f' :: post, as'⟩

theorem MovesField.refl (as : Arguments) (f : Field) : MovesField as f f as :=
  fun _ _ => .refl

theorem MovesField.move {as as' as'' : Arguments} {f f' f'' : Field}
    (h : MovesField as f f' as') (hm : f'.Move as' f'' as'') : MovesField as f f'' as'' :=
  fun pre post => (h pre post).tail (.field hm)

theorem MovesField.one {as as' : Arguments} {f f' : Field} (h : f.Move as f' as') :
    MovesField as f f' as' :=
  (MovesField.refl as f).move h

/-- A pass whose steps are made of moves is made of moves. `args` are the arguments
in the state of the pass. -/
theorem moves_mapFields {σ : Type} (args : σ → Arguments) {step : σ → Field → Field × σ}
    (h : ∀ s f, MovesField (args s) f (step s f).1 (args (step s f).2)) (s : σ)
    (pre segments : List Segment) :
    Moves ⟨pre ++ segments, args s⟩
      ⟨pre ++ (mapFields step s segments).1, args (mapFields step s segments).2⟩ := by
  induction segments generalizing s pre with
  | nil => exact .refl
  | cons segment rest ih =>
    cases segment with
    | text source =>
      have := ih s (pre ++ [.text source])
      simpa [mapFields] using this
    | field f =>
      have := ih (step s f).2 (pre ++ [.field (step s f).1])
      simp only [List.append_assoc, List.singleton_append] at this
      exact (h s f pre rest).trans this

theorem moves_run {step : Arguments → Field → Field × Arguments}
    (h : ∀ as f, MovesField as f (step as f).1 (step as f).2) (d : Draft) :
    Moves d (d.run step) :=
  moves_mapFields id h d.arguments [] d.segments

/-! ## The passes -/

theorem movesField_take {as : Arguments} {f : Field} {i : Nat}
    (hf : f.index? = some i ∨ f.isImplicit = true) :
    MovesField as f (f.take as i).1 (f.take as i).2 := by
  unfold Field.take
  split
  · rename_i source ha
    exact .one (.take ha hf)
  · exact .refl as f

theorem movesField_inlineIndexed (as : Arguments) (f : Field) :
    MovesField as f (TextTransforms.inlineIndexed as f).1
      (TextTransforms.inlineIndexed as f).2 := by
  unfold TextTransforms.inlineIndexed
  split
  · rename_i i _ hi
    exact movesField_take (.inl hi)
  · exact .refl as f

theorem movesField_inlineWidth (as : Arguments) (f : Field) :
    MovesField as f (TextTransforms.inlineWidth as f).1 (TextTransforms.inlineWidth as f).2 := by
  unfold TextTransforms.inlineWidth
  split
  · rename_i k i hk hi
    split
    · rename_i source ha
      have htake : MovesField as f { f with argument := .inlined source } (as.use i) :=
        .one (.take ha (.inl hi))
      simp only [Field.take, ha, Field.takeCount]
      split
      · rename_i width hw
        exact htake.move (.width hw hk)
      · exact htake
    · exact .refl as f
  · exact .refl as f

theorem movesField_inlineImplicit (s : Nat × Arguments) (f : Field) :
    MovesField s.2 f (TextTransforms.inlineImplicit s f).1
      (TextTransforms.inlineImplicit s f).2.2 := by
  obtain ⟨cursor, as⟩ := s
  unfold TextTransforms.inlineImplicit
  dsimp only
  split
  · rename_i hf
    split
    · exact movesField_take (.inr hf)
    · exact .refl as f
  · exact .refl as f

theorem movesField_renameField (as : Arguments) (f : Field) :
    MovesField as f (renameField f) as := by
  unfold renameField
  split
  · rename_i t ht
    split
    · rename_i name rest hcut
      dsimp only
      split
      · rename_i hw
        obtain ⟨hn, hr⟩ := Bool.and_eq_true_iff.1 hw
        exact .one (.rename ht (.target hcut hn hr))
      · exact .refl as f
    · exact .refl as f
  · exact .refl as f

theorem movesField_stripVerbose (as : Arguments) (f : Field) :
    MovesField as f (stripVerbose f) as := by
  unfold stripVerbose
  split
  · rename_i t spec ht hs
    split
    · rename_i hv
      obtain ⟨s, rfl⟩ := List.getLast?_eq_some_iff.1 hv.1
      rw [List.dropLast_concat] at hv ⊢
      exact .one (.rename ht (.bare (by rw [hs]; rfl) hv.2))
    · exact .refl as f
  · exact .refl as f

theorem movesField_inlinePrecision (as : Arguments) (f : Field) :
    MovesField as f (TextTransforms.inlinePrecision as f).1
      (TextTransforms.inlinePrecision as f).2 := by
  unfold TextTransforms.inlinePrecision
  split
  · rename_i hf
    split
    · rename_i i _
      unfold Field.takeCount
      split
      · rename_i source ha
        exact .one (.precision ha hf.1)
      · exact .refl as f
    · exact .refl as f
  · exact .refl as f

theorem moves_inlineImplicit (d : Draft) : Moves d d.inlineImplicit :=
  moves_mapFields Prod.snd movesField_inlineImplicit (0, d.arguments) [] d.segments

/-- The passes behind the one that gives out turns are made of moves. -/
theorem moves_lastPasses (d : Draft) :
    Moves d (((d.edit renameField).edit stripVerbose).run TextTransforms.inlinePrecision) := by
  have rename (d : Draft) : Moves d (d.edit renameField) := moves_run movesField_renameField d
  have strip (d : Draft) : Moves d (d.edit stripVerbose) := moves_run movesField_stripVerbose d
  exact ((rename d).trans (strip _)).trans (moves_run movesField_inlinePrecision _)

/-- The six passes are made of moves. -/
theorem moves_moveArguments (d : Draft) : Moves d d.moveArguments := by
  have indexed := moves_run movesField_inlineIndexed d
  have width := moves_run movesField_inlineWidth (d.run TextTransforms.inlineIndexed)
  exact ((indexed.trans width).trans (moves_inlineImplicit _)).trans (moves_lastPasses _)

end Draft

end TextTransforms
