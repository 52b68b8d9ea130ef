import TextTransforms.Proofs.Inlining.Drawn
import TextTransforms.Proofs.Inlining.Implicit

/-!
# Precisions taken from the list

The pass for precisions gives a placeholder `{name:.*}` the first unused argument other than
`name`. If everything before it was taken in turn, that is the argument which the placeholder
draws, or the first of those that stay behind (`PrecisionsInTurn`). Then whatever it takes
is put where it is drawn (`PrecisionsInTurn.exists_place`), and for arguments with different
texts only then the precisions are kept (`precisionsInTurn_of_drawings`).
-/

namespace TextTransforms

/-- The last pass looks for a precision of the placeholder. -/
structure Placeholder.TakesPrecision (p : Placeholder) : Prop where
  spec : p.spec = some ['.', '*']
  isWord : Text.isWord p.argument = true

/-! ## The pass for precisions -/

namespace Placeholder.TakesPrecision

variable {p : Placeholder} (h : p.TakesPrecision)
include h

theorem isStarred_eq_true : p.isStarred = true := by
  rw [isStarred, h.spec, Option.any_some]
  exact decide_eq_true List.infix_rfl

theorem isImplicit_eq_false : p.isImplicit = false := by
  simpa [isImplicit] using (Text.isWord_iff.1 h.isWord).1

theorem draws_eq_one : p.draws = 1 := by
  rw [draws, h.isStarred_eq_true, h.isImplicit_eq_false]
  rfl

/-- A precision that has moved is put into the spec. -/
theorem placed_eq (a : Text) (tail : Arguments) :
    p.placed (⟨a, true⟩ :: tail) = ⟨p.argument, some ('.' :: (a ++ ['$']))⟩ := by
  simp [placed, h.isImplicit_eq_false, h.isStarred_eq_true, Arguments.moved?]

end Placeholder.TakesPrecision

namespace Arguments

variable {as : Arguments} {t : Text}

theorem unusedOtherThan?_eq_some_iff {i : Nat} :
    as.unusedOtherThan? t = some i ↔
      ∃ (pre : Arguments) (s : Text) (post : Arguments), as = pre ++ ⟨s, false⟩ :: post ∧
        pre.length = i ∧ s ≠ t ∧ ∀ b ∈ pre.remaining, b = t := by
  rw [unusedOtherThan?, List.findIdx?_eq_some_iff_getElem]
  constructor
  · rintro ⟨hi, hfound, hbefore⟩
    obtain ⟨hused, hne⟩ := Bool.and_eq_true_iff.1 hfound
    refine ⟨as.take i, as[i].source, as.drop (i + 1), ?_, List.length_take_of_le (by omega),
      by simpa using hne, fun b hb => ?_⟩
    · have hsame : (⟨as[i].source, false⟩ : Argument) = as[i] := by
        rw [← show as[i].used = false by simpa using hused]
      rw [hsame, ← List.drop_eq_getElem_cons hi, List.take_append_drop]
    · obtain ⟨a, ha, rfl⟩ := List.mem_map.1 hb
      obtain ⟨ha, hu⟩ := List.mem_filter.1 ha
      obtain ⟨j, hj, rfl⟩ := List.mem_take_iff_getElem.1 ha
      have := hbefore j (by omega)
      simpa [show as[j].used = false by simpa using hu] using this
  · rintro ⟨pre, s, post, rfl, rfl, hne, hpre⟩
    refine ⟨by simp, by simpa using hne, fun j hj => ?_⟩
    rw [List.getElem_append_left hj]
    cases hu : pre[j].used with
    | true => simp
    | false =>
      have hm : pre[j].source ∈ pre.remaining :=
        List.mem_map.2 ⟨pre[j], List.mem_filter.2 ⟨List.getElem_mem hj, by simp [hu]⟩, rfl⟩
      simp [hpre _ hm]

theorem find?_remaining (as : Arguments) (t : Text) :
    as.remaining.find? (· != t) =
      (as.unusedOtherThan? t).bind fun i => as[i]?.map Argument.source := by
  have hunused : (fun a : Argument => decide ((!a.used) = true ∧
      ((· != t) ∘ Argument.source) a = true)) = fun a => !a.used && a.source != t := by
    funext a
    by_cases h : a.source = t <;> simp [h]
  rw [remaining, List.find?_map, List.find?_filter, hunused,
    List.find?_eq_bind_findIdx?_getElem?, Option.map_bind]
  rfl

end Arguments

section Step

variable {as : Arguments} {p : Placeholder}

private theorem takesPrecision_iff :
    (Field.ofPlaceholder p).spec.map Part.text = some ['.', '*'] ∧
      Text.isWord (Field.ofPlaceholder p).argument.text = true ↔ p.TakesPrecision := by
  have hspec : (Field.ofPlaceholder p).spec.map Part.text = p.spec := by
    simp [Field.ofPlaceholder, Function.comp_def, Part.text]
  rw [hspec]
  exact ⟨fun h => ⟨h.1, h.2⟩, fun h => ⟨h.spec, h.isWord⟩⟩

private theorem inlinable?_append_cons (pre post : Arguments) (s : Text) (u : Bool) :
    Arguments.inlinable? (pre ++ ⟨s, u⟩ :: post) pre.length = (some s).filter isInlinable := by
  simp [Arguments.inlinable?]

theorem inlinePrecision_stay
    (h : p.TakesPrecision → ∀ a, as.remaining.find? (· != p.argument) = some a →
      isInlinable a = false) :
    inlinePrecision as (.ofPlaceholder p) = (.ofPlaceholder p, as) := by
  unfold inlinePrecision
  split
  · rename_i hp
    split
    · rename_i i hi
      change as.unusedOtherThan? p.argument = some i at hi
      have hfind := Arguments.find?_remaining as p.argument
      obtain ⟨pre, s, post, rfl, rfl, -, -⟩ := Arguments.unusedOtherThan?_eq_some_iff.1 hi
      have hs : isInlinable s = false := by
        refine h (takesPrecision_iff.1 hp) s ?_
        rw [hfind, hi]
        simp
      rw [Field.takeCount, inlinable?_append_cons, Option.filter_some_neg (by simp [hs])]
    · rfl
  · rfl

theorem inlinePrecision_take {pre post : Arguments} {s : Text} (hp : p.TakesPrecision)
    (hne : s ≠ p.argument) (hpre : ∀ b ∈ pre.remaining, b = p.argument)
    (hs : isInlinable s = true) :
    inlinePrecision (pre ++ ⟨s, false⟩ :: post) (.ofPlaceholder p) =
      (⟨.written p.argument, some (.inlined ('.' :: (s ++ ['$'])))⟩,
        pre ++ ⟨s, true⟩ :: post) := by
  have hi : Arguments.unusedOtherThan? (pre ++ ⟨s, false⟩ :: post)
      (Field.ofPlaceholder p).argument.text = some pre.length :=
    Arguments.unusedOtherThan?_eq_some_iff.2 ⟨pre, s, post, rfl, rfl, hne, hpre⟩
  rw [inlinePrecision, if_pos (takesPrecision_iff.2 hp)]
  simp only [hi, Field.takeCount, inlinable?_append_cons, Option.filter_some_pos hs,
    Arguments.use_append_cons]
  rfl

theorem exists_of_not_stay
    (h : ¬ (p.TakesPrecision → ∀ a, as.remaining.find? (· != p.argument) = some a →
      isInlinable a = false)) :
    ∃ (pre : Arguments) (s : Text) (post : Arguments), as = pre ++ ⟨s, false⟩ :: post ∧
      p.TakesPrecision ∧ s ≠ p.argument ∧ (∀ b ∈ pre.remaining, b = p.argument) ∧
      isInlinable s = true := by
  obtain ⟨hp, a, hfind, ha⟩ : p.TakesPrecision ∧ ∃ a,
      as.remaining.find? (· != p.argument) = some a ∧ isInlinable a = true := by simpa using h
  rw [Arguments.find?_remaining, Option.bind_eq_some_iff] at hfind
  obtain ⟨i, hi, hsource⟩ := hfind
  obtain ⟨pre, s, post, rfl, rfl, hne, hpre⟩ := Arguments.unusedOtherThan?_eq_some_iff.1 hi
  obtain rfl : s = a := by simpa using hsource
  exact ⟨pre, s, post, rfl, hp, hne, hpre, ha⟩

end Step

/-! ## Writing the template -/

theorem mapFields_field {σ : Type} {step : σ → Field → Field × σ} {s s' s'' : σ} {f f' : Field}
    {rest rest' : List Segment} (hf : step s f = (f', s'))
    (hrest : mapFields step s' rest = (rest', s'')) :
    mapFields step s (.field f :: rest) = (.field f' :: rest', s'') := by
  rw [mapFields, hf]
  dsimp only
  rw [hrest]

theorem exists_of_mapFields_field {σ : Type} {step : σ → Field → Field × σ} {s s' : σ} {f : Field}
    {rest segments : List Segment} (h : mapFields step s (.field f :: rest) = (segments, s')) :
    ∃ rest', segments = .field (step s f).1 :: rest' ∧
      mapFields step (step s f).2 rest = (rest', s') := by
  rw [mapFields] at h
  obtain ⟨rfl, rfl⟩ := Prod.mk.inj h
  exact ⟨_, rfl, rfl⟩

/-- The tokens that fields are written as. -/
def written (as : Arguments) (segments : List Segment) : List Token :=
  segments.map fun s => (s.edit (resolveField as)).token

/-- Without indices and counts nothing is left to be written anew. -/
theorem resolveField_eq_self {f : Field} (as : Arguments) (hi : f.index? = none)
    (hs : ∀ spec, f.spec = some (.written spec) → '$' ∉ spec) : resolveField as f = f := by
  obtain ⟨argument, spec⟩ := f
  match spec with
  | none => simp [resolveField, hi]
  | some (.inlined s) => simp [resolveField, hi]
  | some (.written s) =>
    have hkeep : resolveSpec as s = s := by
      rw [resolveSpec_eq_writeCounts, writeCounts_of_notMem (hs s rfl)]
    simp [resolveField, hi, hkeep]

@[simp] theorem written_text (as : Arguments) (s : Text) (segments : List Segment) :
    written as (.text s :: segments) = .text s :: written as segments := rfl

theorem written_field {f : Field} (as : Arguments) (hi : f.index? = none)
    (hs : ∀ spec, f.spec = some (.written spec) → '$' ∉ spec) (segments : List Segment) :
    written as (.field f :: segments) = .placeholder f.placeholder :: written as segments := by
  rw [written, List.map_cons, Segment.edit, resolveField_eq_self as hi hs]
  rfl

section OnlyDraws

variable {p : Placeholder} (hp : p.OnlyDraws)
include hp

/-- A placeholder that nothing was put into is written as it stands. -/
theorem written_ofPlaceholder (as : Arguments) (segments : List Segment) :
    written as (.field (.ofPlaceholder p) :: segments) = .placeholder p :: written as segments := by
  have hspec : ∀ spec, (Field.ofPlaceholder p).spec = some (.written spec) → '$' ∉ spec :=
    fun spec hs => hp.noCount spec (by simpa [Field.ofPlaceholder] using hs)
  have hindex : (Field.ofPlaceholder p).index? = none := hp.hasNoIndex.argument
  rw [written_field as hindex hspec]
  simp [Field.placeholder, Field.ofPlaceholder, Part.text, Function.comp_def]

theorem written_precision (as : Arguments) (spec : Text) (segments : List Segment) :
    written as (.field ⟨.written p.argument, some (.inlined spec)⟩ :: segments) =
      .placeholder ⟨p.argument, some spec⟩ :: written as segments := by
  have hindex : Field.index? ⟨.written p.argument, some (.inlined spec)⟩ = none :=
    hp.hasNoIndex.argument
  exact written_field as hindex (by simp) segments

end OnlyDraws

/-! ## Precisions in turn -/

/-- Behind the turns, `left` is what has been drawn and stays behind, `drawn` what is still to be
drawn. A placeholder takes the precision that it draws, or none. -/
inductive PrecisionsInTurn : List Text → List Text → List Token → Prop
  | nil {left drawn : List Text} : PrecisionsInTurn left drawn []
  | text {left drawn : List Text} {s : Text} {tokens : List Token}
      (h : PrecisionsInTurn left drawn tokens) : PrecisionsInTurn left drawn (.text s :: tokens)
  | take {left drawn : List Text} {a : Text} {p : Placeholder} {tokens : List Token}
      (hp : p.TakesPrecision) (ha : isInlinable a = true) (hne : a ≠ p.argument)
      (hleft : ∀ b ∈ left, b = p.argument) (h : PrecisionsInTurn left drawn tokens) :
      PrecisionsInTurn left (a :: drawn) (.placeholder p :: tokens)
  | stay {left drawn : List Text} {p : Placeholder} {tokens : List Token}
      (hp : p.TakesPrecision → ∀ a, (left ++ drawn).find? (· != p.argument) = some a →
        isInlinable a = false)
      (h : PrecisionsInTurn (left ++ drawn.take p.draws) (drawn.drop p.draws) tokens) :
      PrecisionsInTurn left drawn (.placeholder p :: tokens)

theorem Placeholder.placed_of_unused {p : Placeholder} {texts : List Text} (tail : Arguments)
    (h : texts.length = p.draws) : p.placed (.ofTexts texts ++ tail) = p := by
  rw [draws] at h
  cases hs : p.isStarred <;> cases hi : p.isImplicit <;> rw [hs, hi] at h
  · simp [placed, hs, hi]
  · obtain ⟨a, rfl⟩ := List.length_eq_one_iff.1 h
    simp [placed, hs, Arguments.ofTexts, Arguments.moved?]
  · obtain ⟨a, rfl⟩ := List.length_eq_one_iff.1 h
    simp [placed, hi, Arguments.ofTexts, Arguments.moved?]
  · obtain ⟨a, b, rfl⟩ := List.length_eq_two.1 h
    simp [placed, hs, Arguments.ofTexts, Arguments.moved?]

namespace Arguments

variable (pre : Arguments)

theorem append_ofTexts_take_drop (texts : List Text) (k : Nat) :
    pre ++ ofTexts texts = pre ++ ofTexts (texts.take k) ++ ofTexts (texts.drop k) := by
  rw [List.append_assoc, ofTexts, ofTexts, ofTexts, ← List.map_append, List.take_append_drop]

theorem remaining_append_ofTexts (texts : List Text) :
    (pre ++ ofTexts texts).remaining = pre.remaining ++ texts := by
  rw [remaining_append, remaining_ofTexts]

theorem map_source_append_ofTexts (texts : List Text) :
    (pre ++ ofTexts texts).map Argument.source = pre.map Argument.source ++ texts := by
  rw [List.map_append, map_source_ofTexts]

theorem remaining_append_used (s : Text) :
    Arguments.remaining (pre ++ [⟨s, true⟩]) = pre.remaining := by
  rw [remaining_append]
  simp [remaining]

end Arguments

/-- A placeholder that takes none leaves the arguments it draws behind. -/
private theorem inlinePrecision_append_ofTexts {p : Placeholder} {pre : Arguments}
    {drawn : List Text}
    (h : p.TakesPrecision → ∀ a, (pre.remaining ++ drawn).find? (· != p.argument) = some a →
      isInlinable a = false) :
    inlinePrecision (pre ++ .ofTexts drawn) (.ofPlaceholder p) =
      (.ofPlaceholder p,
        pre ++ .ofTexts (drawn.take p.draws) ++ .ofTexts (drawn.drop p.draws)) := by
  rw [← Arguments.append_ofTexts_take_drop]
  refine inlinePrecision_stay ?_
  rwa [Arguments.remaining_append_ofTexts]

/-- In turn, every precision that moves is put where it is drawn. -/
theorem PrecisionsInTurn.exists_place {left drawn : List Text} {tokens : List Token}
    (h : PrecisionsInTurn left drawn tokens) (hd : ∀ p, .placeholder p ∈ tokens → p.OnlyDraws)
    (hlen : draws tokens ≤ drawn.length) {pre : Arguments} (hleft : pre.remaining = left) :
    ∃ (segments : List Segment) (tail : Arguments),
      mapFields inlinePrecision (pre ++ .ofTexts drawn) (tokens.map .ofToken) =
        (segments, pre ++ tail) ∧
      tail.map Argument.source = drawn ∧ ∀ as, written as segments = place tail tokens := by
  induction h generalizing pre with
  | @nil left drawn =>
    exact ⟨[], .ofTexts drawn, rfl, Arguments.map_source_ofTexts drawn, fun _ => rfl⟩
  | @text left drawn s tokens _ ih =>
    obtain ⟨segments, tail, hrun, htail, hwritten⟩ :=
      ih (fun p hp => hd p (List.mem_cons_of_mem _ hp)) hlen hleft
    refine ⟨.text s :: segments, tail, ?_, htail, fun as => ?_⟩
    · simp [mapFields, Segment.ofToken, hrun]
    · rw [written_text, place, hwritten]
  | @take left drawn a p tokens hp ha hne hleft' _ ih =>
    rw [draws, hp.draws_eq_one, List.length_cons] at hlen
    obtain ⟨segments, tail, hrun, htail, hwritten⟩ :=
      ih (fun p hp => hd p (List.mem_cons_of_mem _ hp)) (by omega)
        ((pre.remaining_append_used a).trans hleft)
    rw [List.append_assoc, List.append_assoc] at hrun
    have hstep : inlinePrecision (pre ++ .ofTexts (a :: drawn)) (.ofPlaceholder p) =
        (⟨.written p.argument, some (.inlined ('.' :: (a ++ ['$'])))⟩,
          pre ++ ([⟨a, true⟩] ++ Arguments.ofTexts drawn)) :=
      inlinePrecision_take hp hne (by rwa [hleft]) ha
    refine ⟨.field ⟨.written p.argument, some (.inlined ('.' :: (a ++ ['$'])))⟩ :: segments,
      ⟨a, true⟩ :: tail, mapFields_field hstep hrun, by rw [List.map_cons, htail], fun as => ?_⟩
    rw [written_precision (hd p List.mem_cons_self), place, hp.placed_eq, hp.draws_eq_one, hwritten]
    rfl
  | @stay left drawn p tokens hstay _ ih =>
    have hp := hd p List.mem_cons_self
    rw [draws] at hlen
    have htake : (drawn.take p.draws).length = p.draws := List.length_take_of_le (by omega)
    subst hleft
    obtain ⟨segments, tail, hrun, htail, hwritten⟩ :=
      ih (fun p hp => hd p (List.mem_cons_of_mem _ hp)) (by rw [List.length_drop]; omega)
        (pre.remaining_append_ofTexts (drawn.take p.draws))
    refine ⟨.field (.ofPlaceholder p) :: segments, .ofTexts (drawn.take p.draws) ++ tail,
      ?_, ?_, fun as => ?_⟩
    · rw [← List.append_assoc]
      exact mapFields_field (inlinePrecision_append_ofTexts hstay) hrun
    · rw [List.map_append, Arguments.map_source_ofTexts, htail, List.take_append_drop]
    · rw [written_ofPlaceholder hp, place, Placeholder.placed_of_unused tail htake, hwritten,
        List.drop_left' (by rw [Arguments.ofTexts, List.length_map, htake])]

/-- Arguments with different texts stand in one place. -/
theorem Arguments.append_cons_inj {pre pre' post post' : Arguments} {a a' : Argument}
    (h : pre ++ a :: post = pre' ++ a' :: post') (hs : a.source = a'.source)
    (hnodup : ((pre ++ a :: post).map Argument.source).Nodup) :
    pre = pre' ∧ a = a' ∧ post = post' := by
  have hfirst : ((pre ++ a :: post).map Argument.source)[pre.length]? = some a.source := by simp
  have hsecond : ((pre ++ a :: post).map Argument.source)[pre'.length]? = some a.source := by
    rw [h, hs]
    simp
  have hlen : pre.length = pre'.length :=
    (List.getElem?_inj (by simp) hnodup).1 (hfirst.trans hsecond.symm)
  obtain ⟨hpre, hpost⟩ := List.append_inj h hlen
  exact ⟨hpre, List.cons.inj hpost⟩

/-- What was taken is the precision, so it is what is drawn. -/
private theorem eq_of_taken_precision {p q : Placeholder} (hp : p.isStarred = true)
    {pre pre' post : Arguments} {drawn : List Text} {s : Text} (hs : IsIdentifier s)
    (hq : q.spec = some ('.' :: (s ++ ['$'])))
    (hnodup : (pre.map Argument.source ++ drawn).Nodup)
    (hsplit : pre ++ .ofTexts drawn = pre' ++ ⟨s, false⟩ :: post) {args : List Text} {next : Nat}
    (h : q.precision args next = p.precision (pre.map Argument.source ++ drawn) pre.length) :
    pre' = pre ∧ ∃ rest, drawn = s :: rest ∧ post = .ofTexts rest := by
  rw [hs.precision_eq hq, Placeholder.precision_of_isStarred hp, Option.some_inj,
    List.getElem?_append_right (by simp), List.length_map, Nat.sub_self,
    ← List.head?_eq_getElem?] at h
  obtain ⟨rest, rfl⟩ := List.head?_eq_some_iff.1 h.symm
  rw [← Arguments.map_source_append_ofTexts] at hnodup
  have hcons : pre ++ (⟨s, false⟩ :: Arguments.ofTexts rest) = pre' ++ ⟨s, false⟩ :: post := hsplit
  obtain ⟨rfl, -, rfl⟩ := Arguments.append_cons_inj hcons rfl hnodup
  exact ⟨rfl, rest, rfl, rfl⟩

/-- If the precisions are kept, they are taken in turn. -/
theorem precisionsInTurn_of_drawings {tokens : List Token}
    (hd : ∀ p, .placeholder p ∈ tokens → p.OnlyDraws) {pre : Arguments} {drawn : List Text}
    (hlen : drawn.length = draws tokens) (hnodup : (pre.map Argument.source ++ drawn).Nodup)
    (hnames : ∀ a ∈ pre.map Argument.source ++ drawn, isInlinable a = true → IsIdentifier a)
    {segments : List Segment} {as' : Arguments}
    (hrun : mapFields inlinePrecision (pre ++ .ofTexts drawn) (tokens.map .ofToken) =
      (segments, as'))
    {as : Arguments} {args : List Text} {next : Nat}
    (heq : (drawings args next (written as segments)).map Drawing.precision =
      (drawings (pre.map Argument.source ++ drawn) pre.length tokens).map Drawing.precision) :
    PrecisionsInTurn pre.remaining drawn tokens := by
  induction tokens generalizing pre drawn segments next with
  | nil => exact .nil
  | cons token tokens ih =>
    have hd' := fun p hp => hd p (List.mem_cons_of_mem _ hp)
    cases token with
    | text s =>
      rw [List.map_cons, Segment.ofToken, mapFields] at hrun
      obtain ⟨rfl, hrest⟩ := Prod.mk.inj hrun
      exact .text (ih hd' hlen hnodup hnames (Prod.ext rfl hrest) heq)
    | placeholder p =>
      have hp := hd p List.mem_cons_self
      rw [List.map_cons, Segment.ofToken] at hrun
      obtain ⟨rest, rfl, hrest⟩ := exists_of_mapFields_field hrun
      rw [draws] at hlen
      by_cases hstay : p.TakesPrecision → ∀ a,
          (pre.remaining ++ drawn).find? (· != p.argument) = some a → isInlinable a = false
      · rw [inlinePrecision_append_ofTexts hstay] at hrest heq
        rw [written_ofPlaceholder hp] at heq
        have hsources : (pre ++ .ofTexts (drawn.take p.draws)).map Argument.source ++
            drawn.drop p.draws = pre.map Argument.source ++ drawn := by
          rw [Arguments.map_source_append_ofTexts, List.append_assoc, List.take_append_drop]
        have hlength : (pre ++ .ofTexts (drawn.take p.draws)).length = pre.length + p.draws := by
          rw [List.length_append, Arguments.ofTexts, List.length_map,
            List.length_take_of_le (by omega)]
        have hturn := ih hd' (by rw [List.length_drop]; omega) (by rwa [hsources])
          (by rwa [hsources]) hrest (by rw [hsources, hlength]; exact (List.cons.inj heq).2)
        rw [Arguments.remaining_append_ofTexts] at hturn
        exact .stay hstay hturn
      · rw [← Arguments.remaining_append_ofTexts] at hstay
        obtain ⟨pre', s, post, hsplit, htakes, hne, hpre, hs⟩ := exists_of_not_stay hstay
        have hname : IsIdentifier s := by
          refine hnames s ?_ hs
          rw [← Arguments.map_source_append_ofTexts, hsplit]
          simp
        rw [hsplit, inlinePrecision_take htakes hne hpre hs] at hrest heq
        rw [written_precision hp] at heq
        obtain ⟨hhead, htail⟩ := List.cons.inj heq
        obtain ⟨rfl, drawn, rfl, rfl⟩ :=
          eq_of_taken_precision htakes.isStarred_eq_true hname rfl hnodup hsplit hhead
        rw [htakes.draws_eq_one] at hlen htail
        rw [List.length_cons] at hlen
        have hsources : List.map Argument.source (pre' ++ [⟨s, true⟩]) ++ drawn =
            pre'.map Argument.source ++ s :: drawn := by simp
        rw [← hsources] at hnodup hnames htail
        have hturn := ih hd' (by omega) hnodup hnames (by rwa [List.append_assoc])
          (by rw [List.length_append]; exact htail)
        rw [Arguments.remaining_append_used] at hturn
        exact .take htakes hs hne hpre hturn

end TextTransforms
