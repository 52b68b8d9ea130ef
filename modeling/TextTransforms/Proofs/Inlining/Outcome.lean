import Mathlib.Data.List.Forall2
import TextTransforms.Inlining.Basic
import TextTransforms.Proofs.Inlining.Moves
import TextTransforms.Proofs.Inlining.Specs
import TextTransforms.Proofs.Template.RoundTrip

/-!
# What becomes of a template

`Draft.Traces` is the invariant of the moves: each field still is the placeholder it
was, renamed, or holds an argument that is used, and each used argument can stand
in a field and is held by one. Once the last pass has written the references that
are left, each placeholder has become what `Placeholder.Becomes` says
(`Draft.Traces.becomes_resolve`), and the used arguments are still there
(`Draft.Traces.exists_holds`).
-/

namespace TextTransforms

/-! ## The invariant -/

/-- The argument was put into the field, as its argument or in front of the `$` of a count. -/
def Field.Holds (f : Field) (source : Text) : Prop :=
  f.argument = .inlined source ∨
    ∃ before, f.spec = some (.inlined (before ++ source ++ ['$']))

/-- What the passes have made of the argument of `p`. -/
inductive ArgumentTrace (as : Arguments) (p : Placeholder) : Part → Prop
  | written {t : Text} (h : Relation.ReflTransGen (Renames p.spec.isSome) p.argument t) :
      ArgumentTrace as p (.written t)
  | taken {i : Nat} {t source : Text}
      (h : Relation.ReflTransGen (Renames p.spec.isSome) p.argument t)
      (ht : Numeral.index? t = some i ∨ t = []) (hu : as.IsUsed i source) :
      ArgumentTrace as p (.inlined source)

/-- What the passes have made of the spec of `p`. -/
inductive SpecTrace (as : Arguments) (p : Placeholder) : Option Part → Prop
  | written : SpecTrace as p (p.spec.map .written)
  | width {k : Nat} {spec source : Text} (hs : p.spec = some spec)
      (hk : specPieces spec = [.count k]) (hu : as.IsUsed k source) :
      SpecTrace as p (some (.inlined (source ++ ['$'])))
  | precision {i : Nat} {source : Text} (hs : p.spec = some ['.', '*']) (hu : as.IsUsed i source) :
      SpecTrace as p (some (.inlined ('.' :: source ++ ['$'])))

/-- What the passes have made of a token. -/
def SegmentTrace (as : Arguments) : Token → Segment → Prop
  | .text s, .text s' => s = s'
  | .placeholder p, .field f => ArgumentTrace as p f.argument ∧ SpecTrace as p f.spec
  | _, _ => False

structure Draft.Traces (tokens : List Token) (texts : List Text) (d : Draft) : Prop where
  sources : d.arguments.map Argument.source = texts
  inlinable : ∀ i s, d.arguments.IsUsed i s → isInlinable s = true
  segments : List.Forall₂ (SegmentTrace d.arguments) tokens d.segments
  held : ∀ i s, d.arguments.IsUsed i s → ∃ f, .field f ∈ d.segments ∧ f.Holds s

theorem traces_start (tokens : List Token) (texts : List Text) :
    Draft.Traces tokens texts ⟨tokens.map .ofToken, .ofTexts texts⟩ where
  sources := Arguments.map_source_ofTexts texts
  inlinable i s h := absurd h Arguments.not_isUsed_ofTexts
  held i s h := absurd h Arguments.not_isUsed_ofTexts
  segments := by
    induction tokens with
    | nil => exact .nil
    | cons token tokens ih =>
      refine .cons ?_ ih
      cases token with
      | text s => rfl
      | placeholder p => exact ⟨.written .refl, .written⟩

/-! ## Moves keep it -/

theorem ArgumentTrace.mono {as as' : Arguments} {p : Placeholder} {part : Part}
    (h : ArgumentTrace as p part) (hu : ∀ i s, as.IsUsed i s → as'.IsUsed i s) :
    ArgumentTrace as' p part := by
  cases h with
  | written h => exact .written h
  | taken h ht hs => exact .taken h ht (hu _ _ hs)

theorem SpecTrace.mono {as as' : Arguments} {p : Placeholder} {spec : Option Part}
    (h : SpecTrace as p spec) (hu : ∀ i s, as.IsUsed i s → as'.IsUsed i s) :
    SpecTrace as' p spec := by
  cases h with
  | written => exact .written
  | width hs hk h => exact .width hs hk (hu _ _ h)
  | precision hs h => exact .precision hs (hu _ _ h)

theorem SegmentTrace.mono {as as' : Arguments} {token : Token} {segment : Segment}
    (h : SegmentTrace as token segment) (hu : ∀ i s, as.IsUsed i s → as'.IsUsed i s) :
    SegmentTrace as' token segment := by
  cases token <;> cases segment <;> simp only [SegmentTrace] at h ⊢
  · exact h
  · exact ⟨h.1.mono hu, h.2.mono hu⟩

/-- A trace has a spec exactly if the placeholder had one. -/
theorem SpecTrace.isSome_eq {as : Arguments} {p : Placeholder} {spec : Option Part}
    (h : SpecTrace as p spec) : spec.isSome = p.spec.isSome := by
  cases h with
  | written => simp
  | width hs => simp [hs]
  | precision hs => simp [hs]

private theorem concat_dollar_ne (s : Text) : s ++ ['$'] ≠ ['.', '*'] := by
  intro h
  have := congrArg List.getLast? h
  rw [List.getLast?_concat] at this
  simp at this

/-! ## Moves on one field -/

section Trace

variable {as as' : Arguments} {p : Placeholder} {f : Field} {i : Nat} {source : Text}

theorem ArgumentTrace.take (h : ArgumentTrace as p f.argument)
    (hf : f.index? = some i ∨ f.isImplicit = true) (hi : as'.IsUsed i source) :
    ArgumentTrace as' p (.inlined source) := by
  generalize e : f.argument = part at h
  cases h with
  | @written t hr =>
    refine .taken hr ?_ hi
    rcases hf with hf | hf
    · exact .inl (by simpa [Field.index?, e, Part.written?] using hf)
    · exact .inr (by simpa [Field.isImplicit, e] using hf)
  | taken =>
    rcases hf with hf | hf
    · simp [Field.index?, e, Part.written?] at hf
    · simp [Field.isImplicit, e] at hf

theorem ArgumentTrace.rename {s t : Text} (h : ArgumentTrace as p (.written s))
    (hr : Renames p.spec.isSome s t) : ArgumentTrace as p (.written t) := by
  cases h with
  | written h => exact .written (h.tail hr)

theorem SpecTrace.takeWidth (h : SpecTrace as p f.spec) (hf : f.width? = some i)
    (hi : as'.IsUsed i source) : SpecTrace as' p (some (.inlined (source ++ ['$']))) := by
  generalize e : f.spec = spec at h
  cases h with
  | written =>
    cases hp : p.spec with
    | none => simp [Field.width?, e, hp] at hf
    | some s =>
      refine .width hp ?_ hi
      unfold Field.width? at hf
      split at hf
      · rename_i k hpieces
        obtain rfl : k = i := by simpa using hf
        simpa [e, hp, Part.written?] using hpieces
      · simp at hf
  | width => simp [Field.width?, e, Part.written?] at hf
  | precision => simp [Field.width?, e, Part.written?] at hf

theorem SpecTrace.takePrecision (h : SpecTrace as p f.spec)
    (hf : f.spec.map Part.text = some ['.', '*']) (hi : as'.IsUsed i source) :
    SpecTrace as' p (some (.inlined ('.' :: source ++ ['$']))) := by
  generalize e : f.spec = spec at h
  rw [e] at hf
  cases h with
  | written =>
    refine .precision ?_ hi
    cases hp : p.spec with
    | none => simp [hp] at hf
    | some s => simpa [hp, Part.text] using hf
  | width => exact absurd (Option.some.inj hf) (concat_dollar_ne _)
  | precision => exact absurd (Option.some.inj hf) (concat_dollar_ne _)

end Trace

section Move

variable {as as' : Arguments} {f f' : Field} (h : f.Move as f' as')
include h

theorem Field.Move.isUsed_mono (i : Nat) (s : Text) (hu : as.IsUsed i s) : as'.IsUsed i s := by
  cases h with
  | take => exact hu.use
  | width => exact hu.use
  | precision => exact hu.use
  | rename => exact hu

theorem Field.Move.map_source : as'.map Argument.source = as.map Argument.source := by
  cases h with
  | take => exact Arguments.map_source_use as _
  | width => exact Arguments.map_source_use as _
  | precision => exact Arguments.map_source_use as _
  | rename => rfl

/-- What a field holds it goes on holding. -/
theorem Field.Move.holds_mono (s : Text) (hs : f.Holds s) : f'.Holds s := by
  cases h with
  | take ha hf =>
    refine hs.imp (fun e => ?_) id
    rcases hf with hf | hf
    · simp [Field.index?, e, Part.written?] at hf
    · simp [Field.isImplicit, e] at hf
  | width ha hf =>
    refine hs.imp id ?_
    rintro ⟨before, e⟩
    simp [Field.width?, e, Part.written?] at hf
  | precision ha hf =>
    refine hs.imp id ?_
    rintro ⟨before, e⟩
    rw [e] at hf
    exact absurd (Option.some.inj hf) (concat_dollar_ne _)
  | rename hf => exact hs.imp (fun e => by simp [e] at hf) id

/-- What is used by a move can stand in a field, and is held by this one. -/
theorem Field.Move.holds_of_isUsed (i : Nat) (s : Text) (hu : as'.IsUsed i s) :
    as.IsUsed i s ∨ isInlinable s = true ∧ f'.Holds s := by
  have used {j : Nat} {source : Text} (ha : as.inlinable? j = some source)
      (hj : (as.use j).IsUsed i s) : as.IsUsed i s ∨ isInlinable s = true ∧ s = source := by
    rcases Arguments.isUsed_use_iff.1 hj with hi | ⟨rfl, u, hi⟩
    · exact .inl hi
    · obtain ⟨⟨u', hs⟩, hin⟩ := Arguments.inlinable?_eq_some_iff.1 ha
      obtain rfl : s = source := by
        rw [hi] at hs
        exact (Argument.mk.inj (Option.some.inj hs)).1
      exact .inr ⟨hin, rfl⟩
  cases h with
  | take ha => exact (used ha hu).imp id fun ⟨hin, e⟩ => ⟨hin, .inl (by rw [e])⟩
  | width ha => exact (used ha hu).imp id fun ⟨hin, e⟩ => ⟨hin, .inr ⟨[], by rw [e]; rfl⟩⟩
  | precision ha =>
    exact (used ha hu).imp id fun ⟨hin, e⟩ => ⟨hin, .inr ⟨['.'], by rw [e]; rfl⟩⟩
  | rename => exact .inl hu

theorem Field.Move.trace {p : Placeholder} (ha : ArgumentTrace as p f.argument)
    (hs : SpecTrace as p f.spec) :
    ArgumentTrace as' p f'.argument ∧ SpecTrace as' p f'.spec := by
  have mono := h.isUsed_mono
  cases h with
  | take hi hf =>
    exact ⟨ha.take hf (Arguments.isUsed_use_of_inlinable? hi), hs.mono mono⟩
  | width hk hf =>
    exact ⟨ha.mono mono, hs.takeWidth hf (Arguments.isUsed_use_of_inlinable? hk)⟩
  | precision hi hf =>
    exact ⟨ha.mono mono, hs.takePrecision hf (Arguments.isUsed_use_of_inlinable? hi)⟩
  | rename hf hr =>
    rw [hf] at ha
    exact ⟨ha.rename (hs.isSome_eq ▸ hr), hs⟩

end Move

private theorem forall₂_replace {α β : Type} {R R' : α → β → Prop} {x x' : β}
    (hR : ∀ a b, R a b → R' a b) (hx : ∀ a, R a x → R' a x') {pre post : List β} {ts : List α}
    (h : List.Forall₂ R ts (pre ++ x :: post)) : List.Forall₂ R' ts (pre ++ x' :: post) := by
  induction pre generalizing ts with
  | nil =>
    cases h with
    | cons hab ht => exact .cons (hx _ hab) (ht.imp hR)
  | cons b pre ih =>
    cases h with
    | cons hab ht => exact .cons (hR _ _ hab) (ih ht)

theorem Draft.Move.traces {tokens : List Token} {texts : List Text} {d d' : Draft}
    (h : d.Move d') (ht : d.Traces tokens texts) : d'.Traces tokens texts := by
  cases h with
  | @field pre post f f' as as' h =>
    refine ⟨h.map_source.trans ht.sources, fun i s hu => ?_, ?_, fun i s hu => ?_⟩
    · exact (h.holds_of_isUsed i s hu).elim (ht.inlinable i s) And.left
    · refine forall₂_replace (fun _ _ hs => hs.mono h.isUsed_mono) (fun token hs => ?_) ht.segments
      cases token with
      | text => exact hs
      | placeholder p => exact h.trace hs.1 hs.2
    · rcases h.holds_of_isUsed i s hu with hu | ⟨-, hs⟩
      · obtain ⟨g, hg, hgs⟩ := ht.held i s hu
        rcases List.mem_append.1 hg with hg | hg
        · exact ⟨g, List.mem_append_left _ hg, hgs⟩
        · rcases List.mem_cons.1 hg with e | hg
          · obtain rfl : g = f := by simpa using e
            exact ⟨f', by simp, h.holds_mono s hgs⟩
          · exact ⟨g, by simp [hg], hgs⟩
      · exact ⟨f', by simp, hs⟩

theorem Draft.Moves.traces {tokens : List Token} {texts : List Text} {d d' : Draft}
    (h : Draft.Moves d d') (ht : d.Traces tokens texts) : d'.Traces tokens texts := by
  induction h with
  | refl => exact ht
  | tail _ hm ih => exact hm.traces ih

/-- What is used stays used. -/
theorem Draft.Moves.isUsed_mono {d d' : Draft} (h : Draft.Moves d d') (i : Nat) (s : Text)
    (hu : d.arguments.IsUsed i s) : d'.arguments.IsUsed i s := by
  induction h with
  | refl => exact hu
  | tail _ hm ih =>
    cases hm with
    | field hf => exact hf.isUsed_mono i s ih

/-! ## What the last pass writes -/

/-- What the last pass makes of the argument `t`. -/
inductive ArgumentBecomes (as : Arguments) : Text → Text → Prop
  | kept {t : Text} (h : (Numeral.index? t).bind as.reference? = none) : ArgumentBecomes as t t
  | reference {t r : Text} {i : Nat} (hi : Numeral.index? t = some i)
      (hr : as.reference? i = some r) : ArgumentBecomes as t r
  | implicit {i : Nat} {s : Text} (hu : as.IsUsed i s) : ArgumentBecomes as [] s

inductive SpecBecomes (as : Arguments) : Option Text → Option Text → Prop
  | none : SpecBecomes as none none
  | resolved (spec : Text) : SpecBecomes as (some spec) (some (resolveSpec as spec))
  | precision {i : Nat} {s : Text} (hu : as.IsUsed i s) :
      SpecBecomes as (some ['.', '*']) (some ('.' :: s ++ ['$']))

/-- What the passes make of a placeholder, told by the arguments as they are at the end. -/
structure Placeholder.Becomes (as : Arguments) (p p' : Placeholder) : Prop where
  argument : ∃ t, Relation.ReflTransGen (Renames p.spec.isSome) p.argument t ∧
    ArgumentBecomes as t p'.argument
  spec : SpecBecomes as p.spec p'.spec

def Token.Becomes (as : Arguments) : Token → Token → Prop
  | .text s, .text s' => s = s'
  | .placeholder p, .placeholder p' => p.Becomes as p'
  | _, _ => False

theorem Token.Becomes.sameKind {as : Arguments} {token token' : Token}
    (h : token.Becomes as token') : token.SameKind token' := by
  cases token <;> cases token' <;> trivial

namespace Segment

def token : Segment → Token
  | text source => .text source
  | field f => .placeholder f.placeholder

@[simp] theorem source_token (segment : Segment) : segment.token.source = segment.source := by
  cases segment <;> rfl

def edit (step : Field → Field) : Segment → Segment
  | text source => text source
  | field f => field (step f)

end Segment

namespace Draft

theorem edit_eq (step : Field → Field) (d : Draft) :
    d.edit step = ⟨d.segments.map (Segment.edit step), d.arguments⟩ := by
  have h (as : Arguments) (segments : List Segment) :
      mapFields (fun as f => (step f, as)) as segments =
        (segments.map (Segment.edit step), as) := by
    induction segments with
    | nil => rfl
    | cons segment rest ih => cases segment <;> simp [mapFields, ih, Segment.edit]
  rw [edit, run, h]

@[simp] theorem arguments_resolve (d : Draft) : d.resolve.arguments = d.arguments := by
  rw [resolve, edit_eq]

theorem segments_resolve (d : Draft) :
    d.resolve.segments = d.segments.map (Segment.edit (resolveField d.arguments)) := by
  rw [resolve, edit_eq]

/-- The tokens that a draft writes. -/
def tokens (d : Draft) : List Token := d.segments.map Segment.token

/-- The template that a draft writes. -/
def template (d : Draft) : Text := d.segments.flatMap Segment.source

theorem flatMap_source_tokens (d : Draft) : d.tokens.flatMap Token.source = d.template := by
  simp [tokens, template, List.flatMap_map]

end Draft

section Resolve

variable {as : Arguments}

theorem ArgumentTrace.becomes {p : Placeholder} {f : Field} (h : ArgumentTrace as p f.argument) :
    ∃ t, Relation.ReflTransGen (Renames p.spec.isSome) p.argument t ∧
      ArgumentBecomes as t (resolveField as f).argument.text := by
  generalize e : f.argument = part at h
  cases h with
  | @written t hr =>
    refine ⟨t, hr, ?_⟩
    have hi : f.index? = Numeral.index? t := by simp [Field.index?, e, Part.written?]
    simp only [resolveField, hi, e]
    cases href : (Numeral.index? t).bind as.reference? with
    | none => exact .kept href
    | some r =>
      obtain ⟨i, hi, hr⟩ := Option.bind_eq_some_iff.1 href
      exact .reference hi hr
  | @taken i t source hr ht hu =>
    refine ⟨t, hr, ?_⟩
    have htext : (resolveField as f).argument.text = source := by
      simp [resolveField, Field.index?, e, Part.written?, Part.text]
    rw [htext]
    rcases ht with ht | rfl
    · exact .reference ht (Arguments.reference?_of_isUsed hu)
    · exact .implicit hu

theorem SpecTrace.becomes {p : Placeholder} {f : Field} (h : SpecTrace as p f.spec) :
    SpecBecomes as p.spec ((resolveField as f).spec.map Part.text) := by
  generalize e : f.spec = spec at h
  cases h with
  | written =>
    cases hp : p.spec with
    | none =>
      simp only [resolveField, e, hp]
      exact .none
    | some spec =>
      simp only [resolveField, e, hp]
      exact .resolved spec
  | @width k spec source hs hk hu =>
    have hw : resolveSpec as spec = source ++ ['$'] := by
      simp [resolveSpec_eq, hk, SpecPiece.resolve, Arguments.reference?_of_isUsed hu]
    simp only [resolveField, e, hs, Option.map_some, Part.text]
    rw [← hw]
    exact .resolved spec
  | precision hs hu =>
    simp only [resolveField, e, hs, Option.map_some, Part.text]
    exact .precision hu

end Resolve

namespace Draft.Traces

variable {tokens : List Token} {texts : List Text} {d : Draft} (h : d.Traces tokens texts)
include h

theorem becomes_resolve : List.Forall₂ (Token.Becomes d.arguments) tokens d.resolve.tokens := by
  rw [Draft.tokens, Draft.segments_resolve, List.map_map, List.forall₂_map_right_iff]
  refine h.segments.imp fun token segment hs => ?_
  cases token <;> cases segment <;> simp only [SegmentTrace] at hs
  · exact hs
  · exact ⟨hs.1.becomes, hs.2.becomes⟩

theorem getElem?_of_isUsed {i : Nat} {s : Text} (hu : d.arguments.IsUsed i s) :
    texts[i]? = some s := by
  have hi : d.arguments[i]? = some ⟨s, true⟩ := hu
  rw [← h.sources, List.getElem?_map, hi]
  rfl

/-- A used argument is the argument of a placeholder or stands before the `$` of a count. -/
theorem exists_holds (i : Nat) (s : Text) (hu : d.arguments.IsUsed i s) :
    ∃ p, .placeholder p ∈ d.resolve.tokens ∧
      (p.argument = s ∨ ∃ before behind, p.spec = some (before ++ s ++ '$' :: behind)) := by
  obtain ⟨f, hf, hs⟩ := h.held i s hu
  refine ⟨(resolveField d.arguments f).placeholder, ?_, ?_⟩
  · rw [Draft.tokens, Draft.segments_resolve, List.map_map]
    exact List.mem_map.2 ⟨.field f, hf, rfl⟩
  · refine hs.imp (fun e => ?_) ?_
    · simp [Field.placeholder, resolveField, Field.index?, e, Part.written?, Part.text]
    · rintro ⟨before, e⟩
      exact ⟨before, [], by simp [Field.placeholder, resolveField, e, Part.text]⟩

end Draft.Traces

end TextTransforms
