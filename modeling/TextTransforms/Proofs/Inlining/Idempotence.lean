import TextTransforms.Proofs.Inlining.ReadBack
import TextTransforms.Proofs.Inlining.Settled
import TextTransforms.Proofs.Inlining.Turns

/-!
# Inlining twice

A second run changes nothing exactly if it finds a settled call. When it finds the call
that the first run wrote, the turns need no second look (`turn_rewritten`): only an index
that a renaming or a dropped `v` has left behind, and a precision that now reaches another
argument, can move one more argument.
-/

namespace TextTransforms

private theorem text_argument_of_resolveField {as : Arguments} {f : Field}
    (hs : ∀ i s, as.IsUsed i s → s ≠ []) (h : (resolveField as f).argument.text = []) :
    f.argument.text = [] := by
  cases hr : f.index?.bind as.reference? with
  | none => simpa [resolveField, hr] using h
  | some r =>
    obtain ⟨i, -, hr'⟩ := Option.bind_eq_some_iff.1 hr
    have hnil : r = [] := by simpa [resolveField, hr, Part.text] using h
    exact absurd hnil (Arguments.reference?_ne_nil hs hr')

/-- Once the last pass has written the references, a placeholder without argument is one that
was left without. -/
private theorem isImplicit_resolve {texts : List Text} {tokens : List Token} {d : Draft}
    (h : d.Traces tokens texts) {segment : Segment} (hs : segment ∈ d.segments)
    (hi : (segment.edit (resolveField d.arguments)).token.isImplicit = true) :
    segment.isImplicit = true := by
  cases segment with
  | text => exact hi
  | field f =>
    obtain ⟨token, -, htrace⟩ := exists_of_mem_right h.segments hs
    cases token with
    | text => exact htrace.elim
    | placeholder p =>
      have hne (i : Nat) (s : Text) (hu : d.arguments.IsUsed i s) : s ≠ [] := by
        rintro rfl
        exact absurd (h.inlinable i [] hu) (by decide)
      have hresolved : (resolveField d.arguments f).argument.text = [] := by
        simpa [Segment.edit, Segment.token, Token.isImplicit, Placeholder.isImplicit,
          Field.placeholder] using hi
      have htext := text_argument_of_resolveField hne hresolved
      have harg := htrace.1
      generalize e : f.argument = part at harg htext
      cases harg with
      | @taken i _ s _ _ hu => exact absurd htext (hne i s hu)
      | @written t _ =>
        obtain rfl : t = [] := htext
        simp [Segment.isImplicit, Field.isImplicit, e]

/-- No turn of a rewritten template reaches an argument that may stand in it. -/
theorem turn_rewritten {call : Call} {d : Draft} (h : call.rewritten? = some d) (n : Nat)
    (hn : n < d.tokens.countP Token.isImplicit) : Stays d.arguments.remaining[n]? := by
  obtain ⟨m, hm, rfl, traces, -⟩ := Call.exists_of_rewritten? h
  have hover := Draft.turnsOver_moveArguments call.draft
  rw [← hm] at hover
  have hle : m.resolve.tokens.countP Token.isImplicit ≤ m.left := by
    rw [Draft.tokens, Draft.segments_resolve, List.map_map, List.countP_map]
    exact List.countP_mono_left fun s hs hi => isImplicit_resolve traces hs hi
  rw [Draft.arguments_resolve]
  exact fun a ha => hover.stays (by omega) ha

/-- Where the rewritten call is read back, it is settled unless an index or a precision of
its template reaches an argument that may stand there. -/
private theorem isSettled_rewritten_iff {call : Call} (call' : Call) {d : Draft}
    (h : call.rewritten? = some d) (hliteral : call'.literal = d.template)
    (harguments : call'.arguments = d.arguments.remaining) :
    call'.IsSettled ↔ Error.templateLimit < d.template.utf8Length ∨
      (∀ p, .placeholder p ∈ d.tokens → ∀ i, p.index? = some i → Stays d.arguments.remaining[i]?) ∧
      ∀ p, .placeholder p ∈ d.tokens → p.spec = some ['.', '*'] →
        Text.isWord p.lastName = true →
          Stays (d.arguments.remaining.find? (· != p.lastName)) := by
  rw [Call.IsSettled, harguments, hliteral]
  by_cases hlen : d.template.utf8Length ≤ Error.templateLimit
  · have htokens := (Call.templateTokens_rewritten h hlen).1
    have he : call'.tokens = d.tokens := by
      rw [Call.tokens, hliteral, (templateTokens_eq_ok_iff.1 htokens).2.2]
    obtain ⟨m, -, rfl, traces, -, hlimit, -⟩ := Call.exists_of_rewritten? h
    have hcount : m.resolve.arguments.remaining.length ≤ argumentLimit := by
      refine Nat.le_trans (Arguments.length_remaining_le _) ?_
      have hsources := congrArg List.length traces.sources
      rw [List.length_map] at hsources
      rw [Draft.arguments_resolve, hsources]
      exact hlimit
    rw [he]
    constructor
    · rintro (hnil | hlong | hbad | hs)
      · rw [hnil]
        exact .inr ⟨fun _ _ i _ => by simp [Stays], fun _ _ _ _ => by simp [Stays]⟩
      · omega
      · exact absurd htokens hbad
      · exact .inr ⟨hs.index, hs.precision⟩
    · rintro (hlong | ⟨hindex, hprecision⟩)
      · omega
      · exact .inr (.inr (.inr ⟨hindex, turn_rewritten h, hprecision⟩))
  · constructor
    · exact fun _ => .inl (by omega)
    · refine fun _ => .inr (.inr (.inl fun hok => hlen ?_))
      exact (templateTokens_eq_ok_iff.1 hok).1

/-- When a second run changes nothing. -/
theorem inlineArguments_idempotent_iff (t : Text) :
    (inlineArguments (inlineArguments t) = inlineArguments t ↔
      ∀ call, Call.find? (inlineArguments t) = some call → call.IsSettled) ∧
    ∀ call d, Call.find? t = some call → call.rewritten? = some d →
      Call.HasNoName call.before → call.after.head? ≠ some '\'' →
      (inlineArguments (inlineArguments t) = inlineArguments t ↔
        Error.templateLimit < d.template.utf8Length ∨
          (∀ p, .placeholder p ∈ d.tokens → ∀ i, p.index? = some i →
            Stays d.arguments.remaining[i]?) ∧
          ∀ p, .placeholder p ∈ d.tokens → p.spec = some ['.', '*'] →
            Text.isWord p.lastName = true →
              Stays (d.arguments.remaining.find? (· != p.lastName))) := by
  refine ⟨inlineArguments_eq_self_iff, fun call d hc hd hname hafter => ?_⟩
  have hu : inlined? t = some (call.assemble d) := inlined?_eq_some_iff.2 ⟨call, d, hc, hd, rfl⟩
  obtain ⟨raw, hfind, hsplit⟩ := Call.find?_assemble hc hd hname hafter
  rw [inlineArguments_eq_self_iff,
    ← isSettled_rewritten_iff { call with literal := d.template, rawArguments := raw } hd rfl
      hsplit]
  have hv : inlineArguments t = call.assemble d := by rw [inlineArguments, hu, Option.getD_some]
  rw [hv, hfind]
  constructor
  · exact fun h => h _ rfl
  · rintro h call' e
    obtain rfl := Option.some.inj e
    exact h

/-- The first run leaves an index behind that the second one takes. -/
theorem inlineArguments_twice_ne :
    inlineArguments (inlineArguments "println!(\"{x=1} {0}\", a, b)".toList) ≠
      inlineArguments "println!(\"{x=1} {0}\", a, b)".toList := by
  decide +kernel

theorem inlineArguments_idempotent_println :
    inlineArguments (inlineArguments "println!(\"{} {}\", a, f(b))".toList) =
      inlineArguments "println!(\"{} {}\", a, f(b))".toList := by
  let call : Call := ⟨[], "println".toList, '"', "{} {}".toList, some " a, f(b)".toList, [], false⟩
  let d : Draft := ⟨[.field ⟨.inlined ['a'], none⟩, .text [' '], .field ⟨.written [], none⟩],
    [⟨['a'], true⟩, ⟨"f(b)".toList, false⟩]⟩
  have hc : Call.find? "println!(\"{} {}\", a, f(b))".toList = some call := by decide +kernel
  have hd : call.rewritten? = some d := by decide +kernel
  refine ((inlineArguments_idempotent_iff _).2 call d hc hd Call.hasNoName_nil (by decide)).2
    (.inr ⟨?_, ?_⟩)
  · intro p hp i hi
    rcases (by simpa [d, Draft.tokens, Segment.token, Field.placeholder, Part.text] using hp :
      p = ⟨['a'], none⟩ ∨ p = ⟨[], none⟩) with rfl | rfl <;> cases hi
  · intro p hp hs
    rcases (by simpa [d, Draft.tokens, Segment.token, Field.placeholder, Part.text] using hp :
      p = ⟨['a'], none⟩ ∨ p = ⟨[], none⟩) with rfl | rfl <;> cases hs

end TextTransforms
