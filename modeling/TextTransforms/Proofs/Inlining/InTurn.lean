import TextTransforms.Proofs.Inlining.Precisions

/-!
# Arguments drawn in turn

The pass for placeholders without argument gives each of them its turn and passes over the
precisions `.*`, which draw from the same list. So in front of the first precision an argument
goes where it is drawn, and behind it none may go to a placeholder without argument
(`DrawnInTurn`). If that is so, a rewritten call denotes what it denoted, and if the
arguments have different texts only then (`drawings_inlined`).
-/

namespace TextTransforms

/-- No argument goes where another one is drawn. In front of the first precision `.*` the turns
are those of the drawing; behind it none may take. -/
inductive DrawnInTurn : List Text → List Text → List Token → Prop
  | nil {left drawn : List Text} : DrawnInTurn left drawn []
  | text {left drawn : List Text} {s : Text} {tokens : List Token}
      (h : DrawnInTurn left drawn tokens) : DrawnInTurn left drawn (.text s :: tokens)
  | front {left drawn : List Text} {p : Placeholder} {tokens : List Token}
      (hp : p.isStarred = false)
      (h : DrawnInTurn (left ++ (drawn.take p.draws).filter (!isInlinable ·)) (drawn.drop p.draws)
        tokens) : DrawnInTurn left drawn (.placeholder p :: tokens)
  | behind {left drawn : List Text} {p : Placeholder} {tokens : List Token}
      (hp : p.isStarred = true)
      (hvalues : ∀ a ∈ drawn.take ((Token.placeholder p :: tokens).countP Token.isImplicit),
        isInlinable a = false)
      (h : PrecisionsInTurn left drawn (.placeholder p :: tokens)) :
      DrawnInTurn left drawn (.placeholder p :: tokens)

/-! ## In turn -/

theorem Arguments.drop_afterTurns {texts : List Text} {n m : Nat}
    (h : ∀ a ∈ (texts.drop n).take (m - n), isInlinable a = false) :
    (afterTurns texts m).drop n = ofTexts (texts.drop n) := by
  apply List.ext_getElem?
  intro i
  rw [List.getElem?_drop, getElem?_afterTurns, getElem?_ofTexts, List.getElem?_drop]
  cases ha : texts[n + i]? with
  | none => rfl
  | some a =>
    by_cases hi : n + i < m
    · have hmem : a ∈ (texts.drop n).take (m - n) := by
        refine List.mem_of_getElem? (i := i) ?_
        rw [List.getElem?_take_of_lt (by omega), List.getElem?_drop, ha]
      simp [h a hmem]
    · simp [hi]

@[simp] theorem Arguments.map_source_afterTurns (texts : List Text) (n : Nat) :
    (afterTurns texts n).map Argument.source = texts := by
  apply List.ext_getElem?
  intro i
  rw [List.getElem?_map, getElem?_afterTurns]
  cases texts[i]? <;> rfl

theorem fill_of_unused {as : Arguments} {n : Nat} (h : ∀ i s, n ≤ i → as[i]? ≠ some ⟨s, true⟩)
    (tokens : List Token) : fill as n tokens = tokens.map .ofToken := by
  induction tokens generalizing n with
  | nil => rfl
  | cons token tokens ih =>
    cases token with
    | text s => rw [fill, List.map_cons, ih h, Segment.ofToken]
    | placeholder p =>
      have hrest := ih (n := n + 1) fun i s hi => h i s (by omega)
      have hfield : Field.afterTurn as n p = .ofPlaceholder p := by
        unfold Field.afterTurn
        split
        · rename_i s hs
          exact absurd hs (h n s le_rfl)
        · rfl
      rw [fill, hfield, hrest, ih h, List.map_cons, Segment.ofToken, ite_self]

/-- If no placeholder takes in its turn, nothing has moved behind argument `n`. -/
theorem afterTurns_of_not_isInlinable {texts : List Text} {n m : Nat} {tokens : List Token}
    (hm : n + tokens.countP Token.isImplicit = m)
    (hvalues : ∀ a ∈ (texts.drop n).take (tokens.countP Token.isImplicit), isInlinable a = false) :
    (Arguments.afterTurns texts m).take n ++ Arguments.ofTexts (texts.drop n) =
        Arguments.afterTurns texts m ∧
      fill (.afterTurns texts m) n tokens = tokens.map .ofToken := by
  have hbehind : (Arguments.afterTurns texts m).drop n = Arguments.ofTexts (texts.drop n) := by
    refine Arguments.drop_afterTurns ?_
    rwa [show m - n = tokens.countP Token.isImplicit by omega]
  refine ⟨by rw [← hbehind, List.take_append_drop], fill_of_unused (fun i s hi hs => ?_) tokens⟩
  have hdrop : ((Arguments.afterTurns texts m).drop n)[i - n]? = some ⟨s, true⟩ := by
    rw [List.getElem?_drop, Nat.add_sub_cancel' hi, hs]
  rw [hbehind] at hdrop
  exact Arguments.not_isUsed_ofTexts hdrop

theorem Field.spec_afterTurn (as : Arguments) (n : Nat) (p : Placeholder) :
    (Field.afterTurn as n p).spec = p.spec.map .written := by
  unfold Field.afterTurn
  split <;> rfl

theorem Arguments.take_drop_afterTurns {texts : List Text} {n k m : Nat} (h : n + k ≤ m) :
    ((afterTurns texts m).drop n).take k =
      ((texts.drop n).take k).map fun a => ⟨a, isInlinable a⟩ := by
  apply List.ext_getElem?
  intro i
  rw [List.getElem?_take, List.getElem?_map, List.getElem?_take]
  split
  · rw [List.getElem?_drop, List.getElem?_drop, getElem?_afterTurns]
    simp [show n + i < m by omega]
  · rfl

theorem Arguments.remaining_take_afterTurns {texts : List Text} {n k m : Nat} (h : n + k ≤ m) :
    Arguments.remaining ((afterTurns texts m).take (n + k)) =
      Arguments.remaining ((afterTurns texts m).take n) ++
        ((texts.drop n).take k).filter (!isInlinable ·) := by
  rw [List.take_add, remaining_append, take_drop_afterTurns h]
  generalize (texts.drop n).take k = drawn
  simp [remaining, List.filter_map, Function.comp_def]

/-- What the pass for placeholders without argument makes of a placeholder. -/
def Field.inTurn (as : Arguments) (n : Nat) (p : Placeholder) : Field :=
  if p.isImplicit then .afterTurn as n p else .ofPlaceholder p

section Front

variable {p : Placeholder} (hs : p.isStarred = false)
include hs

/-- In front of the first precision the placeholders draw in their turns. -/
theorem countP_of_not_isStarred (tokens : List Token) :
    (Token.placeholder p :: tokens).countP Token.isImplicit =
      p.draws + tokens.countP Token.isImplicit := by
  rw [Placeholder.draws, hs, List.countP_cons, Nat.add_comm]
  cases hi : p.isImplicit <;> simp [Token.isImplicit, hi]

theorem fill_of_not_isStarred (as : Arguments) (n : Nat) (tokens : List Token) :
    fill as n (.placeholder p :: tokens) =
      .field (.inTurn as n p) :: fill as (n + p.draws) tokens := by
  rw [fill, Field.inTurn, Placeholder.draws, hs]
  cases p.isImplicit <;> rfl

/-- The pass for precisions finds none to put into it. -/
theorem inlinePrecision_inTurn (as as' : Arguments) (n : Nat) :
    inlinePrecision as' (.inTurn as n p) = (.inTurn as n p, as') := by
  have hspec : (Field.inTurn as n p).spec = p.spec.map .written := by
    unfold Field.inTurn
    split
    · exact Field.spec_afterTurn as n p
    · rfl
  refine inlinePrecision_eq_self hspec (fun hstar => ?_) as'
  simp [Placeholder.isStarred, hstar] at hs

/-- A turn writes the argument where it is drawn. -/
theorem written_inTurn (hp : p.OnlyDraws) {as as' : Arguments} {n : Nat}
    (hn : p.draws ≤ (as.drop n).length) (tail : Arguments) (segments : List Segment) :
    written as' (.field (.inTurn as n p) :: segments) =
      .placeholder (p.placed ((as.drop n).take p.draws ++ tail)) :: written as' segments := by
  rw [Field.inTurn]
  cases hi : p.isImplicit with
  | false =>
    have hplaced : p.placed ((as.drop n).take p.draws ++ tail) = p := by
      simp [Placeholder.placed, hs, hi]
    rw [if_neg (by simp), written_ofPlaceholder hp, hplaced]
  | true =>
    have hdraws : p.draws = 1 := by rw [Placeholder.draws, hs, hi]; rfl
    rw [hdraws, List.length_drop] at hn
    have hlt : n < as.length := by omega
    rw [hdraws, if_pos rfl, List.drop_eq_getElem_cons hlt, List.take_succ_cons, List.take_zero,
      List.singleton_append]
    have ha : as[n]? = some as[n] := List.getElem?_eq_getElem hlt
    generalize as[n] = a at ha ⊢
    obtain ⟨s, used⟩ := a
    cases used with
    | false =>
      have hfield : Field.afterTurn as n p = .ofPlaceholder p := by simp [Field.afterTurn, ha]
      rw [hfield, written_ofPlaceholder hp]
      simp [Placeholder.placed, hs, Arguments.moved?]
    | true =>
      have hfield : Field.afterTurn as n p =
          { Field.ofPlaceholder p with argument := .inlined s } := by
        simp [Field.afterTurn, ha]
      have hcount : ∀ spec, p.spec.map Part.written = some (.written spec) → '$' ∉ spec :=
        fun spec h => hp.noCount spec (by simpa using h)
      rw [hfield, written_field as' rfl hcount]
      simp [Field.placeholder, Field.ofPlaceholder, Part.text, Function.comp_def,
        Placeholder.placed, hs, hi, Arguments.moved?]

end Front

/-- In turn, every argument that moves is put where it is drawn. -/
theorem DrawnInTurn.exists_place {left drawn : List Text} {tokens : List Token}
    (h : DrawnInTurn left drawn tokens) (hd : ∀ p, .placeholder p ∈ tokens → p.OnlyDraws)
    (hlen : draws tokens ≤ drawn.length) {texts : List Text} {n m : Nat}
    (hm : n + tokens.countP Token.isImplicit = m) (hdrawn : texts.drop n = drawn)
    (hleft : Arguments.remaining ((Arguments.afterTurns texts m).take n) = left) :
    ∃ (segments : List Segment) (tail : Arguments),
      mapFields inlinePrecision (.afterTurns texts m) (fill (.afterTurns texts m) n tokens) =
        (segments, (Arguments.afterTurns texts m).take n ++ tail) ∧
      tail.map Argument.source = drawn ∧ ∀ as, written as segments = place tail tokens := by
  induction h generalizing n with
  | @nil left drawn =>
    refine ⟨[], (Arguments.afterTurns texts m).drop n, ?_, ?_, fun _ => rfl⟩
    · rw [List.take_append_drop]
      rfl
    · rw [List.map_drop, Arguments.map_source_afterTurns, hdrawn]
  | @text left drawn s tokens _ ih =>
    rw [List.countP_cons_of_neg (by simp [Token.isImplicit])] at hm
    obtain ⟨segments, tail, hrun, htail, hwritten⟩ :=
      ih (fun p hp => hd p (List.mem_cons_of_mem _ hp)) hlen hm hdrawn hleft
    refine ⟨.text s :: segments, tail, ?_, htail, fun as => ?_⟩
    · simp [mapFields, fill, hrun]
    · rw [written_text, place, hwritten]
  | @front left drawn p tokens hp _ ih =>
    rw [countP_of_not_isStarred hp] at hm
    rw [draws] at hlen
    have hlength : p.draws ≤ ((Arguments.afterTurns texts m).drop n).length := by
      rw [List.length_drop, Arguments.length_afterTurns, ← List.length_drop, hdrawn]
      omega
    obtain ⟨segments, tail, hrun, htail, hwritten⟩ :=
      ih (fun p hp => hd p (List.mem_cons_of_mem _ hp)) (by rw [List.length_drop]; omega)
        (n := n + p.draws) (by omega) (by rw [← List.drop_drop, hdrawn])
        (by rw [Arguments.remaining_take_afterTurns (by omega), hleft, hdrawn])
    rw [List.take_add, List.append_assoc] at hrun
    refine ⟨.field (.inTurn (.afterTurns texts m) n p) :: segments,
      ((Arguments.afterTurns texts m).drop n).take p.draws ++ tail, ?_, ?_, fun as => ?_⟩
    · rw [fill_of_not_isStarred hp]
      exact mapFields_field (inlinePrecision_inTurn hp _ _ n) hrun
    · rw [List.map_append, List.map_take, List.map_drop, Arguments.map_source_afterTurns, hdrawn,
        htail, List.take_append_drop]
    · have hdraws : (((Arguments.afterTurns texts m).drop n).take p.draws).length = p.draws :=
        List.length_take_of_le hlength
      rw [written_inTurn hp (hd p List.mem_cons_self) hlength tail, place,
        List.drop_left' hdraws, hwritten]
  | @behind left drawn p tokens hp hvalues h =>
    rw [← hdrawn] at hvalues
    obtain ⟨hsplit, hfill⟩ := afterTurns_of_not_isInlinable hm hvalues
    have hplace := h.exists_place hd hlen hleft
    rwa [← hdrawn, hsplit, ← hfill, hdrawn] at hplace

/-! ## Only in turn -/

theorem argument_inlinePrecision (as : Arguments) (f : Field) :
    (inlinePrecision as f).1.argument = f.argument := by
  unfold inlinePrecision
  split
  · split
    · unfold Field.takeCount
      split <;> rfl
    · rfl
  · rfl

/-- What a turn put into a placeholder is its value, whatever becomes of the spec. -/
theorem value_of_turn {as s : Arguments} {n : Nat} {a : Text} (ha : as[n]? = some ⟨a, true⟩)
    (hname : IsIdentifier a) (p : Placeholder) (as' : Arguments) (args : List Text) (next : Nat) :
    (resolveField as' (inlinePrecision s (.afterTurn as n p)).1).placeholder.value args next =
      some a := by
  have harg : (inlinePrecision s (.afterTurn as n p)).1.argument = .inlined a := by
    rw [argument_inlinePrecision]
    simp [Field.afterTurn, ha]
  refine hname.value_eq ?_ args next
  rw [argument_resolveField, harg, Part.text]
  simp [Field.index?, harg, Part.written?]

/-- If the value that a turn has taken is kept, it is drawn in that turn. -/
theorem eq_of_turn_value {texts : List Text} (hnodup : texts.Nodup)
    (hnames : ∀ a ∈ texts, isInlinable a = true → IsIdentifier a) {n m place : Nat} (hm : n < m)
    (hn : n < texts.length) (hin : isInlinable texts[n] = true) {p : Placeholder}
    (hi : p.isImplicit = true) {s as' : Arguments} {args : List Text} {next : Nat}
    (h : Placeholder.value args next
      (resolveField as' (inlinePrecision s (.afterTurn (.afterTurns texts m) n p)).1).placeholder =
        p.value texts place) : n = place := by
  have htaken : (Arguments.afterTurns texts m)[n]? = some ⟨texts[n], true⟩ := by
    rw [Arguments.getElem?_afterTurns, List.getElem?_eq_getElem hn]
    simp [hin, hm]
  rw [value_of_turn htaken (hnames _ (List.getElem_mem hn) hin), Placeholder.value, if_pos hi,
    ← List.getElem?_eq_getElem hn] at h
  exact (List.getElem?_inj hn hnodup).1 h

/-- If the values are kept, none that is drawn behind its turn was taken. -/
theorem not_isInlinable_of_drawings {tokens : List Token} {texts : List Text}
    (hnodup : texts.Nodup) (hnames : ∀ a ∈ texts, isInlinable a = true → IsIdentifier a)
    {n m place : Nat} (hm : n + tokens.countP Token.isImplicit = m)
    (hlen : texts.length = place + draws tokens)
    (hbehind : n < place ∨
      n = place ∧ ∃ p rest, tokens = .placeholder p :: rest ∧ p.isStarred = true)
    {s as' : Arguments} {segments : List Segment}
    (hrun : mapFields inlinePrecision s (fill (.afterTurns texts m) n tokens) = (segments, as'))
    {as : Arguments} {args : List Text} {next : Nat}
    (heq : (drawings args next (written as segments)).map Drawing.value =
      (drawings texts place tokens).map Drawing.value) :
    ∀ a ∈ (texts.drop n).take (tokens.countP Token.isImplicit), isInlinable a = false := by
  induction tokens generalizing n place s segments next with
  | nil => simp
  | cons token tokens ih =>
    cases token with
    | text t =>
      rw [List.countP_cons_of_neg (by simp [Token.isImplicit])] at hm ⊢
      rw [fill, mapFields] at hrun
      obtain ⟨rfl, hrest⟩ := Prod.mk.inj hrun
      have hbehind' : n < place := hbehind.resolve_right (by simp)
      exact ih hm hlen (.inl hbehind') (Prod.ext rfl hrest) heq
    | placeholder p =>
      have hplace : n < place + p.isStarred.toNat := by
        rcases hbehind with h | ⟨rfl, q, rest, h, hq⟩
        · omega
        · obtain ⟨rfl, -⟩ : p = q ∧ tokens = rest := by simpa using h
          rw [hq]
          exact Nat.lt_succ_self n
      rw [draws] at hlen
      cases hi : p.isImplicit with
      | false =>
        have hdraws : p.draws = p.isStarred.toNat := by rw [Placeholder.draws, hi]; rfl
        rw [List.countP_cons_of_neg (by simp [Token.isImplicit, hi])] at hm ⊢
        rw [fill, if_neg (by simp [hi])] at hrun
        obtain ⟨rest, rfl, hrest⟩ := exists_of_mapFields_field hrun
        obtain ⟨-, htail⟩ := List.cons.inj heq
        exact ih hm (by omega) (.inl (by omega)) hrest htail
      | true =>
        have hdraws : p.draws = p.isStarred.toNat + 1 := by rw [Placeholder.draws, hi]; rfl
        rw [List.countP_cons_of_pos (show (Token.placeholder p).isImplicit = true from hi)] at hm ⊢
        rw [fill, if_pos hi] at hrun
        obtain ⟨rest, rfl, hrest⟩ := exists_of_mapFields_field hrun
        obtain ⟨hhead, htail⟩ := List.cons.inj heq
        have hn : n < texts.length := by omega
        have hb : isInlinable texts[n] = false := by
          by_contra hin
          have hturn := eq_of_turn_value hnodup hnames (by omega) hn (by simpa using hin) hi hhead
          omega
        rw [List.drop_eq_getElem_cons hn, List.take_succ_cons]
        exact List.forall_mem_cons.2
          ⟨hb, ih (by omega) (by omega) (.inl (by omega)) hrest htail⟩

/-- If the template denotes what it denoted, everything that moved was taken in turn. -/
theorem drawnInTurn_of_drawings {tokens : List Token}
    (hd : ∀ p, .placeholder p ∈ tokens → p.OnlyDraws) {texts : List Text}
    (hnodup : texts.Nodup) (hnames : ∀ a ∈ texts, isInlinable a = true → IsIdentifier a)
    {n m : Nat} (hm : n + tokens.countP Token.isImplicit = m)
    (hlen : texts.length = n + draws tokens) {segments : List Segment} {as' : Arguments}
    (hrun : mapFields inlinePrecision (.afterTurns texts m) (fill (.afterTurns texts m) n tokens) =
      (segments, as'))
    {as : Arguments} {args : List Text} {next : Nat}
    (heq : drawings args next (written as segments) = drawings texts n tokens) :
    DrawnInTurn (Arguments.remaining ((Arguments.afterTurns texts m).take n)) (texts.drop n)
      tokens := by
  induction tokens generalizing n segments next with
  | nil => exact .nil
  | cons token tokens ih =>
    have hd' := fun p hp => hd p (List.mem_cons_of_mem _ hp)
    cases token with
    | text s =>
      rw [List.countP_cons_of_neg (by simp [Token.isImplicit])] at hm
      rw [fill, mapFields] at hrun
      obtain ⟨rfl, hrest⟩ := Prod.mk.inj hrun
      exact .text (ih hd' hm hlen (Prod.ext rfl hrest) heq)
    | placeholder p =>
      cases hp : p.isStarred with
      | false =>
        rw [countP_of_not_isStarred hp] at hm
        rw [draws] at hlen
        rw [fill_of_not_isStarred hp] at hrun
        obtain ⟨rest, rfl, hrest⟩ := exists_of_mapFields_field hrun
        rw [inlinePrecision_inTurn hp] at hrest
        have hturn := ih hd' (by omega) (by omega) hrest (List.cons.inj heq).2
        rw [Arguments.remaining_take_afterTurns (by omega), ← List.drop_drop] at hturn
        exact .front hp hturn
      | true =>
        have hvalues := not_isInlinable_of_drawings hnodup hnames hm hlen
          (.inr ⟨rfl, p, tokens, rfl, hp⟩) hrun (congrArg (List.map Drawing.value) heq)
        obtain ⟨hsplit, hfill⟩ := afterTurns_of_not_isInlinable hm hvalues
        have hsources : ((Arguments.afterTurns texts m).take n).map Argument.source ++
            texts.drop n = texts := by
          rw [List.map_take, Arguments.map_source_afterTurns, List.take_append_drop]
        have hlength : ((Arguments.afterTurns texts m).take n).length = n :=
          List.length_take_of_le (by rw [Arguments.length_afterTurns]; omega)
        rw [hfill] at hrun
        rw [← hsplit] at hrun
        have hturn := precisionsInTurn_of_drawings hd (by rw [List.length_drop]; omega)
          (by rwa [hsources]) (by rwa [hsources]) hrun (by rw [hsources, hlength, heq])
        exact .behind hp hvalues hturn

/-! ## The rewritten call -/

/-- If a template only draws arguments and names them, and draws all that there are, then the
rewritten template denotes what the old one denoted if every argument that moved was taken in
turn, and for arguments with different texts only then. -/
theorem drawings_inlined {t u : Text} {call : Call} (h : inlined? t = some u)
    (hc : Call.find? t = some call)
    (hnames : ∀ a ∈ call.arguments, isInlinable a = true → IsIdentifier a)
    (hd : ∀ p, .placeholder p ∈ call.tokens → p.OnlyDraws)
    (hlen : call.arguments.length = draws call.tokens) :
    ∃ d : Draft, call.rewritten? = some d ∧
      u = call.before ++ call.written d.template d.arguments.remaining ∧
      (readTokens d.template).2 = [] ∧
      (DrawnInTurn [] call.arguments call.tokens →
        drawings d.arguments.remaining 0 (readTokens d.template).1 =
          drawings call.arguments 0 call.tokens) ∧
      (call.arguments.Nodup →
        drawings d.arguments.remaining 0 (readTokens d.template).1 =
          drawings call.arguments 0 call.tokens →
        DrawnInTurn [] call.arguments call.tokens) := by
  obtain ⟨call', d, hc', hrewritten, rfl⟩ := inlined?_eq_some_iff.1 h
  obtain rfl : call = call' := by simpa [hc] using hc'
  obtain ⟨m, hm, rfl, traces, -, -, htokens⟩ := Call.exists_of_rewritten? hrewritten
  have hused : ∀ s, ⟨s, true⟩ ∈ m.arguments → IsIdentifier s := by
    intro s hs
    obtain ⟨i, hi⟩ := List.mem_iff_getElem?.1 hs
    exact hnames s (List.mem_of_getElem? (traces.getElem?_of_isUsed hi)) (traces.inlinable i s hi)
  have hread := traces.readTokens_template (Call.spells_tokens htokens)
  have hwritten : m.resolve.tokens = written m.arguments m.segments := by
    rw [Draft.tokens, Draft.segments_resolve, List.map_map]
    rfl
  rw [Call.draft, moveArguments_eq_run_fill call.arguments (fun p hp => (hd p hp).not_renames)
    fun p hp => (hd p hp).hasNoIndex.argument] at hm
  have hrun : mapFields inlinePrecision
      (.afterTurns call.arguments (call.tokens.countP Token.isImplicit))
      (fill (.afterTurns call.arguments (call.tokens.countP Token.isImplicit)) 0 call.tokens) =
        (m.segments, m.arguments) := by rw [hm]; rfl
  refine ⟨m.resolve, hrewritten, call.assemble_eq _, by rw [hread], fun hturn => ?_,
    fun hnodup heq => ?_⟩
  · obtain ⟨segments, tail, hplace, htail, hplaced⟩ := hturn.exists_place hd
      (Nat.le_of_eq hlen.symm) (Nat.zero_add _) (List.drop_zero (l := call.arguments)) rfl
    obtain ⟨hsegments, harguments⟩ := Prod.mk.inj (hrun.symm.trans hplace)
    rw [List.take_zero, List.nil_append] at harguments
    rw [hread, hwritten, hsegments, hplaced, Draft.arguments_resolve, harguments,
      drawings_place (harguments ▸ hused) hd, htail]
  · rw [hread, hwritten] at heq
    exact drawnInTurn_of_drawings hd hnodup hnames (Nat.zero_add _) (by omega) hrun heq

theorem drawings_inlined_precision :
    ∃ (call : Call) (d : Draft), Call.find? "println!(\"{} {x:.*}\", a, p)".toList = some call ∧
      call.rewritten? = some d ∧
      drawings d.arguments.remaining 0 (readTokens d.template).1 =
        drawings call.arguments 0 call.tokens := by
  let call : Call :=
    ⟨[], "println".toList, '"', "{} {x:.*}".toList, some " a, p".toList, [], false⟩
  have hc : Call.find? "println!(\"{} {x:.*}\", a, p)".toList = some call := by decide +kernel
  have hu : inlined? "println!(\"{} {x:.*}\", a, p)".toList =
      some "println!(\"{a} {x:.p$}\")".toList := by decide +kernel
  have harguments : call.arguments = [['a'], ['p']] := by decide +kernel
  have htokens : call.tokens =
      [.placeholder ⟨[], none⟩, .text [' '], .placeholder ⟨['x'], some ['.', '*']⟩] := by
    decide +kernel
  have hnames : ∀ a ∈ call.arguments, isInlinable a = true → IsIdentifier a := by
    rw [harguments]
    rintro a ha -
    rcases (by simpa using ha : a = ['a'] ∨ a = ['p']) with rfl | rfl <;>
      exact isIdentifier_singleton (by decide) (by decide)
  have hd : ∀ p, .placeholder p ∈ call.tokens → p.OnlyDraws := by
    intro p hp
    rw [htokens] at hp
    rcases (by simpa using hp : p = ⟨[], none⟩ ∨ p = ⟨['x'], some ['.', '*']⟩) with rfl | rfl
    · exact ⟨.inl rfl, by decide, by simp⟩
    · exact ⟨.inr (isIdentifier_singleton (by decide) (by decide)), by decide,
        fun spec hs => by cases hs; decide⟩
  have hlen : call.arguments.length = draws call.tokens := by decide +kernel
  have hturn : DrawnInTurn [] call.arguments call.tokens := by
    rw [harguments, htokens]
    refine .front rfl (.text (.behind (by decide) (by decide) ?_))
    exact .take ⟨rfl, by decide⟩ (by decide) (by decide) (by decide) .nil
  obtain ⟨d, hd, -, -, hkept, -⟩ := drawings_inlined hu hc hnames hd hlen
  exact ⟨call, d, hc, hd, hkept hturn⟩

/-- Behind its precision a value is drawn later than its turn comes: the two change places. -/
theorem drawings_inlined_swapped :
    ∃ (call : Call) (d : Draft), Call.find? "println!(\"{:.*}\", p, x)".toList = some call ∧
      call.rewritten? = some d ∧
      inlined? "println!(\"{:.*}\", p, x)".toList = some "println!(\"{p:.x$}\")".toList ∧
      (∀ a ∈ call.arguments, isInlinable a = true → IsIdentifier a) ∧
      (∀ p, .placeholder p ∈ call.tokens → p.OnlyDraws) ∧
      call.arguments.length = draws call.tokens ∧
      drawings d.arguments.remaining 0 (readTokens d.template).1 ≠
        drawings call.arguments 0 call.tokens := by
  let call : Call := ⟨[], "println".toList, '"', "{:.*}".toList, some " p, x".toList, [], false⟩
  let d : Draft := ⟨[.field ⟨.inlined ['p'], some (.inlined ['.', 'x', '$'])⟩],
    [⟨['p'], true⟩, ⟨['x'], true⟩]⟩
  have harguments : call.arguments = [['p'], ['x']] := by decide +kernel
  have htokens : call.tokens = [.placeholder ⟨[], some ['.', '*']⟩] := by decide +kernel
  refine ⟨call, d, by decide +kernel, by decide +kernel, by decide +kernel, ?_, ?_,
    by decide +kernel, by decide +kernel⟩
  · rw [harguments]
    rintro a ha -
    rcases (by simpa using ha : a = ['p'] ∨ a = ['x']) with rfl | rfl <;>
      exact isIdentifier_singleton (by decide) (by decide)
  · intro p hp
    rw [htokens] at hp
    obtain rfl : p = ⟨[], some ['.', '*']⟩ := by simpa using hp
    exact ⟨.inl rfl, by decide, fun spec hs => by cases hs; decide⟩

end TextTransforms
