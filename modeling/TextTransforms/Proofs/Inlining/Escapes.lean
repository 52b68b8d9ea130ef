import TextTransforms.Proofs.Call.Escapes
import TextTransforms.Proofs.Inlining.Rewritten

/-!
# Escapes of the template

Moving arguments does not look at escapes. They stay as they are unless what is rewritten is
part of one: a placeholder in the group of `\u`, or the first digit of a count that a
backslash stands before (`LeavesEscapes`). Everything else that is replaced holds no
backslash, and what is written for it ends in front of a character that no escape needs. So
escapes may be added, but none is taken away (`Carries`, `carries_tokens`).
-/

namespace TextTransforms

/-! ## Escapes carried over -/

/-- How the escapes `old` of a stretch stand to the escapes `new` of the one in its place: if
`kept`, they are among them, in order; where the arguments are `bare` of backslashes they are
as many, and the same only if `kept`. -/
structure Carries (bare kept : Prop) (old new : List Text) : Prop where
  sublist : kept → old.Sublist new
  length_eq : bare → old.length = new.length
  kept_of_eq : bare → old = new → kept

namespace Carries

variable {bare kept kept' : Prop} {old new old' new' : List Text}

theorem refl (es : List Text) : Carries bare True es es where
  sublist _ := List.Sublist.refl es
  length_eq _ := rfl
  kept_of_eq _ _ := trivial

theorem of_nil (h : bare → new = []) : Carries bare True [] new where
  sublist _ := List.nil_sublist new
  length_eq hb := by rw [h hb]
  kept_of_eq _ _ := trivial

theorem congr (h : Carries bare kept old new) (hk : kept ↔ kept') : Carries bare kept' old new where
  sublist hkept := h.sublist (hk.2 hkept)
  length_eq := h.length_eq
  kept_of_eq hb e := hk.1 (h.kept_of_eq hb e)

theorem append (h : Carries bare kept old new) (h' : Carries bare kept' old' new') :
    Carries bare (kept ∧ kept') (old ++ old') (new ++ new') where
  sublist hk := (h.sublist hk.1).append (h'.sublist hk.2)
  length_eq hb := by rw [List.length_append, List.length_append, h.length_eq hb, h'.length_eq hb]
  kept_of_eq hb e := by
    obtain ⟨e, e'⟩ := List.append_inj e (h.length_eq hb)
    exact ⟨h.kept_of_eq hb e, h'.kept_of_eq hb e'⟩

/-- A stretch without backslashes in place of another, behind an escape that may go on. -/
theorem of_notMem {w s s' : Text} {g : Char} (hw : IsPending w) (hs : '\\' ∉ s) (hne : s ≠ [])
    (hne' : s' ≠ []) (hb : '{' ∉ s ++ [g]) (hb' : '{' ∉ s' ++ [g]) (hg : g ≠ '\\')
    (hbare : bare → '\\' ∉ s') :
    Carries bare (w = ['\\'] → s'.head? = s.head?) (finished (w ++ (s ++ [g])))
      (finished (w ++ (s' ++ [g]))) := by
  have plain {t : Text} (ht : '\\' ∉ t) : finished (t ++ [g]) = [] :=
    finished_of_notMem (by simp [ht, hg.symm])
  rcases hw with rfl | rfl | rfl
  · rw [List.nil_append, List.nil_append, plain hs]
    exact (of_nil fun hbare' => plain (hbare hbare')).congr (by simp)
  · obtain ⟨c, s, rfl⟩ := List.exists_cons_of_ne_nil hne
    obtain ⟨d, s', rfl⟩ := List.exists_cons_of_ne_nil hne'
    have pair (x : Char) (t : Text) (ht : '{' ∉ (x :: t) ++ [g]) :
        finished (['\\'] ++ (x :: t ++ [g])) = ['\\', x] :: finished (t ++ [g]) :=
      finished_pair (by simp) fun hm => ht (List.mem_cons_of_mem x hm)
    rw [pair c s hb, pair d s' hb', plain fun hm => hs (List.mem_cons_of_mem c hm)]
    refine ⟨fun hk => ?_, fun hbare' => ?_, fun _ e _ => ?_⟩
    · obtain rfl : d = c := by simpa using hk rfl
      exact List.Sublist.cons_cons _ (List.nil_sublist _)
    · rw [plain fun hm => hbare hbare' (List.mem_cons_of_mem d hm)]
      rfl
    · obtain rfl : c = d := by simpa using (List.cons.inj e).1
      rfl
  · have code (t : Text) (ht : '{' ∉ t ++ [g]) :
        finished (['\\', 'u'] ++ (t ++ [g])) = ['\\', 'u'] :: finished (t ++ [g]) :=
      finished_pair (by simp) ht
    rw [code s hb, code s' hb', plain hs]
    have : Carries bare (True ∧ True) ([['\\', 'u']] ++ [])
        ([['\\', 'u']] ++ finished (s' ++ [g])) :=
      (refl _).append (of_nil fun hbare' => plain (hbare hbare'))
    exact this.congr (by simp)

end Carries

/-! ## Specs -/

/-- Where a backslash takes the first digit of a count, what is written for the count starts
with the same digit. The spec stands behind the text `before`. -/
def KeepsCounts (as : Arguments) (before spec : Text) : Prop :=
  ∀ a digits b, spec = a ++ (digits ++ '$' :: b) → SpecPiece.IsDigits digits →
    Numeral.value digits < Numeral.indexLimit → unfinished (before ++ a) = ['\\'] →
    (SpecPiece.countText as (Numeral.value digits)).head? = digits.head?

section Spec

variable {as : Arguments}

private theorem backslash_mem_of_unfinished {w a : Text} (h : unfinished (w ++ a) = ['\\'])
    (ha : a ≠ []) : '\\' ∈ a := by
  obtain ⟨t, ht⟩ := unfinished_suffix (w ++ a)
  rw [h] at ht
  have hlast := congrArg List.getLast? ht
  rw [List.getLast?_concat, List.getLast?_append_of_ne_nil _ ha] at hlast
  exact List.mem_of_getLast? hlast.symm

private theorem head_isDigit {digits t u : Text} {c : Char} (h : SpecPiece.IsDigits digits)
    (e : digits ++ t = c :: u) : c.isDigit = true := by
  obtain ⟨d, digits, rfl⟩ := List.exists_cons_of_ne_nil h.1
  obtain rfl : d = c := (List.cons.inj e).1
  exact h.2 d List.mem_cons_self

/-- A count behind an escaping backslash starts in no piece but itself. -/
private theorem count_of_leads {w a c s rest digits b : Text} {piece : SpecPiece}
    (hs : SpecPiece.Leads s rest piece) (hsc : s = a ++ c) (hne : c ≠ [])
    (hr : digits ++ '$' :: b = c ++ rest) (hd : SpecPiece.IsDigits digits)
    (hv : Numeral.value digits < Numeral.indexLimit) (hu : unfinished (w ++ a) = ['\\']) :
    a = [] ∧ piece = .count (Numeral.value digits) ∧ s.head? = digits.head? := by
  obtain ⟨x, c, rfl⟩ := List.exists_cons_of_ne_nil hne
  have hx : x.isDigit = true := head_isDigit hd hr
  have hxw : Text.isWordChar x = true := Text.isWordChar_of_isDigit hx
  have hxs : x ∈ s := by simp [hsc]
  -- A piece with a digit holds no backslash.
  have hslash : '\\' ∉ s := by
    intro hm
    cases hs with
    | count hd' =>
      rcases List.mem_append.1 hm with hm | hm
      · exact absurd (hd'.2 _ hm) (by decide)
      · simp at hm
    | digits hd' => exact absurd (hd'.2 _ hm) (by decide)
    | name hc _ ht =>
      rcases List.mem_cons.1 hm with e | hm
      · exact absurd (e ▸ hc) (by decide)
      · exact absurd (ht _ hm) (by decide)
    | other hc ht =>
      rcases List.mem_cons.1 hxs with e | hm
      · simp [← e, hxw] at hc
      · simp [ht _ hm] at hxw
  have ha : a = [] := by
    by_contra ha
    exact hslash (by rw [hsc]; exact List.mem_append_left _ (backslash_mem_of_unfinished hu ha))
  subst ha
  refine ⟨rfl, ?_⟩
  rw [List.nil_append] at hsc
  rw [← hsc] at hr
  cases hs with
  | count hd' hv' =>
    rw [List.append_assoc, List.singleton_append] at hr
    obtain ⟨rfl, -⟩ := Text.run_cons_inj hr hd.2 hd'.2 (by decide) (by decide)
    exact ⟨rfl, List.head?_append_of_ne_nil _ hd.1⟩
  | digits hd' hstop hlimit =>
    obtain ⟨rfl, rfl⟩ := Text.run_append_inj hr hd.2 hd'.2 (Text.stops_cons b (by decide)) hstop
    exact absurd (hlimit rfl) (by omega)
  | name _ hdigit =>
    rw [(List.cons.inj hsc).1] at hdigit
    simp [hx] at hdigit
  | other hc =>
    rw [(List.cons.inj hsc).1] at hc
    simp [hxw] at hc

/-- The counts of a spec are its first piece, if that is a count, and those of the rest. -/
private theorem keepsCounts_leads {w s rest : Text} {piece : SpecPiece} (hw : IsPending w)
    (hs : SpecPiece.Leads s rest piece) :
    KeepsCounts as w (s ++ rest) ↔
      (∀ k, piece = .count k → w = ['\\'] → (SpecPiece.countText as k).head? = s.head?) ∧
        KeepsCounts as (unfinished (w ++ s)) rest := by
  constructor
  · intro h
    refine ⟨fun k hk hwb => ?_, fun a digits b e hd hv hu => ?_⟩
    · cases hs with
      | @count digits rest hd hv =>
        obtain rfl : Numeral.value digits = k := by simpa using hk
        rw [h [] digits rest (by simp) hd hv (by rw [List.append_nil, hw.unfinished_eq, hwb]),
          List.head?_append_of_ne_nil _ hd.1]
      | digits | name | other => exact nomatch hk
    · refine h (s ++ a) digits b (by rw [e, List.append_assoc]) hd hv ?_
      rw [← List.append_assoc, unfinished_append, hu]
  · rintro ⟨hfirst, hrest⟩ a digits b e hd hv hu
    rcases List.append_eq_append_iff.1 e with ⟨a', rfl, hr⟩ | ⟨c, hsc, hr⟩
    · refine hrest a' digits b hr hd hv ?_
      rw [← unfinished_append, List.append_assoc, hu]
    · by_cases hne : c = []
      · subst hne
        rw [List.append_nil] at hsc
        subst hsc
        refine hrest [] digits b hr.symm hd hv ?_
        rw [← unfinished_append, List.append_nil, hu]
      · obtain ⟨rfl, hpiece, hhead⟩ := count_of_leads hs hsc hne hr hd hv hu
        rw [List.append_nil, hw.unfinished_eq] at hu
        rw [hfirst _ hpiece hu, hhead]

section Inlinable

variable (has : ∀ i s, as.IsUsed i s → isInlinable s = true)
include has

private theorem countText_ne_nil (k : Nat) : SpecPiece.countText as k ≠ [] := by
  unfold SpecPiece.countText
  cases hr : as.reference? k with
  | none => exact Numeral.ofNat_ne_nil k
  | some r =>
    refine Arguments.reference?_ne_nil (fun i s hu => ?_) hr
    obtain ⟨c, t, rfl, -⟩ := exists_cons_of_isInlinable (has i s hu)
    simp

private theorem brace_notMem_countText (k : Nat) : '{' ∉ SpecPiece.countText as k :=
  fun hm => Arguments.not_supplies has (by decide) (SpecPiece.supplies_of_mem_countText hm)

/-- What is written for a piece leaves the same end, and changes an escape only where it is
a count with another first character behind a backslash. -/
private theorem carries_piece {w s rest : Text} {piece : SpecPiece} (hw : IsPending w)
    (hs : SpecPiece.Leads s rest piece) (hb : '{' ∉ s) :
    Carries (¬ as.Supplies '\\')
        (∀ k, piece = .count k → w = ['\\'] → (SpecPiece.countText as k).head? = s.head?)
        (finished (w ++ s)) (finished (w ++ piece.resolve as)) ∧
      unfinished (w ++ piece.resolve as) = unfinished (w ++ s) := by
  cases hs with
  | @count digits _ hd hv =>
    have hnew := brace_notMem_countText has (Numeral.value digits)
    have hold : '{' ∉ digits := fun hm => hb (List.mem_append_left _ hm)
    constructor
    · refine (Carries.of_notMem hw (fun hm => absurd (hd.2 _ hm) (by decide)) hd.1
        (countText_ne_nil has _) (by simpa using hold) (by simpa using hnew) (by decide)
        fun hbare hm => hbare (SpecPiece.supplies_of_mem_countText hm)).congr ?_
      simp [List.head?_append_of_ne_nil _ hd.1]
    · have hend {t : Text} (ht : '{' ∉ t) : unfinished (w ++ (t ++ ['$'])) = [] := by
        rw [← List.append_assoc]
        exact unfinished_guard (by simp [hw.brace_notMem, ht]) (by decide)
      exact (hend hnew).trans (hend hold).symm
  | digits | name | other => exact ⟨(Carries.refl _).congr (by simp), rfl⟩

/-- The escapes of a spec and of what is written for it, behind an end that may go on. -/
theorem carries_resolveSpec {spec : Text} (hb : '{' ∉ spec) {w : Text} (hw : IsPending w) :
    Carries (¬ as.Supplies '\\') (KeepsCounts as w spec) (finished (w ++ (spec ++ ['}'])))
      (finished (w ++ (resolveSpec as spec ++ ['}']))) := by
  induction spec using SpecPiece.pieces_induction generalizing w with
  | nil =>
    rw [resolveSpec_nil]
    exact (Carries.refl _).congr (by simp [KeepsCounts])
  | cons s rest piece hs ih =>
    rw [List.mem_append, not_or] at hb
    obtain ⟨hfirst, hend⟩ := carries_piece has hw hs hb.1
    have hpending : IsPending (unfinished (w ++ s)) :=
      isPending_unfinished (by simp [hw.brace_notMem, hb.1])
    have hsplit (u v : Text) : w ++ (u ++ v ++ ['}']) = (w ++ u) ++ (v ++ ['}']) := by simp
    rw [resolveSpec_leads as hs, hsplit, hsplit, finished_append, finished_append (w ++ _), hend]
    exact (hfirst.append (ih hb.2 hpending)).congr (keepsCounts_leads hw hs).symm

theorem SpecBecomes.carries {spec spec' : Text} (h : SpecBecomes as (some spec) (some spec'))
    (hb : '{' ∉ spec) :
    Carries (¬ as.Supplies '\\') (KeepsCounts as [] spec) (finished (spec ++ ['}']))
      (finished (spec' ++ ['}'])) := by
  have hnew := h.mem (c := '\\')
  cases h with
  | resolved => exact carries_resolveSpec has hb (.inl rfl)
  | precision hu =>
    have hold : finished (['.', '*'] ++ ['}']) = [] := finished_of_notMem (by decide)
    rw [hold]
    refine (Carries.of_nil fun hbare => finished_of_notMem fun hm => ?_).congr ?_
    · rcases List.mem_append.1 hm with hm | hm
      · exact (hnew hm).elim (by decide) hbare
      · simp at hm
    · refine ⟨fun _ a digits b e _ _ _ => ?_, fun _ => trivial⟩
      have hm : '$' ∈ ['.', '*'] := by simp [e]
      exact absurd hm (by decide)

end Inlinable

end Spec

/-! ## Placeholders -/

/-- What `p` behind `front` becomes changes no escape: a placeholder that belongs to the group
of an escape stays as it is, and no other has a count that is part of an escape and changes. -/
structure Placeholder.LeavesEscapes (as : Arguments) (front : Text) (p p' : Placeholder) :
    Prop where
  group : AwaitsGroup front → p' = p
  counts : ¬ AwaitsGroup front → ∀ spec, p.spec = some spec → KeepsCounts as [] spec

namespace Placeholder

variable {p p' : Placeholder}

private theorem IsPlaceable.braces_notMem (hp : p.IsPlaceable) :
    '{' ∉ p.content ∧ '}' ∉ p.content :=
  ⟨fun hm => absurd (hp.noBrace _ hm) (by decide), fun hm => absurd (hp.noBrace _ hm) (by decide)⟩

private theorem IsPlaceable.brace_notMem_argument (hp : p.IsPlaceable) : '{' ∉ p.argument := by
  obtain ⟨argument, spec⟩ := p
  cases spec with
  | none => exact hp.braces_notMem.1
  | some spec => exact fun hm => hp.braces_notMem.1 (List.mem_append_left _ hm)

private theorem IsPlaceable.brace_notMem_spec (hp : p.IsPlaceable) {spec : Text}
    (h : p.spec = some spec) : '{' ∉ spec := by
  obtain ⟨argument, spec'⟩ := p
  obtain rfl : spec' = some spec := h
  exact fun hm => hp.braces_notMem.1 (List.mem_append_right _ (List.mem_cons_of_mem _ hm))

private theorem IsPlaceable.eq_of_source (hp : p.IsPlaceable) (hp' : p'.IsPlaceable)
    (h : p.source = p'.source) : p' = p := by
  have hcontent : p.content = p'.content := List.append_cancel_right (List.cons.inj h).2
  rw [← ofContent_content hp.noColon, hcontent, ofContent_content hp'.noColon]

/-- Nothing goes on behind a placeholder. -/
theorem IsPlaceable.unfinished_source (hp : p.IsPlaceable) (front : Text) :
    unfinished (unfinished front ++ p.source) = [] := by
  obtain ⟨hopen, hclose⟩ := hp.braces_notMem
  by_cases hg : AwaitsGroup front
  · exact congrArg Prod.snd (splitEscapes_group hg hclose)
  · have hsource : unfinished front ++ p.source =
        (unfinished front ++ ['{']) ++ (p.content ++ ['}']) := by simp [source]
    rw [hsource, unfinished_append_of_nil (unfinished_brace hg)]
    exact unfinished_guard hopen (by decide)

variable {as : Arguments} (has : ∀ i s, as.IsUsed i s → isInlinable s = true)
  (hp : p.IsPlaceable) (hp' : p'.IsPlaceable)
include has hp hp'

/-- The part of a placeholder behind its opening brace. -/
private theorem Becomes.carries_behindBrace (h : p.Becomes as p') :
    Carries (¬ as.Supplies '\\') (∀ spec, p.spec = some spec → KeepsCounts as [] spec)
      (finished (p.argument ++ p.behindArgument))
      (finished (p'.argument ++ p'.behindArgument)) := by
  have hargument {g : Char} (hg : g ≠ '\\') :
      Carries (¬ as.Supplies '\\') True (finished (p.argument ++ [g]))
        (finished (p'.argument ++ [g])) := by
    rcases h.argument_eq_or_notMem (c := '\\') (by decide) (by decide) (by decide) with e | hold
    · rw [e]
      exact .refl _
    · rw [finished_of_notMem (t := p.argument ++ [g]) (by simp [hold, hg.symm])]
      refine .of_nil fun hbare => finished_of_notMem ?_
      have hnew : '\\' ∉ p'.argument := fun hm => (h.mem_argument hm).elim hold hbare
      simp [hnew, hg.symm]
  have hbehind {q : Placeholder} (hq : q.IsPlaceable) (t : Text) :
      finished (q.argument ++ ':' :: t) = finished (q.argument ++ [':']) ++ finished t := by
    rw [← finished_append_of_nil (unfinished_guard hq.brace_notMem_argument (by decide)),
      List.append_assoc, List.singleton_append]
  have hspec := h.spec
  cases hs : p.spec with
  | none =>
    rw [hs] at hspec
    generalize hs' : p'.spec = spec' at hspec
    cases hspec
    simp only [behindArgument, hs, hs']
    exact (hargument (by decide)).congr (by simp)
  | some spec =>
    rw [hs] at hspec
    cases hs' : p'.spec with
    | none =>
      rw [hs'] at hspec
      cases hspec
    | some spec' =>
      rw [hs'] at hspec
      simp only [behindArgument, hs, hs']
      rw [hbehind hp, hbehind hp']
      refine ((hargument (by decide)).append (hspec.carries has (hp.brace_notMem_spec hs))).congr ?_
      simp

theorem Becomes.carries (h : p.Becomes as p') (front : Text) :
    Carries (¬ as.Supplies '\\') (p.LeavesEscapes as front p')
      (finished (unfinished front ++ p.source)) (finished (unfinished front ++ p'.source)) := by
  by_cases hg : AwaitsGroup front
  · have hgroup {q : Placeholder} (hq : q.IsPlaceable) :
        finished (unfinished front ++ q.source) = [unfinished front ++ q.source] :=
      congrArg Prod.fst (splitEscapes_group hg hq.braces_notMem.2)
    rw [hgroup hp, hgroup hp']
    refine ⟨fun hk => ?_, fun _ => rfl, fun _ e => ⟨fun _ => ?_, fun hn => absurd hg hn⟩⟩
    · rw [hk.group hg]
    · exact hp.eq_of_source hp' (List.append_cancel_left (List.cons.inj e).1)
  · have hsplit (q : Placeholder) : finished (unfinished front ++ q.source) =
        finished (unfinished front ++ ['{']) ++ finished (q.argument ++ q.behindArgument) := by
      rw [← finished_append_of_nil (unfinished_brace hg), q.source_eq, List.append_assoc,
        List.singleton_append]
    rw [hsplit, hsplit]
    refine ((Carries.refl _).append (h.carries_behindBrace has hp hp')).congr ?_
    constructor
    · exact fun hk => ⟨fun h => absurd h hg, fun _ => hk.2⟩
    · exact fun hk => ⟨trivial, hk.counts hg⟩

end Placeholder

/-! ## Templates -/

/-- What the placeholders of a template become changes no escape of the literal that starts
with `front` and goes on with the template. -/
def LeavesEscapes (as : Arguments) (front : Text) (tokens tokens' : List Token) : Prop :=
  ∀ i (p p' : Placeholder), tokens[i]? = some (Token.placeholder p) →
    tokens'[i]? = some (Token.placeholder p') →
    p.LeavesEscapes as (front ++ (tokens.take i).flatMap Token.source) p'

section Tokens

variable {as : Arguments} {front : Text} {token token' : Token} {tokens tokens' : List Token}

private theorem leavesEscapes_cons :
    LeavesEscapes as front (token :: tokens) (token' :: tokens') ↔
      (∀ p p', token = .placeholder p → token' = .placeholder p' →
        p.LeavesEscapes as front p') ∧
      LeavesEscapes as (front ++ token.source) tokens tokens' := by
  constructor
  · intro h
    refine ⟨fun p p' hp hp' => ?_, fun i p p' hp hp' => ?_⟩
    · simpa using h 0 p p' (by rw [hp]; rfl) (by rw [hp']; rfl)
    · simpa using h (i + 1) p p' (by simpa using hp) (by simpa using hp')
  · rintro ⟨hfirst, hrest⟩ i p p' hp hp'
    cases i with
    | zero => simpa using hfirst p p' (by simpa using hp) (by simpa using hp')
    | succ i => simpa using hrest i p p' (by simpa using hp) (by simpa using hp')

/-- Token by token, the escapes of the literal are those of the new one or part of them. -/
theorem carries_tokens (has : ∀ i s, as.IsUsed i s → isInlinable s = true)
    (hb : List.Forall₂ (Token.Becomes as) tokens tokens')
    (hp : ∀ p, .placeholder p ∈ tokens → p.IsPlaceable) (front : Text) :
    Carries (¬ as.Supplies '\\') (LeavesEscapes as front tokens tokens')
      (escapes (unfinished front ++ tokens.flatMap Token.source))
      (escapes (unfinished front ++ tokens'.flatMap Token.source)) := by
  induction hb generalizing front with
  | nil => exact (Carries.refl _).congr (by simp [LeavesEscapes])
  | @cons token token' tokens tokens' hb _ ih =>
    have hrest := ih (fun p hm => hp p (List.mem_cons_of_mem _ hm)) (front ++ token.source)
    rw [List.flatMap_cons, List.flatMap_cons, ← List.append_assoc, ← List.append_assoc,
      escapes_append, escapes_append (unfinished front ++ token'.source)]
    rw [unfinished_append] at hrest
    cases token with
    | text s =>
      cases token' with
      | placeholder => exact hb.elim
      | text s' =>
        obtain rfl : s = s' := hb
        refine ((Carries.refl _).append hrest).congr ?_
        simp [leavesEscapes_cons]
    | placeholder p =>
      cases token' with
      | text => exact hb.elim
      | placeholder p' =>
        have hplace := hp p List.mem_cons_self
        have hplace' := Placeholder.Becomes.isPlaceable hb has hplace
        have hend : unfinished (unfinished front ++ p'.source) =
            unfinished (unfinished front ++ p.source) := by
          rw [hplace.unfinished_source, hplace'.unfinished_source]
        have hfirst := Placeholder.Becomes.carries has hplace hplace' hb front
        rw [Token.source, Token.source, hend]
        refine (hfirst.append hrest).congr ?_
        simp [leavesEscapes_cons]

end Tokens

/-! ## Rewritten calls -/

/-- The escapes of a literal are escapes of the one that is written for it, in their order,
where what is rewritten is part of none; and only there, if no argument has a backslash. -/
theorem escapes_inlined {t u : Text} (h : inlined? t = some u) :
    ∃ (call : Call) (d : Draft),
      Call.find? t = some call ∧ call.rewritten? = some d ∧
      u = call.before ++ call.written d.template d.arguments.remaining ∧
      (LeavesEscapes d.arguments [] call.tokens d.tokens →
        (escapes call.literal).Sublist (escapes d.template)) ∧
      ((∀ a ∈ call.arguments, '\\' ∉ a) → (escapes call.literal).Sublist (escapes d.template) →
        LeavesEscapes d.arguments [] call.tokens d.tokens) := by
  obtain ⟨call, d, hc, hd, rfl⟩ := inlined?_eq_some_iff.1 h
  obtain ⟨m, -, rfl, traces, -, -, htokens⟩ := Call.exists_of_rewritten? hd
  have hplace (p : Placeholder) (hp : .placeholder p ∈ call.tokens) : p.IsPlaceable :=
    (Call.spells_tokens htokens).isPlaceable hp
  have hcarries := carries_tokens traces.inlinable traces.becomes_resolve hplace []
  have hstart : unfinished [] = [] := by rw [unfinished, splitEscapes_nil]
  rw [hstart, List.nil_append, List.nil_append, source_of_tokens htokens,
    Draft.flatMap_source_tokens] at hcarries
  refine ⟨call, m.resolve, hc, hd, call.assemble_eq _, ?_⟩
  rw [Draft.arguments_resolve]
  refine ⟨hcarries.sublist, fun hslash hsub => ?_⟩
  have hbare : ¬ m.arguments.Supplies '\\' := by
    rintro (e | hdigit | ⟨i, s, hu, hm⟩)
    · exact absurd e (by decide)
    · exact absurd hdigit (by decide)
    · refine hslash s ?_ hm
      rw [← traces.sources]
      exact List.mem_map.2 ⟨⟨s, true⟩, List.mem_of_getElem? hu, rfl⟩
  exact hcarries.kept_of_eq hbare (hsub.eq_of_length (hcarries.length_eq hbare))

/-- The group of an escape is read as a placeholder and filled. -/
theorem escapes_inlined_changed :
    ∃ (call : Call) (d : Draft),
      Call.find? "println!(\"\\u{0}{0}\", a)".toList = some call ∧ call.rewritten? = some d ∧
      inlineArguments "println!(\"\\u{0}{0}\", a)".toList = "println!(\"\\u{a}{a}\")".toList ∧
      escapes call.literal = ["\\u{0}".toList] ∧
      ¬ (escapes call.literal).Sublist (escapes d.template) ∧
      ¬ "\\u{0}".toList <:+: d.template := by
  let call : Call := ⟨[], "println".toList, '"', "\\u{0}{0}".toList, some " a".toList, [], false⟩
  let d : Draft := ⟨[.text "\\u".toList, .field ⟨.inlined ['a'], none⟩,
    .field ⟨.inlined ['a'], none⟩], [⟨['a'], true⟩]⟩
  refine ⟨call, d, by decide +kernel, by decide +kernel, by decide +kernel, by decide +kernel,
    by decide +kernel, by decide +kernel⟩

/-- A group that no argument fills, and an escape in front of a placeholder. -/
theorem escapes_inlined_println :
    ∃ (call : Call) (d : Draft),
      Call.find? "println!(\"\\u{e9}\\n{0}\", a)".toList = some call ∧ call.rewritten? = some d ∧
      escapes call.literal = ["\\u{e9}".toList, "\\n".toList] ∧
      (escapes call.literal).Sublist (escapes d.template) := by
  let call : Call :=
    ⟨[], "println".toList, '"', "\\u{e9}\\n{0}".toList, some " a".toList, [], false⟩
  let d : Draft := ⟨[.text "\\u".toList, .field ⟨.written "e9".toList, none⟩,
    .text "\\n".toList, .field ⟨.inlined ['a'], none⟩], [⟨['a'], true⟩]⟩
  have hc : Call.find? "println!(\"\\u{e9}\\n{0}\", a)".toList = some call := by decide +kernel
  have hd : call.rewritten? = some d := by decide +kernel
  have hu : inlined? "println!(\"\\u{e9}\\n{0}\", a)".toList =
      some "println!(\"\\u{e9}\\n{a}\")".toList := by decide +kernel
  have htokens : call.tokens = [.text "\\u".toList, .placeholder ⟨"e9".toList, none⟩,
    .text "\\n".toList, .placeholder ⟨['0'], none⟩] := by decide +kernel
  have hleaves : LeavesEscapes d.arguments [] call.tokens d.tokens := by
    intro i p p' hp hp'
    rw [htokens] at hp ⊢
    rcases i with _ | _ | _ | _ | i
    · simp at hp
    · obtain rfl : _ = p := by simpa using hp
      obtain rfl : _ = p' := by
        simpa [d, Draft.tokens, Segment.token, Field.placeholder, Part.text] using hp'
      exact ⟨fun _ => rfl, fun _ spec hs => absurd hs (by simp)⟩
    · simp at hp
    · obtain rfl : _ = p := by simpa using hp
      have hfront : ¬ ['\\', 'u'] <+: unfinished "\\u{e9}\\n".toList := by decide +kernel
      exact ⟨fun hg => absurd hg hfront, fun _ spec hs => absurd hs (by simp)⟩
    · simp at hp
  obtain ⟨call', d', hc', hd', -, hkept, -⟩ := escapes_inlined hu
  obtain rfl : call = call' := Option.some.inj (hc.symm.trans hc')
  obtain rfl : d = d' := Option.some.inj (hd.symm.trans hd')
  exact ⟨call, d, hc, hd, by decide +kernel, hkept hleaves⟩

end TextTransforms
