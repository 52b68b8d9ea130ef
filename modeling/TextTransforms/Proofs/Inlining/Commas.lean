import TextTransforms.Proofs.Inlining.Rewritten

/-!
# Commas

A rewritten text has fewer commas than before, at least by the number of arguments
that moved (`count_comma_inlined`): an argument that may stand in a placeholder has no
comma (`comma_notMem_of_isInlinable`), so it leaves its separator behind and brings
none into the template. So rewriting always changes the text (`ne_of_inlined?`).
-/

namespace TextTransforms

/-! ## Arguments without commas -/

theorem eq_quote_of_lexed {rest : Text} {ls : List Lexeme} {mark : Char} {body : Text}
    (h : Lexed rest ls) (hm : .literal mark body ∈ ls) : mark = '"' ∨ mark = '\'' := by
  induction ls with
  | nil => simp at hm
  | cons l ls ih =>
    rcases List.mem_cons.1 hm with e | hm
    · have hl := h.1
      rw [← e] at hl
      cases hl with
      | string => exact .inl rfl
      | character => exact .inr rfl
    · exact ih h.2 hm

/-- A piece without opening brackets is at depth zero throughout. -/
theorem IsPiece.comma_notMem {p : List Lexeme} (h : IsPiece p)
    (ho : ∀ l ∈ p, l.isOpener = false) : .char ',' ∉ p := by
  have hw := h.whole
  clear h
  induction p with
  | nil => simp
  | cons l ls ih =>
    rw [pieces] at hw
    split at hw
    · simp at hw
    · rename_i hl
      have hnest : l.nest 0 = 0 := by simp [Lexeme.nest, ho l List.mem_cons_self]
      rw [hnest] at hw
      intro hm
      rcases List.mem_cons.1 hm with e | hm
      · exact hl ⟨e.symm, rfl⟩
      · exact ih (fun l hl => ho l (List.mem_cons_of_mem _ hl)) hw hm

private theorem mem_of_placed {after : Text} {ps : List (List Lexeme)} (h : Placed after ps)
    {p : List Lexeme} (hp : p ∈ ps) : (∃ rest, Lexed rest p) ∧ IsPiece p := by
  induction ps with
  | nil => simp at hp
  | cons q ps ih =>
    rcases List.mem_cons.1 hp with rfl | hp
    · exact ⟨⟨_, h.1⟩, h.2.1⟩
    · exact ih h.2.2 hp

/-- The characters that an argument may not have are not in its piece either. -/
private theorem notMem_sourceOf {p : List Lexeme}
    (hin : isInlinable (Text.trim (sourceOf p)) = true) {c : Char} (hc : c ∈ uninlinableChars) :
    c ∉ sourceOf p := by
  have hblank : uninlinableChars.all (!Text.isBlank ·) = true := by decide
  have hb : Text.isBlank c = false := by simpa using List.all_eq_true.1 hblank c hc
  exact fun hm => notMem_of_isInlinable hin hc (Text.mem_trim hm hb)

/-- An argument that may stand in a placeholder has no comma. -/
theorem comma_notMem_of_isInlinable {t raw after a : Text}
    (h : Call.readTail t = some (some raw, after)) (ha : a ∈ splitArguments raw)
    (hin : isInlinable a = true) : ',' ∉ a := by
  obtain ⟨ps, hplaced, hsplit⟩ := exists_pieces_of_readTail h
  rw [hsplit] at ha
  obtain ⟨p, hp, rfl⟩ := List.mem_map.1 (List.mem_filter.1 ha).1
  obtain ⟨⟨rest, hlexed⟩, hpiece⟩ := mem_of_placed hplaced hp
  have hchar {c : Char} (hl : .char c ∈ p) : c ∉ uninlinableChars := fun hc =>
    notMem_sourceOf hin hc (List.mem_flatMap.2 ⟨_, hl, by simp [Lexeme.source]⟩)
  have hopen : ∀ l ∈ p, l.isOpener = false := by
    intro l hl
    cases l with
    | literal => rfl
    | char c =>
      have := hchar hl
      by_contra ho
      simp only [Lexeme.isOpener, Bool.or_eq_true, beq_iff_eq, Lexeme.char.injEq,
        Bool.not_eq_false] at ho
      rcases ho with (rfl | rfl) | rfl <;> exact this (by decide)
  have hsource : ',' ∉ sourceOf p := by
    intro hm
    obtain ⟨l, hl, hm⟩ := List.mem_flatMap.1 hm
    cases l with
    | char c =>
      obtain rfl : ',' = c := by simpa [Lexeme.source] using hm
      exact hpiece.comma_notMem hopen hl
    | literal mark body =>
      have hmark : mark ∈ sourceOf p := List.mem_flatMap.2 ⟨_, hl, by simp [Lexeme.source]⟩
      rcases eq_quote_of_lexed hlexed hl with rfl | rfl
      · exact notMem_sourceOf hin (by decide) hmark
      · exact notMem_sourceOf hin (by decide) hmark
  exact fun hm => hsource (Text.mem_of_mem_trim hm)

/-! ## The template -/

section Template

variable {as : Arguments} (has : ¬ as.Supplies ',')
include has

private theorem count_comma_eq_zero {t : Text} (h : ∀ c ∈ t, as.Supplies c) : t.count ',' = 0 :=
  List.count_eq_zero.2 fun hm => has (h ',' hm)

private theorem count_comma_resolveSpec (t : Text) :
    (resolveSpec as t).count ',' ≤ t.count ',' := by
  induction t using SpecPiece.pieces_induction with
  | nil => simp
  | cons s rest piece hs ih =>
    rw [resolveSpec_leads as hs, List.count_append, List.count_append]
    cases hs with
    | @count digits =>
      have hnone : (SpecPiece.countText as (Numeral.value digits)).count ',' = 0 :=
        count_comma_eq_zero has fun _ => SpecPiece.supplies_of_mem_countText
      have hpiece : ((SpecPiece.count (Numeral.value digits)).resolve as).count ',' = 0 := by
        rw [show (SpecPiece.count (Numeral.value digits)).resolve as =
          SpecPiece.countText as (Numeral.value digits) ++ ['$'] from rfl, List.count_append, hnone]
        rfl
      omega
    | digits | name | other =>
      simp only [SpecPiece.resolve]
      omega

private theorem ArgumentBecomes.count_comma {t a : Text} (h : ArgumentBecomes as t a) :
    a.count ',' ≤ t.count ',' := by
  cases h with
  | kept => exact Nat.le_refl _
  | reference _ hr =>
    rw [count_comma_eq_zero has fun _ => Arguments.supplies_of_mem_reference? hr]
    exact Nat.zero_le _
  | implicit hu =>
    rw [count_comma_eq_zero has fun _ hc => .inr (.inr ⟨_, _, hu, hc⟩)]
    exact Nat.zero_le _

private theorem SpecBecomes.count_comma {spec spec' : Text}
    (h : SpecBecomes as (some spec) (some spec')) : spec'.count ',' ≤ spec.count ',' := by
  cases h with
  | resolved => exact count_comma_resolveSpec has spec
  | @precision i s hu =>
    have hs : s.count ',' = 0 := count_comma_eq_zero has fun _ hc => .inr (.inr ⟨_, _, hu, hc⟩)
    simp [hs]

omit has in
private theorem count_comma_of_renames {hasSpec : Bool} {s t : Text}
    (h : Relation.ReflTransGen (Renames hasSpec) s t) : t.count ',' ≤ s.count ',' := by
  induction h with
  | refl => exact Nat.le_refl _
  | @tail t t' _ hr ih =>
    refine Nat.le_trans (List.Sublist.count_le _ ?_) ih
    cases hr with
    | target hcut =>
      rw [(Text.cut?_eq_some_iff.1 hcut).1]
      exact (Text.trimStart_suffix _).sublist.trans
        ((List.sublist_cons_self _ _).trans (List.sublist_append_right _ _))
    | bare => exact List.sublist_append_left _ _

private theorem Placeholder.Becomes.count_comma {p p' : Placeholder} (h : p.Becomes as p') :
    p'.source.count ',' ≤ p.source.count ',' := by
  obtain ⟨t, hr, ha⟩ := h.argument
  have harg := Nat.le_trans (ha.count_comma has) (count_comma_of_renames hr)
  have hspec := h.spec
  obtain ⟨a, spec⟩ := p
  obtain ⟨a', spec'⟩ := p'
  cases spec <;> cases spec' <;> try cases hspec <;> done
  · simpa [source, content] using harg
  · have := hspec.count_comma has
    dsimp only at harg
    simp [source, content]
    omega

private theorem count_comma_tokens {tokens tokens' : List Token}
    (h : List.Forall₂ (Token.Becomes as) tokens tokens') :
    (tokens'.flatMap Token.source).count ',' ≤ (tokens.flatMap Token.source).count ',' := by
  induction h with
  | nil => exact Nat.le_refl _
  | @cons token token' tokens tokens' hb _ ih =>
    rw [List.flatMap_cons, List.flatMap_cons, List.count_append, List.count_append]
    refine Nat.add_le_add ?_ ih
    cases token <;> cases token' <;> simp only [Token.Becomes] at hb
    · rw [hb]
    · exact hb.count_comma has

end Template

/-! ## The tail -/

/-- The commas of some arguments, each with the one that separates it from what stands before. -/
def separatedCommas : List Text → Nat
  | [] => 0
  | t :: ts => t.count ',' + 1 + separatedCommas ts

private theorem count_comma_pieces (ps : List (List Lexeme)) :
    (sourceOf (ps.flatMap (.char ',' :: ·))).count ',' = separatedCommas (ps.map sourceOf) := by
  induction ps with
  | nil => rfl
  | cons p ps ih =>
    rw [List.flatMap_cons, sourceOf_append, List.count_append, ih]
    simp [Lexeme.source, separatedCommas]

private theorem separatedCommas_trim (ps : List (List Lexeme)) :
    separatedCommas ((ps.map fun p => Text.trim (sourceOf p)).filter fun a => !a.isEmpty) ≤
      separatedCommas (ps.map sourceOf) := by
  induction ps with
  | nil => exact Nat.le_refl _
  | cons p ps ih =>
    have htrim : (Text.trim (sourceOf p)).count ',' ≤ (sourceOf p).count ',' := by
      obtain ⟨s, u, e, -, -⟩ := Text.exists_blanks_trim (sourceOf p)
      conv => rhs; rw [e, List.count_append, List.count_append]
      omega
    rw [List.map_cons, List.filter_cons, List.map_cons]
    split <;> simp only [separatedCommas] <;> omega

/-- Each argument of a tail accounts for its own commas and for the separator before it. -/
private theorem separatedCommas_splitArguments (raw : Text) :
    separatedCommas (splitArguments raw) ≤ raw.count ',' + 1 := by
  have hp := congrArg sourceOf (pieces_eq 0 (lexemes raw))
  rw [source_lexemes, sourceOf_append] at hp
  have hcount : raw.count ',' + 1 = separatedCommas
      (((pieces 0 (lexemes raw)).1 :: (pieces 0 (lexemes raw)).2).map sourceOf) := by
    conv => lhs; rw [← hp, List.count_append, count_comma_pieces]
    rw [List.map_cons, separatedCommas]
    omega
  rw [hcount]
  exact separatedCommas_trim _

private theorem separatedCommas_remaining (as : Arguments) :
    separatedCommas as.remaining + as.countP Argument.used ≤
      separatedCommas (as.map Argument.source) := by
  induction as with
  | nil => exact Nat.le_refl _
  | cons a as ih =>
    rw [Arguments.remaining] at ih ⊢
    cases hu : a.used with
    | true =>
      rw [List.filter_cons_of_neg (by simp [hu]), List.countP_cons_of_pos hu, List.map_cons,
        separatedCommas]
      omega
    | false =>
      rw [List.filter_cons_of_pos (by simp [hu]), List.countP_cons_of_neg (by simp [hu]),
        List.map_cons, List.map_cons, separatedCommas, separatedCommas]
      omega

private theorem count_comma_kept (ks : List Text) :
    (ks.flatMap (", ".toList ++ ·)).count ',' = separatedCommas ks := by
  induction ks with
  | nil => rfl
  | cons k ks ih =>
    rw [List.flatMap_cons, List.count_append, ih]
    simp [separatedCommas]

/-! ## The call -/

theorem count_comma_inlined {t u : Text} {call : Call} {d : Draft} (hc : Call.find? t = some call)
    (hd : call.rewritten? = some d) (hu : call.assemble d = u) :
    u.count ',' + d.arguments.countP Argument.used ≤ t.count ',' := by
  obtain ⟨m, -, rfl, traces, ⟨i, s, hused⟩, -, htokens⟩ := Call.exists_of_rewritten? hd
  obtain ⟨-, front, gap, hlaid, ht⟩ := Call.exists_of_find? hc
  obtain ⟨raw, hraw⟩ := call.exists_rawArguments traces hused
  have hnone : ¬ m.arguments.Supplies ',' := by
    rintro (e | e | ⟨i, s, hu, hm⟩)
    · exact absurd e (by decide)
    · exact absurd e (by decide)
    · have ha : s ∈ call.arguments := by
        rw [← traces.sources]
        exact List.mem_map.2 ⟨⟨s, true⟩, List.mem_of_getElem? hu, rfl⟩
      rw [Call.arguments, hraw] at ha
      have htail := hlaid.tail
      rw [hraw] at htail
      exact comma_notMem_of_isInlinable htail ha (traces.inlinable i s hu) hm
  have htemplate := count_comma_tokens hnone traces.becomes_resolve
  rw [source_of_tokens htokens, Draft.flatMap_source_tokens] at htemplate
  have harguments := separatedCommas_splitArguments raw
  have hkept := separatedCommas_remaining m.arguments
  have hsources : m.arguments.map Argument.source = splitArguments raw := by
    rw [traces.sources, Call.arguments, hraw]
    rfl
  rw [hsources] at hkept
  have hquote : call.quote ≠ ',' := by rcases hlaid.quote with h | h <;> rw [h] <;> decide
  have hstart : call.lineStart.count ',' = 0 := by unfold Call.lineStart; split <;> decide
  have hend : call.lineEnd.count ',' = 0 := by unfold Call.lineEnd; split <;> decide
  rw [← hu, Call.assemble_eq, Draft.arguments_resolve, ht, hraw]
  simp only [Call.written, writeTail, Call.closing, List.count_append, List.count_cons,
    count_comma_kept, hstart, hend, List.count_nil]
  simp [hquote]
  omega

theorem ne_of_inlined? {t u : Text} (h : inlined? t = some u) : u ≠ t := by
  obtain ⟨call, d, hc, hd, hu⟩ := inlined?_eq_some_iff.1 h
  have hcount := count_comma_inlined hc hd hu
  obtain ⟨m, -, rfl, -, ⟨i, s, hused⟩, -, -⟩ := Call.exists_of_rewritten? hd
  have hpos : 0 < m.resolve.arguments.countP Argument.used := by
    rw [Draft.arguments_resolve, List.countP_pos_iff]
    exact ⟨_, List.mem_of_getElem? hused, rfl⟩
  rintro rfl
  omega

end TextTransforms
