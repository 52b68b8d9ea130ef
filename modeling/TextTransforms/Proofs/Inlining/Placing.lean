import TextTransforms.Proofs.Inlining.Outcome
import TextTransforms.Proofs.Text.Trim

/-!
# Standing in the template

What a placeholder becomes has no characters but its own and those that the
arguments supply (`Placeholder.Becomes.mem_content`). So it can stand between braces
(`Placeholder.Becomes.isPlaceable`), the template that is written is read back as
the tokens that were written (`Draft.Traces.readTokens_template`), and a literal
around it ends where it ended before (`Draft.Traces.scansAs_template`).
-/

namespace TextTransforms

/-! ## Renamed arguments -/

section Renames

variable {hasSpec : Bool} {s t : Text}

theorem Renames.mem (h : Renames hasSpec s t) {c : Char} (hc : c ∈ t) : c ∈ s := by
  cases h with
  | target hcut =>
    rw [(Text.cut?_eq_some_iff.1 hcut).1]
    exact List.mem_append_right _ (List.mem_cons_of_mem _ ((Text.trimStart_suffix _).subset hc))
  | bare => exact List.mem_append_left _ hc

theorem mem_of_renames (h : Relation.ReflTransGen (Renames hasSpec) s t) {c : Char} (hc : c ∈ t) :
    c ∈ s := by
  induction h with
  | refl => exact hc
  | tail _ hr ih => exact ih (hr.mem hc)

/-- A renamed argument held words, blanks and `=` only. -/
theorem Renames.notMem (h : Renames hasSpec s t) {c : Char} (hw : Text.isWordChar c = false)
    (hb : Text.isBlank c = false) (he : c ≠ '=') : c ∉ s := by
  cases h with
  | @target _ name rest hcut hn ht =>
    obtain ⟨u, hname, hu⟩ := Text.trimEnd_append_blanks name
    have hrest : rest = rest.takeWhile Text.isBlank ++ Text.trimStart rest :=
      List.takeWhile_append_dropWhile.symm
    have blanks {v : Text} (hv : v.all Text.isBlank = true) : c ∉ v :=
      Text.notMem_of_isBlanks (List.all_eq_true.1 hv) hb
    rw [(Text.cut?_eq_some_iff.1 hcut).1, List.mem_append, List.mem_cons, hname, hrest,
      List.mem_append, List.mem_append]
    rintro ((hm | hm) | hm | hm | hm)
    · exact Text.notMem_of_isWord hn hw hm
    · exact blanks hu hm
    · exact he hm
    · exact blanks List.all_takeWhile hm
    · exact Text.notMem_of_isWord ht hw hm
  | bare _ ht =>
    rw [List.mem_append, List.mem_singleton]
    rintro (hm | rfl)
    · exact Text.notMem_of_isWord ht hw hm
    · exact absurd hw (by decide)

end Renames

/-! ## Characters -/

section Characters

variable {as : Arguments} {p p' : Placeholder} {c : Char}

theorem ArgumentBecomes.mem {t a : Text} (h : ArgumentBecomes as t a) (hc : c ∈ a) :
    c ∈ t ∨ as.Supplies c := by
  cases h with
  | kept => exact .inl hc
  | reference _ hr => exact .inr (Arguments.supplies_of_mem_reference? hr hc)
  | implicit hu => exact .inr (.inr (.inr ⟨_, _, hu, hc⟩))

theorem Placeholder.Becomes.mem_argument (h : p.Becomes as p') (hc : c ∈ p'.argument) :
    c ∈ p.argument ∨ as.Supplies c := by
  obtain ⟨t, hr, ha⟩ := h.argument
  exact (ha.mem hc).imp (mem_of_renames hr) id

theorem SpecBecomes.mem {spec spec' : Text} (h : SpecBecomes as (some spec) (some spec'))
    (hc : c ∈ spec') : c ∈ spec ∨ as.Supplies c := by
  cases h with
  | resolved => exact mem_resolveSpec hc
  | precision hu =>
    simp only [List.mem_append, List.mem_cons, List.not_mem_nil, or_false] at hc
    rcases hc with (rfl | hc) | rfl
    · simp
    · exact .inr (.inr (.inr ⟨_, _, hu, hc⟩))
    · simp [Arguments.Supplies]

theorem Placeholder.Becomes.mem_content (h : p.Becomes as p') (hc : c ∈ p'.content) :
    c ∈ p.content ∨ as.Supplies c := by
  have harg := h.mem_argument (c := c)
  have hspec := h.spec
  obtain ⟨a, spec⟩ := p
  obtain ⟨a', spec'⟩ := p'
  cases spec <;> cases spec' <;> try cases hspec <;> done
  · exact harg hc
  · simp only [content, List.mem_append, List.mem_cons] at hc ⊢
    rcases hc with hc | rfl | hc
    · exact (harg hc).imp .inl id
    · simp
    · exact (hspec.mem hc).imp (fun h => .inr (.inr h)) id

theorem Token.Becomes.mem_source {token token' : Token} (h : token.Becomes as token')
    (hc : c ∈ token'.source) : c ∈ token.source ∨ as.Supplies c := by
  cases token <;> cases token' <;> simp only [Becomes] at h
  · rw [h]
    exact .inl hc
  · simp only [source, Placeholder.source, List.mem_append, List.mem_cons] at hc ⊢
    rcases hc with (rfl | hc) | hc
    · simp
    · exact (h.mem_content hc).imp (fun h => .inl (.inr h)) id
    · exact .inl (.inr hc)

/-- A placeholder that could stand between braces still can. -/
theorem Placeholder.Becomes.isPlaceable (h : p.Becomes as p')
    (has : ∀ i s, as.IsUsed i s → isInlinable s = true) (hp : p.IsPlaceable) : p'.IsPlaceable where
  noBrace c hc := by
    rcases h.mem_content hc with hc | hc
    · exact hp.noBrace c hc
    · have hne (d : Char) (hd : d ∈ uninlinableChars) : c ≠ d := by
        rintro rfl
        exact Arguments.not_supplies has hd hc
      simp [Token.isBrace, hne '{' (by decide), hne '}' (by decide)]
  noColon hc := (h.mem_argument hc).elim hp.noColon (Arguments.not_supplies has (by decide))

end Characters

/-! ## Arguments that change -/

/-- An argument is left as it was, or it held digits, words, blanks and `=` only. -/
theorem Placeholder.Becomes.argument_eq_or_notMem {as : Arguments} {p p' : Placeholder}
    (h : p.Becomes as p') {c : Char} (hword : Text.isWordChar c = false)
    (hblank : Text.isBlank c = false) (hne : c ≠ '=') :
    p'.argument = p.argument ∨ c ∉ p.argument := by
  obtain ⟨t, hr, ha⟩ := h.argument
  rcases Relation.ReflTransGen.cases_head hr with rfl | ⟨s, hs, -⟩
  · generalize p.argument = old at ha
    generalize p'.argument = new at ha
    cases ha with
    | kept => exact .inl rfl
    | reference hi =>
      refine .inr fun hm => ?_
      simp only [Numeral.index?, Option.ite_none_right_eq_some, Bool.and_eq_true,
        List.all_eq_true] at hi
      exact absurd (Text.isWordChar_of_isDigit (hi.1.1.2 c hm)) (by simp [hword])
    | implicit => exact .inr (by simp)
  · exact .inr (hs.notMem hword hblank hne)

/-- What follows the argument up to the closing brace. -/
def Placeholder.behindArgument (p : Placeholder) : Text :=
  match p.spec with
  | some spec => ':' :: (spec ++ ['}'])
  | none => ['}']

theorem Placeholder.source_eq (p : Placeholder) :
    p.source = '{' :: (p.argument ++ p.behindArgument) := by
  obtain ⟨argument, spec⟩ := p
  cases spec <;> simp [source, content, behindArgument]

/-! ## The literal around it -/

section Literal

variable {as : Arguments} {mark : Char} (hq : mark = '"' ∨ mark = '\'')
include hq

/-- An argument is left as it was, or there is no quote in it before and after. -/
private theorem Placeholder.Becomes.argument_eq_or {p p' : Placeholder} (h : p.Becomes as p')
    (has : ¬ as.Supplies mark) :
    p'.argument = p.argument ∨ mark ∉ p.argument ∧ mark ∉ p'.argument := by
  have hword : Text.isWordChar mark = false := by rcases hq with rfl | rfl <;> decide
  have hblank : Text.isBlank mark = false := by rcases hq with rfl | rfl <;> decide
  have hne : mark ≠ '=' := by rcases hq with rfl | rfl <;> decide
  refine (h.argument_eq_or_notMem hword hblank hne).imp id fun hold => ⟨hold, fun hnew => ?_⟩
  exact (h.mem_argument hnew).elim hold has

private theorem SpecBecomes.scansAs {spec spec' : Text}
    (h : SpecBecomes as (some spec) (some spec')) (has : ¬ as.Supplies mark) :
    ScansAs mark (spec ++ ['}']) (spec' ++ ['}']) := by
  have hbrace : '}' ≠ mark := by rcases hq with rfl | rfl <;> decide
  have hdollar : mark ≠ '$' := by rcases hq with rfl | rfl <;> decide
  have hdigit : mark.isDigit = false := by rcases hq with rfl | rfl <;> decide
  have hnew {c : Char} := h.mem (c := c)
  cases h with
  | resolved => exact (scansAs_resolveSpec hdollar hdigit has spec).append (.refl _)
  | precision =>
    have hold : mark ∉ ['.', '*'] := by rcases hq with rfl | rfl <;> decide
    exact scansAs_of_unmarked hold (fun hm => (hnew hm).elim hold has) hbrace (by decide) (.refl [])

theorem Placeholder.Becomes.scansAs {p p' : Placeholder} (h : p.Becomes as p')
    (has : ¬ as.Supplies mark) : ScansAs mark p.source p'.source := by
  have hbehind : ∃ c t t', p.behindArgument = c :: t ∧ p'.behindArgument = c :: t' ∧ c ≠ mark ∧
      c ≠ '\\' ∧ ScansAs mark t t' := by
    have hspec := h.spec
    obtain ⟨a, spec⟩ := p
    obtain ⟨a', spec'⟩ := p'
    have hne : '}' ≠ mark ∧ ':' ≠ mark := by rcases hq with rfl | rfl <;> decide
    cases spec <;> cases spec' <;> try cases hspec <;> done
    · exact ⟨'}', [], [], rfl, rfl, hne.1, by decide, .refl []⟩
    · exact ⟨':', _, _, rfl, rfl, hne.2, by decide, hspec.scansAs hq has⟩
  obtain ⟨c, t, t', ht, ht', hm, hb, hs⟩ := hbehind
  rw [source_eq, source_eq, ht, ht']
  refine ScansAs.cons '{' ?_
  rcases h.argument_eq_or hq has with e | ⟨hold, hnew⟩
  · rw [e]
    exact (ScansAs.refl _).append (hs.cons c)
  · exact scansAs_of_unmarked hold hnew hm hb hs

end Literal

/-! ## The template -/

theorem exists_of_mem_right {α β : Type} {R : α → β → Prop} {l : List α} {l' : List β}
    {b : β} (h : List.Forall₂ R l l') (hb : b ∈ l') : ∃ a ∈ l, R a b := by
  induction h with
  | nil => simp at hb
  | @cons a b' l l' hab _ ih =>
    rcases List.mem_cons.1 hb with rfl | hb
    · exact ⟨a, List.mem_cons_self, hab⟩
    · obtain ⟨x, hx, hr⟩ := ih hb
      exact ⟨x, List.mem_cons_of_mem _ hx, hr⟩

namespace Draft.Traces

variable {tokens : List Token} {texts : List Text} {d : Draft} (h : d.Traces tokens texts)
include h

private theorem exists_becomes {token' : Token} (ht : token' ∈ d.resolve.tokens) :
    ∃ token ∈ tokens, token.Becomes d.arguments token' :=
  exists_of_mem_right h.becomes_resolve ht

/-- The template is read back as the tokens that were written. -/
theorem readTokens_template (hs : Token.Spells tokens) :
    readTokens d.resolve.template = (d.resolve.tokens, []) := by
  rw [← Draft.flatMap_source_tokens]
  refine Token.readTokens_spelled (hs.exchange (h.becomes_resolve.imp fun _ _ hb => hb.sameKind) ?_)
  intro p' hp'
  obtain ⟨token, ht, hb⟩ := h.exists_becomes hp'
  cases token with
  | text => exact hb.elim
  | placeholder p => exact hb.isPlaceable h.inlinable (hs.isPlaceable ht)

theorem scansAs_template {mark : Char} (hq : mark = '"' ∨ mark = '\'') :
    ScansAs mark (tokens.flatMap Token.source) d.resolve.template := by
  rw [← Draft.flatMap_source_tokens, List.flatMap_def, List.flatMap_def]
  refine scansAs_flatten (List.forall₂_map_left_iff.2 (List.forall₂_map_right_iff.2 ?_))
  refine h.becomes_resolve.imp fun token token' hb => ?_
  cases token <;> cases token' <;> simp only [Token.Becomes] at hb
  · rw [hb]
    exact .refl _
  · refine hb.scansAs hq (Arguments.not_supplies h.inlinable ?_)
    rcases hq with rfl | rfl <;> decide

/-- The characters of the template that is written. -/
theorem mem_template {c : Char} (hc : c ∈ d.resolve.template) :
    c ∈ tokens.flatMap Token.source ∨ d.arguments.Supplies c := by
  rw [← Draft.flatMap_source_tokens] at hc
  obtain ⟨token', ht', hc⟩ := List.mem_flatMap.1 hc
  obtain ⟨token, ht, hb⟩ := h.exists_becomes ht'
  exact (hb.mem_source hc).imp (fun hc => List.mem_flatMap.2 ⟨token, ht, hc⟩) id

end Draft.Traces

end TextTransforms
