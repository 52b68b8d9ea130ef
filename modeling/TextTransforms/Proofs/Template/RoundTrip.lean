import Mathlib.Data.List.Forall2
import TextTransforms.Proofs.Text.Runs
import TextTransforms.Template.Token

/-!
# Templates read back

A list of tokens that a template can be read as is read back from the template
it spells (`readTokens_spelled`); what is read from any template is such a list
(`spells_readTokens`). Exchanging placeholders for others that stand in braces
keeps this (`Token.Spells.exchange`).
-/

namespace TextTransforms

/-! ## Placeholders -/

namespace Placeholder

/-- A placeholder that can stand between braces: no brace inside, no colon before
the one that starts the spec. -/
structure IsPlaceable (p : Placeholder) : Prop where
  noBrace : ∀ c ∈ p.content, Token.isBrace c = false
  noColon : ':' ∉ p.argument

theorem ofContent_content {p : Placeholder} (h : ':' ∉ p.argument) : ofContent p.content = p := by
  obtain ⟨argument, spec⟩ := p
  cases spec with
  | none =>
    have hc : Text.cut? ':' argument = none := Text.cut?_eq_none_iff.2 h
    simp [ofContent, content, hc]
  | some spec =>
    have hc : Text.cut? ':' (argument ++ ':' :: spec) = some (argument, spec) :=
      Text.cut?_eq_some_iff.2 ⟨rfl, h⟩
    simp [ofContent, content, hc]

theorem colon_notMem_ofContent (t : Text) : ':' ∉ (ofContent t).argument := by
  unfold ofContent
  split
  · rename_i h
    exact (Text.cut?_eq_some_iff.1 h).2
  · rename_i h
    exact Text.cut?_eq_none_iff.1 h

theorem isPlaceable_ofContent {t : Text} (h : ∀ c ∈ t, Token.isBrace c = false) :
    (ofContent t).IsPlaceable :=
  ⟨by rwa [content_ofContent], colon_notMem_ofContent t⟩

end Placeholder

/-! ## Tokens -/

namespace Token

/-- Text that is read as one token in front of `rest`: a doubled brace, or a run of
other characters that ends with the template or at a brace. -/
def IsRun (s rest : Text) : Prop :=
  s = ['{', '{'] ∨ s = ['}', '}'] ∨
    s ≠ [] ∧ (∀ c ∈ s, isBrace c = false) ∧ ∀ c, rest.head? = some c → isBrace c = true

/-- The tokens that the template they spell is read as. -/
def Spells : List Token → Prop
  | [] => True
  | .text s :: ts => IsRun s (ts.flatMap source) ∧ Spells ts
  | .placeholder p :: ts => p.IsPlaceable ∧ Spells ts

theorem Spells.isPlaceable {ts : List Token} {p : Placeholder} (h : Spells ts)
    (hp : .placeholder p ∈ ts) : p.IsPlaceable := by
  induction ts with
  | nil => simp at hp
  | cons token ts ih =>
    cases token with
    | text s => exact ih h.2 (by simpa using hp)
    | placeholder q =>
      rcases List.mem_cons.1 hp with e | hp
      · obtain rfl : p = q := by simpa using e
        exact h.1
      · exact ih h.2 hp

private theorem span_run {s rest : Text} (hs : ∀ c ∈ s, isBrace c = false)
    (hr : ∀ c, rest.head? = some c → isBrace c = true) :
    (s ++ rest).takeWhile (!isBrace ·) = s ∧ (s ++ rest).dropWhile (!isBrace ·) = rest :=
  ⟨Text.takeWhile_run (fun c hc => by simp [hs c hc]) (fun c hc => by simp [hr c hc]),
   Text.dropWhile_run (fun c hc => by simp [hs c hc]) (fun c hc => by simp [hr c hc])⟩

theorem read_text {s rest : Text} (h : IsRun s rest) :
    ∃ c t, s ++ rest = c :: t ∧ read c t = some (.text s, rest) := by
  rcases h with rfl | rfl | ⟨hne, hs, hr⟩
  · exact ⟨'{', '{' :: rest, rfl, by simp [read, isBrace]⟩
  · exact ⟨'}', '}' :: rest, rfl, by simp [read, isBrace]⟩
  · obtain ⟨c, s, rfl⟩ := List.exists_cons_of_ne_nil hne
    have hc : isBrace c = false := hs c (by simp)
    obtain ⟨ht, hd⟩ := span_run (s := s) (fun d hd => hs d (by simp [hd])) hr
    exact ⟨c, s ++ rest, rfl, by simp [read, hc, ht, hd]⟩

theorem read_placeholder {p : Placeholder} (h : p.IsPlaceable) (rest : Text) :
    ∃ c t, p.source ++ rest = c :: t ∧ read c t = some (.placeholder p, rest) := by
  refine ⟨'{', p.content ++ '}' :: rest, by simp [Placeholder.source], ?_⟩
  obtain ⟨ht, hd⟩ := span_run h.noBrace
    (by simp [isBrace] : ∀ c, ('}' :: rest).head? = some c → isBrace c = true)
  have hp := Placeholder.ofContent_content h.noColon
  unfold read
  rw [if_pos (by decide)]
  split
  · rename_i e
    simp at e
  · rename_i d tail e
    have hne : d ≠ '{' := by
      rintro rfl
      cases hc : p.content with
      | nil => rw [hc] at e; simp at e
      | cons x xs =>
        rw [hc] at e
        have hx := h.noBrace x (by rw [hc]; simp)
        rw [(List.cons.inj e).1] at hx
        exact absurd hx (by decide)
    rw [if_neg hne, if_pos rfl, ht, hd]
    simp [hp]

theorem readTokens_cons {c : Char} {t rest : Text} {token : Token}
    (h : read c t = some (token, rest)) :
    readTokens (c :: t) = (token :: (readTokens rest).1, (readTokens rest).2) := by
  rw [readTokens]
  split
  · rename_i e
    rw [h] at e
    simp at e
  · rename_i e
    rw [h] at e
    obtain ⟨rfl, rfl⟩ : token = _ ∧ rest = _ := by simpa using e
    rfl

/-- What a template spelled by such tokens is read as. -/
theorem readTokens_spelled {ts : List Token} (h : Spells ts) :
    readTokens (ts.flatMap source) = (ts, []) := by
  induction ts with
  | nil => rw [List.flatMap_nil, readTokens]
  | cons token ts ih =>
    rw [List.flatMap_cons]
    cases token with
    | text s =>
      obtain ⟨c, t, e, hr⟩ := read_text h.1
      rw [source, e, readTokens_cons hr, ih h.2]
    | placeholder p =>
      obtain ⟨c, t, e, hr⟩ := read_placeholder h.1 (ts.flatMap source)
      rw [source, e, readTokens_cons hr, ih h.2]

/-! ## What is read -/

/-- The first token of a template is a run or can stand between braces. -/
theorem read_cases {c : Char} {t rest : Text} {token : Token} (h : read c t = some (token, rest)) :
    (∃ s, token = .text s ∧ IsRun s rest) ∨ ∃ p, token = .placeholder p ∧ p.IsPlaceable := by
  unfold read at h
  split at h
  · rename_i hc
    split at h
    · simp at h
    · split at h
      · obtain ⟨rfl, rfl⟩ : _ = token ∧ _ = rest := by simpa using h
        refine .inl ⟨[c, c], rfl, ?_⟩
        rcases (by simpa [isBrace] using hc : c = '{' ∨ c = '}') with rfl | rfl
        · exact .inl rfl
        · exact .inr (.inl rfl)
      · split at h
        · split at h
          · obtain ⟨rfl, -⟩ : _ = token ∧ _ = rest := by simpa using h
            refine .inr ⟨_, rfl, Placeholder.isPlaceable_ofContent fun x hx => ?_⟩
            simpa using List.mem_takeWhile_imp hx
          · simp at h
        · simp at h
  · rename_i hc
    obtain ⟨rfl, rfl⟩ : _ = token ∧ _ = rest := by simpa using h
    refine .inl ⟨_, rfl, .inr (.inr ⟨by simp, fun x hx => ?_, fun x hx => ?_⟩)⟩
    · rcases List.mem_cons.1 hx with rfl | hx
      · simpa using hc
      · simpa using List.mem_takeWhile_imp hx
    · simpa using Text.head?_dropWhile hx

theorem spells_readTokens (t : Text) (h : (readTokens t).2 = []) : Spells (readTokens t).1 := by
  fun_induction readTokens t with
  | case1 => trivial
  | case2 => simp at h
  | case3 c t token rest hr _ tokens leftover e ih =>
    rw [e] at ih
    have hs := source_readTokens rest
    rw [e] at hs
    obtain rfl : leftover = [] := h
    rw [List.append_nil] at hs
    rcases read_cases hr with ⟨s, rfl, hrun⟩ | ⟨p, rfl, hp⟩
    · exact ⟨hs ▸ hrun, ih rfl⟩
    · exact ⟨hp, ih rfl⟩

/-- The same text, or a placeholder for a placeholder. -/
def SameKind : Token → Token → Prop
  | .text s, .text s' => s = s'
  | .placeholder _, .placeholder _ => True
  | _, _ => False

private theorem head?_source_of_sameKind {ts ts' : List Token}
    (h : List.Forall₂ SameKind ts ts') (hs : Spells ts) {c : Char}
    (hc : (ts'.flatMap source).head? = some c) : (ts.flatMap source).head? = some c := by
  cases h with
  | nil => exact hc
  | @cons a b l l' hab hrest =>
    cases a <;> cases b <;> simp only [SameKind] at hab
    · rename_i s _
      subst hab
      obtain ⟨d, s, rfl⟩ : ∃ d s', s = d :: s' := by
        rcases hs.1 with rfl | rfl | ⟨hne, -⟩
        · exact ⟨_, _, rfl⟩
        · exact ⟨_, _, rfl⟩
        · exact List.exists_cons_of_ne_nil hne
      simpa [source] using hc
    · simpa [source, Placeholder.source] using hc

/-- Other placeholders in the same places, between the same texts, are read back as well. -/
theorem Spells.exchange {ts ts' : List Token} (h : List.Forall₂ SameKind ts ts')
    (hp : ∀ p, .placeholder p ∈ ts' → p.IsPlaceable) (hs : Spells ts) : Spells ts' := by
  induction h with
  | nil => trivial
  | @cons a b l l' hab hrest ih =>
    have hl := ih (fun p hm => hp p (List.mem_cons_of_mem _ hm))
    cases a <;> cases b <;> simp only [SameKind] at hab
    · subst hab
      refine ⟨?_, hl hs.2⟩
      rcases hs.1 with h1 | h1 | ⟨hne, hb, hr⟩
      · exact .inl h1
      · exact .inr (.inl h1)
      · exact .inr (.inr ⟨hne, hb, fun c hc => hr c (head?_source_of_sameKind hrest hs.2 hc)⟩)
    · exact ⟨hp _ List.mem_cons_self, hl hs.2⟩

end Token

/-- A template within the limits is accepted exactly if it is read to its end. -/
theorem templateTokens_eq_ok_iff {t : Text} {tokens : List Token} :
    templateTokens t = .ok tokens ↔
      t.utf8Length ≤ Error.templateLimit ∧ tokens.length ≤ Error.tokenLimit ∧
        readTokens t = (tokens, []) := by
  unfold templateTokens
  split
  · rename_i h
    simp
    omega
  · rename_i h
    rcases hr : readTokens t with ⟨ts, leftover⟩
    dsimp only
    split
    · rename_i hl
      simp only [reduceCtorEq, false_iff, not_and]
      rintro - hl' e
      obtain rfl : ts = tokens := congrArg Prod.fst e
      omega
    · cases leftover with
      | nil =>
        simp only [List.isEmpty_nil, if_true, Except.ok.injEq, Prod.mk.injEq, and_true]
        constructor
        · rintro rfl
          exact ⟨by omega, by omega, rfl⟩
        · exact fun h => h.2.2
      | cons => simp

end TextTransforms
