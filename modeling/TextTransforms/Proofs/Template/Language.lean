import TextTransforms.Proofs.Template.RoundTrip

/-!
# The language of templates

What a token is (`Token.Stands`), a reading of a text as tokens from left to right
(`Token.Covers`), and how far such readings go (`Token.IsLongest`), all without the reader. A
template has one reading at most, the reader finds it, and each of its answers, errors
included, says what the longest reading of the text is (`templateTokens_eq_iff`).
-/

namespace TextTransforms

namespace Token

/-- The text is a token in front of `rest`, and what it is read as. It is a doubled brace, text
without braces between two braces, cut at its first colon, or a run without braces that ends
with the template or at a brace. -/
inductive Stands (rest : Text) : Text → Token → Prop
  | opening : Stands rest ['{', '{'] (.text ['{', '{'])
  | closing : Stands rest ['}', '}'] (.text ['}', '}'])
  | plain {argument : Text} (hb : ∀ c ∈ argument, isBrace c = false) (hc : ':' ∉ argument) :
      Stands rest ('{' :: (argument ++ ['}'])) (.placeholder ⟨argument, none⟩)
  | withSpec {argument spec : Text} (hb : ∀ c ∈ argument ++ ':' :: spec, isBrace c = false)
      (hc : ':' ∉ argument) :
      Stands rest ('{' :: (argument ++ ':' :: spec ++ ['}'])) (.placeholder ⟨argument, some spec⟩)
  | run {s : Text} (hne : s ≠ []) (hs : ∀ c ∈ s, isBrace c = false)
      (hr : ∀ c, rest.head? = some c → isBrace c = true) : Stands rest s (.text s)

/-- The text is these tokens one after another, in front of `rest`. -/
inductive Covers (rest : Text) : Text → List Token → Prop
  | nil : Covers rest [] []
  | cons {s t : Text} {token : Token} {ts : List Token} (h : Stands (t ++ rest) s token)
      (ht : Covers rest t ts) : Covers rest (s ++ t) (token :: ts)

/-- Of all texts at the start of `t` that tokens cover, `p` is the longest one; `rest` is what is
left. -/
structure IsLongest (t p rest : Text) (ts : List Token) : Prop where
  text : t = p ++ rest
  covers : Covers rest p ts
  longest : ∀ q rest' us, t = q ++ rest' → Covers rest' q us → q.length ≤ p.length

/-! ## One token -/

variable {rest s t : Text} {token : Token} {ts us : List Token}

theorem Stands.source_eq (h : Stands rest s token) : token.source = s := by
  cases h with
  | opening | closing | run => rfl
  | plain => simp [source, Placeholder.source, Placeholder.content]
  | withSpec => simp [source, Placeholder.source, Placeholder.content]

theorem Stands.read_eq (h : Stands rest s token) :
    ∃ c t, s ++ rest = c :: t ∧ read c t = some (token, rest) := by
  cases h with
  | opening => exact read_text (.inl rfl)
  | closing => exact read_text (.inr (.inl rfl))
  | run hne hs hr => exact read_text (.inr (.inr ⟨hne, hs, hr⟩))
  | @plain argument hb hc =>
    have := read_placeholder (p := ⟨argument, none⟩) ⟨hb, hc⟩ rest
    simpa [Placeholder.source, Placeholder.content] using this
  | @withSpec argument spec hb hc =>
    have := read_placeholder (p := ⟨argument, some spec⟩) ⟨hb, hc⟩ rest
    simpa [Placeholder.source, Placeholder.content] using this

theorem stands_of_read {c : Char} (h : read c t = some (token, rest)) :
    ∃ s, c :: t = s ++ rest ∧ Stands rest s token := by
  have hsource := source_read h
  rcases read_cases h with ⟨s, rfl, hrun⟩ | ⟨⟨argument, spec⟩, rfl, hp⟩
  · refine ⟨s, hsource.symm, ?_⟩
    rcases hrun with rfl | rfl | ⟨hne, hs, hr⟩
    · exact .opening
    · exact .closing
    · exact .run hne hs hr
  · refine ⟨_, hsource.symm, ?_⟩
    cases spec with
    | none => simpa [source, Placeholder.source, Placeholder.content] using
        Stands.plain hp.noBrace hp.noColon
    | some spec => simpa [source, Placeholder.source, Placeholder.content] using
        Stands.withSpec hp.noBrace hp.noColon

/-! ## Readings -/

theorem Covers.source_eq (h : Covers rest t ts) : ts.flatMap source = t := by
  induction h with
  | nil => rfl
  | cons hs _ ih => rw [List.flatMap_cons, hs.source_eq, ih]

/-- The reader goes through a text that tokens cover, and on with the rest. -/
theorem Covers.readTokens_eq (h : Covers rest t ts) :
    readTokens (t ++ rest) = (ts ++ (readTokens rest).1, (readTokens rest).2) := by
  induction h with
  | nil => rfl
  | cons hs _ ih =>
    obtain ⟨c, u, e, hr⟩ := hs.read_eq
    rw [List.append_assoc, e, readTokens_cons hr, ih]
    rfl

theorem covers_readTokens (t : Text) :
    ∃ p, t = p ++ (readTokens t).2 ∧ Covers (readTokens t).2 p (readTokens t).1 := by
  fun_induction readTokens t with
  | case1 => exact ⟨[], rfl, .nil⟩
  | case2 => exact ⟨[], rfl, .nil⟩
  | case3 c t token rest h _ tokens leftover e ih =>
    rw [e] at ih
    obtain ⟨p, hrest, hp⟩ := ih
    obtain ⟨s, hs, hstands⟩ := stands_of_read h
    refine ⟨s ++ p, ?_, .cons ?_ hp⟩
    · rw [List.append_assoc, ← hrest, hs]
    · rwa [← hrest]

/-- A text has one reading at most. -/
theorem Covers.unique (h : Covers rest t ts) (h' : Covers rest t us) : ts = us := by
  have hsame := congrArg Prod.fst (h.readTokens_eq.symm.trans h'.readTokens_eq)
  exact List.append_cancel_right hsame

theorem covers_nil_iff : Covers [] t ts ↔ readTokens t = (ts, []) := by
  constructor
  · intro h
    have := h.readTokens_eq
    rwa [List.append_nil, show readTokens [] = ([], []) by rw [readTokens], List.append_nil] at this
  · intro h
    obtain ⟨p, hp, hcovers⟩ := covers_readTokens t
    rw [h] at hp hcovers
    rw [List.append_nil] at hp
    exact hp ▸ hcovers

/-! ## The longest reading -/

/-- What the reader leaves is what the longest reading leaves. -/
theorem isLongest_iff {p : Text} :
    IsLongest t p rest ts ↔ t = p ++ rest ∧ readTokens t = (ts, rest) := by
  obtain ⟨q, hq, hcovers⟩ := covers_readTokens t
  have hmost : ∀ p rest us, t = p ++ rest → Covers rest p us → p.length ≤ q.length := by
    intro p rest us hp h
    have hread := h.readTokens_eq
    obtain ⟨v, hv, -⟩ := covers_readTokens rest
    have hlen := congrArg List.length (hp.symm.trans hq)
    have hrest := congrArg List.length hv
    rw [← hp] at hread
    rw [hread] at hlen
    simp only [List.length_append] at hlen hrest
    omega
  constructor
  · intro h
    have hle := hmost p rest ts h.text h.covers
    have hge := h.longest q _ _ hq hcovers
    obtain ⟨rfl, hrest⟩ := List.append_inj (h.text.symm.trans hq) (by omega)
    refine ⟨h.text, ?_⟩
    have hts := h.covers
    rw [hrest] at hts
    rw [hts.unique hcovers, hrest]
  · rintro ⟨hp, hread⟩
    rw [hread] at hq hcovers
    obtain rfl : p = q := List.append_cancel_right (hp.symm.trans hq)
    exact ⟨hp, hcovers, hmost⟩

theorem exists_isLongest (t : Text) : ∃ p rest ts, IsLongest t p rest ts := by
  obtain ⟨p, hp, -⟩ := covers_readTokens t
  exact ⟨p, _, _, isLongest_iff.2 ⟨hp, rfl⟩⟩

end Token

/-! ## Answers -/

open Token (Covers IsLongest)

/-- The answer for a text in bounds, from its longest reading. -/
theorem templateTokens_of_isLongest {t p rest : Text} {ts : List Token}
    (hlen : t.utf8Length ≤ Error.templateLimit) (h : IsLongest t p rest ts) :
    templateTokens t =
      if Error.tokenLimit < ts.length then .error .tooManyTokens
      else if rest.isEmpty then .ok ts
      else .error (.unescapedBrace p.utf8Length) := by
  obtain ⟨hp, hread⟩ := Token.isLongest_iff.1 h
  have hoffset : t.utf8Length - rest.utf8Length = p.utf8Length := by
    rw [hp, Text.utf8Length_append, Nat.add_sub_cancel]
  rw [templateTokens, if_neg (Nat.not_lt.2 hlen), hread]
  dsimp only
  rw [hoffset]

theorem templateTokens_of_long {t : Text} (h : Error.templateLimit < t.utf8Length) :
    templateTokens t = .error (.templateTooLong t.utf8Length) := by
  rw [templateTokens, if_pos h]

theorem templateTokens_eq_tooLong_iff {t : Text} {n : Nat} :
    templateTokens t = .error (.templateTooLong n) ↔
      Error.templateLimit < t.utf8Length ∧ n = t.utf8Length := by
  constructor
  · intro h
    by_cases hlen : t.utf8Length ≤ Error.templateLimit
    · obtain ⟨p, rest, ts, hl⟩ := Token.exists_isLongest t
      rw [templateTokens_of_isLongest hlen hl] at h
      split at h
      · simp at h
      · split at h <;> simp at h
    · have hlong := Nat.lt_of_not_le hlen
      rw [templateTokens_of_long hlong] at h
      exact ⟨hlong, by simpa using h.symm⟩
  · rintro ⟨h, rfl⟩
    exact templateTokens_of_long h

/-- A text that is not refused for its length is in bounds. -/
private theorem utf8Length_le_of_templateTokens {t : Text} {e : Error}
    (h : templateTokens t = .error e) (hne : e ≠ .templateTooLong t.utf8Length) :
    t.utf8Length ≤ Error.templateLimit := by
  apply Nat.le_of_not_lt
  intro hlong
  rw [templateTokens_of_long hlong] at h
  exact hne (Except.error.inj h).symm

theorem templateTokens_eq_tooMany_iff {t : Text} :
    templateTokens t = .error .tooManyTokens ↔
      t.utf8Length ≤ Error.templateLimit ∧
        ∃ p rest ts, IsLongest t p rest ts ∧ Error.tokenLimit < ts.length := by
  constructor
  · intro h
    have hlen := utf8Length_le_of_templateTokens h (by simp)
    obtain ⟨p, rest, ts, hl⟩ := Token.exists_isLongest t
    rw [templateTokens_of_isLongest hlen hl] at h
    split at h
    · rename_i hmany
      exact ⟨hlen, p, rest, ts, hl, hmany⟩
    · split at h <;> simp at h
  · rintro ⟨hlen, p, rest, ts, hl, hmany⟩
    rw [templateTokens_of_isLongest hlen hl, if_pos hmany]

theorem templateTokens_eq_unescaped_iff {t : Text} {k : Nat} :
    templateTokens t = .error (.unescapedBrace k) ↔
      t.utf8Length ≤ Error.templateLimit ∧
        ∃ p rest ts, IsLongest t p rest ts ∧ rest ≠ [] ∧ ts.length ≤ Error.tokenLimit ∧
          k = p.utf8Length := by
  constructor
  · intro h
    have hlen := utf8Length_le_of_templateTokens h (by simp)
    obtain ⟨p, rest, ts, hl⟩ := Token.exists_isLongest t
    rw [templateTokens_of_isLongest hlen hl] at h
    split at h
    · simp at h
    · rename_i hfew
      split at h
      · simp at h
      · rename_i hrest
        exact ⟨hlen, p, rest, ts, hl, by simpa using hrest, Nat.le_of_not_lt hfew,
          by simpa using h.symm⟩
  · rintro ⟨hlen, p, rest, ts, hl, hrest, hfew, rfl⟩
    rw [templateTokens_of_isLongest hlen hl, if_neg (Nat.not_lt.2 hfew),
      if_neg (by simpa using hrest)]

/-- What each answer of the reader says. The text is too long; or it is not too many tokens one
after another, these are its only reading, and they spell it; or its longest reading has too
many tokens; or that reading has not too many and ends before the text does, and the error
names the byte at which it ends. As every text has a longest reading, one of the four holds. -/
theorem templateTokens_eq_iff (t : Text) :
    (∀ n, templateTokens t = .error (.templateTooLong n) ↔
      10000 < t.utf8Length ∧ n = t.utf8Length) ∧
    (∀ ts, templateTokens t = .ok ts ↔
      t.utf8Length ≤ 10000 ∧ Covers [] t ts ∧ ts.length ≤ 1024) ∧
    (∀ ts, Covers [] t ts → ts.flatMap Token.source = t ∧ ∀ us, Covers [] t us → us = ts) ∧
    (templateTokens t = .error .tooManyTokens ↔
      t.utf8Length ≤ 10000 ∧
        ∃ p rest ts, IsLongest t p rest ts ∧ 1024 < ts.length) ∧
    (∀ k, templateTokens t = .error (.unescapedBrace k) ↔
      t.utf8Length ≤ 10000 ∧
        ∃ p rest ts, IsLongest t p rest ts ∧ rest ≠ [] ∧ ts.length ≤ 1024 ∧
          k = p.utf8Length) ∧
    ∃ p rest ts, IsLongest t p rest ts := by
  -- The limits of the reader are these numbers by definition.
  refine ⟨fun n => templateTokens_eq_tooLong_iff, fun ts => ?_, fun ts h => ?_,
    templateTokens_eq_tooMany_iff, fun k => templateTokens_eq_unescaped_iff,
    Token.exists_isLongest t⟩
  · rw [templateTokens_eq_ok_iff, Token.covers_nil_iff]
    exact ⟨fun ⟨hlen, hfew, h⟩ => ⟨hlen, h, hfew⟩, fun ⟨hlen, h, hfew⟩ => ⟨hlen, hfew, h⟩⟩
  · exact ⟨h.source_eq, fun us hu => hu.unique h⟩

/-- Behind a doubled brace a third one opens a placeholder, which is cut at its first colon; a
single brace behind a placeholder is left, and the error names its byte. -/
theorem templateTokens_eq_iff_braces :
    let ts : List Token := [.text ['é'], .text ['{', '{'],
      .placeholder ⟨['a'], some ['b', ':', 'c']⟩, .text ['}', '}']]
    let unclosed := ['é', '{', 'x', '}', '}']
    templateTokens "é{{{a:b:c}}}".toList = .ok ts ∧
    Covers [] "é{{{a:b:c}}}".toList ts ∧ ts.flatMap Token.source = "é{{{a:b:c}}}".toList ∧
    (∀ us, Covers [] "é{{{a:b:c}}}".toList us → us = ts) ∧
    templateTokens unclosed = .error (.unescapedBrace 5) ∧
    ∃ p rest us, IsLongest unclosed p rest us ∧ rest ≠ [] ∧ us.length ≤ 1024 ∧
      5 = p.utf8Length := by
  intro ts unclosed
  have hts : templateTokens "é{{{a:b:c}}}".toList = .ok ts := by decide +kernel
  obtain ⟨-, haccepted, hreading, -, -, -⟩ := templateTokens_eq_iff "é{{{a:b:c}}}".toList
  have hcovers := ((haccepted ts).1 hts).2.1
  obtain ⟨hsource, hunique⟩ := hreading ts hcovers
  have hbrace : templateTokens unclosed = .error (.unescapedBrace 5) := by decide +kernel
  obtain ⟨-, -, -, -, hunescaped, -⟩ := templateTokens_eq_iff unclosed
  exact ⟨hts, hcovers, hsource, hunique, hbrace, ((hunescaped 5).1 hbrace).2⟩

end TextTransforms
