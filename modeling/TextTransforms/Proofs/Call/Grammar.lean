import TextTransforms.Call.Basic
import TextTransforms.Proofs.Call.Tail

/-!
# The grammar of a tail

What a call has between the comma behind its literal and its closing parenthesis:
bracket groups, closed literals, quotes that open no character literal, and other
characters (`IsTail`). Whether a `'` opens a character literal depends on all of the
text that follows, so a tail is one in front of a text.

A text is a tail exactly if its lexemes come back to depth zero (`isTail_iff`), so the
reader of a tail takes what the grammar allows and nothing else
(`Call.readTail_comma_eq_some_iff`).
-/

namespace TextTransforms

/-! ## Literals -/

/-- The body of a literal: `mark` stands in it only behind a backslash that escapes it. -/
inductive IsBody (mark : Char) : Text → Prop
  | nil : IsBody mark []
  | plain {c : Char} {t : Text} (hm : c ≠ mark) (hb : c ≠ '\\') (h : IsBody mark t) :
      IsBody mark (c :: t)
  | escape (c : Char) {t : Text} (h : IsBody mark t) : IsBody mark ('\\' :: c :: t)

private theorem isBody_of_scanBody {mark : Char} {t : Text}
    (h : scanBody mark false t = some false) : IsBody mark t := by
  match t with
  | [] => exact .nil
  | [c] =>
    by_cases hb : c = '\\'
    · simp [scanBody, hb] at h
    · by_cases hm : c = mark
      · simp [scanBody, hm] at h
      · exact .plain hm hb .nil
  | c :: d :: t =>
    by_cases hb : c = '\\'
    · subst hb
      exact .escape d (isBody_of_scanBody (by simpa [scanBody] using h))
    · by_cases hm : c = mark
      · subst hm
        simp [scanBody, hb] at h
      · rw [scanBody_plain false _ hm hb] at h
        exact .plain hm hb (isBody_of_scanBody h)

theorem isBody_iff {mark : Char} {t : Text} :
    IsBody mark t ↔ scanBody mark false t = some false := by
  refine ⟨fun h => ?_, isBody_of_scanBody⟩
  induction h with
  | nil => rfl
  | plain hm hb _ ih => rwa [scanBody_plain false _ hm hb]
  | escape c _ ih => simpa [scanBody] using ih

/-- The body of a character literal: one character, or a backslash and what follows up to
the next quote that is not escaped. -/
inductive IsCharacter : Text → Prop
  | single {c : Char} (hc : c ≠ '\\') : IsCharacter [c]
  | escape {t : Text} (h : IsBody '\'' ('\\' :: t)) : IsCharacter ('\\' :: t)

theorem isCharacter_iff {body : Text} : IsCharacter body ↔ IsCharacterBody body := by
  constructor
  · rintro (⟨hc⟩ | ⟨h⟩)
    · exact .inl ⟨_, hc, rfl⟩
    · exact .inr ⟨_, rfl, isBody_iff.1 h⟩
  · rintro (⟨c, hc, rfl⟩ | ⟨t, rfl, h⟩)
    · exact .single hc
    · exact .escape (isBody_iff.2 h)

/-- A quote in front of the text opens a character literal. -/
def OpensCharacter (t : Text) : Prop := ∃ body rest, t = body ++ '\'' :: rest ∧ IsCharacter body

theorem not_opensCharacter_iff {t : Text} : ¬ OpensCharacter t ↔ readCharacter t = none := by
  constructor
  · intro h
    cases hr : readCharacter t with
    | none => rfl
    | some r =>
      obtain ⟨body, rest⟩ := r
      exact absurd ⟨body, rest, eq_of_readCharacter hr,
        isCharacter_iff.2 (isCharacterBody_of_read hr)⟩ h
  · rintro h ⟨body, rest, rfl, hb⟩
    rw [readCharacter_of_body rest (isCharacter_iff.1 hb)] at h
    simp at h

/-! ## Tails -/

def openers : List Char := ['(', '[', '{']

def closers : List Char := [')', ']', '}']

/-- The text is the tail of a call in front of `rest`. Any closer closes any opener. -/
inductive IsTail : (rest : Text) → Text → Prop
  | nil (rest : Text) : IsTail rest []
  | group {rest inside t : Text} {o c : Char} (ho : o ∈ openers) (hc : c ∈ closers)
      (hi : IsTail (c :: (t ++ rest)) inside) (ht : IsTail rest t) :
      IsTail rest (o :: (inside ++ c :: t))
  | string {rest body t : Text} (hb : IsBody '"' body) (ht : IsTail rest t) :
      IsTail rest ('"' :: (body ++ '"' :: t))
  | character {rest body t : Text} (hb : IsCharacter body) (ht : IsTail rest t) :
      IsTail rest ('\'' :: (body ++ '\'' :: t))
  | quote {rest t : Text} (hq : ¬ OpensCharacter (t ++ rest)) (ht : IsTail rest t) :
      IsTail rest ('\'' :: t)
  | other {rest t : Text} {c : Char} (hs : c ≠ '"') (hq : c ≠ '\'') (ho : c ∉ openers)
      (hc : c ∉ closers) (ht : IsTail rest t) : IsTail rest (c :: t)

/-! ## Tails and depth -/

section Depth

variable {c : Char} {d : Nat} {ls : List Lexeme}

private theorem isOpener_char : (Lexeme.char c).isOpener = true ↔ c ∈ openers := by
  simp [Lexeme.isOpener, openers, or_assoc]

private theorem isCloser_char : (Lexeme.char c).isCloser = true ↔ c ∈ closers := by
  simp [Lexeme.isCloser, closers, or_assoc]

private theorem quote_notMem_closers : '"' ∉ closers := by decide

private theorem isOpener_of_mem_closers (hc : c ∈ closers) : (Lexeme.char c).isOpener = false := by
  have : closers.all (fun c => !(Lexeme.char c).isOpener) = true := by decide
  simpa using List.all_eq_true.1 this c hc

private theorem depthBehind_opener (hc : c ∈ openers) :
    depthBehind d (.char c :: ls) = depthBehind (d + 1) ls := by
  have hplain : openers.all (fun c => c != '"' && !(Lexeme.char c).isCloser) = true := by decide
  obtain ⟨hq, hcloser⟩ : c ≠ '"' ∧ (Lexeme.char c).isCloser = false := by
    simpa using List.all_eq_true.1 hplain c hc
  rw [depthBehind, if_neg (by simpa using hq), if_neg (by simp [hcloser]), Lexeme.nest,
    if_pos (isOpener_char.2 hc)]

private theorem depthBehind_closer (hc : c ∈ closers) :
    depthBehind (d + 1) (.char c :: ls) = depthBehind d ls := by
  have hq : c ≠ '"' := fun e => quote_notMem_closers (e ▸ hc)
  rw [depthBehind, if_neg (by simpa using hq), if_neg (by simp), Lexeme.nest,
    if_neg (by simp [isOpener_of_mem_closers hc]), if_pos (isCloser_char.2 hc), Nat.add_sub_cancel]

private theorem depthBehind_zero_closer (hc : c ∈ closers) :
    depthBehind 0 (.char c :: ls) = none := by
  have hq : c ≠ '"' := fun e => quote_notMem_closers (e ▸ hc)
  rw [depthBehind, if_neg (by simpa using hq), if_pos ⟨isCloser_char.2 hc, rfl⟩]

private theorem depthBehind_other {l : Lexeme} (hq : l ≠ .char '"') (ho : l.isOpener = false)
    (hc : l.isCloser = false) : depthBehind d (l :: ls) = depthBehind d ls := by
  rw [depthBehind, if_neg hq, if_neg (by simp [hc]), Lexeme.nest, if_neg (by simp [ho]),
    if_neg (by simp [hc])]

private theorem depthBehind_char (hq : c ≠ '"') (ho : c ∉ openers) (hc : c ∉ closers) :
    depthBehind d (.char c :: ls) = depthBehind d ls :=
  depthBehind_other (by simpa using hq) (by simpa using mt isOpener_char.1 ho)
    (by simpa using mt isCloser_char.1 hc)

end Depth

/-- A tail is made of lexemes that leave every depth as it was. -/
theorem exists_lexemes_of_isTail {rest t : Text} (h : IsTail rest t) :
    ∃ ls, sourceOf ls = t ∧ Lexed rest ls ∧ ∀ d, depthBehind d ls = some d := by
  induction h with
  | nil rest => exact ⟨[], rfl, trivial, fun _ => rfl⟩
  | @group rest inside t o c ho hc _ _ ihi iht =>
    obtain ⟨is, rfl, hil, hid⟩ := ihi
    obtain ⟨ls, rfl, hl, hd⟩ := iht
    have hbrackets : (openers ++ closers).all (fun c => c != '"' && c != '\'') = true := by decide
    have plain {b : Char} (hb : b ∈ openers ++ closers) : b ≠ '"' ∧ b ≠ '\'' := by
      simpa using List.all_eq_true.1 hbrackets b hb
    obtain ⟨hos, hoq⟩ := plain (List.mem_append_left _ ho)
    obtain ⟨hcs, hcq⟩ := plain (List.mem_append_right _ hc)
    refine ⟨.char o :: (is ++ .char c :: ls), by simp [Lexeme.source], ?_, fun d => ?_⟩
    · exact ⟨Lexeme.stands_plain _ hos hoq,
        lexed_append.2 ⟨hil, Lexeme.stands_plain _ hcs hcq, hl⟩⟩
    · rw [depthBehind_opener ho, depthBehind_append, hid, Option.bind_some,
        depthBehind_closer hc, hd]
  | @string rest body t hb _ ih =>
    obtain ⟨ls, rfl, hl, hd⟩ := ih
    refine ⟨.literal '"' body :: ls, by simp [Lexeme.source], ⟨.string (isBody_iff.1 hb), hl⟩,
      fun d => ?_⟩
    rw [depthBehind_other (by simp) rfl rfl, hd]
  | @character rest body t hb _ ih =>
    obtain ⟨ls, rfl, hl, hd⟩ := ih
    refine ⟨.literal '\'' body :: ls, by simp [Lexeme.source],
      ⟨.character (isCharacter_iff.1 hb), hl⟩, fun d => ?_⟩
    rw [depthBehind_other (by simp) rfl rfl, hd]
  | quote hq _ ih =>
    obtain ⟨ls, rfl, hl, hd⟩ := ih
    refine ⟨.char '\'' :: ls, by simp [Lexeme.source], ⟨.char (by simp) fun _ => ?_, hl⟩,
      fun d => ?_⟩
    · exact not_opensCharacter_iff.1 hq
    · rw [depthBehind_char (by decide) (by decide) (by decide), hd]
  | @other rest t c hs hq ho hc _ ih =>
    obtain ⟨ls, rfl, hl, hd⟩ := ih
    refine ⟨.char c :: ls, by simp [Lexeme.source], ⟨Lexeme.stands_plain _ hs hq, hl⟩,
      fun d => ?_⟩
    rw [depthBehind_char hs ho hc, hd]

/-- The text closes `d` groups that are open and is a tail from there on; what it has
inside each of them is a tail as well. -/
private def ClosesGroups (rest : Text) : Nat → Text → Prop
  | 0, t => IsTail rest t
  | d + 1, t => ∃ inside c t', t = inside ++ c :: t' ∧ c ∈ closers ∧
      IsTail (c :: (t' ++ rest)) inside ∧ ClosesGroups rest d t'

/-- What may stand in front of each tail that goes on as this text does may stand in front
of this text. -/
private theorem ClosesGroups.prepend {rest s t : Text} {d : Nat} (h : ClosesGroups rest d t)
    (hs : ∀ r u, u ++ r = t ++ rest → IsTail r u → IsTail r (s ++ u)) :
    ClosesGroups rest d (s ++ t) := by
  cases d with
  | zero => exact hs rest t rfl h
  | succ d =>
    obtain ⟨inside, c, t', rfl, hc, hi, ht⟩ := h
    exact ⟨s ++ inside, c, t', by simp, hc, hs _ inside (by simp) hi, ht⟩

private theorem closesGroups_of_depthBehind {rest : Text} {d : Nat} {ls : List Lexeme}
    (hl : Lexed rest ls) (hd : depthBehind d ls = some 0) : ClosesGroups rest d (sourceOf ls) := by
  induction ls generalizing d with
  | nil =>
    obtain rfl : d = 0 := by simpa [depthBehind] using hd
    exact IsTail.nil rest
  | cons l ls ih =>
    rw [sourceOf_cons]
    cases hl.1 with
    | @string body hb =>
      rw [depthBehind_other (by simp) rfl rfl] at hd
      refine (ih hl.2 hd).prepend fun r u _ hu => ?_
      simpa [Lexeme.source] using IsTail.string (isBody_iff.2 hb) hu
    | @character body hb =>
      rw [depthBehind_other (by simp) rfl rfl] at hd
      refine (ih hl.2 hd).prepend fun r u _ hu => ?_
      simpa [Lexeme.source] using IsTail.character (isCharacter_iff.2 hb) hu
    | @char c hs hq =>
      have hstring : c ≠ '"' := by
        rintro rfl
        simp [depthBehind] at hd
      by_cases ho : c ∈ openers
      · rw [depthBehind_opener ho] at hd
        obtain ⟨inside, c', t', e, hc, hi, ht⟩ := ih hl.2 hd
        rw [e, show (Lexeme.char c).source ++ (inside ++ c' :: t') =
          (c :: (inside ++ [c'])) ++ t' by simp [Lexeme.source]]
        refine ht.prepend fun r u hu htail => ?_
        rw [← hu] at hi
        simpa using IsTail.group ho hc hi htail
      · by_cases hc : c ∈ closers
        · cases d with
          | zero =>
            rw [depthBehind_zero_closer hc] at hd
            simp at hd
          | succ d =>
            rw [depthBehind_closer hc] at hd
            exact ⟨[], c, sourceOf ls, rfl, hc, .nil _, ih hl.2 hd⟩
        · rw [depthBehind_char hstring ho hc] at hd
          refine (ih hl.2 hd).prepend fun r u hu htail => ?_
          by_cases hquote : c = '\''
          · subst hquote
            have hnone : ¬ OpensCharacter (u ++ r) := by
              rw [hu]
              exact not_opensCharacter_iff.2 (hq rfl)
            exact .quote hnone htail
          · exact .other hstring hquote ho hc htail

/-- A tail is what the lexemes of a text spell that come back to depth zero. -/
theorem isTail_iff {rest t : Text} :
    IsTail rest t ↔ ∃ ls, sourceOf ls = t ∧ Lexed rest ls ∧ depthBehind 0 ls = some 0 := by
  constructor
  · intro h
    obtain ⟨ls, hs, hl, hd⟩ := exists_lexemes_of_isTail h
    exact ⟨ls, hs, hl, hd 0⟩
  · rintro ⟨ls, rfl, hl, hd⟩
    exact closesGroups_of_depthBehind (d := 0) hl hd

/-! ## Reading a tail -/

namespace Call

/-- Behind the comma stands a tail, and then the parenthesis that closes the call. -/
theorem readTail_comma_eq_some_iff {tail raw after : Text} :
    readTail (',' :: tail) = some (some raw, after) ↔
      tail = raw ++ ')' :: after ∧ IsTail (')' :: after) raw := by
  simp only [readTail, Option.map_eq_some_iff, Prod.exists, Prod.mk.injEq, Option.some.injEq,
    splitAtClose_eq_some_iff]
  constructor
  · rintro ⟨inside, rest, ⟨hcut, hdepth⟩, rfl, rfl⟩
    have hs := congrArg sourceOf hcut
    rw [source_lexemes, sourceOf_append, sourceOf_cons] at hs
    exact ⟨hs, isTail_iff.2 ⟨inside, rfl, (lexed_of_lexemes hcut).1, hdepth⟩⟩
  · rintro ⟨rfl, htail⟩
    obtain ⟨ls, rfl, hl, hdepth⟩ := isTail_iff.1 htail
    refine ⟨ls, lexemes after, ⟨?_, hdepth⟩, rfl, source_lexemes after⟩
    rw [lexemes_append hl, lexemes_plain after (by decide) (by decide)]

end Call

end TextTransforms
