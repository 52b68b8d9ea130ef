import TextTransforms.Proofs.Call.Body

/-!
# Lexemes in front of a text

How a text is cut into lexemes depends on what follows it: a quote opens a literal
only if the literal is closed further on. `Lexeme.Stands rest l` says that `l` is
the first lexeme of a text that goes on with `rest`, and `Lexed rest ls` that `ls`
are the first lexemes (`lexemes_append`, `lexed_of_lexemes`).

The lexemes of a stretch stay the same in front of another text, if that text closes no
literal that was open (`Lexed.replace`); so they do in front of no text at all
(`Lexed.lexemes_sourceOf`).
-/

namespace TextTransforms

/-- The body of a character literal: one character, or an escape that no quote ends early. -/
def IsCharacterBody (body : Text) : Prop :=
  (∃ c, c ≠ '\\' ∧ body = [c]) ∨ ∃ t, body = '\\' :: t ∧ scanBody '\'' false body = some false

theorem readCharacter_of_body {body : Text} (rest : Text) (h : IsCharacterBody body) :
    readCharacter (body ++ '\'' :: rest) = some (body, rest) := by
  rcases h with ⟨c, hc, rfl⟩ | ⟨t, rfl, h⟩
  · simp [readCharacter, hc]
  · have hr := readBody_of_scanBody rest (by decide) h
    rw [List.cons_append] at hr ⊢
    exact hr

theorem isCharacterBody_of_read {t body rest : Text} (h : readCharacter t = some (body, rest)) :
    IsCharacterBody body := by
  unfold readCharacter at h
  split at h
  · simp at h
  · rename_i c t
    split at h
    · rename_i hc
      have hs := scanBody_of_readBody h
      have he := eq_of_readBody h
      refine .inr ?_
      cases body with
      | nil => simp [hc] at he
      | cons d body =>
        obtain ⟨rfl, -⟩ : c = d ∧ _ := by simpa using he
        exact ⟨body, by rw [hc], hs⟩
    · rename_i hc
      split at h
      · obtain ⟨rfl, -⟩ : _ = body ∧ _ = rest := by simpa using h
        exact .inl ⟨c, hc, rfl⟩
      · simp at h

/-! ## The first lexeme -/

/-- The lexeme is the first one of a text that goes on with `rest`. -/
inductive Lexeme.Stands (rest : Text) : Lexeme → Prop
  | char {c : Char} (hs : c = '"' → readBody '"' rest = none)
      (hc : c = '\'' → readCharacter rest = none) : Stands rest (.char c)
  | string {body : Text} (h : scanBody '"' false body = some false) :
      Stands rest (.literal '"' body)
  | character {body : Text} (h : IsCharacterBody body) : Stands rest (.literal '\'' body)

theorem Lexeme.stands_plain (rest : Text) {c : Char} (hs : c ≠ '"') (hc : c ≠ '\'') :
    Stands rest (.char c) :=
  .char (fun e => absurd e hs) (fun e => absurd e hc)

theorem Lexeme.Stands.read_eq {rest : Text} {l : Lexeme} (h : l.Stands rest) :
    ∃ c t, l.source ++ rest = c :: t ∧ Lexeme.read c t = (l, rest) := by
  cases h with
  | @char c hs hc =>
    refine ⟨c, rest, rfl, ?_⟩
    unfold Lexeme.read
    by_cases h1 : c = '"'
    · simp [h1, hs h1]
    · by_cases h2 : c = '\''
      · simp [h2, hc h2]
      · simp [h1, h2]
  | @string body h =>
    refine ⟨'"', body ++ '"' :: rest, by simp [Lexeme.source], ?_⟩
    simp [Lexeme.read, readBody_of_scanBody rest (by decide) h]
  | @character body h =>
    refine ⟨'\'', body ++ '\'' :: rest, by simp [Lexeme.source], ?_⟩
    simp [Lexeme.read, readCharacter_of_body rest h]

theorem Lexeme.stands_read (c : Char) (t : Text) :
    (Lexeme.read c t).1.Stands (Lexeme.read c t).2 := by
  unfold Lexeme.read
  dsimp only
  split
  · rename_i body rest h
    split at h
    · rename_i hc
      rw [hc]
      exact .string (scanBody_of_readBody h)
    · split at h
      · rename_i hc
        rw [hc]
        exact .character (isCharacterBody_of_read h)
      · simp at h
  · rename_i h
    refine .char (fun hc => ?_) (fun hc => ?_)
    · simpa [hc] using h
    · simpa [hc] using h

/-! ## The first lexemes -/

/-- The lexemes are the first ones of a text that goes on with `rest`. -/
def Lexed (rest : Text) : List Lexeme → Prop
  | [] => True
  | l :: ls => l.Stands (sourceOf ls ++ rest) ∧ Lexed rest ls

@[simp] theorem sourceOf_append (ls ms : List Lexeme) :
    sourceOf (ls ++ ms) = sourceOf ls ++ sourceOf ms :=
  List.flatMap_append

theorem lexed_append {rest : Text} {ls ms : List Lexeme} :
    Lexed rest (ls ++ ms) ↔ Lexed (sourceOf ms ++ rest) ls ∧ Lexed rest ms := by
  induction ls with
  | nil => simp [Lexed]
  | cons l ls ih => simp [Lexed, ih, and_assoc]

theorem lexemes_append {rest : Text} {ls : List Lexeme} (h : Lexed rest ls) :
    lexemes (sourceOf ls ++ rest) = ls ++ lexemes rest := by
  induction ls with
  | nil => simp
  | cons l ls ih =>
    obtain ⟨c, t, e, hr⟩ := h.1.read_eq
    rw [sourceOf_cons, List.append_assoc, e, lexemes, hr, ih h.2, List.cons_append]

theorem lexemes_plain {c : Char} (t : Text) (hs : c ≠ '"') (hc : c ≠ '\'') :
    lexemes (c :: t) = .char c :: lexemes t := by
  have hlexed : Lexed t [.char c] := ⟨Lexeme.stands_plain _ hs hc, trivial⟩
  exact lexemes_append hlexed

theorem lexed_lexemes (t : Text) : Lexed [] (lexemes t) := by
  fun_induction lexemes t with
  | case1 => trivial
  | case2 c t ih =>
    refine ⟨?_, ih⟩
    rw [source_lexemes, List.append_nil]
    exact Lexeme.stands_read c t

/-- The lexemes of a text are lexed in front of what the later ones spell. -/
theorem lexed_of_lexemes {t : Text} {ls ms : List Lexeme} (h : lexemes t = ls ++ ms) :
    Lexed (sourceOf ms) ls ∧ lexemes (sourceOf ms) = ms := by
  have hl := lexed_lexemes t
  rw [h, lexed_append, List.append_nil] at hl
  refine ⟨hl.1, ?_⟩
  have := lexemes_append hl.2
  rwa [List.append_nil, show lexemes [] = [] by rw [lexemes], List.append_nil] at this

/-! ## In front of another text -/

/-- A `'` that opens no literal in front of `rest`, or in front of something that goes
on with `rest`, opens none with `rest'` in its place. -/
structure OpensNoMore (rest rest' : Text) : Prop where
  first : readCharacter rest' = none
  second : rest'.head? ≠ some '\''
  escape : ∀ e, (scanBody '\'' e rest).isSome = true → (scanBody '\'' e rest').isSome = true

theorem opensNoMore_nil (rest : Text) : OpensNoMore rest [] :=
  ⟨rfl, by simp, fun _ _ => rfl⟩

private theorem isSome_scanBody_append {mark : Char} {s rest rest' : Text} {e : Bool}
    (h : ∀ e, (scanBody mark e rest).isSome = true → (scanBody mark e rest').isSome = true)
    (hs : (scanBody mark e (s ++ rest)).isSome = true) :
    (scanBody mark e (s ++ rest')).isSome = true := by
  rw [scanBody_append] at hs ⊢
  cases he : scanBody mark e s with
  | none => simp [he] at hs
  | some e' =>
    rw [he] at hs
    exact h e' hs

theorem OpensNoMore.readCharacter_eq_none {s rest rest' : Text} (h : OpensNoMore rest rest')
    (hs : readCharacter (s ++ rest) = none) : readCharacter (s ++ rest') = none := by
  match s with
  | [] => exact h.first
  | c :: s =>
    unfold readCharacter at hs ⊢
    simp only [List.cons_append] at hs ⊢
    split at hs
    · rename_i hc
      rw [if_pos hc]
      rw [readBody_eq_none_iff] at hs ⊢
      exact isSome_scanBody_append (s := c :: s) h.escape hs
    · rename_i hc
      rw [if_neg hc]
      cases s with
      | nil =>
        have hd := h.second
        cases rest' with
        | nil => rfl
        | cons d rest' =>
          have hne : d ≠ '\'' := fun e => hd (by simp [e])
          simp [hne]
      | cons d s =>
        have hd : d ≠ '\'' := by
          rintro rfl
          simp at hs
        simp [hd]

/-- An unclosed `"` needs as well that the other text closes none that this one leaves open. -/
theorem Lexed.replace {rest rest' : Text} {ls : List Lexeme} (h : Lexed rest ls)
    (hq : Lexeme.char '"' ∈ ls → ∀ e, (scanBody '"' e rest).isSome = true →
      (scanBody '"' e rest').isSome = true)
    (hr : OpensNoMore rest rest') : Lexed rest' ls := by
  induction ls with
  | nil => trivial
  | cons l ls ih =>
    refine ⟨?_, ih h.2 fun hm => hq (List.mem_cons_of_mem _ hm)⟩
    cases h.1 with
    | char hs hc =>
      refine .char (fun e => ?_) (fun e => hr.readCharacter_eq_none (hc e))
      have hnone := hs e
      rw [readBody_eq_none_iff] at hnone ⊢
      exact isSome_scanBody_append (hq (by rw [e]; exact List.mem_cons_self)) hnone
    | string hb => exact .string hb
    | character hb => exact .character hb

/-- Lexemes that are lexed in front of some text are the lexemes of what they spell. -/
theorem Lexed.lexemes_sourceOf {rest : Text} {ls : List Lexeme} (h : Lexed rest ls) :
    lexemes (sourceOf ls) = ls := by
  have := lexemes_append (h.replace (fun _ _ _ => rfl) (opensNoMore_nil rest))
  rwa [List.append_nil, show lexemes [] = [] by rw [lexemes], List.append_nil] at this

end TextTransforms
