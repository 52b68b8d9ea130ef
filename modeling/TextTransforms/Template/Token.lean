import TextTransforms.Error
import TextTransforms.Template.Placeholder

/-!
# Template tokens

A template is text with placeholders in braces; a doubled brace stands for
itself. Its tokens are doubled braces, placeholders and the runs of other
characters between them. Templates are limited in length and in tokens, and a
brace that belongs to no token is an error.

Shown here: tokens and leftover spell the template (`source_readTokens`), so
the tokens of an accepted template spell all of it (`source_of_tokens`).
-/

namespace TextTransforms

inductive Token where
  /-- Text as written, doubled braces included. -/
  | text (source : Text)
  | placeholder (placeholder : Placeholder)
  deriving DecidableEq, Repr

namespace Token

def source : Token → Text
  | text source => source
  | placeholder p => p.source

def isBrace (c : Char) : Bool := c == '{' || c == '}'

/-- The first token of a template that starts with `c`, and the template behind it. -/
def read (c : Char) (t : Text) : Option (Token × Text) :=
  if isBrace c then
    match t with
    | [] => none
    | d :: rest =>
      if d = c then some (text [c, c], rest)
      else if c = '{' then
        match t.dropWhile (!isBrace ·) with
        | '}' :: rest => some (placeholder (.ofContent (t.takeWhile (!isBrace ·))), rest)
        | _ => none
      else none
  else some (text (c :: t.takeWhile (!isBrace ·)), t.dropWhile (!isBrace ·))

theorem source_read {c : Char} {t rest : Text} {token : Token}
    (h : read c t = some (token, rest)) : token.source ++ rest = c :: t := by
  unfold read at h
  split at h
  · split at h
    · simp at h
    · split at h
      · rename_i hd
        obtain ⟨rfl, rfl⟩ : _ = token ∧ _ = rest := by simpa using h
        simp [source, hd]
      · split at h
        · rename_i hc
          split at h
          · rename_i d tail _ _ _ hr
            obtain ⟨rfl, rfl⟩ : _ = token ∧ _ = rest := by simpa using h
            have := List.takeWhile_append_dropWhile (p := (!isBrace ·)) (l := d :: tail)
            rw [hr] at this
            simp only [source, Placeholder.source, Placeholder.content_ofContent, hc]
            simpa using this
          · simp at h
        · simp at h
  · obtain ⟨rfl, rfl⟩ : _ = token ∧ _ = rest := by simpa using h
    simp [source]

theorem source_ne_nil_of_read {c : Char} {t rest : Text} {token : Token}
    (h : read c t = some (token, rest)) : token.source ≠ [] := by
  unfold read at h
  split at h
  · split at h
    · simp at h
    · split at h
      · obtain ⟨rfl, -⟩ : _ = token ∧ _ = rest := by simpa using h
        simp [source]
      · split at h
        · split at h
          · obtain ⟨rfl, -⟩ : _ = token ∧ _ = rest := by simpa using h
            simp [source, Placeholder.source]
          · simp at h
        · simp at h
  · obtain ⟨rfl, -⟩ : _ = token ∧ _ = rest := by simpa using h
    simp [source]

theorem length_lt_of_read {c : Char} {t rest : Text} {token : Token}
    (h : read c t = some (token, rest)) : rest.length < (c :: t).length := by
  have hl := congrArg List.length (source_read h)
  have := List.length_pos_iff.2 (source_ne_nil_of_read h)
  rw [List.length_append] at hl
  omega

end Token

/-- The tokens that can be read from the start of a template, and what is left. -/
def readTokens : Text → List Token × Text
  | [] => ([], [])
  | c :: t =>
    match h : Token.read c t with
    | none => ([], c :: t)
    | some (token, rest) =>
      have := Token.length_lt_of_read h
      let (tokens, leftover) := readTokens rest
      (token :: tokens, leftover)
termination_by t => t.length
decreasing_by exact this

theorem source_readTokens (t : Text) :
    (readTokens t).1.flatMap Token.source ++ (readTokens t).2 = t := by
  fun_induction readTokens t with
  | case1 => rfl
  | case2 => rfl
  | case3 c t token rest h _ _ _ e ih =>
    rw [e] at ih
    rw [List.flatMap_cons, List.append_assoc, ih, Token.source_read h]

/-- The tokens of a template. -/
def templateTokens (t : Text) : Except Error (List Token) :=
  if Error.templateLimit < t.utf8Length then .error (.templateTooLong t.utf8Length)
  else
    let (tokens, leftover) := readTokens t
    if Error.tokenLimit < tokens.length then .error .tooManyTokens
    else if leftover.isEmpty then .ok tokens
    else .error (.unescapedBrace (t.utf8Length - leftover.utf8Length))

theorem source_of_tokens {t : Text} {tokens : List Token} (h : templateTokens t = .ok tokens) :
    tokens.flatMap Token.source = t := by
  unfold templateTokens at h
  split at h
  · simp at h
  · have hs := source_readTokens t
    dsimp only at h
    split at h
    · simp at h
    · split at h
      · rename_i he
        rw [List.isEmpty_iff.1 he, List.append_nil] at hs
        simpa using (Except.ok.inj h) ▸ hs
      · simp at h

end TextTransforms
