import TextTransforms.Proofs.Clipboard.Bare

/-!
# Stripping comments twice

No line comment is left of a text: two slashes that meet when comments are taken out stood next
to each other before, so that a colon saved the first one (`Reads.colon_of_slashes`). A block
comment can be left in one way only: the comments between `:/` and a star are taken out, and an
end follows (`Joins`). So a second run changes nothing exactly if this does not happen
(`stripComments_idempotent_iff`).
-/

namespace TextTransforms.Clipboard

/-! ## Pieces -/

section Pieces

variable {c : Char} {t : Text} {ps : List Piece}

@[simp] theorem left_append (ps qs : List Piece) : left (ps ++ qs) = left ps ++ left qs := by
  induction ps with
  | nil => rfl
  | cons p ps ih => cases p <;> simp [left, ih]

@[simp] theorem left_map_comment (comments : List Text) : left (comments.map .comment) = [] := by
  induction comments with
  | nil => rfl
  | cons t comments ih => exact ih

/-- In front of the first character that is left there are comments only. -/
theorem exists_of_left_eq_cons (h : left ps = c :: t) :
    ∃ (comments : List Text) (after : List Piece),
      ps = comments.map .comment ++ .char c :: after ∧ left after = t := by
  induction ps with
  | nil => exact nomatch h
  | cons p ps ih =>
    cases p with
    | char d =>
      obtain ⟨rfl, rfl⟩ := List.cons.inj h
      exact ⟨[], ps, rfl, rfl⟩
    | comment s =>
      obtain ⟨comments, after, rfl, hafter⟩ := ih h
      exact ⟨s :: comments, after, rfl, hafter⟩

end Pieces

/-- The comments between `:/` and a star are taken out, and the end of a block comment is left
behind the star. -/
def Joins (ps : List Piece) : Prop :=
  ∃ (before : List Piece) (comments : List Text) (after : List Piece),
    ps = before ++ .char ':' :: .char '/' :: (comments.map .comment ++ .char '*' :: after) ∧
      comments ≠ [] ∧ HasBlockEnd (left after)

theorem Joins.cons {ps : List Piece} (h : Joins ps) (p : Piece) : Joins (p :: ps) := by
  obtain ⟨before, comments, after, rfl, hne, hend⟩ := h
  exact ⟨p :: before, comments, after, rfl, hne, hend⟩

/-! ## What meets -/

section Meets

variable {previous last : Option Char} {c : Char} {t s : Text} {ps : List Piece}

theorem Reads.head?_of_char (h : Reads previous t (.char c :: ps)) : t.head? = some c := by
  cases h
  rfl

theorem Reads.head?_of_comment (h : Reads previous t (.comment s :: ps)) :
    t.head? = some '/' := by
  cases h with
  | line _ hc =>
    obtain ⟨body, rfl⟩ := hc.exists_cons
    rfl
  | block hc =>
    obtain ⟨body, rfl, -⟩ := hc
    rfl

/-- A slash in front of a slash stays only behind a colon. -/
theorem colon_of_not_opensLine (h : ¬ OpensLine previous ('/' :: t)) (ht : t.head? = some '/') :
    previous = some ':' := by
  by_contra hne
  exact h (opensLine_cons_iff.2 ⟨rfl, ht, hne⟩)

/-- Two slashes that are left stand behind a colon. The character left last, `last`, is the one
right before the text where it matters. -/
theorem Reads.colon_of_slashes (h : Reads previous t ps)
    (hlast : previous = some ':' → t.head? = some '/' → last = some ':') {u v : Text}
    (hu : left ps = u ++ '/' :: '/' :: v) : u.getLast?.or last = some ':' := by
  induction h generalizing last u with
  | done => simp [left] at hu
  | line hp hc hr ih =>
    exact ih (fun _ hs => absurd (hc.ends '/' hs) (by decide)) hu
  | block hc hr ih => exact ih (fun h => absurd h (by decide)) hu
  | @char previous c t ps hl hb hr ih =>
    cases u with
    | nil =>
      obtain ⟨rfl, hv⟩ := List.cons.inj hu
      have hs : t.head? = some '/' := hr.head?_of_slash (by rw [hv]; rfl)
      exact hlast (colon_of_not_opensLine hl hs) rfl
    | cons d u =>
      obtain ⟨rfl, hrest⟩ := List.cons.inj hu
      rw [getLast?_cons_or]
      exact ih (fun h _ => h) hrest

/-- The end of a block comment that is left is one of the text. -/
theorem Reads.hasBlockEnd (h : Reads previous t ps) (he : HasBlockEnd (left ps)) :
    HasBlockEnd t := by
  induction h with
  | done => exact he
  | line _ _ _ ih => exact (ih he).of_suffix (List.suffix_append _ _)
  | block _ _ ih => exact (ih he).of_suffix (List.suffix_append _ _)
  | char _ _ hr ih =>
    rw [left, hasBlockEnd_cons] at he
    rw [hasBlockEnd_cons]
    exact he.imp (fun h => ⟨h.1, hr.head?_of_slash h.2⟩) ih

/-- Where a block comment opens in what is left, comments between `:/` and a star are gone; the
colon may be the character right before the text. -/
theorem Reads.joins_of_opensBlock (h : Reads previous t ps) {v : Text} (hv : v <:+ left ps)
    (hopens : OpensBlock v) :
    Joins ps ∨ (previous = some ':' ∧ ∃ (comments : List Text) (after : List Piece),
      ps = .char '/' :: (comments.map .comment ++ .char '*' :: after) ∧ comments ≠ [] ∧
        HasBlockEnd (left after)) := by
  induction h with
  | done =>
    obtain ⟨inside, rfl, -⟩ := hopens
    simp [left] at hv
  | line hp hc hr ih =>
    rcases ih hv with hj | ⟨-, comments, after, rfl, -⟩
    · exact .inl (hj.cons _)
    · exact absurd (hc.ends '/' hr.head?_of_char) (by decide)
  | block hc hr ih =>
    rcases ih hv with hj | ⟨hcolon, -⟩
    · exact .inl (hj.cons _)
    · exact absurd hcolon (by decide)
  | @char previous c t ps hl hb hr ih =>
    rcases List.suffix_cons_iff.1 hv with rfl | hv
    · obtain ⟨inside, he, hend⟩ := hopens
      obtain ⟨rfl, hstar⟩ := List.cons.inj he
      obtain ⟨comments, after, rfl, rfl⟩ := exists_of_left_eq_cons hstar
      cases comments with
      | nil =>
        -- The star stands right behind the slash, and the end is one of the text.
        refine absurd ?_ hb
        cases hr with
        | char _ _ hr => exact ⟨_, rfl, hr.hasBlockEnd hend⟩
      | cons s comments =>
        refine .inr ⟨colon_of_not_opensLine hl hr.head?_of_comment, s :: comments, after, rfl, ?_,
          hend⟩
        exact List.cons_ne_nil s comments
    · rcases ih hv with hj | ⟨hcolon, comments, after, rfl, hne, hend⟩
      · exact .inl (hj.cons _)
      · obtain rfl : c = ':' := Option.some.inj hcolon
        exact .inl ⟨[], comments, after, rfl, hne, hend⟩

theorem Reads.hasNoBlock_left_iff (h : Reads none t ps) :
    HasNoBlock (left ps) ↔ ¬ Joins ps := by
  constructor
  · rintro hno ⟨before, comments, after, rfl, -, hend⟩
    refine hno ('/' :: '*' :: left after) ⟨left before ++ [':'], ?_⟩ ⟨left after, rfl, hend⟩
    simp [left]
  · intro hj v hv hopens
    rcases h.joins_of_opensBlock hv hopens with hjoins | ⟨hcolon, -⟩
    · exact hj hjoins
    · simp at hcolon

end Meets

/-- A second run changes nothing exactly if taking out the comments does not join `:/` with a
star in front of the end of a block comment; a line comment is never left. -/
theorem stripComments_idempotent_iff (t : Text) :
    (stripComments (stripComments t) = stripComments t ↔
      ∀ ps, Reads none t ps → ¬ Joins ps) ∧
    (∃ ps, Reads none t ps) ∧
    ∀ u v, stripComments t = u ++ '/' :: '/' :: v → u.getLast? = some ':' := by
  obtain ⟨ps, hr, hleft⟩ := exists_reads t
  have hline : ∀ u v, stripComments t = u ++ '/' :: '/' :: v → u.getLast? = some ':' := by
    intro u v hu
    have hcolon : u.getLast?.or none = some ':' :=
      hr.colon_of_slashes (fun h => nomatch h) (hleft.trans hu)
    rwa [Option.or_none] at hcolon
  refine ⟨?_, ⟨ps, hr⟩, hline⟩
  rw [stripComments_eq_self_iff, isBare_iff, and_iff_right hline, ← hleft, hr.hasNoBlock_left_iff]
  exact ⟨fun hj ps' hr' => hr'.unique hr ▸ hj, fun hj => hj ps hr⟩

/-- The second slash behind the colon opens a block comment; without it the first one opens
another. -/
theorem stripComments_twice_ne :
    stripComments (stripComments "http://**/*.js */".toList) ≠
      stripComments "http://**/*.js */".toList := by
  have honce : stripComments "http://**/*.js */".toList = "http:/*.js */".toList := by
    simp [stripComments, stripCommentsFrom, behindBlock?]
  have htwice : stripComments "http:/*.js */".toList = "http:".toList := by
    simp [stripComments, stripCommentsFrom, behindBlock?]
  rw [honce, htwice]
  decide

end TextTransforms.Clipboard
