import Mathlib.Order.Bounds.Basic
import TextTransforms.Proofs.Clipboard.Reading

/-!
# Comments by their places

The places of a text alone say which comments are taken out (`Leaves`): what stands at a place,
which character of the text stands right before it, and where the first line break or the first
end of a block comment follows. A text is read so in one way (`Leaves.unique`), and what that
leaves is what `stripComments` returns (`stripComments_eq_iff_leaves`), though the scan looks
neither back into the text nor, once a block comment is unclosed, for the end of another one.
-/

namespace TextTransforms.Clipboard

/-- Two slashes stand at the place, and no colon right before it. -/
def OpensLineAt (t : Text) (i : Nat) : Prop :=
  ['/', '/'] <+: t.drop i ∧ (t.take i).getLast? ≠ some ':'

/-- The first place from `i` on that has a line feed or a carriage return, or the end of the
text. -/
def IsLineEnd (t : Text) (i j : Nat) : Prop :=
  IsLeast {k | i ≤ k ∧ ∀ c, t[k]? = some c → c = '\n' ∨ c = '\r'} j

/-- The start of a block comment stands at the place. -/
def StartsBlockAt (t : Text) (i : Nat) : Prop := ['/', '*'] <+: t.drop i

/-- The first place behind the start of a block comment at `i` that has the end of one. -/
def IsBlockEnd (t : Text) (i j : Nat) : Prop :=
  IsLeast {k | i + 2 ≤ k ∧ ['*', '/'] <+: t.drop k} j

/-- What is left of a text from a place outside of comments on. -/
inductive Leaves (t : Text) : Nat → Text → Prop
  | done : Leaves t t.length []
  | line {i j : Nat} {u : Text} (hl : OpensLineAt t i) (he : IsLineEnd t i j)
      (hr : Leaves t j u) : Leaves t i u
  | block {i j : Nat} {u : Text} (hl : ¬ OpensLineAt t i) (hb : StartsBlockAt t i)
      (he : IsBlockEnd t i j) (hr : Leaves t (j + 2) u) : Leaves t i u
  | char {i : Nat} {c : Char} {u : Text} (hl : ¬ OpensLineAt t i)
      (hb : ¬ (StartsBlockAt t i ∧ ∃ j, IsBlockEnd t i j)) (hc : t[i]? = some c)
      (hr : Leaves t (i + 1) u) : Leaves t i (c :: u)

/-! ## One way -/

section Unique

variable {t u u' : Text} {i : Nat}

theorem not_opensLineAt_length (t : Text) : ¬ OpensLineAt t t.length := by
  rintro ⟨h, -⟩
  rw [List.drop_length] at h
  simp at h

theorem not_startsBlockAt_length (t : Text) : ¬ StartsBlockAt t t.length := by
  intro h
  rw [StartsBlockAt, List.drop_length] at h
  simp at h

theorem Leaves.unique (h : Leaves t i u) (h' : Leaves t i u') : u = u' := by
  induction h generalizing u' with
  | done =>
    generalize hi : t.length = i at h'
    cases h' with
    | done => rfl
    | line hl => exact absurd (hi ▸ hl) (not_opensLineAt_length t)
    | block _ hb => exact absurd (hi ▸ hb) (not_startsBlockAt_length t)
    | char _ _ hc => simp [← hi] at hc
  | line hl he _ ih =>
    cases h' with
    | done => exact absurd hl (not_opensLineAt_length t)
    | line _ he' hr' =>
      obtain rfl := he.unique he'
      exact ih hr'
    | block hl' => exact absurd hl hl'
    | char hl' => exact absurd hl hl'
  | block hl hb he _ ih =>
    cases h' with
    | done => exact absurd hb (not_startsBlockAt_length t)
    | line hl' => exact absurd hl' hl
    | block _ _ he' hr' =>
      obtain rfl := he.unique he'
      exact ih hr'
    | char _ hb' => exact absurd ⟨hb, _, he⟩ hb'
  | char hl hb hc _ ih =>
    cases h' with
    | done => simp at hc
    | line hl' => exact absurd hl' hl
    | block _ hb' he' => exact absurd ⟨hb', _, he'⟩ hb
    | char _ _ hc' hr' =>
      obtain rfl := Option.some.inj (hc.symm.trans hc')
      rw [ih hr']

end Unique

/-! ## Comments at their places -/

section Places

variable {before comment rest : Text} {c : Char}

theorem opensLineAt_iff :
    OpensLineAt (before ++ rest) before.length ↔ OpensLine before.getLast? rest := by
  rw [OpensLineAt, List.drop_left, List.take_left, OpensLine]

theorem IsLineComment.isLineEnd (hc : IsLineComment comment rest) :
    IsLineEnd (before ++ (comment ++ rest)) before.length (before ++ comment).length := by
  rw [List.length_append]
  refine ⟨⟨Nat.le_add_right _ _, fun c h => ?_⟩, fun k hk => ?_⟩
  · rw [List.getElem?_append_right (Nat.le_add_right _ _), Nat.add_sub_cancel_left,
      List.getElem?_append_right (Nat.le_refl _), Nat.sub_self, ← List.head?_eq_getElem?] at h
    exact hc.ends c h
  · -- An earlier place is inside the comment.
    obtain ⟨hle, hbreak⟩ := hk
    by_contra hlt
    have hin : k - before.length < comment.length := by omega
    have hat : (before ++ (comment ++ rest))[k]? = some comment[k - before.length] := by
      rw [List.getElem?_append_right hle, List.getElem?_append_left hin,
        List.getElem?_eq_getElem hin]
    obtain ⟨hfeed, hreturn⟩ := hc.inLine _ (List.getElem_mem hin)
    exact (hbreak _ hat).elim hfeed hreturn

/-- An end in the body or right behind it would end the comment earlier. -/
theorem not_prefix_body {body : Text} {m : Nat} (hbody : ¬ HasBlockEnd (body ++ ['*']))
    (hm : m < body.length) : ¬ ['*', '/'] <+: (body ++ '*' :: '/' :: rest).drop m := by
  intro h
  have hlong : (['*', '/'] : Text).length ≤ ((body ++ ['*']).drop m).length := by
    simp only [List.length_drop, List.length_append, List.length_cons, List.length_nil]
    omega
  rw [List.append_cons, List.drop_append_of_le_length (by rw [List.length_append]; omega)] at h
  exact hbody ((List.prefix_of_prefix_length_le h (List.prefix_append _ _) hlong).isInfix.trans
    (List.drop_suffix m _).isInfix)

theorem IsBlockComment.isBlockEnd (before rest : Text) (hc : IsBlockComment comment) :
    ∃ j, IsBlockEnd (before ++ (comment ++ rest)) before.length j ∧
      j + 2 = (before ++ comment).length := by
  obtain ⟨body, rfl, hbody⟩ := hc
  have hdrop (m : Nat) : (before ++ ('/' :: '*' :: (body ++ ['*', '/']) ++ rest)).drop
      (before.length + 2 + m) = (body ++ '*' :: '/' :: rest).drop m := by
    rw [Nat.add_assoc, List.drop_append, Nat.add_comm 2 m]
    simp
  refine ⟨before.length + 2 + body.length, ⟨⟨Nat.le_add_right _ _, ?_⟩, fun k hk => ?_⟩, ?_⟩
  · rw [hdrop, List.drop_left]
    exact ⟨rest, rfl⟩
  · obtain ⟨hle, hend⟩ := hk
    obtain ⟨m, rfl⟩ := Nat.exists_eq_add_of_le hle
    by_contra hlt
    rw [hdrop] at hend
    exact not_prefix_body hbody (by omega) hend
  · simp
    omega

/-- A block comment that starts and ends by its places opens there. -/
theorem opensBlock_of_places (h : StartsBlockAt (before ++ rest) before.length)
    (he : ∃ j, IsBlockEnd (before ++ rest) before.length j) : OpensBlock rest := by
  rw [StartsBlockAt, List.drop_left] at h
  obtain ⟨inside, rfl⟩ := h
  obtain ⟨j, ⟨hle, hend⟩, -⟩ := he
  obtain ⟨m, rfl⟩ := Nat.exists_eq_add_of_le hle
  refine ⟨inside, rfl, hend.isInfix.trans ?_⟩
  rw [Nat.add_assoc, ← List.drop_drop, List.drop_left, Nat.add_comm 2 m]
  exact (List.drop_suffix m inside).isInfix

theorem getLast?_append_comment (h : IsBlockComment comment) :
    (before ++ comment).getLast? = some '/' := by
  obtain ⟨body, rfl, -⟩ := h
  have hend : before ++ '/' :: '*' :: (body ++ ['*', '/']) =
      (before ++ '/' :: '*' :: (body ++ ['*'])) ++ ['/'] := by simp
  rw [hend, List.getLast?_concat]

end Places

/-! ## The readings agree -/

/-- What is read behind a part of the text is what the places behind that part leave. -/
theorem Reads.leaves {previous : Option Char} {v : Text} {ps : List Piece}
    (h : Reads previous v ps) (before : Text) (hp : previous = before.getLast?) :
    Leaves (before ++ v) before.length (left ps) := by
  induction h generalizing before with
  | done =>
    rw [List.append_nil]
    exact .done
  | @line previous comment rest ps hcolon hc hr ih =>
    obtain ⟨body, hbody⟩ := hc.exists_cons
    have hlast : comment.getLast? = (before ++ comment).getLast? := by
      rw [hbody, List.getLast?_append, List.getLast?_cons, Option.some_or]
    have hrest := ih (before ++ comment) hlast
    rw [List.append_assoc] at hrest
    exact .line (opensLineAt_iff.2 (hp ▸ hc.opensLine hcolon)) hc.isLineEnd hrest
  | @block previous comment rest ps hc hr ih =>
    obtain ⟨j, hend, hj⟩ := hc.isBlockEnd before rest
    have hrest := ih (before ++ comment) (getLast?_append_comment hc).symm
    rw [List.append_assoc, ← hj] at hrest
    obtain ⟨body, rfl, -⟩ := hc
    refine .block (fun hl => ?_) ?_ hend hrest
    · obtain ⟨⟨_, hslash⟩, -⟩ := opensLineAt_iff.1 hl
      simp at hslash
    · rw [StartsBlockAt, List.drop_left]
      exact ⟨_, rfl⟩
  | @char previous c t ps hl hb hr ih =>
    have hrest := ih (before ++ [c]) (by simp)
    rw [List.append_assoc, List.singleton_append, List.length_append] at hrest
    refine .char (fun h => hl (hp ▸ opensLineAt_iff.1 h)) (fun h => hb ?_) ?_ hrest
    · exact opensBlock_of_places h.1 h.2
    · simp

/-- The result is what the places of the text leave: at a place outside of comments, a line
comment is taken out, up to the line break, if two slashes stand there and no colon right before
them in the text; else a block comment, through its first end, if its start stands there and an
end follows; else the character is left. -/
theorem stripComments_eq_iff_leaves (t u : Text) : stripComments t = u ↔ Leaves t 0 u := by
  obtain ⟨ps, hr, hleft⟩ := exists_reads t
  have hleaves : Leaves t 0 (stripComments t) := hleft ▸ hr.leaves [] rfl
  constructor
  · rintro rfl
    exact hleaves
  · exact hleaves.unique

end TextTransforms.Clipboard
