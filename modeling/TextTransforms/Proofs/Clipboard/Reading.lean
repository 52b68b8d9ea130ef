import TextTransforms.Clipboard.Comments
import TextTransforms.Proofs.Text.Runs

/-!
# Reading comments

Read from the left, a text is characters that stay and comments (`Reads`). Two slashes open a
line comment unless the character of the text right before them is a colon; a block comment
opens only where an end follows, and goes on to the first one. A text is read in one way
(`exists_reads`, `Reads.unique`), and what is left of it is what `stripComments` returns
(`Reads.left_eq_stripComments`).

Where two characters meet because a comment between them is gone, the second one stands in the
place of a slash (`Reads.head?_left`).
-/

namespace TextTransforms.Clipboard

/-! ## Comments -/

/-- Two slashes that no colon stands in front of. -/
def OpensLine (previous : Option Char) (t : Text) : Prop :=
  ['/', '/'] <+: t ∧ previous ≠ some ':'

def HasBlockEnd (t : Text) : Prop := ['*', '/'] <:+: t

/-- The start of a block comment with an end behind it. -/
def OpensBlock (t : Text) : Prop := ∃ inside, t = '/' :: '*' :: inside ∧ HasBlockEnd inside

/-- A line comment goes on to the end of its line, the line break excepted. -/
structure IsLineComment (comment rest : Text) : Prop where
  opens : ['/', '/'] <+: comment
  inLine : ∀ c ∈ comment, c ≠ '\n' ∧ c ≠ '\r'
  ends : ∀ c, rest.head? = some c → c = '\n' ∨ c = '\r'

/-- A block comment goes on to its first end. -/
def IsBlockComment (comment : Text) : Prop :=
  ∃ body, comment = '/' :: '*' :: (body ++ ['*', '/']) ∧ ¬ HasBlockEnd (body ++ ['*'])

/-! ## Pieces -/

inductive Piece where
  | char (c : Char)
  | comment (t : Text)

/-- What is left of the pieces without the comments. -/
def left : List Piece → Text
  | [] => []
  | .char c :: ps => c :: left ps
  | .comment _ :: ps => left ps

/-- The pieces of a text, with the character right before the text. -/
inductive Reads : Option Char → Text → List Piece → Prop
  | done (previous : Option Char) : Reads previous [] []
  | line {previous : Option Char} {comment rest : Text} {ps : List Piece}
      (hp : previous ≠ some ':') (hc : IsLineComment comment rest)
      (hr : Reads comment.getLast? rest ps) :
      Reads previous (comment ++ rest) (.comment comment :: ps)
  | block {previous : Option Char} {comment rest : Text} {ps : List Piece}
      (hc : IsBlockComment comment) (hr : Reads (some '/') rest ps) :
      Reads previous (comment ++ rest) (.comment comment :: ps)
  | char {previous : Option Char} {c : Char} {t : Text} {ps : List Piece}
      (hl : ¬ OpensLine previous (c :: t)) (hb : ¬ OpensBlock (c :: t))
      (hr : Reads (some c) t ps) : Reads previous (c :: t) (.char c :: ps)

/-! ## Ends of blocks -/

section Blocks

variable {c : Char} {t rest : Text}

theorem not_hasBlockEnd_nil : ¬ HasBlockEnd [] := by simp [HasBlockEnd]

theorem hasBlockEnd_cons :
    HasBlockEnd (c :: t) ↔ (c = '*' ∧ t.head? = some '/') ∨ HasBlockEnd t := by
  rw [HasBlockEnd, List.infix_cons_iff, List.cons_prefix_cons, HasBlockEnd]
  cases t with
  | nil => simp
  | cons d t => simp [List.cons_prefix_cons, eq_comm]

theorem HasBlockEnd.of_suffix (h : HasBlockEnd rest) (hs : rest <:+ t) : HasBlockEnd t :=
  List.IsInfix.trans h hs.isInfix

theorem behindBlock?_eq_none_iff : behindBlock? t = none ↔ ¬ HasBlockEnd t := by
  induction t with
  | nil => simp [behindBlock?, not_hasBlockEnd_nil]
  | cons c t ih =>
    rw [behindBlock?, hasBlockEnd_cons]
    split
    · rename_i hc
      simp [hc]
    · rename_i hc
      rw [ih, not_or]
      exact ⟨fun h => ⟨hc, h⟩, And.right⟩

theorem exists_of_behindBlock? (h : behindBlock? t = some rest) :
    ∃ body, t = body ++ ['*', '/'] ++ rest ∧ ¬ HasBlockEnd (body ++ ['*']) := by
  induction t with
  | nil => simp [behindBlock?] at h
  | cons c t ih =>
    rw [behindBlock?] at h
    split at h
    · rename_i hc
      obtain ⟨rfl, hhead⟩ := hc
      obtain ⟨t', rfl⟩ := List.head?_eq_some_iff.1 hhead
      obtain rfl : t' = rest := by simpa using h
      exact ⟨[], rfl, by simp [hasBlockEnd_cons, not_hasBlockEnd_nil]⟩
    · rename_i hc
      obtain ⟨body, rfl, hbody⟩ := ih h
      refine ⟨c :: body, rfl, ?_⟩
      rw [List.cons_append, hasBlockEnd_cons, not_or]
      refine ⟨?_, hbody⟩
      rintro ⟨rfl, hhead⟩
      cases body with
      | nil => simp at hhead
      | cons d body => exact hc ⟨rfl, by simpa using hhead⟩

/-- The first end of a block is at one place only. -/
theorem blockEnd_inj {body body' rest' : Text}
    (h : body ++ ['*', '/'] ++ rest = body' ++ ['*', '/'] ++ rest')
    (hb : ¬ HasBlockEnd (body ++ ['*'])) (hb' : ¬ HasBlockEnd (body' ++ ['*'])) :
    body = body' ∧ rest = rest' := by
  induction body generalizing body' with
  | nil =>
    cases body' with
    | nil => simpa using h
    | cons d body' =>
      -- The end of the first block would stand inside the second one.
      obtain ⟨rfl, hrest⟩ : '*' = d ∧ '/' :: rest = body' ++ ['*', '/'] ++ rest' := by
        simpa using h
      refine absurd (hasBlockEnd_cons.2 (.inl ⟨rfl, ?_⟩)) hb'
      cases body' with
      | nil => simp at hrest
      | cons e body' =>
        obtain rfl : '/' = e := (List.cons.inj hrest).1
        rfl
  | cons c body ih =>
    rw [List.cons_append, hasBlockEnd_cons, not_or] at hb
    cases body' with
    | nil =>
      obtain ⟨rfl, hrest⟩ : c = '*' ∧ body ++ ['*', '/'] ++ rest = '/' :: rest' := by
        simpa using h
      refine absurd ⟨rfl, ?_⟩ hb.1
      cases body with
      | nil => simp at hrest
      | cons e body =>
        obtain rfl : e = '/' := (List.cons.inj hrest).1
        rfl
    | cons d body' =>
      rw [List.cons_append, hasBlockEnd_cons, not_or] at hb'
      obtain ⟨rfl, htail⟩ := List.cons.inj h
      obtain ⟨rfl, hrest⟩ := ih htail hb.2 hb'.2
      exact ⟨rfl, hrest⟩

end Blocks

/-! ## One reading -/

section Reads

variable {previous : Option Char} {c : Char} {t comment rest : Text} {ps ps' : List Piece}

theorem opensLine_cons_iff :
    OpensLine previous (c :: t) ↔ c = '/' ∧ t.head? = some '/' ∧ previous ≠ some ':' := by
  rw [OpensLine, List.cons_prefix_cons, and_assoc]
  cases t <;> simp [eq_comm]

theorem IsLineComment.exists_cons (h : IsLineComment comment rest) :
    ∃ body, comment = '/' :: '/' :: body := by
  obtain ⟨body, rfl⟩ := h.opens
  exact ⟨body, rfl⟩

theorem IsLineComment.opensLine (h : IsLineComment comment rest) (hp : previous ≠ some ':') :
    OpensLine previous (comment ++ rest) :=
  ⟨h.opens.trans (List.prefix_append comment rest), hp⟩

theorem IsBlockComment.opensBlock (h : IsBlockComment comment) (rest : Text) :
    OpensBlock (comment ++ rest) := by
  obtain ⟨body, rfl, -⟩ := h
  exact ⟨body ++ ['*', '/'] ++ rest, rfl, body, rest, rfl⟩

theorem IsBlockComment.inj {comment' rest' : Text} (h : comment ++ rest = comment' ++ rest')
    (hc : IsBlockComment comment) (hc' : IsBlockComment comment') :
    comment = comment' ∧ rest = rest' := by
  obtain ⟨body, rfl, hb⟩ := hc
  obtain ⟨body', rfl, hb'⟩ := hc'
  obtain ⟨rfl, hrest⟩ := blockEnd_inj (List.cons.inj (List.cons.inj h).2).2 hb hb'
  exact ⟨rfl, hrest⟩

theorem IsLineComment.inj {comment' rest' : Text} (h : comment ++ rest = comment' ++ rest')
    (hc : IsLineComment comment rest) (hc' : IsLineComment comment' rest') :
    comment = comment' ∧ rest = rest' := by
  refine Text.run_append_inj (p := fun c => !isLineBreak c) h ?_ ?_ ?_ ?_
  · simpa using hc.inLine
  · simpa using hc'.inLine
  · simpa using hc.ends
  · simpa using hc'.ends

/-- The second character tells the two kinds of comments apart. -/
theorem IsLineComment.ne_block {comment' rest' : Text} (hc : IsLineComment comment rest)
    (hc' : IsBlockComment comment') : comment ++ rest ≠ comment' ++ rest' := by
  obtain ⟨body, rfl⟩ := hc.exists_cons
  obtain ⟨body', rfl, -⟩ := hc'
  simp

theorem Reads.unique (h : Reads previous t ps) (h' : Reads previous t ps') : ps = ps' := by
  induction h generalizing ps' with
  | done =>
    generalize ht : [] = t at h'
    cases h' with
    | done => rfl
    | line _ hc =>
      obtain ⟨body, rfl⟩ := hc.exists_cons
      exact nomatch ht
    | block hc =>
      obtain ⟨body, rfl, -⟩ := hc
      exact nomatch ht
    | char => exact nomatch ht
  | @line previous comment rest ps hp hc hr ih =>
    generalize ht : comment ++ rest = t at h'
    cases h' with
    | done =>
      obtain ⟨body, rfl⟩ := hc.exists_cons
      exact nomatch ht
    | line _ hc' hr' =>
      obtain ⟨rfl, rfl⟩ := hc.inj ht hc'
      rw [ih hr']
    | block hc' => exact absurd ht (hc.ne_block hc')
    | char hl => exact absurd (ht ▸ hc.opensLine hp) hl
  | @block previous comment rest ps hc hr ih =>
    generalize ht : comment ++ rest = t at h'
    cases h' with
    | done =>
      obtain ⟨body, rfl, -⟩ := hc
      exact nomatch ht
    | line _ hc' => exact absurd ht.symm (hc'.ne_block hc)
    | block hc' hr' =>
      obtain ⟨rfl, rfl⟩ := hc.inj ht hc'
      rw [ih hr']
    | char _ hb => exact absurd (ht ▸ hc.opensBlock rest) hb
  | @char previous c t ps hl hb hr ih =>
    generalize ht : c :: t = u at h'
    cases h' with
    | done => exact nomatch ht
    | line hp hc => exact absurd (ht ▸ hc.opensLine hp) hl
    | block hc => exact absurd (ht ▸ hc.opensBlock _) hb
    | char _ _ hr' =>
      obtain ⟨rfl, rfl⟩ := List.cons.inj ht
      rw [ih hr']

/-- What is left starts as the text does, unless a comment starts there. -/
theorem Reads.head?_left (h : Reads previous t ps) :
    (left ps).head? = t.head? ∨ t.head? = some '/' := by
  cases h with
  | done => exact .inl rfl
  | line _ hc =>
    obtain ⟨body, rfl⟩ := hc.exists_cons
    exact .inr rfl
  | block hc =>
    obtain ⟨body, rfl, -⟩ := hc
    exact .inr rfl
  | char => exact .inl rfl

theorem Reads.head?_of_slash (h : Reads previous t ps) (hs : (left ps).head? = some '/') :
    t.head? = some '/' := by
  rcases h.head?_left with he | he
  · rw [← he, hs]
  · exact he

theorem Reads.length_left_le (h : Reads previous t ps) : (left ps).length ≤ t.length := by
  induction h with
  | done => exact Nat.le_refl 0
  | line _ _ _ ih => rw [left, List.length_append]; omega
  | block _ _ ih => rw [left, List.length_append]; omega
  | char _ _ _ ih => exact Nat.succ_le_succ ih

end Reads

/-! ## What is left -/

/-- No block comment opens in the text. -/
def HasNoBlock (t : Text) : Prop := ∀ v, v <:+ t → ¬ OpensBlock v

section Strip

variable {c : Char} {t : Text}

theorem HasNoBlock.of_suffix {rest : Text} (h : HasNoBlock t) (hs : rest <:+ t) :
    HasNoBlock rest :=
  fun v hv => h v (hv.trans hs)

theorem HasNoBlock.tail (h : HasNoBlock (c :: t)) : HasNoBlock t :=
  h.of_suffix (List.suffix_cons c t)

/-- Where no block comment starts, none opens. -/
theorem hasNoBlock_of_not_infix (h : ¬ ['/', '*'] <:+: t) : HasNoBlock t := by
  rintro v hv ⟨inside, rfl, -⟩
  exact h (List.IsInfix.trans ⟨[], inside, rfl⟩ hv.isInfix)

theorem hasNoBlock_of_not_hasBlockEnd (h : ¬ HasBlockEnd t) : HasNoBlock t := by
  rintro v hv ⟨inside, rfl, hend⟩
  exact h (hend.of_suffix ((List.suffix_append ['/', '*'] inside).trans hv))

/-- A block comment that is found to be unclosed shows that no other one is closed. -/
theorem hasNoBlock_of_unclosed (h : ¬ HasBlockEnd t) : HasNoBlock ('/' :: '*' :: t) := by
  intro v hv hopens
  obtain ⟨inside, rfl, hend⟩ := hopens
  rcases List.suffix_cons_iff.1 hv with he | hv
  · obtain rfl := (List.cons.inj (List.cons.inj he).2).2
    exact h hend
  · rcases List.suffix_cons_iff.1 hv with he | hv
    · exact nomatch he
    · exact hasNoBlock_of_not_hasBlockEnd h _ hv ⟨inside, rfl, hend⟩

/-- The rest of the line is a comment that two slashes open. -/
theorem isLineComment_takeWhile (t : Text) :
    IsLineComment ('/' :: '/' :: t.takeWhile (!isLineBreak ·)) (t.dropWhile (!isLineBreak ·)) where
  opens := ⟨_, rfl⟩
  inLine := by
    intro c hc
    rcases List.mem_cons.1 hc with rfl | hc
    · decide
    · rcases List.mem_cons.1 hc with rfl | hc
      · decide
      · simpa using List.mem_takeWhile_imp hc
  ends := fun c hc => by simpa using Text.head?_dropWhile hc

/-- The state of the scan, a slash behind a comment and a mark once a block is unclosed, stands
for the character before the text as far as slashes follow, and for no block in the text. -/
theorem exists_reads_stripCommentsFrom {state previous : Option Char} {openBlock : Bool}
    (hp : t.head? = some '/' → (state = some ':' ↔ previous = some ':'))
    (hb : openBlock = true → HasNoBlock t) :
    ∃ ps, Reads previous t ps ∧ left ps = stripCommentsFrom state openBlock t := by
  fun_induction stripCommentsFrom state openBlock t generalizing previous with
  | case1 state openBlock => exact ⟨[], .done previous, rfl⟩
  | case2 state openBlock c t hc ih =>
    obtain ⟨rfl, hhead, hstate⟩ := hc
    obtain ⟨t, rfl⟩ := List.head?_eq_some_iff.1 hhead
    have hdrop : ('/' :: t).dropWhile (!isLineBreak ·) = t.dropWhile (!isLineBreak ·) := rfl
    have hline := isLineComment_takeWhile t
    obtain ⟨ps, hr, hleft⟩ := @ih (List.getLast? _)
      (fun hs => absurd (hline.ends '/' hs) (by decide))
      (fun ho v hv => (hb ho).tail v (hv.trans (List.dropWhile_suffix _)))
    have hsplit : '/' :: '/' :: t =
        ('/' :: '/' :: t.takeWhile (!isLineBreak ·)) ++ t.dropWhile (!isLineBreak ·) := by
      rw [List.cons_append, List.cons_append, List.takeWhile_append_dropWhile]
    rw [hdrop] at hr
    rw [hsplit]
    exact ⟨_, .line (fun h => hstate ((hp rfl).2 h)) hline hr, hleft⟩
  | case3 state openBlock c t _ hc rest hrest _ ih =>
    obtain ⟨rfl, hhead, -⟩ := hc
    obtain ⟨t, rfl⟩ := List.head?_eq_some_iff.1 hhead
    obtain ⟨body, rfl, hbody⟩ := exists_of_behindBlock? hrest
    obtain ⟨ps, hr, hleft⟩ := @ih (some '/') (fun _ => Iff.rfl)
      (fun ho v hv => (hb ho).tail.tail v (hv.trans (List.suffix_append _ rest)))
    have hblock : IsBlockComment ('/' :: '*' :: (body ++ ['*', '/'])) := ⟨body, rfl, hbody⟩
    exact ⟨_, .block hblock hr, hleft⟩
  | case4 state openBlock c t _ hc hnone ih =>
    obtain ⟨rfl, hhead, -⟩ := hc
    obtain ⟨t, rfl⟩ := List.head?_eq_some_iff.1 hhead
    have hno := hasNoBlock_of_unclosed (behindBlock?_eq_none_iff.1 hnone)
    obtain ⟨ps, hr, hleft⟩ := @ih (some '/') (fun _ => Iff.rfl) (fun _ => hno.tail)
    refine ⟨_, .char ?_ (hno _ (List.suffix_refl _)) hr, by rw [left, hleft]⟩
    simp [opensLine_cons_iff]
  | case5 state openBlock c t hline hblock ih =>
    obtain ⟨ps, hr, hleft⟩ := @ih (some c) (fun _ => Iff.rfl) (fun ho => (hb ho).tail)
    refine ⟨_, .char ?_ ?_ hr, by rw [left, hleft]⟩
    · rw [opensLine_cons_iff]
      rintro ⟨rfl, hhead, hne⟩
      exact hline ⟨rfl, hhead, fun hs => hne ((hp rfl).1 hs)⟩
    · intro hopens
      obtain ⟨inside, he, -⟩ := id hopens
      obtain ⟨rfl, rfl⟩ := List.cons.inj he
      refine hblock ⟨rfl, rfl, Bool.eq_false_iff.2 fun ho => ?_⟩
      exact hb ho _ (List.suffix_refl _) hopens

theorem exists_reads (t : Text) : ∃ ps, Reads none t ps ∧ left ps = stripComments t :=
  exists_reads_stripCommentsFrom (fun _ => Iff.rfl) (by simp)

theorem Reads.left_eq_stripComments {ps : List Piece} (h : Reads none t ps) :
    left ps = stripComments t := by
  obtain ⟨ps', h', hleft⟩ := exists_reads t
  rw [h.unique h', hleft]

end Strip

end TextTransforms.Clipboard
