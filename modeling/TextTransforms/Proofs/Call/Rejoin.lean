import TextTransforms.Call.Basic
import TextTransforms.Proofs.Call.Joined

/-!
# Arguments written back

The pieces of a tail stand in place: each is lexed in front of what follows it
(`Placed`, `exists_pieces_of_readTail`). If some of the trimmed pieces are written
back with commas between them, and those left out have no `'`, the new tail is
read to its end and split into exactly the arguments that were kept
(`readTail_writeTail`). The one thing that could go wrong is a `'` that opens a
literal now: right before the closing parenthesis one does if the text behind the
call starts with `'`.
-/

namespace TextTransforms

/-! ## Pieces in place -/

/-- The text behind a piece: the pieces that follow, and what closes the tail. -/
def behindPieces (after : Text) (ps : List (List Lexeme)) : Text :=
  ps.flatMap (fun p => ',' :: sourceOf p) ++ ')' :: after

/-- Each piece is lexed in front of what follows it. -/
def Placed (after : Text) : List (List Lexeme) → Prop
  | [] => True
  | p :: ps => Lexed (behindPieces after ps) p ∧ IsPiece p ∧ Placed after ps

@[simp] theorem behindPieces_cons (after : Text) (p : List Lexeme) (ps : List (List Lexeme)) :
    behindPieces after (p :: ps) = ',' :: (sourceOf p ++ behindPieces after ps) := by
  simp [behindPieces]

theorem sourceOf_flatMap_comma (after : Text) (ps : List (List Lexeme)) :
    sourceOf (ps.flatMap (.char ',' :: ·)) ++ ')' :: after = behindPieces after ps := by
  induction ps with
  | nil => rfl
  | cons p ps ih =>
    rw [List.flatMap_cons, sourceOf_append, List.append_assoc, ih]
    simp [Lexeme.source]

private theorem placed_of_lexed {after : Text} {ps : List (List Lexeme)}
    (h : Lexed (')' :: after) (ps.flatMap (.char ',' :: ·))) (hp : ∀ p ∈ ps, IsPiece p) :
    Placed after ps := by
  induction ps with
  | nil => trivial
  | cons p ps ih =>
    rw [List.flatMap_cons, List.cons_append, Lexed, lexed_append, sourceOf_flatMap_comma] at h
    exact ⟨h.2.1, hp p List.mem_cons_self, ih h.2.2 fun q hq => hp q (List.mem_cons_of_mem _ hq)⟩

/-- The arguments of a tail are its pieces, trimmed, less the empty ones. -/
theorem exists_pieces_of_readTail {t raw after : Text}
    (h : Call.readTail t = some (some raw, after)) :
    ∃ ps, Placed after ps ∧
      splitArguments raw =
        (ps.map fun p => Text.trim (sourceOf p)).filter fun a => !a.isEmpty := by
  unfold Call.readTail at h
  split at h
  · simp at h
  · rename_i tail
    obtain ⟨⟨inside, rest⟩, hr, he⟩ := Option.map_eq_some_iff.1 h
    obtain ⟨rfl, rfl⟩ : sourceOf inside = raw ∧ sourceOf rest = after := by simpa using he
    obtain ⟨hcut, hdepth⟩ := splitAtClose_eq_some_iff.1 hr
    have hlexed := (lexed_of_lexemes hcut).1
    rw [sourceOf_cons, Lexeme.source, List.singleton_append] at hlexed
    have hinside := hlexed.lexemes_sourceOf
    have hpieces := isPiece_of_mem_pieces hdepth
    have heq := pieces_eq 0 inside
    refine ⟨(pieces 0 inside).1 :: (pieces 0 inside).2, ?_, by rw [splitArguments, hinside]⟩
    rw [← heq, lexed_append, sourceOf_flatMap_comma] at hlexed
    exact ⟨hlexed.1, ⟨hpieces.1.1, hpieces.1.2⟩, placed_of_lexed hlexed.2 hpieces.2⟩
  · simp at h

theorem apart_of_placed {after : Text} {ps : List (List Lexeme)} (h : Placed after ps) :
    Apart (')' :: after) ps ∧ ∀ p ∈ ps, depthBehind 0 p = some 0 := by
  induction ps with
  | nil => exact ⟨trivial, by simp⟩
  | cons p ps ih =>
    obtain ⟨hlexed, hpiece, hrest⟩ := h
    obtain ⟨hapart, hdepth⟩ := ih hrest
    rw [← sourceOf_flatMap_comma] at hlexed
    exact ⟨⟨hlexed, hpiece.whole, fun _ => depthAfter_of_depthBehind hpiece.depth, hapart⟩,
      List.forall_mem_cons.2 ⟨hpiece.depth, hdepth⟩⟩

/-! ## The kept arguments -/

/-- Some of the pieces of a tail, trimmed. Those left out have no `'`. -/
inductive Keeps : List (List Lexeme) → List Text → Prop
  | nil : Keeps [] []
  | drop {p : List Lexeme} {ps : List (List Lexeme)} {ks : List Text}
      (hp : '\'' ∉ sourceOf p) (h : Keeps ps ks) : Keeps (p :: ps) ks
  | keep {p : List Lexeme} {ps : List (List Lexeme)} {ks : List Text}
      (hp : Text.trim (sourceOf p) ≠ []) (h : Keeps ps ks) :
      Keeps (p :: ps) (Text.trim (sourceOf p) :: ks)

theorem Keeps.ne_nil {ps : List (List Lexeme)} {ks : List Text} (h : Keeps ps ks) :
    ∀ k ∈ ks, k ≠ [] := by
  induction h with
  | nil => simp
  | drop _ _ ih => exact ih
  | keep hp _ ih =>
    intro k hk
    rcases List.mem_cons.1 hk with rfl | hk
    · exact hp
    · exact ih k hk

theorem Keeps.exists_sublist {ps : List (List Lexeme)} {ks : List Text} (h : Keeps ps ks) :
    ∃ qs : List (List Lexeme), qs.Sublist ps ∧ qs.map argumentOf = ks := by
  induction h with
  | nil => exact ⟨[], .slnil, rfl⟩
  | @drop p _ _ _ _ ih =>
    obtain ⟨qs, hsub, e⟩ := ih
    exact ⟨qs, hsub.cons p, e⟩
  | @keep p _ _ _ _ ih =>
    obtain ⟨qs, hsub, e⟩ := ih
    exact ⟨p :: qs, hsub.cons_cons p, by rw [List.map_cons, e, argumentOf]⟩

/-- The arguments behind a template, what closes the call and what follows it. -/
def writeTail (lineEnd after : Text) (ks : List Text) : Text :=
  ks.flatMap (", ".toList ++ ·) ++ lineEnd ++ ')' :: after

theorem writeTail_cons (lineEnd after k : Text) (ks : List Text) :
    writeTail lineEnd after (k :: ks) = ',' :: ' ' :: (k ++ writeTail lineEnd after ks) := by
  simp [writeTail]

/-! ## Reading the kept arguments -/

section WriteTail

variable {lineEnd after : Text}

/-- In front of the closing parenthesis a `'` opens a literal only if the text behind it
starts with one. -/
private theorem closesNone_closing (hafter : after.head? ≠ some '\'') :
    ClosesNone (')' :: after) (')' :: after) := by
  refine ⟨readCharacter_cons_eq_none (by decide) hafter, by simp, fun mark hm e e' hs => ?_⟩
  have hparen : ')' ≠ mark := by rcases hm with rfl | rfl <;> decide
  rw [scanBody_plain e _ hparen (by decide)] at hs
  rwa [scanBody_plain e' _ hparen (by decide)]

/-- Lexemes whose text starts with a comma start with its lexeme. -/
private theorem exists_eq_comma_cons {rest t : Text} {ls : List Lexeme} (h : Lexed rest ls)
    (hne : ls ≠ []) (hs : sourceOf ls ++ rest = ',' :: t) :
    ∃ ms, ls = .char ',' :: ms ∧ sourceOf ms ++ rest = t := by
  cases ls with
  | nil => exact absurd rfl hne
  | cons l ms =>
    cases h.1 with
    | @char c =>
      obtain ⟨rfl, hms⟩ : c = ',' ∧ _ := by simpa [Lexeme.source] using hs
      exact ⟨ms, rfl, hms⟩
    | string => simp [Lexeme.source] at hs
    | character => simp [Lexeme.source] at hs

private theorem readTail_of_joins {ks : List Text} {ms : List Lexeme}
    (h : Joins (')' :: after) ks (.char ',' :: ms))
    (hdepth : depthBehind 0 (.char ',' :: ms) = some 0) (hne : ∀ k ∈ ks, k ≠ []) :
    Call.readTail (',' :: (sourceOf ms ++ ')' :: after)) = some (some (sourceOf ms), after) ∧
      splitArguments (sourceOf ms) = ks := by
  rw [depthBehind, if_neg (by decide), if_neg (by decide)] at hdepth
  have hdepth' : depthBehind 0 ms = some 0 := hdepth
  constructor
  · have hlex : lexemes (sourceOf ms ++ ')' :: after) = ms ++ .char ')' :: lexemes after := by
      rw [lexemes_append h.lexed.2, lexemes_plain after (by decide) (by decide)]
    rw [Call.readTail, hlex, splitAtClose_of_depthBehind _ hdepth']
    simp
  · have hraw := h.lexed.2.lexemes_sourceOf
    have hrest := h.rest
    rw [pieces, if_pos ⟨rfl, rfl⟩] at hrest
    dsimp only at hrest
    rw [splitArguments_eq, hraw, hrest, List.filter_eq_self]
    intro a ha
    simpa using hne a ha

/-- The kept arguments are read back, and nothing else. -/
theorem readTail_writeTail (hline : Text.IsBlanks lineEnd) (hafter : after.head? ≠ some '\'')
    {ps : List (List Lexeme)} {ks : List Text} (h : Keeps ps ks) (hp : Placed after ps) :
    ∃ raw, Call.readTail (Text.trimStart (writeTail lineEnd after ks)) = some (raw, after) ∧
      (raw.map splitArguments).getD [] = ks := by
  cases ks with
  | nil =>
    refine ⟨none, ?_, rfl⟩
    rw [writeTail, List.flatMap_nil, List.nil_append, Text.trimStart_blanks _ hline,
      Text.trimStart_cons_of_not _ (by decide)]
    rfl
  | cons k ks =>
    obtain ⟨qs, hsub, e⟩ := h.exists_sublist
    obtain ⟨hapart, hall⟩ := apart_of_placed hp
    obtain ⟨ls, hs, hjoins, -, hdepth⟩ :=
      exists_joins ((closesNone_closing hafter).blanks hline) hline hsub hapart
    rw [e] at hs hjoins
    have hsource : sourceOf ls ++ ')' :: after = writeTail lineEnd after (k :: ks) := by
      rw [hs, joinedBehind, writeTail]
    rw [writeTail_cons] at hsource ⊢
    rw [Text.trimStart_cons_of_not _ (by decide)]
    have hne : ls ≠ [] := by
      rintro rfl
      simp at hsource
    obtain ⟨ms, rfl, hms⟩ := exists_eq_comma_cons hjoins.lexed hne hsource
    obtain ⟨hread, hsplit⟩ := readTail_of_joins hjoins (hdepth hall) h.ne_nil
    rw [← hms]
    exact ⟨some (sourceOf ms), hread, hsplit⟩

end WriteTail

end TextTransforms
