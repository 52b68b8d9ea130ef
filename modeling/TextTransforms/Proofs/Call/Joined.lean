import TextTransforms.Proofs.Call.Tail

/-!
# Arguments joined again

The pieces between the top-level commas of a text stand apart (`Apart`, `apart_pieces`):
each is lexed in front of what follows it, and only the last one may leave a bracket open.
Any of them, trimmed and joined with `, `, are split into the same arguments again
(`splitArguments_joined`), also if brackets or literals of the text are left open. The one
thing that could go wrong is a quote that opens a literal now; `ClosesNone` says that the
text behind it closes none that was open.
-/

namespace TextTransforms

/-- The argument in a piece. -/
def argumentOf (p : List Lexeme) : Text := Text.trim (sourceOf p)

theorem splitArguments_eq (t : Text) :
    splitArguments t = (((pieces 0 (lexemes t)).1 :: (pieces 0 (lexemes t)).2).map
      argumentOf).filter fun a => !a.isEmpty :=
  rfl

/-! ## Pieces that stand apart -/

/-- The text behind a piece: the pieces that follow, and what stands behind the last one. -/
def textBehind (close : Text) (ps : List (List Lexeme)) : Text :=
  sourceOf (ps.flatMap (.char ',' :: ·)) ++ close

@[simp] theorem textBehind_nil (close : Text) : textBehind close [] = close := rfl

@[simp] theorem textBehind_cons (close : Text) (p : List Lexeme) (ps : List (List Lexeme)) :
    textBehind close (p :: ps) = ',' :: (sourceOf p ++ textBehind close ps) := by
  simp [textBehind, Lexeme.source]

/-- Each piece is lexed in front of what follows it and has no top-level comma, and behind all
but the last one no bracket is open. -/
def Apart (close : Text) : List (List Lexeme) → Prop
  | [] => True
  | p :: ps => Lexed (textBehind close ps) p ∧ (pieces 0 p).2 = [] ∧
      (ps ≠ [] → depthAfter 0 p = 0) ∧ Apart close ps

theorem Apart.lexed {close : Text} {ps : List (List Lexeme)} (h : Apart close ps)
    {p : List Lexeme} (hp : p ∈ ps) : ∃ rest, Lexed rest p := by
  induction ps with
  | nil => simp at hp
  | cons q ps ih =>
    rcases List.mem_cons.1 hp with rfl | hp
    · exact ⟨_, h.1⟩
    · exact ih h.2.2.2 hp

/-- The first piece may start inside brackets, so the induction is on what all pieces but it
are. -/
private theorem apart_pieces_of_depth {close : Text} {ls : List Lexeme} (d : Nat)
    (h : Lexed close ls) :
    Lexed (textBehind close (pieces d ls).2) (pieces d ls).1 ∧
      (pieces d (pieces d ls).1).2 = [] ∧
      ((pieces d ls).2 ≠ [] → depthAfter d (pieces d ls).1 = 0) ∧
      Apart close (pieces d ls).2 := by
  induction ls generalizing d with
  | nil => exact ⟨trivial, rfl, fun hn => absurd rfl hn, trivial⟩
  | cons l ls ih =>
    by_cases hc : l = .char ',' ∧ d = 0
    · obtain ⟨rfl, rfl⟩ := hc
      rw [pieces, if_pos ⟨rfl, rfl⟩]
      exact ⟨trivial, rfl, fun _ => rfl, ih 0 h.2⟩
    · obtain ⟨hlexed, hwhole, hdepth, hrest⟩ := ih (l.nest d) h.2
      rw [pieces, if_neg hc]
      refine ⟨⟨?_, hlexed⟩, ?_, hdepth, hrest⟩
      · have hs := congrArg sourceOf (pieces_eq (l.nest d) ls)
        rw [sourceOf_append] at hs
        rw [textBehind, ← List.append_assoc, hs]
        exact h.1
      · dsimp only
        rw [pieces, if_neg hc]
        exact hwhole

theorem apart_pieces {close : Text} {ls : List Lexeme} (h : Lexed close ls) :
    Apart close ((pieces 0 ls).1 :: (pieces 0 ls).2) :=
  apart_pieces_of_depth 0 h

/-! ## No literal is opened -/

/-- In front of `rest'` no quote opens a literal that it does not open in front of `rest`, or
in front of something that goes on with it. -/
structure ClosesNone (rest rest' : Text) : Prop where
  first : readCharacter rest' = none
  second : rest'.head? ≠ some '\''
  scan : ∀ mark, mark = '"' ∨ mark = '\'' → ∀ e e', (scanBody mark e rest).isSome = true →
    (scanBody mark e' rest').isSome = true

theorem Lexed.exchange {rest rest' : Text} {ls : List Lexeme} (h : Lexed rest ls)
    (hc : ClosesNone rest rest') : Lexed rest' ls :=
  h.replace (fun _ e => hc.scan '"' (.inl rfl) e e)
    ⟨hc.first, hc.second, fun e => hc.scan '\'' (.inr rfl) e e⟩

theorem ne_quote_of_isBlank {c : Char} (h : Text.isBlank c = true) :
    c ≠ '"' ∧ c ≠ '\'' ∧ c ≠ '\\' := by
  refine ⟨?_, ?_, ?_⟩ <;> rintro rfl <;> exact absurd h (by decide)

theorem readCharacter_cons_eq_none {c : Char} {t : Text} (hc : c ≠ '\\')
    (ht : t.head? ≠ some '\'') : readCharacter (c :: t) = none := by
  cases t with
  | nil => simp [readCharacter, hc]
  | cons d t =>
    have hd : d ≠ '\'' := fun e => ht (by simp [e])
    simp [readCharacter, hc, hd]

/-- Blanks in front of a text change nothing for a literal that is not in an escape. -/
theorem scanBody_blanks {mark : Char} (hm : mark = '"' ∨ mark = '\'') {s : Text} (t : Text)
    (hs : Text.IsBlanks s) : scanBody mark false (s ++ t) = scanBody mark false t := by
  induction s with
  | nil => rfl
  | cons c s ih =>
    obtain ⟨hstring, hquote, hescape⟩ := ne_quote_of_isBlank (hs c List.mem_cons_self)
    have hc : c ≠ mark := by rcases hm with rfl | rfl <;> assumption
    rw [List.cons_append, scanBody_plain false _ hc hescape]
    exact ih fun d hd => hs d (List.mem_cons_of_mem _ hd)

theorem closesNone_nil : ClosesNone [] [] :=
  ⟨rfl, by simp, fun _ _ _ _ _ => rfl⟩

/-- Blanks in front of what follows open no literal either. -/
theorem ClosesNone.blanks {rest rest' s : Text} (h : ClosesNone rest rest')
    (hs : Text.IsBlanks s) : ClosesNone rest (s ++ rest') := by
  cases s with
  | nil => exact h
  | cons c s =>
    obtain ⟨hstring, hquote, hescape⟩ := ne_quote_of_isBlank (hs c List.mem_cons_self)
    have hbehind : Text.IsBlanks s := fun d hd => hs d (List.mem_cons_of_mem _ hd)
    refine ⟨readCharacter_cons_eq_none hescape ?_, by simpa using hquote, fun mark hm e e' he => ?_⟩
    · cases s with
      | nil => exact h.second
      | cons d s => simpa using (ne_quote_of_isBlank (hbehind d List.mem_cons_self)).2.1
    · have hc : c ≠ mark := by rcases hm with rfl | rfl <;> assumption
      rw [List.cons_append, scanBody_plain e' _ hc hescape, scanBody_blanks hm _ hbehind]
      exact h.scan mark hm e false he

/-- Arguments behind the first one, and what stands behind the last. -/
def joinedBehind (close : Text) (ks : List Text) : Text :=
  ks.flatMap (", ".toList ++ ·) ++ close

@[simp] theorem joinedBehind_nil (close : Text) : joinedBehind close [] = close := rfl

@[simp] theorem joinedBehind_cons (close k : Text) (ks : List Text) :
    joinedBehind close (k :: ks) = ',' :: ' ' :: (k ++ joinedBehind close ks) := by
  simp [joinedBehind]

section Chosen

variable {close close' : Text} {qs ps : List (List Lexeme)}
  (hclose : ClosesNone close close') (h : qs.Sublist ps)
include hclose h

/-- If the scan passes the pieces, it passes those that were chosen: behind each comma it
starts anew. -/
private theorem scan_joinedBehind {mark : Char} (hm : mark = '"' ∨ mark = '\'') :
    ∀ e e', (scanBody mark e (textBehind close ps)).isSome = true →
      (scanBody mark e' (joinedBehind close' (qs.map argumentOf))).isSome = true := by
  have hcomma : ',' ≠ mark := by rcases hm with rfl | rfl <;> decide
  have hspace : ' ' ≠ mark := by rcases hm with rfl | rfl <;> decide
  induction h with
  | slnil => exact hclose.scan mark hm
  | cons p _ ih =>
    intro e e' hs
    rw [textBehind_cons, scanBody_plain e _ hcomma (by decide), scanBody_append] at hs
    cases hp : scanBody mark false (sourceOf p) with
    | none => simp [hp] at hs
    | some e₁ =>
      rw [hp, Option.bind_some] at hs
      exact ih e₁ e' hs
  | cons_cons p _ ih =>
    intro e e' hs
    obtain ⟨s, u, ht, hsb, -⟩ := Text.exists_blanks_trim (sourceOf p)
    rw [textBehind_cons, scanBody_plain e _ hcomma (by decide), ht, List.append_assoc,
      List.append_assoc, scanBody_blanks hm _ hsb, scanBody_append] at hs
    rw [List.map_cons, joinedBehind_cons, scanBody_plain e' _ hcomma (by decide),
      scanBody_plain false _ hspace (by decide), argumentOf, scanBody_append]
    cases hk : scanBody mark false (Text.trim (sourceOf p)) with
    | none => simp [hk] at hs
    | some e₁ =>
      rw [hk, Option.bind_some, scanBody_append] at hs
      cases hu : scanBody mark e₁ u with
      | none => simp [hu] at hs
      | some e₂ =>
        rw [hu, Option.bind_some] at hs
        exact ih e₂ e₁ hs

private theorem closesNone_joinedBehind (bs : Text) :
    ClosesNone (bs ++ textBehind close ps) (joinedBehind close' (qs.map argumentOf)) := by
  refine ⟨?_, ?_, ?_⟩
  · cases qs with
    | nil => exact hclose.first
    | cons q qs =>
      rw [List.map_cons, joinedBehind_cons]
      exact readCharacter_cons_eq_none (by decide) (by simp)
  · cases qs with
    | nil => exact hclose.second
    | cons q qs => simp
  · intro mark hm e e' hs
    rw [scanBody_append] at hs
    cases hbs : scanBody mark e bs with
    | none => simp [hbs] at hs
    | some e₁ =>
      rw [hbs, Option.bind_some] at hs
      exact scan_joinedBehind hclose h hm e₁ e' hs

end Chosen

/-! ## Splitting what was joined -/

/-- Lexemes in front of `close` that are split into the arguments `ks` behind a comma. -/
structure Joins (close : Text) (ks : List Text) (ls : List Lexeme) : Prop where
  lexed : Lexed close ls
  first : IsBlankRun (pieces 0 ls).1
  rest : (pieces 0 ls).2.map argumentOf = ks

theorem lexed_blanks (rest : Text) {s : Text} (hs : Text.IsBlanks s) :
    Lexed rest (s.map .char) := by
  induction s with
  | nil => trivial
  | cons c s ih =>
    obtain ⟨hstring, hquote, -⟩ := ne_quote_of_isBlank (hs c List.mem_cons_self)
    exact ⟨Lexeme.stands_plain _ hstring hquote, ih fun d hd => hs d (List.mem_cons_of_mem _ hd)⟩

theorem isBlankRun_blanks {s : Text} (hs : Text.IsBlanks s) : IsBlankRun (s.map .char) := by
  intro l hl
  obtain ⟨c, hc, rfl⟩ := List.mem_map.1 hl
  exact ⟨c, rfl, hs c hc⟩

theorem sourceOf_blanks (s : Text) : sourceOf (s.map .char) = s := by
  simp [sourceOf, List.flatMap_map, Lexeme.source]

theorem joins_blanks {close s : Text} (hs : Text.IsBlanks s) : Joins close [] (s.map .char) := by
  have hrun := isBlankRun_blanks hs
  have hpieces := pieces_of_whole (pieces_blankRun 0 hrun)
  exact ⟨lexed_blanks _ hs, by rwa [hpieces], by rw [hpieces]; rfl⟩

/-- One more argument in front, behind `, `. A bracket that it leaves open is open behind the
last argument only. -/
theorem Joins.cons {close : Text} {ks : List Text} {ls core : List Lexeme}
    (h : Joins close ks ls) (hl : Lexed (sourceOf ls ++ close) core)
    (hw : (pieces 0 core).2 = []) (hd : depthAfter 0 core = 0 ∨ IsBlankRun ls) :
    Joins close (argumentOf core :: ks) (.char ',' :: .char ' ' :: (core ++ ls)) := by
  have hblank : IsBlankRun [.char ' '] := by
    intro l hl
    exact ⟨' ', by simpa using hl, by decide⟩
  have hsame : pieces (depthAfter 0 core) ls = pieces 0 ls := by
    rcases hd with hd | hrun
    · rw [hd]
    · rw [pieces_of_whole (pieces_blankRun _ hrun), pieces_of_whole (pieces_blankRun _ hrun)]
  have hcut : pieces 0 (.char ' ' :: (core ++ ls)) =
      (.char ' ' :: (core ++ (pieces 0 ls).1), (pieces 0 ls).2) := by
    rw [← List.singleton_append, pieces_append_whole _ (pieces_blankRun 0 hblank),
      depthAfter_blankRun 0 hblank, pieces_append_whole _ hw, hsame]
    rfl
  have htrim : argumentOf (.char ' ' :: (core ++ (pieces 0 ls).1)) = argumentOf core := by
    rw [argumentOf, ← List.singleton_append, sourceOf_append, sourceOf_append,
      ← List.append_assoc, Text.trim_blanks (isBlanks_sourceOf hblank) (isBlanks_sourceOf h.first)]
    rfl
  constructor
  · exact ⟨Lexeme.stands_plain _ (by decide) (by decide),
      Lexeme.stands_plain _ (by decide) (by decide), lexed_append.2 ⟨hl, h.lexed⟩⟩
  · simp [pieces, IsBlankRun]
  · rw [pieces, if_pos ⟨rfl, rfl⟩, hcut, List.map_cons, h.rest, htrim]

/-- Chosen pieces, trimmed and written behind commas, are lexed and cut as they were. If no
piece leaves a bracket open or closes one that it did not open, they do not either. -/
theorem exists_joins {close close' u : Text} {qs ps : List (List Lexeme)}
    (hclose : ClosesNone close (u ++ close')) (hu : Text.IsBlanks u) (h : qs.Sublist ps)
    (hp : Apart close ps) :
    ∃ ls, sourceOf ls = joinedBehind u (qs.map argumentOf) ∧
      Joins close' (qs.map argumentOf) ls ∧ (qs = [] → IsBlankRun ls) ∧
      ((∀ p ∈ ps, depthBehind 0 p = some 0) → depthBehind 0 ls = some 0) := by
  induction h with
  | slnil =>
    have hrun := isBlankRun_blanks hu
    exact ⟨u.map .char, sourceOf_blanks u, joins_blanks hu, fun _ => hrun,
      fun _ => depthBehind_blankRun 0 hrun⟩
  | @cons qs ps p hsub ih =>
    obtain ⟨ls, hs, hj, hrun, hdepth⟩ := ih hp.2.2.2
    exact ⟨ls, hs, hj, hrun, fun hd => hdepth fun q hq => hd q (List.mem_cons_of_mem _ hq)⟩
  | @cons_cons qs ps p hsub ih =>
    obtain ⟨hlexed, hwhole, hopen, hrest⟩ := hp
    obtain ⟨ls, hs, hj, hrun, hdepth⟩ := ih hrest
    obtain ⟨bs, core, bs', rfl, hb, hb', hcore⟩ := exists_core hlexed
    have hbehind : sourceOf ls ++ close' = joinedBehind (u ++ close') (qs.map argumentOf) := by
      rw [hs, joinedBehind, joinedBehind, List.append_assoc]
    have hin : Lexed (sourceOf ls ++ close') core := by
      rw [hbehind]
      have := (lexed_append.1 (lexed_append.1 hlexed).1).2
      exact this.exchange (closesNone_joinedBehind hclose hsub _)
    have hdepthCore : depthAfter 0 (bs ++ core ++ bs') = depthAfter 0 core := by
      rw [depthAfter_append, depthAfter_append, depthAfter_blankRun 0 hb,
        depthAfter_blankRun _ hb']
    have hlast : depthAfter 0 core = 0 ∨ IsBlankRun ls := by
      by_cases hps : ps = []
      · subst hps
        exact .inr (hrun (List.sublist_nil.1 hsub))
      · exact .inl (hdepthCore.symm.trans (hopen hps))
    have hargument : argumentOf core = argumentOf (bs ++ core ++ bs') := by
      rw [argumentOf, hcore, Text.trim_trim, argumentOf]
    have hnew := hj.cons hin (whole_of_blanks hb hwhole) hlast
    rw [hargument, ← List.map_cons] at hnew
    refine ⟨_, ?_, hnew, by simp, fun hd => ?_⟩
    · rw [List.map_cons, joinedBehind_cons, ← hs, argumentOf, ← hcore]
      simp [Lexeme.source]
    · have hpiece : IsPiece core := IsPiece.of_blanks hb hb' ⟨hd _ List.mem_cons_self, hwhole⟩
      have hplain : depthBehind 0 [.char ',', .char ' '] = some 0 := by decide
      have hls := hdepth fun q hq => hd q (List.mem_cons_of_mem _ hq)
      change depthBehind 0 ([.char ',', .char ' '] ++ (core ++ ls)) = some 0
      rw [depthBehind_append, hplain, Option.bind_some, depthBehind_append, hpiece.depth]
      exact hls

theorem Joins.splitArguments_eq {ks : List Text} {ls : List Lexeme} (h : Joins [] ks ls)
    (hne : ∀ k ∈ ks, k ≠ []) : splitArguments (sourceOf ls) = ks := by
  have hfirst : argumentOf (pieces 0 ls).1 = [] := by
    have hb := isBlanks_sourceOf h.first
    have htrim := Text.trim_blanks (t := []) hb (by simp [Text.IsBlanks] : Text.IsBlanks [])
    rw [List.append_nil, List.append_nil] at htrim
    exact htrim.trans rfl
  rw [TextTransforms.splitArguments_eq, h.lexed.lexemes_sourceOf, List.map_cons, h.rest, hfirst,
    List.filter_cons_of_neg (by simp), List.filter_eq_self]
  intro k hk
  simpa using hne k hk

/-! ## The arguments of a text -/

theorem splitArguments_comma (t : Text) : splitArguments (',' :: t) = splitArguments t := by
  rw [splitArguments_eq, splitArguments_eq, lexemes_plain t (by decide) (by decide), pieces,
    if_pos ⟨rfl, rfl⟩]
  rfl

theorem splitArguments_blanks {s : Text} (t : Text) (hs : Text.IsBlanks s) :
    splitArguments (s ++ t) = splitArguments t := by
  have hrun := isBlankRun_blanks hs
  have hlexemes : lexemes (s ++ t) = s.map .char ++ lexemes t := by
    have := lexemes_append (lexed_blanks t hs)
    rwa [sourceOf_blanks] at this
  have hfirst : argumentOf (s.map .char ++ (pieces 0 (lexemes t)).1) =
      argumentOf (pieces 0 (lexemes t)).1 := by
    have htrim := Text.trim_blanks (t := sourceOf (pieces 0 (lexemes t)).1) hs
      (by simp [Text.IsBlanks] : Text.IsBlanks [])
    rw [List.append_nil] at htrim
    rw [argumentOf, sourceOf_append, sourceOf_blanks, htrim, argumentOf]
  rw [splitArguments_eq, splitArguments_eq, hlexemes,
    pieces_append_whole _ (pieces_blankRun 0 hrun), depthAfter_blankRun 0 hrun]
  dsimp only
  rw [List.map_cons, hfirst, List.map_cons]

/-- A part of the arguments is the arguments of a part of the pieces. -/
theorem exists_sublist_pieces {ps : List (List Lexeme)} {ks : List Text}
    (h : ks.Sublist ((ps.map argumentOf).filter fun a => !a.isEmpty)) :
    (∃ qs : List (List Lexeme), qs.Sublist ps ∧ qs.map argumentOf = ks) ∧
      ∀ k ∈ ks, k ≠ [] := by
  constructor
  · obtain ⟨qs, hq, e⟩ := List.sublist_map_iff.1 (h.trans List.filter_sublist)
    exact ⟨qs, hq, e.symm⟩
  · intro k hk
    simpa using (List.mem_filter.1 (h.subset hk)).2

/-- Arguments joined with `, `. -/
def joined (ks : List Text) : Text := List.intercalate ", ".toList ks

theorem joined_cons (k : Text) (ks : List Text) (close : Text) :
    joined (k :: ks) ++ close = k ++ joinedBehind close ks := by
  induction ks generalizing k with
  | nil => simp [joined]
  | cons l ks ih =>
    have := ih l
    simp only [joined, List.intercalate_cons_cons, List.append_assoc] at this ⊢
    rw [this]
    simp

/-- Blanks in front of joined arguments and behind them are no part of any argument. -/
private theorem splitArguments_sublist {raw s u : Text} {ks : List Text}
    (h : ks.Sublist (splitArguments raw)) (hs : Text.IsBlanks s) (hu : Text.IsBlanks u) :
    splitArguments (s ++ joined ks ++ u) = ks := by
  obtain ⟨⟨qs, hsub, rfl⟩, hne⟩ := exists_sublist_pieces h
  obtain ⟨ls, hsource, hjoins, -, -⟩ :=
    exists_joins (closesNone_nil.blanks hu) hu hsub (apart_pieces (lexed_lexemes raw))
  have hsplit := hjoins.splitArguments_eq hne
  rw [hsource] at hsplit
  rw [List.append_assoc, splitArguments_blanks _ hs]
  cases qs with
  | nil =>
    have := hsplit
    simpa [joined] using this
  | cons q qs =>
    rw [List.map_cons, joinedBehind_cons, splitArguments_comma] at hsplit
    rw [List.map_cons, joined_cons]
    have hspace : Text.IsBlanks [' '] := by
      intro c hc
      obtain rfl : c = ' ' := by simpa using hc
      decide
    have := splitArguments_blanks (argumentOf q ++ joinedBehind u (qs.map argumentOf)) hspace
    rw [List.singleton_append] at this
    rw [← this]
    exact hsplit

/-- Some of the arguments of a text, in order and joined with `, `, are split into the same
arguments again, whatever blanks stand in front of them and behind them. So each argument is
split into itself, and splitting what was joined again changes nothing. -/
theorem splitArguments_joined (raw : Text) :
    (∀ ks s u, ks.Sublist (splitArguments raw) → Text.IsBlanks s → Text.IsBlanks u →
      splitArguments (s ++ joined ks ++ u) = ks) ∧
    (∀ a ∈ splitArguments raw, splitArguments a = [a]) ∧
    splitArguments (joined (splitArguments raw)) = splitArguments raw := by
  have hnone : Text.IsBlanks [] := by simp [Text.IsBlanks]
  refine ⟨fun ks s u => splitArguments_sublist, ?_, ?_⟩
  · intro a ha
    have := splitArguments_sublist (List.singleton_sublist.2 ha) hnone hnone
    simpa [joined] using this
  · have := splitArguments_sublist (List.Sublist.refl (splitArguments raw)) hnone hnone
    simpa using this

/-- In this text a `"` and a bracket are left open. -/
theorem splitArguments_joined_unclosed :
    ["c\\\"".toList, "(d, e".toList].Sublist (splitArguments "a\"b, c\\\", (d, e".toList) ∧
      splitArguments ([' '] ++ joined ["c\\\"".toList, "(d, e".toList] ++ ['\n']) =
        ["c\\\"".toList, "(d, e".toList] := by
  have hargs : splitArguments "a\"b, c\\\", (d, e".toList =
      ["a\"b".toList, "c\\\"".toList, "(d, e".toList] := by decide +kernel
  have hsub : ["c\\\"".toList, "(d, e".toList].Sublist
      (splitArguments "a\"b, c\\\", (d, e".toList) := by
    rw [hargs]
    exact List.sublist_cons_self _ _
  refine ⟨hsub, (splitArguments_joined _).1 _ _ _ hsub ?_ ?_⟩
  all_goals
    intro c hc
    obtain rfl := List.mem_singleton.1 hc
    decide

end TextTransforms
