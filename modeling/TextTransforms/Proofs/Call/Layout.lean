import TextTransforms.Proofs.Call.Rejoin
import TextTransforms.Proofs.Call.Search

/-!
# How a call stands in a text

A call that is read at a word is laid out around its literal (`IsLaidOut`,
`exists_of_find?`). One that is written around another literal and fewer
arguments is read as such, if its scans come through (`readAtWord_written`).
-/

namespace TextTransforms.Call

/-! ## Reading -/

/-- The tail of a call up to the closing parenthesis. -/
def closing (rawArguments : Option Text) : Text :=
  match rawArguments with
  | none => [')']
  | some raw => ',' :: (raw ++ [')'])

theorem eq_of_readTail {t after : Text} {raw : Option Text} (h : readTail t = some (raw, after)) :
    t = closing raw ++ after := by
  unfold readTail at h
  split at h
  · obtain ⟨rfl, rfl⟩ : none = raw ∧ _ = after := by simpa using h
    rfl
  · rename_i tail
    obtain ⟨⟨inside, rest⟩, hr, he⟩ := Option.map_eq_some_iff.1 h
    obtain ⟨rfl, rfl⟩ : some (sourceOf inside) = raw ∧ sourceOf rest = after := by simpa using he
    have hs := congrArg sourceOf (splitAtClose_eq hr)
    rw [source_lexemes] at hs
    rw [hs]
    simp [closing, Lexeme.source]
  · simp at h

/-- The parts of a call from its name on. `front` stands between the name and the
literal, `gap` behind the literal. -/
structure IsLaidOut (call : Call) (front gap : Text) : Prop where
  isName : isName call.name = true
  quote : call.quote = '"' ∨ call.quote = '\''
  literal : scanBody call.quote false call.literal = some false
  tail : readTail (closing call.rawArguments ++ call.after) = some (call.rawArguments, call.after)
  isMultiline : call.isMultiline = (front ++ call.quote :: (call.literal ++ call.quote ::
    (gap ++ closing call.rawArguments))).contains '\n'

theorem expect_eq_some_iff {c : Char} {t rest : Text} : expect c t = some rest ↔ t = c :: rest := by
  cases t with
  | nil => simp [expect]
  | cons d t => simp [expect]

/-- The blanks that a call may hold. -/
structure Gaps where
  behindMark : { t : Text // Text.IsBlanks t }
  beforeLiteral : { t : Text // Text.IsBlanks t }
  behindLiteral : { t : Text // Text.IsBlanks t }

/-- A call from the text behind its name to its closing parenthesis. -/
def behindName (gaps : Gaps) (quote : Char) (literal : Text) (rawArguments : Option Text) : Text :=
  '!' :: (gaps.behindMark ++ '(' :: (gaps.beforeLiteral ++ quote :: (literal ++ quote ::
    (gaps.behindLiteral ++ closing rawArguments))))

private theorem isBlank_closing (raw : Option Text) (after : Text) :
    ∃ c t, closing raw ++ after = c :: t ∧ Text.isBlank c = false := by
  cases raw with
  | none => exact ⟨')', after, rfl, by decide⟩
  | some raw => exact ⟨',', raw ++ [')'] ++ after, by simp [closing], by decide⟩

/-- What is read behind a name, and from which text. -/
theorem readBehindName_eq_some_iff {t literal after : Text} {quote : Char} {raw : Option Text} :
    readBehindName t = some (quote, literal, raw, after) ↔
      (quote = '"' ∨ quote = '\'') ∧ scanBody quote false literal = some false ∧
        readTail (closing raw ++ after) = some (raw, after) ∧
        ∃ gaps, t = behindName gaps quote literal raw ++ after := by
  unfold readBehindName
  constructor
  · intro h
    obtain ⟨t₁, h₁, h⟩ := Option.bind_eq_some_iff.1 h
    obtain ⟨t₂, h₂, h⟩ := Option.bind_eq_some_iff.1 h
    obtain ⟨-, s₁, hs₁, e₁⟩ := Text.trimStart_eq_cons_iff.1 (expect_eq_some_iff.1 h₂)
    split at h
    · simp at h
    · rename_i q t₃ ht₃
      obtain ⟨-, s₂, hs₂, e₂⟩ := Text.trimStart_eq_cons_iff.1 ht₃
      split at h
      · rename_i hq
        obtain ⟨⟨body, t₄⟩, h₄, h⟩ := Option.bind_eq_some_iff.1 h
        obtain ⟨⟨raw', after'⟩, h₅, h⟩ := Option.bind_eq_some_iff.1 h
        obtain ⟨rfl, rfl, rfl, rfl⟩ : q = quote ∧ body = literal ∧ raw' = raw ∧ after' = after := by
          simpa using h
        obtain ⟨s₃, e₃, hs₃⟩ := Text.exists_blanks_trimStart t₄
        have htail := eq_of_readTail h₅
        refine ⟨hq, scanBody_of_readBody h₄, htail ▸ h₅, ⟨⟨s₁, hs₁⟩, ⟨s₂, hs₂⟩, ⟨s₃, hs₃⟩⟩, ?_⟩
        rw [htail] at e₃
        rw [expect_eq_some_iff.1 h₁, e₁, e₂, eq_of_readBody h₄, e₃]
        simp [behindName]
      · simp at h
  · rintro ⟨hq, hl, ht, ⟨⟨s₁, hs₁⟩, ⟨s₂, hs₂⟩, ⟨s₃, hs₃⟩⟩, rfl⟩
    obtain ⟨c, u, hc, hblank⟩ := isBlank_closing raw after
    have hmark : quote ≠ '\\' ∧ Text.isBlank quote = false := by
      rcases hq with h | h <;> rw [h] <;> decide
    have hparen := Text.trimStart_cons_of_not (c := '(')
    have htail : Text.trimStart (s₃ ++ (closing raw ++ after)) = closing raw ++ after := by
      rw [Text.trimStart_blanks _ hs₃, hc, Text.trimStart_cons_of_not _ hblank]
    simp only [behindName, List.cons_append, List.append_assoc, expect, if_true,
      Option.bind_eq_bind, Option.bind_some, Text.trimStart_blanks _ hs₁,
      hparen _ (by decide), Text.trimStart_blanks _ hs₂, Text.trimStart_cons_of_not _ hmark.2]
    rw [if_pos hq, readBody_of_scanBody _ hmark.1 hl, Option.bind_some]
    dsimp only
    rw [htail, ht]
    rfl

/-- A name is a word. -/
theorem isWord_of_isName {t : Text} (h : isName t = true) : Text.isWord t = true := by
  have : names.all Text.isWord = true := by decide
  exact List.all_eq_true.1 this t (by simpa [isName] using h)

/-- A name in front of what does not go on with it is the word that is read. -/
theorem readAtWord_name {name behind : Text} (hname : isName name = true)
    (hb : ∀ c, behind.head? = some c → Text.isWordChar c = false) :
    readAtWord (name ++ behind) = (readBehindName behind).map fun (quote, literal, raw, after) =>
      { before := [], name, quote, literal, rawArguments := raw, after
        isMultiline := (behind.take (behind.length - after.length)).contains '\n' } := by
  have hword : ∀ c ∈ name, Text.isWordChar c = true :=
    (Text.isWord_iff.1 (isWord_of_isName hname)).2
  rw [readAtWord, Text.takeWhile_run hword hb, Text.dropWhile_run hword hb]
  dsimp only
  rw [if_pos hname]

/-- What is read at a word, and from which text. -/
theorem readAtWord_eq_some_iff {t : Text} {call : Call} :
    readAtWord t = some call ↔
      call.before = [] ∧ isName call.name = true ∧ (call.quote = '"' ∨ call.quote = '\'') ∧
        scanBody call.quote false call.literal = some false ∧
        readTail (closing call.rawArguments ++ call.after) =
          some (call.rawArguments, call.after) ∧
        ∃ gaps,
          t = call.name ++ (behindName gaps call.quote call.literal call.rawArguments ++
            call.after) ∧
          call.isMultiline =
            (behindName gaps call.quote call.literal call.rawArguments).contains '\n' := by
  constructor
  · intro h
    unfold readAtWord at h
    dsimp only at h
    split at h
    · rename_i hname
      obtain ⟨⟨quote, literal, raw, after⟩, hr, rfl⟩ := Option.map_eq_some_iff.1 h
      obtain ⟨hq, hl, ht, gaps, e⟩ := readBehindName_eq_some_iff.1 hr
      refine ⟨rfl, hname, hq, hl, ht, gaps, ?_, ?_⟩
      · dsimp only
        rw [← e, List.takeWhile_append_dropWhile]
      · dsimp only
        rw [e, List.length_append, Nat.add_sub_cancel_right, List.take_left]
    · simp at h
  · obtain ⟨before, name, quote, literal, raw, after, isMultiline⟩ := call
    dsimp only
    rintro ⟨rfl, hname, hq, hl, ht, gaps, rfl, rfl⟩
    have hend : ∀ c, (behindName gaps quote literal raw ++ after).head? = some c →
        Text.isWordChar c = false := by
      intro c hc
      obtain rfl : '!' = c := by simpa [behindName] using hc
      decide
    rw [readAtWord_name hname hend, readBehindName_eq_some_iff.2 ⟨hq, hl, ht, gaps, rfl⟩,
      Option.map_some]
    dsimp only
    rw [List.length_append, Nat.add_sub_cancel_right, List.take_left]

/-- How the call that is read at a word is laid out there. -/
theorem exists_of_readAtWord {t : Text} {call : Call} (h : readAtWord t = some call) :
    ∃ front gap, call.IsLaidOut front gap ∧
      t = call.name ++ (front ++ call.quote :: (call.literal ++ call.quote ::
        (gap ++ closing call.rawArguments)) ++ call.after) := by
  obtain ⟨-, hname, hq, hl, ht, gaps, rfl, hline⟩ := readAtWord_eq_some_iff.1 h
  refine ⟨'!' :: (gaps.behindMark ++ '(' :: gaps.beforeLiteral), gaps.behindLiteral,
    ⟨hname, hq, hl, ht, ?_⟩, by simp [behindName]⟩
  rw [hline]
  simp [behindName]

/-- How the call that is found is laid out in the text. -/
theorem exists_of_find? {t : Text} {call : Call} (h : find? t = some call) :
    EndsOutside false call.before ∧ ∃ front gap, call.IsLaidOut front gap ∧
      t = call.before ++ (call.name ++ (front ++ call.quote :: (call.literal ++ call.quote ::
        (gap ++ closing call.rawArguments)) ++ call.after)) := by
  obtain ⟨rest, call', rfl, hout, hread, e⟩ := findFrom_eq_some h
  obtain ⟨front, gap, hlaid, rfl⟩ := exists_of_readAtWord hread
  rw [e]
  exact ⟨hout, front, gap, ⟨hlaid.isName, hlaid.quote, hlaid.literal, hlaid.tail,
    hlaid.isMultiline⟩, rfl⟩

/-! ## Writing -/

section Write

variable (call : Call)

def lineStart : Text := if call.isMultiline then "\n    ".toList else []

def lineEnd : Text := if call.isMultiline then ['\n'] else []

/-- The call from its name on, written around a literal and the arguments behind it. -/
def written (literal : Text) (kept : List Text) : Text :=
  call.name ++ ('!' :: '(' :: (call.lineStart ++ call.quote :: (literal ++ call.quote ::
    writeTail call.lineEnd call.after kept)))

variable {call}

theorem isBlanks_lineStart : Text.IsBlanks call.lineStart := by
  intro c hc
  unfold lineStart at hc
  split at hc
  · have : "\n    ".toList.all Text.isBlank = true := by decide
    exact List.all_eq_true.1 this c hc
  · simp at hc

theorem isBlanks_lineEnd : Text.IsBlanks call.lineEnd := by
  intro c hc
  unfold lineEnd at hc
  split at hc
  · have : ['\n'].all Text.isBlank = true := by decide
    exact List.all_eq_true.1 this c hc
  · simp at hc

theorem readBehindName_written {literal : Text} {kept : List Text} {raw : Option Text}
    (hq : call.quote = '"' ∨ call.quote = '\'')
    (hl : scanBody call.quote false literal = some false)
    (ht : readTail (Text.trimStart (writeTail call.lineEnd call.after kept)) =
      some (raw, call.after)) :
    readBehindName ('!' :: '(' :: (call.lineStart ++ call.quote :: (literal ++ call.quote ::
      writeTail call.lineEnd call.after kept))) = some (call.quote, literal, raw, call.after) := by
  have htail := eq_of_readTail ht
  obtain ⟨s, e, hs⟩ := Text.exists_blanks_trimStart (writeTail call.lineEnd call.after kept)
  rw [htail] at e
  refine readBehindName_eq_some_iff.2 ⟨hq, hl, htail ▸ ht,
    ⟨⟨[], by simp [Text.IsBlanks]⟩, ⟨call.lineStart, isBlanks_lineStart⟩, ⟨s, hs⟩⟩, ?_⟩
  rw [e]
  simp [behindName]

/-- A call that is written is read, if the literal ends at its quote and the tail at
its parenthesis, and no line break comes into a call that had none. -/
theorem readAtWord_written {literal : Text} {kept : List Text} {raw : Option Text}
    (hname : isName call.name = true) (hq : call.quote = '"' ∨ call.quote = '\'')
    (hl : scanBody call.quote false literal = some false)
    (ht : readTail (Text.trimStart (writeTail call.lineEnd call.after kept)) =
      some (raw, call.after))
    (hline : call.isMultiline = true ∨ '\n' ∉ literal ∧ ∀ k ∈ kept, '\n' ∉ k) :
    readAtWord (call.written literal kept) =
      some { call with before := [], literal, rawArguments := raw } := by
  have hend : ∀ c, ('!' :: '(' :: (call.lineStart ++ call.quote :: (literal ++ call.quote ::
      writeTail call.lineEnd call.after kept))).head? = some c → Text.isWordChar c = false := by
    intro c hc
    obtain rfl : '!' = c := by simpa using hc
    decide
  rw [written, readAtWord_name hname hend, readBehindName_written hq hl ht, Option.map_some]
  dsimp only
  congr 2
  have hinside : '!' :: '(' :: (call.lineStart ++ call.quote :: (literal ++ call.quote ::
      writeTail call.lineEnd call.after kept)) =
      ('!' :: '(' :: (call.lineStart ++ call.quote :: (literal ++ call.quote ::
        (kept.flatMap (", ".toList ++ ·) ++ call.lineEnd ++ [')'])))) ++ call.after := by
    simp [writeTail]
  rw [hinside, List.length_append, Nat.add_sub_cancel_right, List.take_left]
  have hquote : call.quote ≠ '\n' := by rcases hq with h | h <;> rw [h] <;> decide
  rcases hm : call.isMultiline with _ | _
  · obtain ⟨hlit, hkept⟩ := hline.resolve_left (by simp [hm])
    have hk : '\n' ∉ kept.flatMap (", ".toList ++ ·) := by
      intro h
      obtain ⟨k, hk, h⟩ := List.mem_flatMap.1 h
      rcases List.mem_append.1 h with h | h
      · exact absurd h (by decide)
      · exact hkept k hk h
    have hstart : call.lineStart = [] := by simp [lineStart, hm]
    have hend : call.lineEnd = [] := by simp [lineEnd, hm]
    rw [hstart, hend]
    simpa [hlit, hquote.symm] using hk
  · simp [lineStart, hm]

end Write

end TextTransforms.Call
