import Mathlib.Data.List.Basic
import TextTransforms.Call.Lexeme

/-!
# Escapes of a literal

The escapes of a literal are its backslashes with what they take: the next character, and
behind `\u` also the group in braces that follows directly (`escapes`).

A literal is scanned stretch by stretch. Behind a stretch stand the escapes that it finishes
and the end of it that goes on as an escape (`splitEscapes`); what follows is scanned
behind that end (`splitEscapes_append`, `escapes_append`).
-/

namespace TextTransforms

/-- What an escape takes behind its backslash, and what is left. Nothing is taken where the
text ends before it shows how far the escape goes. -/
def readEscape : Text → Option (Text × Text)
  | [] => none
  | c :: t =>
    if c = 'u' then
      match t with
      | [] => none
      | d :: s =>
        if d = '{' then (Text.cut? '}' s).map fun (inside, rest) => (c :: d :: inside ++ ['}'], rest)
        else some ([c], d :: s)
    else some ([c], t)

/-- The text behind a backslash, what the escape takes of it, and what is left. -/
inductive TakesEscape : Text → Text → Text → Prop
  | char {c : Char} {rest : Text} (hc : c ≠ 'u') : TakesEscape (c :: rest) [c] rest
  | bare {d : Char} {rest : Text} (hd : d ≠ '{') : TakesEscape ('u' :: d :: rest) ['u'] (d :: rest)
  | group {inside rest : Text} (h : '}' ∉ inside) :
      TakesEscape ('u' :: '{' :: (inside ++ '}' :: rest)) ('u' :: '{' :: inside ++ ['}']) rest

theorem readEscape_eq_some_iff {t e rest : Text} :
    readEscape t = some (e, rest) ↔ TakesEscape t e rest := by
  constructor
  · intro h
    cases t with
    | nil => simp [readEscape] at h
    | cons c t =>
      unfold readEscape at h
      dsimp only at h
      split at h
      · rename_i hc
        subst hc
        split at h
        · simp at h
        · rename_i d s
          split at h
          · rename_i hd
            subst hd
            obtain ⟨⟨inside, tail⟩, hcut, he⟩ := Option.map_eq_some_iff.1 h
            obtain ⟨rfl, rfl⟩ : _ = e ∧ tail = rest := by simpa using he
            obtain ⟨rfl, hm⟩ := Text.cut?_eq_some_iff.1 hcut
            exact .group hm
          · rename_i hd
            obtain ⟨rfl, rfl⟩ : _ = e ∧ _ = rest := by simpa using h
            exact .bare hd
      · rename_i hc
        obtain ⟨rfl, rfl⟩ : _ = e ∧ _ = rest := by simpa using h
        exact .char hc
  · intro h
    cases h with
    | char hc => simp [readEscape, hc]
    | bare hd => simp [readEscape, hd]
    | group hm => simp [readEscape, Text.cut?_eq_some_iff.2 ⟨rfl, hm⟩]

theorem length_lt_of_readEscape {t e rest : Text} (h : readEscape t = some (e, rest)) :
    rest.length < t.length := by
  cases readEscape_eq_some_iff.1 h with
  | char => simp
  | bare => simp
  | group => simp only [List.length_cons, List.length_append]; omega

/-- The escapes of a literal, in order. A group that is not closed is none. -/
def escapes : Text → List Text
  | [] => []
  | c :: t =>
    if c = '\\' then
      match h : readEscape t with
      | some (e, rest) =>
        have := length_lt_of_readEscape h
        (c :: e) :: escapes rest
      | none =>
        match t with
        | [] => []
        | d :: s => [c, d] :: escapes s
    else escapes t
termination_by t => t.length
decreasing_by
  all_goals simp only [List.length_cons]
  all_goals omega

/-- The escapes that a stretch of a literal finishes, and the end of it that goes on as an
escape behind it. -/
def splitEscapes : Text → List Text × Text
  | [] => ([], [])
  | c :: t =>
    if c = '\\' then
      match h : readEscape t with
      | some (e, rest) =>
        have := length_lt_of_readEscape h
        ((c :: e) :: (splitEscapes rest).1, (splitEscapes rest).2)
      | none => ([], c :: t)
    else splitEscapes t
termination_by t => t.length
decreasing_by
  all_goals simp only [List.length_cons]
  all_goals omega

def finished (t : Text) : List Text := (splitEscapes t).1

def unfinished (t : Text) : Text := (splitEscapes t).2

/-! ## One escape -/

theorem readEscape_append {t e rest : Text} (h : readEscape t = some (e, rest)) (u : Text) :
    readEscape (t ++ u) = some (e, rest ++ u) := by
  refine readEscape_eq_some_iff.2 ?_
  cases readEscape_eq_some_iff.1 h with
  | char hc => exact .char hc
  | bare hd => exact .bare hd
  | group hm => simpa using @TakesEscape.group _ (rest ++ u) hm

/-- Without an opening brace an escape takes one character. -/
theorem readEscape_pair {c : Char} {t : Text} (hne : t ≠ []) (hb : t.head? ≠ some '{') :
    readEscape (c :: t) = some ([c], t) := by
  obtain ⟨d, t, rfl⟩ := List.exists_cons_of_ne_nil hne
  refine readEscape_eq_some_iff.2 ?_
  by_cases hc : c = 'u'
  · rw [hc]
    exact .bare fun hd => hb (by rw [hd]; rfl)
  · exact .char hc

theorem readEscape_eq_none {t : Text} (h : readEscape t = none) :
    t = [] ∨ t = ['u'] ∨ ∃ s, t = 'u' :: '{' :: s ∧ '}' ∉ s := by
  cases t with
  | nil => exact .inl rfl
  | cons c t =>
    unfold readEscape at h
    dsimp only at h
    split at h
    · rename_i hc
      subst hc
      split at h
      · exact .inr (.inl rfl)
      · split at h
        · rename_i hd
          subst hd
          exact .inr (.inr ⟨_, rfl, Text.cut?_eq_none_iff.1 (Option.map_eq_none_iff.1 h)⟩)
        · simp at h
    · simp at h

/-! ## Stretch by stretch -/

@[simp] theorem splitEscapes_nil : splitEscapes [] = ([], []) := by rw [splitEscapes]

theorem splitEscapes_plain {c : Char} (t : Text) (h : c ≠ '\\') :
    splitEscapes (c :: t) = splitEscapes t := by
  rw [splitEscapes, if_neg h]

theorem splitEscapes_escape {t e rest : Text} (h : readEscape t = some (e, rest)) :
    splitEscapes ('\\' :: t) = (('\\' :: e) :: finished rest, unfinished rest) := by
  rw [splitEscapes, if_pos rfl]
  split
  · rename_i e' rest' h'
    obtain ⟨rfl, rfl⟩ : e = e' ∧ rest = rest' := by simpa [h] using h'
    rfl
  · rename_i h'
    simp [h] at h'

theorem splitEscapes_open {t : Text} (h : readEscape t = none) :
    splitEscapes ('\\' :: t) = ([], '\\' :: t) := by
  rw [splitEscapes, if_pos rfl]
  split
  · rename_i h'
    simp [h] at h'
  · rfl

theorem escapes_plain {c : Char} (t : Text) (h : c ≠ '\\') : escapes (c :: t) = escapes t := by
  rw [escapes, if_neg h]

theorem escapes_escape {t e rest : Text} (h : readEscape t = some (e, rest)) :
    escapes ('\\' :: t) = ('\\' :: e) :: escapes rest := by
  rw [escapes, if_pos rfl]
  split
  · rename_i e' rest' h'
    obtain ⟨rfl, rfl⟩ : e = e' ∧ rest = rest' := by simpa [h] using h'
    rfl
  · rename_i h'
    simp [h] at h'

/-- Induction along the escapes of a text. -/
theorem escape_induction {motive : Text → Prop} (nil : motive [])
    (plain : ∀ c t, c ≠ '\\' → motive t → motive (c :: t))
    (escape : ∀ t e rest, readEscape t = some (e, rest) → motive rest → motive ('\\' :: t))
    (unclosed : ∀ t, readEscape t = none → motive ('\\' :: t)) (t : Text) : motive t := by
  cases t with
  | nil => exact nil
  | cons c t =>
    by_cases hc : c = '\\'
    · rw [hc]
      cases h : readEscape t with
      | none => exact unclosed t h
      | some r =>
        have := length_lt_of_readEscape h
        exact escape t r.1 r.2 h (escape_induction nil plain escape unclosed r.2)
    · exact plain c t hc (escape_induction nil plain escape unclosed t)
termination_by t.length

theorem splitEscapes_append (s t : Text) :
    splitEscapes (s ++ t) =
      (finished s ++ finished (unfinished s ++ t), unfinished (unfinished s ++ t)) := by
  induction s using escape_induction with
  | nil => simp [finished, unfinished]
  | plain c s hc ih =>
    rw [List.cons_append, splitEscapes_plain _ hc, ih]
    simp [finished, unfinished, splitEscapes_plain _ hc]
  | escape s e rest h ih =>
    rw [List.cons_append, splitEscapes_escape (readEscape_append h t)]
    simp [finished, unfinished, splitEscapes_escape h] at ih ⊢
    simp [ih]
  | unclosed s h => simp [finished, unfinished, splitEscapes_open h]

theorem finished_append (s t : Text) :
    finished (s ++ t) = finished s ++ finished (unfinished s ++ t) := by
  rw [finished, splitEscapes_append]

theorem unfinished_append (s t : Text) :
    unfinished (s ++ t) = unfinished (unfinished s ++ t) := by
  rw [unfinished, splitEscapes_append]

theorem escapes_append (s t : Text) :
    escapes (s ++ t) = finished s ++ escapes (unfinished s ++ t) := by
  induction s using escape_induction with
  | nil => simp [finished, unfinished]
  | plain c s hc ih =>
    rw [List.cons_append, escapes_plain _ hc, ih]
    simp [finished, unfinished, splitEscapes_plain _ hc]
  | escape s e rest h ih =>
    rw [List.cons_append, escapes_escape (readEscape_append h t), ih]
    simp [finished, unfinished, splitEscapes_escape h]
  | unclosed s h => simp [finished, unfinished, splitEscapes_open h]

theorem finished_append_of_nil {s : Text} (h : unfinished s = []) (t : Text) :
    finished (s ++ t) = finished s ++ finished t := by
  rw [finished_append, h, List.nil_append]

theorem unfinished_append_of_nil {s : Text} (h : unfinished s = []) (t : Text) :
    unfinished (s ++ t) = unfinished t := by
  rw [unfinished_append, h, List.nil_append]

theorem splitEscapes_of_notMem {t : Text} (h : '\\' ∉ t) : splitEscapes t = ([], []) := by
  induction t with
  | nil => simp
  | cons c t ih =>
    rw [List.mem_cons, not_or] at h
    rw [splitEscapes_plain t (Ne.symm h.1), ih h.2]

theorem finished_of_notMem {t : Text} (h : '\\' ∉ t) : finished t = [] :=
  congrArg Prod.fst (splitEscapes_of_notMem h)

theorem unfinished_suffix (t : Text) : unfinished t <:+ t := by
  induction t using escape_induction with
  | nil => simp [unfinished]
  | plain c t hc ih =>
    rw [unfinished, splitEscapes_plain t hc]
    exact ih.trans (List.suffix_cons c t)
  | escape t e rest h ih =>
    rw [unfinished, splitEscapes_escape h]
    refine ih.trans (List.IsSuffix.trans ?_ (List.suffix_cons _ t))
    cases readEscape_eq_some_iff.1 h with
    | char => exact List.suffix_cons _ rest
    | bare => exact List.suffix_cons _ _
    | @group inside => exact ⟨'u' :: '{' :: inside ++ ['}'], by simp⟩
  | unclosed t h => simp [unfinished, splitEscapes_open h]

/-! ## Ends that go on -/

/-- An end of a stretch that may go on as an escape and has not opened a group. -/
def IsPending (w : Text) : Prop := w = [] ∨ w = ['\\'] ∨ w = ['\\', 'u']

/-- Behind the text a group goes on, or starts with an opening brace. -/
def AwaitsGroup (t : Text) : Prop := ['\\', 'u'] <+: unfinished t

theorem unfinished_cases (t : Text) :
    IsPending (unfinished t) ∨ ∃ s, unfinished t = '\\' :: 'u' :: '{' :: s ∧ '}' ∉ s := by
  induction t using escape_induction with
  | nil => exact .inl (.inl (by simp [unfinished]))
  | plain c t hc ih =>
    rw [unfinished, splitEscapes_plain t hc]
    exact ih
  | escape t e rest h ih =>
    rw [unfinished, splitEscapes_escape h]
    exact ih
  | unclosed t h =>
    rw [unfinished, splitEscapes_open h]
    rcases readEscape_eq_none h with rfl | rfl | ⟨s, rfl, hs⟩
    · exact .inl (.inr (.inl rfl))
    · exact .inl (.inr (.inr rfl))
    · exact .inr ⟨s, rfl, hs⟩

theorem isPending_unfinished {t : Text} (h : '{' ∉ t) : IsPending (unfinished t) := by
  rcases unfinished_cases t with hp | ⟨s, e, -⟩
  · exact hp
  · exact absurd ((unfinished_suffix t).subset (by simp [e])) h

section IsPending

variable {w : Text} (hw : IsPending w)
include hw

theorem IsPending.splitEscapes_eq : splitEscapes w = ([], w) := by
  rcases hw with rfl | rfl | rfl
  · simp
  · exact splitEscapes_open rfl
  · exact splitEscapes_open rfl

theorem IsPending.unfinished_eq : unfinished w = w := by rw [unfinished, hw.splitEscapes_eq]

theorem IsPending.brace_notMem : '{' ∉ w := by
  rcases hw with rfl | rfl | rfl <;> decide

end IsPending

/-- A character that opens no group finishes what goes on. -/
theorem unfinished_guard {s : Text} {g : Char} (hs : '{' ∉ s) (hg : g ∉ ['\\', 'u', '{']) :
    unfinished (s ++ [g]) = [] := by
  obtain ⟨hb, hu, ho⟩ : g ≠ '\\' ∧ g ≠ 'u' ∧ g ≠ '{' := by simpa using hg
  have hguard : unfinished [g] = [] := by
    rw [unfinished, splitEscapes_plain [] hb, splitEscapes_nil]
  rw [unfinished_append]
  rcases isPending_unfinished hs with e | e | e
  · rw [e]
    exact hguard
  · rw [e, List.singleton_append, unfinished,
      splitEscapes_escape (readEscape_eq_some_iff.2 (.char hu))]
    simp [unfinished]
  · rw [e, List.cons_append, List.singleton_append, unfinished,
      splitEscapes_escape (readEscape_eq_some_iff.2 (.bare ho))]
    exact hguard

/-- Without an opening brace a backslash takes the next character only. -/
theorem finished_pair {c : Char} {t : Text} (hne : t ≠ []) (ht : '{' ∉ t) :
    finished ('\\' :: c :: t) = ['\\', c] :: finished t := by
  have hhead : t.head? ≠ some '{' := fun h => ht (List.mem_of_mem_head? h)
  rw [finished, splitEscapes_escape (readEscape_pair hne hhead)]

/-- A group ends with the first closing brace. -/
theorem splitEscapes_group {t s : Text} (ht : AwaitsGroup t) (hs : '}' ∉ s) :
    splitEscapes (unfinished t ++ '{' :: (s ++ ['}'])) =
      ([unfinished t ++ '{' :: (s ++ ['}'])], []) := by
  have group {x : Text} (hx : '}' ∉ x) :
      splitEscapes ('\\' :: 'u' :: '{' :: (x ++ ['}'])) =
        (['\\' :: 'u' :: '{' :: (x ++ ['}'])], []) := by
    rw [splitEscapes_escape (readEscape_eq_some_iff.2 (.group hx))]
    simp [finished, unfinished]
  rcases unfinished_cases t with (e | e | e) | ⟨x, e, hx⟩
  · simp [AwaitsGroup, e] at ht
  · simp [AwaitsGroup, e] at ht
  · rw [e]
    exact group hs
  · have := group (x := x ++ '{' :: s) (by simp [hx, hs])
    simpa [e] using this

theorem unfinished_brace {t : Text} (ht : ¬ AwaitsGroup t) :
    unfinished (unfinished t ++ ['{']) = [] := by
  rcases unfinished_cases t with (e | e | e) | ⟨x, e, -⟩
  · rw [e, List.nil_append, unfinished, splitEscapes_plain [] (by decide), splitEscapes_nil]
  · rw [e, List.singleton_append, unfinished,
      splitEscapes_escape (readEscape_eq_some_iff.2 (.char (by decide)))]
    simp [unfinished]
  · exact absurd (show AwaitsGroup t by simp [AwaitsGroup, e]) ht
  · exact absurd (show AwaitsGroup t by simp [AwaitsGroup, e]) ht

end TextTransforms
