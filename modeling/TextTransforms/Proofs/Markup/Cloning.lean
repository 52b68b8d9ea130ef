import TextTransforms.Markup.Clone
import TextTransforms.Proofs.Markup.Location

/-!
# Cloning again and again

The search for the end of an element looks ahead to the next `>` and no further, and the element
ends with one. So what stands behind an element has no part in finding it
(`elementEnd?_exchange`, `elementAt?_exchange`), and every further clone at the same cursor is
one more copy of the same element, the last one right behind it (`clones_behind`).
-/

namespace TextTransforms.Markup

/-! ## Looking ahead -/

section Ahead

variable {name s r : Text}

/-- A text that holds the mark is cut at the same place in front of any other text. -/
theorem exists_cut?_append {mark : Char} (h : mark ∈ s) :
    ∃ head tail, Text.cut? mark s = some (head, tail) ∧
      ∀ r, Text.cut? mark (s ++ r) = some (head, tail ++ r) := by
  cases hc : Text.cut? mark s with
  | none => exact absurd h (Text.cut?_eq_none_iff.1 hc)
  | some p =>
    obtain ⟨head, tail⟩ := p
    obtain ⟨rfl, hm⟩ := Text.cut?_eq_some_iff.1 hc
    refine ⟨head, tail, rfl, fun r => Text.cut?_eq_some_iff.2 ⟨?_, hm⟩⟩
    rw [List.append_assoc, List.cons_append]

theorem closingTag?_append (h : '>' ∈ s) (r : Text) :
    closingTag? name (s ++ r) = (closingTag? name s).map fun (tag, rest) => (tag, rest ++ r) := by
  cases s with
  | nil => exact nomatch h
  | cons c s =>
    by_cases hc : c = '/'
    · subst hc
      obtain ⟨head, tail, hcut, hcut'⟩ := exists_cut?_append (show '>' ∈ s by simpa using h)
      simp only [List.cons_append, closingTag?, hcut, hcut']
      split <;> rfl
    · have hnone (t : Text) : closingTag? name (c :: t) = none := by
        unfold closingTag?
        split
        · rename_i he
          exact absurd (List.cons.inj he).1 hc
        · rfl
      rw [List.cons_append, hnone, hnone, Option.map_none]

theorem opensNested_append (hname : '>' ∉ name) (h : '>' ∈ s) (r : Text) :
    opensNested name (s ++ r) = opensNested name s := by
  obtain ⟨head, tail, hcut, hcut'⟩ := exists_cut?_append h
  -- A name that goes on behind the text would hold the `>`.
  have hprefix : name.isPrefixOf? (s ++ r) = (name.isPrefixOf? s).map (· ++ r) :=
    Text.isPrefixOf?_append fun c v hs => absurd (hs ▸ List.mem_append_left _ h) hname
  rw [opensNested, opensNested, hcut, hcut', hprefix]
  cases hp : name.isPrefixOf? s with
  | none => rfl
  | some rest =>
    have hs := List.isPrefixOf?_eq_some_iff_append_eq.1 hp
    cases rest with
    | nil =>
      rw [List.append_nil] at hs
      exact absurd (hs ▸ h) hname
    | cons c rest => rfl

theorem gt_notMem_name (s : Text) : '>' ∉ s.takeWhile Char.isAlphanum :=
  fun h => absurd (List.mem_takeWhile_imp h) (by decide)

theorem takeWhile_name_append (h : '>' ∈ s) (r : Text) :
    (s ++ r).takeWhile Char.isAlphanum = s.takeWhile Char.isAlphanum := by
  rw [List.takeWhile_append, if_neg]
  intro hlen
  have hs : s.takeWhile Char.isAlphanum = s := (List.takeWhile_prefix _).eq_of_length hlen
  exact gt_notMem_name s (hs.symm ▸ h)

end Ahead

/-! ## The end of the element -/

theorem within_eq_some_iff {s element rest : Text} {r : Option (Text × Text)} :
    within s r = some (element, rest) ↔
      ∃ inside, r = some (inside, rest) ∧ element = s ++ inside := by
  rw [within, Option.map_eq_some_iff]
  constructor
  · rintro ⟨⟨inside, rest'⟩, hr, he⟩
    obtain ⟨rfl, rfl⟩ : s ++ inside = element ∧ rest' = rest := by simpa using he
    exact ⟨inside, hr, rfl⟩
  · rintro ⟨inside, rfl, rfl⟩
    exact ⟨(inside, rest), rfl, rfl⟩

section End

variable {name t element after : Text} {inTag : Bool} {k : Nat}

/-- A slash in front of `>` ends the element while its own tag is open. -/
def EndsTag (c : Char) (t : Text) (inTag : Bool) (k : Nat) : Prop :=
  c = '/' ∧ t.head? = some '>' ∧ inTag = true ∧ k = 0

theorem elementEnd?_endsTag {c : Char} (h : EndsTag c t inTag k) :
    elementEnd? name inTag k (c :: t) = some ([c, '>'], t.tail) := by
  rw [elementEnd?]
  simp only [if_pos (show c = '/' ∧ t.head? = some '>' ∧ inTag = true ∧ k = 0 from h)]

theorem elementEnd?_other {c : Char} (hopen : c ≠ '<') (hclose : c ≠ '>')
    (h : ¬ EndsTag c t inTag k) :
    elementEnd? name inTag k (c :: t) = within [c] (elementEnd? name inTag k t) := by
  rw [elementEnd?]
  simp only [if_neg (show ¬ (c = '/' ∧ t.head? = some '>' ∧ inTag = true ∧ k = 0) from h),
    if_neg hopen, if_neg hclose]
  rfl

theorem mem_of_closingTag? {tag rest : Text} (h : closingTag? name t = some (tag, rest)) :
    '>' ∈ tag := by
  unfold closingTag? at h
  split at h
  · split at h
    · split at h
      · obtain ⟨rfl, rfl⟩ : _ = tag ∧ _ = rest := by simpa using h
        simp
      · exact nomatch h
    · exact nomatch h
  · exact nomatch h

/-- A closing tag is cut off in front of any other text. -/
theorem closingTag?_exchange {tag rest : Text} (h : closingTag? name t = some (tag, rest))
    (after' : Text) : closingTag? name (tag ++ after') = some (tag, after') := by
  have hmem := mem_of_closingTag? h
  rw [closingTag?_eq h, closingTag?_append hmem] at h
  obtain ⟨⟨tag', rest'⟩, htag, he⟩ := Option.map_eq_some_iff.1 h
  obtain ⟨rfl, rfl⟩ : tag' = tag ∧ rest' = [] := by simpa using he
  rw [closingTag?_append hmem, htag]
  rfl

/-- The element that is cut off holds the `>` it ends with, and in front of any other text it is
cut off at the same place. -/
theorem elementEnd?_exchange (hname : '>' ∉ name)
    (h : elementEnd? name inTag k t = some (element, after)) :
    '>' ∈ element ∧
      ∀ after', elementEnd? name inTag k (element ++ after') = some (element, after') := by
  induction t generalizing inTag k element with
  | nil => simp [elementEnd?] at h
  | cons c t ih =>
    by_cases hends : EndsTag c t inTag k
    · rw [elementEnd?_endsTag hends] at h
      obtain ⟨rfl, rfl⟩ : [c, '>'] = element ∧ t.tail = after := by simpa using h
      obtain ⟨hc, -, hin, hk⟩ := hends
      exact ⟨by simp, fun after' => elementEnd?_endsTag ⟨hc, rfl, hin, hk⟩⟩
    by_cases hclose : c = '>'
    · subst hclose
      rw [elementEnd?_close] at h
      obtain ⟨e, hr, rfl⟩ := within_eq_some_iff.1 h
      refine ⟨by simp, fun after' => ?_⟩
      rw [List.append_assoc, List.singleton_append, elementEnd?_close, (ih hr).2, within_some]
    by_cases hopen : c = '<'
    · subst hopen
      rw [elementEnd?_open] at h
      cases htag : closingTag? name t with
      | some p =>
        obtain ⟨tag, rest⟩ := p
        simp only [htag] at h
        by_cases hk : k = 0
        · rw [if_pos hk] at h
          obtain ⟨rfl, rfl⟩ : '<' :: tag = element ∧ rest = after := by simpa using h
          refine ⟨List.mem_cons_of_mem _ (mem_of_closingTag? htag), fun after' => ?_⟩
          rw [List.cons_append, elementEnd?_open, closingTag?_exchange htag]
          simp only [if_pos hk]
        · rw [if_neg hk] at h
          obtain ⟨e, hr, rfl⟩ := within_eq_some_iff.1 h
          obtain ⟨hmem, hexchange⟩ := ih hr
          refine ⟨by simp [hmem], fun after' => ?_⟩
          rw [elementEnd?_eq hr, closingTag?_append hmem] at htag
          obtain ⟨⟨tag', rest'⟩, htag, -⟩ := Option.map_eq_some_iff.1 htag
          rw [List.append_assoc, List.singleton_append, elementEnd?_open,
            closingTag?_append hmem, htag]
          simp only [Option.map_some, if_neg hk]
          rw [hexchange, within_some, List.singleton_append]
      | none =>
        simp only [htag] at h
        obtain ⟨e, hr, rfl⟩ := within_eq_some_iff.1 h
        obtain ⟨hmem, hexchange⟩ := ih hr
        refine ⟨by simp [hmem], fun after' => ?_⟩
        rw [elementEnd?_eq hr, closingTag?_append hmem, Option.map_eq_none_iff] at htag
        rw [elementEnd?_eq hr, opensNested_append hname hmem] at hexchange
        rw [List.append_assoc, List.singleton_append, elementEnd?_open,
          closingTag?_append hmem, htag]
        simp only [Option.map_none]
        rw [opensNested_append hname hmem, hexchange, within_some, List.singleton_append]
    · rw [elementEnd?_other hopen hclose hends] at h
      obtain ⟨e, hr, rfl⟩ := within_eq_some_iff.1 h
      obtain ⟨hmem, hexchange⟩ := ih hr
      refine ⟨by simp [hmem], fun after' => ?_⟩
      have hhead : (e ++ after').head? = t.head? := by
        rw [elementEnd?_eq hr]
        cases e with
        | nil => simp at hmem
        | cons d e => rfl
      have hends' : ¬ EndsTag c (e ++ after') inTag k := by
        rwa [EndsTag, hhead]
      rw [List.append_assoc, List.singleton_append, elementEnd?_other hopen hclose hends',
        hexchange, within_some, List.singleton_append]

end End

/-! ## The element at the cursor -/

section Clones

variable {t : Text} {cursor : Nat} {f : Found}

/-- What is found, from what the text is cut into at the cursor. -/
theorem elementAt?_iff_cut {upTo behind : Text} (hcut : cutBehind cursor t = (upTo, behind)) :
    elementAt? t cursor = some f ↔
      ∃ between element, openingBracket? 0 [] upTo.reverse = some (f.before.reverse, between) ∧
        (between ++ behind).takeWhile Char.isAlphanum ≠ [] ∧
        elementEnd? ((between ++ behind).takeWhile Char.isAlphanum) true 0 (between ++ behind) =
          some (element, f.after) ∧
        f.element = '<' :: element := by
  rw [elementAt?, hcut]
  constructor
  · intro h
    obtain ⟨⟨before, between⟩, hb, h⟩ := Option.bind_eq_some_iff.1 h
    dsimp only at h
    split at h
    · simp at h
    · rename_i hname
      obtain ⟨⟨element, after⟩, he, h⟩ := Option.bind_eq_some_iff.1 h
      obtain rfl : (⟨before.reverse, '<' :: element, after⟩ : Found) = f := by simpa using h
      refine ⟨between, element, by rw [hb, List.reverse_reverse], ?_, he, rfl⟩
      simpa using hname
  · rintro ⟨between, element, hb, hname, he, helement⟩
    dsimp only
    rw [hb]
    simp only [Option.bind_eq_bind, Option.bind_some]
    rw [if_neg (by simpa using hname), he, Option.bind_some, List.reverse_reverse, ← helement]

/-- What stands behind the element that the cursor is in has no part in finding it. -/
theorem elementAt?_exchange (h : elementAt? t cursor = some f) (hc : cursor < f.stop)
    (after' : Text) :
    elementAt? (f.before ++ f.element ++ after') cursor = some { f with after := after' } := by
  have hlt : cursor < (f.before ++ f.element).utf8Length := by
    rwa [Text.utf8Length_append]
  rw [← source_of_elementAt? h, Found.source, elementAt?_iff_cut (cutBehind_of_lt hlt)] at h
  rw [elementAt?_iff_cut (cutBehind_of_lt hlt)]
  obtain ⟨between, element, hb, hname, he, helement⟩ := h
  generalize (cutBehind cursor (f.before ++ f.element)).2 = behind at *
  obtain rfl : between ++ behind = element := by
    have hsplit := elementEnd?_eq he
    rw [← List.append_assoc] at hsplit
    exact List.append_cancel_right hsplit
  simp only [← List.append_assoc] at hname he ⊢
  obtain ⟨hmem, hexchange⟩ := elementEnd?_exchange (gt_notMem_name _) he
  rw [takeWhile_name_append hmem] at hname hexchange
  exact ⟨between, _, hb, by rwa [takeWhile_name_append hmem], by
    rw [takeWhile_name_append hmem]; exact hexchange after', helement⟩

/-- The copy that a clone inserts. -/
def Found.copy (f : Found) (increment : Bool) : Text :=
  if increment then incrementNumbers f.element else f.element

/-- The copies of some clones, each on a line of its own and the last one first. -/
def Found.copies (f : Found) (increments : List Bool) : Text :=
  increments.reverse.flatMap fun increment => '\n' :: f.copy increment

theorem clone_eq (h : elementAt? t cursor = some f) (increment : Bool) :
    clone t cursor increment =
      .ok (f.before ++ f.element ++ ('\n' :: f.copy increment ++ f.after)) := by
  rw [clone, h]
  simp only [List.append_assoc, List.cons_append]
  rfl

theorem Found.copies_cons (increment : Bool) (increments : List Bool) :
    f.copies (increment :: increments) =
      f.copies increments ++ '\n' :: f.copy increment := by
  simp [copies]

/-- Every clone finds the element that the one before it has found. -/
theorem foldlM_clone (h : elementAt? t cursor = some f) (hc : cursor < f.stop)
    (increments : List Bool) :
    increments.foldlM (fun t increment => clone t cursor increment) t =
      .ok (f.before ++ f.element ++ (f.copies increments ++ f.after)) := by
  induction increments generalizing t f with
  | nil =>
    rw [List.foldlM_nil, ← source_of_elementAt? h]
    rfl
  | cons increment increments ih =>
    have hagain := elementAt?_exchange h hc ('\n' :: f.copy increment ++ f.after)
    have hstep := ih hagain hc
    rw [List.foldlM_cons, clone_eq h increment, f.copies_cons, List.append_assoc (f.copies _)]
    exact hstep

/-- Clones at a cursor in an element, one after the other and counted up or not, all succeed.
Their copies stand right behind the element, and the cursor finds it where it was. -/
theorem clones_behind {t : Text} {cursor : Nat} {f : Found} (h : elementAt? t cursor = some f)
    (hc : cursor < f.stop) (increments : List Bool) :
    ∃ t', increments.foldlM (fun t increment => clone t cursor increment) t = .ok t' ∧
      t' = f.before ++ f.element ++ (f.copies increments ++ f.after) ∧
      ∃ f', elementAt? t' cursor = some f' ∧ f'.start = f.start ∧ f'.stop = f.stop :=
  ⟨_, foldlM_clone h hc increments, rfl, _, elementAt?_exchange h hc _, rfl, rfl⟩

end Clones

theorem clones_behind_nested :
    elementAt? "<p 1>é<p 2/></p>>".toList 2 =
      some ⟨[], "<p 1>é<p 2/></p>".toList, ['>']⟩ ∧
    [true, false].foldlM (fun t increment => clone t 2 increment) "<p 1>é<p 2/></p>>".toList =
      .ok "<p 1>é<p 2/></p>\n<p 1>é<p 2/></p>\n<p 2>é<p 3/></p>>".toList := by
  have h : elementAt? "<p 1>é<p 2/></p>>".toList 2 =
      some ⟨[], "<p 1>é<p 2/></p>".toList, ['>']⟩ := by decide
  obtain ⟨t', hclones, rfl, -⟩ := clones_behind h (by decide) [true, false]
  have hcounted : incrementNumbers "<p 1>é<p 2/></p>".toList = "<p 2>é<p 3/></p>".toList := by
    have hone : successor ['1'] = ['2'] := by decide
    have htwo : successor ['2'] = ['3'] := by decide
    simp [incrementNumbers, hone, htwo]
  rw [hclones, Found.copies_cons, Found.copies_cons, Found.copy, Found.copy, if_pos rfl, hcounted]
  exact ⟨h, rfl⟩

end TextTransforms.Markup
