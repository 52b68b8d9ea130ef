import Mathlib.Data.List.Basic
import TextTransforms.Proofs.Markup.Document
import TextTransforms.Proofs.Text.Runs

/-!
# The element at a place in a document

A byte of a document lies in the tag that one of its elements starts with, or nothing is found
there: what stands before it is closed, or it lies in a closing tag (`Document.inTag_or_outside`).
From the name on, the search for the end passes every element of the content as a whole
(`Document.elementEnd?_source`), whatever their names are, and stops behind the element
(`Element.elementEnd?_self`). So the element found is the one in whose first tag the cursor
lies (`elementAt?_eq_some_iff`).
-/

namespace TextTransforms.Markup

/-! ## Cutting at a byte -/

section Cut

variable {n : Nat} {s t : Text}

theorem cutBehind_of_lt (h : n < s.utf8Length) :
    cutBehind n (s ++ t) = ((cutBehind n s).1, (cutBehind n s).2 ++ t) := by
  induction s generalizing n with
  | nil => exact absurd h (Nat.not_lt_zero n)
  | cons c s ih =>
    rw [Text.utf8Length] at h
    rw [List.cons_append, cutBehind, cutBehind]
    split
    · rfl
    · rw [ih (by omega)]

theorem cutBehind_of_le (h : s.utf8Length ≤ n) :
    cutBehind n (s ++ t) =
      (s ++ (cutBehind (n - s.utf8Length) t).1, (cutBehind (n - s.utf8Length) t).2) := by
  induction s generalizing n with
  | nil => rfl
  | cons c s ih =>
    rw [Text.utf8Length] at h
    rw [List.cons_append, cutBehind, if_neg (by omega), ih (by omega), Text.utf8Length,
      Nat.sub_sub]
    rfl

/-- A byte behind the text counts as its last one. -/
theorem cutBehind_min (n : Nat) (t : Text) :
    cutBehind (min n (t.utf8Length - 1)) t = cutBehind n t := by
  induction t generalizing n with
  | nil => rfl
  | cons c t ih =>
    have hc := c.utf8Size_pos
    rw [Text.utf8Length, cutBehind, cutBehind]
    by_cases hn : n < c.utf8Size
    · rw [if_pos hn, if_pos (by omega)]
    · rw [if_neg hn]
      cases t with
      | nil =>
        rw [if_pos (by rw [Text.utf8Length_nil]; omega)]
        rfl
      | cons d t =>
        have hd : Text.utf8Length (d :: t) ≠ 0 := fun h =>
          List.cons_ne_nil d t (Text.utf8Length_eq_zero_iff.1 h)
        rw [if_neg (by omega), ← ih (n - c.utf8Size)]
        have hsub : min n (c.utf8Size + Text.utf8Length (d :: t) - 1) - c.utf8Size =
            min (n - c.utf8Size) (Text.utf8Length (d :: t) - 1) := by omega
        rw [hsub]

/-- What is cut off has a last character. -/
theorem exists_cons_of_cutBehind {c : Char} (n : Nat) (t : Text) :
    ∃ s, (cutBehind n (c :: t)).1 = c :: s ∧ s ++ (cutBehind n (c :: t)).2 = t := by
  rw [cutBehind]
  split
  · exact ⟨[], rfl, rfl⟩
  · exact ⟨_, rfl, cutBehind_append _ t⟩

end Cut

/-! ## Where a byte lies -/

/-- The byte lies in the tag that an element starts with, before its `>`. -/
def Document.InTag (d : Document) (n : Nat) : Prop :=
  ∃ before e after, d.Holds before e after ∧
    before.utf8Length ≤ n ∧ n < before.utf8Length + e.tag.utf8Length

/-- Nothing is found where the text is cut in this way: what is cut off is closed, or a slash
follows its last `<`. -/
def Outside (cut : Text × Text) : Prop :=
  IsClosed cut.1 ∨
    ∃ s inside rest, cut.1 = s ++ '<' :: inside ∧ IsPlain inside ∧ inside ++ cut.2 = '/' :: rest

section Outside

variable {n : Nat} {s t : Text}

theorem Outside.of_lt (h : n < s.utf8Length) (ho : Outside (cutBehind n s)) :
    Outside (cutBehind n (s ++ t)) := by
  rw [cutBehind_of_lt h]
  obtain hc | ⟨b, inside, rest, hb, hi, hs⟩ := ho
  · exact .inl hc
  · refine .inr ⟨b, inside, rest ++ t, hb, hi, ?_⟩
    rw [← List.append_assoc, hs, List.cons_append]

theorem Outside.of_le (hs : IsClosed s) (h : s.utf8Length ≤ n)
    (ho : Outside (cutBehind (n - s.utf8Length) t)) : Outside (cutBehind n (s ++ t)) := by
  rw [cutBehind_of_le h]
  obtain hc | ⟨b, inside, rest, hb, hi, hs⟩ := ho
  · exact .inl (hs.append hc)
  · exact .inr ⟨s ++ b, inside, rest, by rw [hb, List.append_assoc], hi, hs⟩

theorem outside_of_isPlain (h : IsPlain s) : Outside (cutBehind n s) := by
  refine .inl (IsPlain.isClosed fun c hc => h c ?_)
  rw [← cutBehind_append n s]
  exact List.mem_append_left _ hc

/-- At its `>`, or behind, a bracket is closed. -/
theorem outside_of_bracket_le (h : IsPlain s) (hn : Text.utf8Length ('<' :: s) ≤ n) :
    Outside (cutBehind n (bracket s)) := by
  have hlast (k : Nat) : cutBehind k ['>'] = (['>'], []) := by
    rw [cutBehind]
    split <;> rfl
  rw [bracket, ← List.cons_append, cutBehind_of_le hn, hlast]
  exact .inl (isClosed_bracket h)

theorem outside_of_closing (h : IsPlain ('/' :: s)) :
    Outside (cutBehind n (bracket ('/' :: s))) := by
  by_cases hn : n < Text.utf8Length ('<' :: '/' :: s)
  · refine Outside.of_lt (s := '<' :: '/' :: s) hn ?_
    obtain ⟨inside, hcut, hrest⟩ := exists_cons_of_cutBehind (c := '<') n ('/' :: s)
    refine .inr ⟨[], inside, s, hcut, fun c hc => h c ?_, hrest⟩
    rw [← hrest]
    exact List.mem_append_left _ hc
  · exact outside_of_bracket_le h (Nat.le_of_not_lt hn)

end Outside

section InTag

variable {n : Nat} {d : Document}

theorem Document.InTag.behindText {run : Run} (hn : run.1.utf8Length ≤ n)
    (h : d.InTag (n - run.1.utf8Length)) : (Document.text run d).InTag n := by
  obtain ⟨s, e, t, hd, hs, he⟩ := h
  refine ⟨run.1 ++ s, e, t, hd.behindText run, ?_⟩
  rw [Text.utf8Length_append]
  omega

theorem Document.InTag.behindElement {e : Element} (hn : e.source.utf8Length ≤ n)
    (h : d.InTag (n - e.source.utf8Length)) : (Document.element e d).InTag n := by
  obtain ⟨s, e', t, hd, hs, he⟩ := h
  refine ⟨e.source ++ s, e', t, hd.behindElement e, ?_⟩
  rw [Text.utf8Length_append]
  omega

theorem Document.InTag.inside {name attributes opens children before behind}
    (hn : (bracket (name.1 ++ attributes.text)).utf8Length ≤ n)
    (h : children.InTag (n - (bracket (name.1 ++ attributes.text)).utf8Length)) :
    (Document.element (.enclosing name attributes opens children before behind) d).InTag n := by
  obtain ⟨s, e, t, hd, hs, he⟩ := h
  refine ⟨_, e, _, hd.inside d, ?_⟩
  rw [Text.utf8Length_append]
  omega

theorem Document.InTag.here {e : Element} (hn : n < e.tag.utf8Length) :
    (Document.element e d).InTag n :=
  ⟨[], e, d.source, .here e d, Nat.zero_le n, by rwa [Text.utf8Length_nil, Nat.zero_add]⟩

end InTag

mutual

theorem Element.inTag_or_outside {n : Nat} (d : Document) :
    (e : Element) → (Document.element e d).InTag n ∨ Outside (cutBehind n e.source)
  | .selfClosing name attributes => by
    by_cases htag : n < (Element.selfClosing name attributes).tag.utf8Length
    · exact .inl (.here htag)
    · right
      have hplain := (Element.selfClosing name attributes).isPlain_inside
      rw [Element.source, Element.body, List.append_nil]
      exact outside_of_bracket_le hplain (Nat.le_of_not_lt htag)
  | .enclosing name attributes opens children before behind => by
    by_cases htag : n < Text.utf8Length ('<' :: (name.1 ++ attributes.text))
    · exact .inl (.here htag)
    · have hplain : IsPlain (name.1 ++ attributes.text) := name.isPlain.append attributes.isPlain
      have hbracket := isClosed_bracket hplain
      rw [Element.source, Element.body, Element.inside]
      by_cases hopen : n < (bracket (name.1 ++ attributes.text)).utf8Length
      · exact .inr (.of_lt hopen (outside_of_bracket_le hplain (Nat.le_of_not_lt htag)))
      · have hopen := Nat.le_of_not_lt hopen
        by_cases hin : n - (bracket (name.1 ++ attributes.text)).utf8Length <
            children.source.utf8Length
        · rcases children.inTag_or_outside with hc | hc
          · exact .inl (hc.inside hopen)
          · exact .inr (.of_le hbracket hopen (.of_lt hin hc))
        · exact .inr (.of_le hbracket hopen (.of_le children.isClosed (Nat.le_of_not_lt hin)
            (outside_of_closing (isPlain_closingInside name before behind))))

theorem Document.inTag_or_outside {n : Nat} :
    (d : Document) → d.InTag n ∨ Outside (cutBehind n d.source)
  | .nil => .inr (.inl isClosed_nil)
  | .text run d => by
    rw [Document.source]
    by_cases hrun : n < run.1.utf8Length
    · exact .inr (.of_lt hrun (outside_of_isPlain run.2))
    · have hrun := Nat.le_of_not_lt hrun
      rcases d.inTag_or_outside with hd | hd
      · exact .inl (hd.behindText hrun)
      · exact .inr (.of_le run.2.isClosed hrun hd)
  | .element e d => by
    rw [Document.source_element]
    by_cases he : n < e.source.utf8Length
    · rcases e.inTag_or_outside d with hd | hd
      · exact .inl hd
      · exact .inr (.of_lt he hd)
    · have he := Nat.le_of_not_lt he
      rcases d.inTag_or_outside with hd | hd
      · exact .inl (hd.behindElement he)
      · exact .inr (.of_le e.isClosed he hd)

end

theorem openingBracket?_of_isPlain {inside : Text} (s : Text) (h : IsPlain inside) :
    openingBracket? 0 [] (s ++ '<' :: inside).reverse = some (s.reverse, inside) := by
  rw [List.reverse_append, List.reverse_cons, List.append_assoc, h.isClosed]
  simp [openingBracket?]

theorem elementAt?_of_outside {t : Text} {n : Nat} (h : Outside (cutBehind n t)) :
    elementAt? t n = none := by
  unfold elementAt?
  dsimp only
  obtain hc | ⟨s, inside, rest, hs, hi, hrest⟩ := h
  · have hnone := hc 0 [] []
    rw [List.append_nil] at hnone
    rw [hnone]
    rfl
  · rw [hs, openingBracket?_of_isPlain s hi]
    simp [hrest]

/-! ## Walking on to the end -/

/-- What is found behind a text, with the text in front of it. -/
def within (s : Text) (r : Option (Text × Text)) : Option (Text × Text) :=
  r.map fun (inside, rest) => (s ++ inside, rest)

theorem within_within (s t : Text) (r : Option (Text × Text)) :
    within s (within t r) = within (s ++ t) r := by
  cases r <;> simp [within]

theorem within_some (s inside rest : Text) :
    within s (some (inside, rest)) = some (s ++ inside, rest) := rfl

section Walk

variable {name : Text} {inTag : Bool} {k : Nat} {s t : Text}

/-- A plain text is passed, unless its last character ends the tag that is still open. -/
theorem elementEnd?_plain (hs : IsPlain s)
    (hend : inTag = true → s.getLast? = some '/' → t.head? ≠ some '>') :
    elementEnd? name inTag k (s ++ t) = within s (elementEnd? name inTag k t) := by
  induction s with
  | nil => cases h : elementEnd? name inTag k t <;> simp [within, h]
  | cons c s ih =>
    obtain ⟨hopen, hclose⟩ := hs c List.mem_cons_self
    have hplain : IsPlain s := fun d hd => hs d (List.mem_cons_of_mem c hd)
    have hslash : ¬ (c = '/' ∧ (s ++ t).head? = some '>' ∧ inTag = true ∧ k = 0) := by
      rintro ⟨rfl, hhead, hin, -⟩
      cases s with
      | nil => exact hend hin rfl hhead
      | cons d s =>
        obtain rfl : d = '>' := by simpa using hhead
        exact (hplain '>' List.mem_cons_self).2 rfl
    have htail : inTag = true → s.getLast? = some '/' → t.head? ≠ some '>' := by
      intro hin hlast
      exact hend hin (by rw [List.getLast?_cons, hlast]; rfl)
    rw [List.cons_append, elementEnd?]
    simp only [if_neg hslash, if_neg hclose, if_neg hopen]
    rw [ih hplain htail]
    exact within_within [c] s _

theorem elementEnd?_close :
    elementEnd? name inTag k ('>' :: t) = within ['>'] (elementEnd? name false k t) := by
  rw [elementEnd?]
  simp [within]

theorem elementEnd?_open :
    elementEnd? name inTag k ('<' :: t) = match closingTag? name t with
      | some (tag, rest) =>
        if k = 0 then some ('<' :: tag, rest) else within ['<'] (elementEnd? name inTag (k - 1) t)
      | none =>
        within ['<'] (elementEnd? name inTag (if opensNested name t then k + 1 else k) t) := by
  rw [elementEnd?]
  simp only [show ¬ ('<' = '/' ∧ t.head? = some '>' ∧ inTag = true ∧ k = 0) by simp,
    show ¬ '<' = '>' by decide, if_false, if_true]
  rfl

/-- In the content, what stands behind the `<` of a bracket is passed with its `>`. -/
theorem elementEnd?_inside (hs : IsPlain s) :
    elementEnd? name false k (s ++ '>' :: t) =
      within (s ++ ['>']) (elementEnd? name false k t) := by
  rw [elementEnd?_plain hs (by simp), elementEnd?_close, within_within]

end Walk

/-! ## Tags -/

/-- The first tag of the element opens one of this name that goes on behind it. -/
def Element.opens (name : TagName) : Element → Bool
  | .selfClosing .. => false
  | .enclosing n .. => decide (n = name)

section Tags

variable {name : TagName} {k : Nat} {t : Text}

theorem cut?_inside {s : Text} (h : IsPlain s) : Text.cut? '>' (s ++ '>' :: t) = some (s, t) :=
  Text.cut?_eq_some_iff.2 ⟨rfl, fun hm => (h _ hm).2 rfl⟩

theorem Element.getLast?_inside_enclosing {n attributes hopen children before behind} :
    (enclosing n attributes hopen children before behind).inside.getLast? ≠ some '/' := by
  rw [inside, Element.name, behindName, List.getLast?_append]
  cases h : attributes.text.getLast? with
  | some c => rwa [Option.some_or, ← h]
  | none =>
    intro hn
    exact absurd (n.2.2 _ (List.mem_of_getLast? hn)) (by decide)

theorem Element.opens_eq (e : Element) :
    e.opens name = (decide (e.name = name) && decide (e.inside.getLast? ≠ some '/')) := by
  cases e with
  | selfClosing n attributes => simp [opens, inside, behindName]
  | enclosing => rw [decide_eq_true getLast?_inside_enclosing, Bool.and_true]; rfl

theorem Element.apart_close (e : Element) (t : Text) :
    ∀ c, (e.behindName ++ '>' :: t).head? = some c → c.isAlphanum = false := by
  intro c hc
  cases h : e.behindName with
  | nil =>
    obtain rfl : '>' = c := by simpa [h] using hc
    decide
  | cons d s =>
    obtain rfl : d = c := by simpa [h] using hc
    exact e.apart d (by rw [h]; rfl)

theorem opensNested_inside (e : Element) :
    opensNested name.1 (e.inside ++ '>' :: t) = e.opens name := by
  have hapart := e.apart_close t
  rw [opensNested, cut?_inside e.isPlain_inside, Element.opens_eq]
  by_cases hn : e.name = name
  · have hcut : name.1.isPrefixOf? (e.inside ++ '>' :: t) =
        some (e.behindName ++ '>' :: t) := by
      rw [List.isPrefixOf?_eq_some_iff_append_eq, Element.inside, hn, List.append_assoc]
    have hhead : (e.behindName ++ '>' :: t).head?.any Char.isAlphanum = false := by
      rw [Option.any_eq_false]
      simpa using hapart
    simp only [hcut, hhead, hn]
    simp [bne, beq_eq_decide]
  · rw [decide_eq_false hn, Bool.false_and]
    split
    · rfl
    · rename_i rest hrest
      rw [List.isPrefixOf?_eq_some_iff_append_eq, Element.inside, List.append_assoc] at hrest
      -- A name that ends where this one ends is this one.
      have hany : rest.head?.any Char.isAlphanum = true := by
        by_contra hnot
        have hstop : ∀ c, rest.head? = some c → c.isAlphanum = false := by
          intro c hc
          simpa [hc] using hnot
        exact hn (Subtype.ext (Text.run_append_inj hrest name.2.2 e.name.2.2 hstop hapart).1.symm)
      rw [hany]
      rfl

theorem TagName.exists_cons (n : TagName) : ∃ c s, n.1 = c :: s ∧ c ≠ '/' := by
  obtain ⟨c, s, hc⟩ := List.exists_cons_of_ne_nil n.2.1
  refine ⟨c, s, hc, ?_⟩
  rintro rfl
  exact absurd (n.2.2 '/' (by rw [hc]; exact List.mem_cons_self)) (by decide)

/-- A tag that starts with a name closes nothing. -/
theorem closingTag?_of_name (m : Text) (n : TagName) (s : Text) :
    closingTag? m (n.1 ++ s) = none := by
  obtain ⟨c, u, hc, hne⟩ := n.exists_cons
  rw [hc, List.cons_append]
  unfold closingTag?
  split
  · rename_i heq
    exact absurd (List.cons.inj heq).1 hne
  · rfl

/-- A closing tag opens nothing. -/
theorem opensNested_of_slash (s : Text) : opensNested name.1 ('/' :: s) = false := by
  rw [opensNested]
  split
  · rfl
  · rename_i rest hrest
    obtain ⟨c, u, hc, hne⟩ := name.exists_cons
    rw [List.isPrefixOf?_eq_some_iff_append_eq, hc, List.cons_append] at hrest
    exact absurd (List.cons.inj hrest).1 hne

/-- A closing tag is recognised by its name, whatever blanks stand around it. -/
theorem closingTag?_inside (n : TagName) (before behind : Blanks) :
    closingTag? name.1 (closingInside n before behind ++ '>' :: t) =
      if n = name then some (closingInside n before behind ++ ['>'], t) else none := by
  have hplain : IsPlain (before.1 ++ n.1 ++ behind.1) :=
    (before.isPlain.append n.isPlain).append behind.isPlain
  have htrim : Text.trim (before.1 ++ n.1 ++ behind.1) = n.1 := by
    rw [Text.trim_blanks before.2 behind.2]
    exact Text.trim_eq_self fun c hc => Text.isBlank_of_isAlphanum (n.2.2 c hc)
  rw [closingInside, List.cons_append, closingTag?, cut?_inside hplain]
  simp only [htrim, Subtype.ext_iff]

/-- In the content, the first tag of an element counts if it opens one of the name. -/
theorem elementEnd?_tag (e : Element) :
    elementEnd? name.1 false k (bracket e.inside ++ t) =
      within (bracket e.inside)
        (elementEnd? name.1 false (if e.opens name then k + 1 else k) t) := by
  have hnone : closingTag? name.1 (e.inside ++ '>' :: t) = none := by
    rw [Element.inside, List.append_assoc]
    exact closingTag?_of_name name.1 e.name _
  rw [bracket, List.cons_append, List.append_assoc, List.singleton_append, elementEnd?_open]
  simp only [hnone, opensNested_inside]
  rw [elementEnd?_inside e.isPlain_inside, within_within, List.singleton_append]

/-- In the content, a closing tag counts if it has the name. -/
theorem elementEnd?_closing (n : TagName) (before behind : Blanks) :
    elementEnd? name.1 false (if n = name then k + 1 else k)
        (bracket (closingInside n before behind) ++ t) =
      within (bracket (closingInside n before behind)) (elementEnd? name.1 false k t) := by
  have hplain := isPlain_closingInside n before behind
  rw [bracket, List.cons_append, List.append_assoc, List.singleton_append, elementEnd?_open,
    closingTag?_inside]
  by_cases hn : n = name
  · simp only [hn, if_true, Nat.add_sub_cancel, if_neg (Nat.succ_ne_zero k)]
    rw [← hn, elementEnd?_inside hplain, within_within, List.singleton_append]
  · have hslash : opensNested name.1 (closingInside n before behind ++ '>' :: t) = false :=
      opensNested_of_slash _
    simp only [hn, if_false, hslash]
    rw [elementEnd?_inside hplain, within_within, List.singleton_append]
    rfl

/-- The closing tag of an element ends it. -/
theorem elementEnd?_closing_self (before behind : Blanks) :
    elementEnd? name.1 false 0 (bracket (closingInside name before behind) ++ t) =
      some (bracket (closingInside name before behind), t) := by
  rw [bracket, List.cons_append, List.append_assoc, List.singleton_append, elementEnd?_open,
    closingTag?_inside, if_pos rfl]
  simp

end Tags

/-! ## Elements -/

section Elements

variable {name : TagName}

mutual

/-- In the content, a whole element is passed. -/
theorem Element.elementEnd?_source {k : Nat} {t : Text} :
    (e : Element) → elementEnd? name.1 false k (e.source ++ t) =
      within e.source (elementEnd? name.1 false k t)
  | .selfClosing n attributes => by
    rw [Element.source, Element.body, List.append_nil, elementEnd?_tag]
    rfl
  | .enclosing n attributes opens children before behind => by
    rw [Element.source, List.append_assoc, elementEnd?_tag, Element.body, List.append_assoc,
      children.elementEnd?_source, Element.opens]
    simp only [decide_eq_true_eq]
    rw [elementEnd?_closing, within_within, within_within, List.append_assoc]

/-- In the content, a whole document is passed. -/
theorem Document.elementEnd?_source {k : Nat} {t : Text} :
    (d : Document) → elementEnd? name.1 false k (d.source ++ t) =
      within d.source (elementEnd? name.1 false k t)
  | .nil => by
    cases h : elementEnd? name.1 false k t <;> simp [Document.source, within, h]
  | .text run d => by
    rw [Document.source, List.append_assoc, elementEnd?_plain run.2 (by simp),
      d.elementEnd?_source, within_within]
  | .element e d => by
    rw [Document.source_element, List.append_assoc, e.elementEnd?_source, d.elementEnd?_source,
      within_within]

end

/-- From its name on, the element is cut off at its end. -/
theorem Element.elementEnd?_self (e : Element) (t : Text) :
    elementEnd? e.name.1 true 0 (e.inside ++ ('>' :: e.body ++ t)) =
      some (e.inside ++ '>' :: e.body, t) := by
  cases e with
  | selfClosing n attributes =>
    have hplain : IsPlain (n.1 ++ attributes.text) := n.isPlain.append attributes.isPlain
    have hend : elementEnd? n.1 true 0 ('/' :: '>' :: t) = some (['/', '>'], t) := by
      simp [elementEnd?]
    have hsplit : (selfClosing n attributes).inside ++
        ('>' :: (selfClosing n attributes).body ++ t) =
          n.1 ++ attributes.text ++ '/' :: '>' :: t := by
      simp [inside, Element.name, behindName, body]
    rw [hsplit, Element.name, elementEnd?_plain hplain (by simp), hend, within_some]
    simp [inside, Element.name, behindName, body]
  | enclosing n attributes opens children before behind =>
    rw [elementEnd?_plain (isPlain_inside _) fun _ h => absurd h getLast?_inside_enclosing,
      List.cons_append, elementEnd?_close, body, List.append_assoc, Element.name,
      children.elementEnd?_source, elementEnd?_closing_self]
    rfl

end Elements

/-! ## The element found -/

theorem elementAt?_min (t : Text) (cursor : Nat) :
    elementAt? t (min cursor (t.utf8Length - 1)) = elementAt? t cursor := by
  rw [elementAt?, elementAt?, cutBehind_min]

theorem cutBehind_of_holds {d : Document} {s t : Text} {e : Element} {n : Nat}
    (h : d.Holds s e t) (hs : s.utf8Length ≤ n) (hn : n < s.utf8Length + e.tag.utf8Length) :
    ∃ inside behind, cutBehind n d.source = (s ++ '<' :: inside, behind) ∧
      IsPlain inside ∧ inside ++ behind = e.inside ++ ('>' :: e.body ++ t) := by
  obtain ⟨inside, hcut, hinside⟩ :=
    exists_cons_of_cutBehind (c := '<') (n - s.utf8Length) e.inside
  refine ⟨inside, (cutBehind (n - s.utf8Length) e.tag).2 ++ ('>' :: e.body ++ t), ?_, ?_, ?_⟩
  · rw [h.source_eq, e.source_eq, List.append_assoc, cutBehind_of_le hs,
      cutBehind_of_lt (by omega)]
    rw [Element.tag, hcut]
  · intro c hc
    refine e.isPlain_inside c ?_
    rw [← hinside]
    exact List.mem_append_left _ hc
  · rw [← List.append_assoc, Element.tag, hinside]

theorem elementAt?_of_holds {d : Document} {s t : Text} {e : Element} {n : Nat}
    (h : d.Holds s e t) (hs : s.utf8Length ≤ n) (hn : n < s.utf8Length + e.tag.utf8Length) :
    elementAt? d.source n = some ⟨s, e.source, t⟩ := by
  obtain ⟨inside, behind, hcut, hplain, hinside⟩ := cutBehind_of_holds h hs hn
  have hname : (e.inside ++ ('>' :: e.body ++ t)).takeWhile Char.isAlphanum = e.name.1 := by
    rw [Element.inside, List.append_assoc]
    exact Text.takeWhile_run e.name.2.2 (e.apart_close (e.body ++ t))
  have hne : e.name.1.isEmpty = false := by simp [e.name.2.1]
  unfold elementAt?
  rw [hcut]
  dsimp only
  rw [openingBracket?_of_isPlain s hplain]
  simp only [Option.bind_eq_bind, Option.bind_some, hinside, hname, hne, e.elementEnd?_self t]
  simp [Element.source_eq, Element.tag]

/-- What is found is an element of the document in whose first tag, up to its `>`, the cursor
lies; a cursor behind the end of the text stands for its last byte. Where there is no such
element, nothing is found. -/
theorem elementAt?_eq_some_iff (d : Document) (cursor : Nat) (f : Found) :
    elementAt? d.source cursor = some f ↔
      ∃ e, d.Holds f.before e f.after ∧ f.element = e.source ∧
        f.start ≤ min cursor (d.source.utf8Length - 1) ∧
        min cursor (d.source.utf8Length - 1) < f.start + e.tag.utf8Length := by
  rw [← elementAt?_min]
  generalize min cursor (d.source.utf8Length - 1) = n
  constructor
  · intro h
    rcases d.inTag_or_outside (n := n) with ⟨s, e, t, hd, hs, hn⟩ | hout
    · rw [elementAt?_of_holds hd hs hn] at h
      obtain rfl := Option.some.inj h
      exact ⟨e, hd, rfl, hs, hn⟩
    · rw [elementAt?_of_outside hout] at h
      exact nomatch h
  · rintro ⟨e, hd, he, hstart, hstop⟩
    rw [elementAt?_of_holds hd hstart hstop, ← he]

example : (elementAt? "<a>é<ab c/></a >".toList 6).map (fun f => (f.start, f.stop)) =
    some (5, 12) := by decide

end TextTransforms.Markup
