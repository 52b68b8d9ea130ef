import TextTransforms.Proofs.Template.Pieces

/-!
# The grammar of specs

A spec that follows the grammar of formatting has a fill with an alignment, a sign, an
alternate flag, a zero flag, a width, a precision and a type, each of them optional. Width and
precision are counts: plain digits, the index of an argument or a name, the last two in front of
a `$`. A `0` in front of the width is the zero flag, unless a `$` follows it directly.

A text is such a spec in one way only (`FormatSpec.source_inj`), so its flags are those of the
text (`FormatSpec.flags`).
-/

namespace TextTransforms

/-- Characters of names: word characters, and whatever is not ASCII. -/
def isIdentifierChar (c : Char) : Bool := Text.isWordChar c || decide (128 ≤ c.toNat)

/-- A name: such characters, the first one no digit. -/
structure IsIdentifier (t : Text) : Prop where
  starts : ∃ c s, t = c :: s ∧ c.isDigit = false
  isIdentifierChar : ∀ c ∈ t, isIdentifierChar c = true

theorem isIdentifier_singleton {c : Char} (hc : isIdentifierChar c = true)
    (hd : c.isDigit = false) : IsIdentifier [c] :=
  ⟨⟨c, [], rfl, hd⟩, by simpa using hc⟩

namespace FormatSpec

abbrev Digits := { t : Text // SpecPiece.IsDigits t }

abbrev Identifier := { t : Text // IsIdentifier t }

inductive Side where
  | left
  | center
  | right
  deriving DecidableEq, Repr

def Side.mark : Side → Char
  | left => '<'
  | center => '^'
  | right => '>'

structure Alignment where
  fill : Option Char
  side : Side
  deriving DecidableEq, Repr

def Alignment.source (a : Alignment) : Text := a.fill.toList ++ [a.side.mark]

inductive Sign where
  | plus
  | minus
  deriving DecidableEq, Repr

def Sign.mark : Sign → Char
  | plus => '+'
  | minus => '-'

inductive Count where
  | literal (digits : Digits)
  | index (digits : Digits)
  | name (name : Identifier)

namespace Count

def source : Count → Text
  | literal digits => digits
  | index digits => digits ++ ['$']
  | name n => n ++ ['$']

/-- The digits of a count that refers to nothing. -/
def literal? : Count → Option Text
  | literal digits => some digits
  | index _ => none
  | name _ => none

/-- The count refers to argument `k`: the number `k` stands in front of its `$`, and no word
character in front of that. Only ASCII counts as such, so this may be the end of a name. -/
def RefersTo (c : Count) (k : Nat) : Prop :=
  ∃ s digits, c.source = s ++ digits ++ ['$'] ∧ SpecPiece.IsDigits digits ∧
    (∀ d, s.getLast? = some d → Text.isWordChar d = false) ∧
    Numeral.value digits = k ∧ k < Numeral.indexLimit

end Count

inductive Precision where
  | count (c : Count)
  | star

namespace Precision

def source : Precision → Text
  | count c => '.' :: c.source
  | star => ['.', '*']

def literal? : Precision → Option Text
  | count c => c.literal?
  | star => some ['*']

end Precision

/-- The type that a value is shown as: nothing, the three debug forms, or the name of a trait. -/
abbrev Kind := { t : Text // t ∈ [[], ['?'], ['x', '?'], ['X', '?']] ∨ IsIdentifier t }

end FormatSpec

open FormatSpec in
/-- The parts of a spec. -/
structure FormatSpec where
  align : Option FormatSpec.Alignment
  sign : Option Sign
  alternate : Bool
  zero : Bool
  width : Option Count
  precision : Option Precision
  kind : Kind
  /-- A `0` that starts a width without being the zero flag has a `$` right behind it. -/
  leading : zero = false → ∀ c, width = some c → c.source.head? = some '0' → c.source = ['0', '$']

namespace FormatSpec

/-- The text of a part, nothing if the part is missing. -/
def textOf {α : Type} (source : α → Text) (part : Option α) : Text := part.elim [] source

def flagText (mark : Char) (flag : Bool) : Text := if flag then [mark] else []

/-- The spec behind its width. -/
def behindWidth (precision : Option Precision) (kind : Kind) : Text :=
  textOf Precision.source precision ++ kind.1

def source (f : FormatSpec) : Text :=
  textOf Alignment.source f.align ++ (textOf (fun s => [s.mark]) f.sign ++
    (flagText '#' f.alternate ++ (flagText '0' f.zero ++
      (textOf Count.source f.width ++ behindWidth f.precision f.kind))))

def HasCount (f : FormatSpec) (c : Count) : Prop :=
  f.width = some c ∨ f.precision = some (.count c)

/-- What a spec says, but for the arguments that its counts refer to. -/
structure Flags where
  align : Option Alignment
  sign : Option Sign
  alternate : Bool
  zero : Bool
  /-- The digits of a width, `none` if it refers to an argument. -/
  width : Option (Option Text)
  precision : Option (Option Text)
  kind : Text
  deriving DecidableEq, Repr

def flags (f : FormatSpec) : Flags where
  align := f.align
  sign := f.sign
  alternate := f.alternate
  zero := f.zero
  width := f.width.map Count.literal?
  precision := f.precision.map Precision.literal?
  kind := f.kind

/-! ## Where a count ends -/

section Characters

variable {c : Char}

theorem isIdentifierChar_of_isDigit (h : c.isDigit = true) : isIdentifierChar c = true := by
  simp [isIdentifierChar, Text.isWordChar_of_isDigit h]

theorem Identifier.ne_nil (n : Identifier) : n.1 ≠ [] := by
  obtain ⟨c, s, hc, -⟩ := n.2.starts
  simp [hc]

/-- What may stand behind a count: nothing that goes on with it. -/
structure Stops (rest : Text) : Prop where
  head : ∀ c, rest.head? = some c → c.isDigit = false ∧ c ≠ '$'
  name : (rest.dropWhile isIdentifierChar).head? ≠ some '$'

theorem stops_of_head {c : Char} (t : Text) (hd : c.isDigit = false) (hc : c ≠ '$')
    (hi : isIdentifierChar c = false) : Stops (c :: t) := by
  refine ⟨fun d h => ?_, ?_⟩
  · obtain rfl : c = d := by simpa using h
    exact ⟨hd, hc⟩
  · simp [hi, hc]

theorem stops_of_mem {t : Text} (h : t ∈ [[], ['?'], ['x', '?'], ['X', '?']]) : Stops t := by
  have plain : ∀ t ∈ [[], ['?'], ['x', '?'], ['X', '?']],
      t.head?.all (fun c => !c.isDigit && c != '$') = true ∧
        (t.dropWhile isIdentifierChar).head? ≠ some '$' := by decide
  obtain ⟨hhead, hname⟩ := plain t h
  exact ⟨fun c hc => by simpa [hc] using hhead, hname⟩

theorem Kind.stops (k : Kind) : Stops k.1 := by
  obtain ⟨t, hk⟩ := k
  rcases hk with hk | hk
  · exact stops_of_mem hk
  · obtain ⟨c, s, rfl, hc⟩ := hk.starts
    have hdrop : (c :: s).dropWhile isIdentifierChar = [] :=
      List.dropWhile_eq_nil_iff.2 hk.isIdentifierChar
    refine ⟨fun d h => ?_, by simp [hdrop]⟩
    obtain rfl : c = d := by simpa using h
    refine ⟨hc, ?_⟩
    rintro rfl
    exact absurd (hk.isIdentifierChar '$' List.mem_cons_self) (by decide)

theorem Kind.isIdentifierChar_of_mem (k : Kind) {d : Char} (h : d ∈ k.1) :
    d = '?' ∨ isIdentifierChar d = true := by
  rcases k.2 with hk | hk
  · have plain : [[], ['?'], ['x', '?'], ['X', '?']].all
        (·.all fun d => d = '?' ∨ isIdentifierChar d = true) = true := by decide
    simpa using List.all_eq_true.1 (List.all_eq_true.1 plain _ hk) d h
  · exact .inr (hk.isIdentifierChar d h)

theorem Kind.notMem (k : Kind) {d : Char} (hd : d ≠ '?') (hi : isIdentifierChar d = false) :
    d ∉ k.1 := by
  intro h
  rcases k.isIdentifierChar_of_mem h with h | h
  · exact hd h
  · exact absurd h (by simp [hi])

theorem stops_behindWidth (p : Option Precision) (k : Kind) : Stops (behindWidth p k) := by
  cases p with
  | none => exact k.stops
  | some p =>
    cases p with
    | count c => exact stops_of_head _ (by decide) (by decide) (by decide)
    | star => exact stops_of_head _ (by decide) (by decide) (by decide)

end Characters

/-! ## One spec for a text -/

/-- The four forms of a count that may be missing. -/
inductive CountShape where
  | missing
  | literal
  | index
  | name
  deriving DecidableEq

def shapeOf : Option Count → CountShape
  | none => .missing
  | some (.literal _) => .literal
  | some (.index _) => .index
  | some (.name _) => .name

/-- The form of a count shows from its digits and from the `$` behind them or behind a name. -/
def shapeAt (t : Text) : CountShape :=
  if t.takeWhile Char.isDigit = [] then
    if (t.dropWhile isIdentifierChar).head? = some '$' then .name else .missing
  else if (t.dropWhile Char.isDigit).head? = some '$' then .index else .literal

section Inj

variable {rest rest' : Text}

theorem shapeAt_count (w : Option Count) (h : Stops rest) :
    shapeAt (textOf Count.source w ++ rest) = shapeOf w := by
  have digits (d : Digits) (t : Text) (ht : ∀ c, t.head? = some c → c.isDigit = false) :
      (d.1 ++ t).takeWhile Char.isDigit ≠ [] ∧ (d.1 ++ t).dropWhile Char.isDigit = t :=
    ⟨by rw [Text.takeWhile_run d.2.2 ht]; exact d.2.1, Text.dropWhile_run d.2.2 ht⟩
  cases w with
  | none =>
    have htake : rest.takeWhile Char.isDigit = [] := by
      cases rest with
      | nil => rfl
      | cons c t => simp [(h.head c rfl).1]
    simp [textOf, shapeAt, htake, h.name, shapeOf]
  | some c =>
    cases c with
    | literal d =>
      obtain ⟨htake, hdrop⟩ := digits d rest fun c hc => (h.head c hc).1
      have hdollar : rest.head? ≠ some '$' := fun hc => (h.head '$' hc).2 rfl
      simp only [textOf, Option.elim_some, Count.source, shapeAt, shapeOf, hdrop, if_neg htake,
        if_neg hdollar]
    | index d =>
      obtain ⟨htake, hdrop⟩ := digits d ('$' :: rest) (Text.stops_cons rest (by decide))
      simp only [textOf, Option.elim_some, Count.source, shapeAt, shapeOf, List.append_assoc,
        List.singleton_append, hdrop, if_neg htake]
      rfl
    | name n =>
      have hdrop : (n.1 ++ '$' :: rest).dropWhile isIdentifierChar = '$' :: rest :=
        Text.dropWhile_run n.2.isIdentifierChar (Text.stops_cons rest (by decide))
      obtain ⟨c, s, hc, hd⟩ := n.2.starts
      have htake : (n.1 ++ '$' :: rest).takeWhile Char.isDigit = [] := by simp [hc, hd]
      simp only [textOf, Option.elim_some, Count.source, shapeAt, shapeOf, List.append_assoc,
        List.singleton_append, hdrop, if_pos htake]
      rfl

theorem literal_inj {d d' : Digits} (h : d.1 ++ rest = d'.1 ++ rest')
    (hr : ∀ c, rest.head? = some c → c.isDigit = false)
    (hr' : ∀ c, rest'.head? = some c → c.isDigit = false) : d = d' ∧ rest = rest' := by
  obtain ⟨hd, hrest⟩ := Text.run_append_inj h d.2.2 d'.2.2 hr hr'
  exact ⟨Subtype.ext hd, hrest⟩

theorem name_inj {n n' : Identifier} (h : n.1 ++ '$' :: rest = n'.1 ++ '$' :: rest') :
    n = n' ∧ rest = rest' := by
  obtain ⟨hn, -, hrest⟩ := Text.run_cons_inj h n.2.isIdentifierChar n'.2.isIdentifierChar
    (by decide) (by decide)
  exact ⟨Subtype.ext hn, hrest⟩

theorem count_inj {w w' : Option Count}
    (h : textOf Count.source w ++ rest = textOf Count.source w' ++ rest')
    (hr : Stops rest) (hr' : Stops rest') : w = w' ∧ rest = rest' := by
  have hshape : shapeOf w = shapeOf w' := by rw [← shapeAt_count w hr, h, shapeAt_count w' hr']
  match w, w', hshape, h with
  | none, none, _, h => exact ⟨rfl, h⟩
  | some (.literal d), some (.literal d'), _, h =>
    obtain ⟨rfl, hrest⟩ := literal_inj h (fun c hc => (hr.head c hc).1)
      fun c hc => (hr'.head c hc).1
    exact ⟨rfl, hrest⟩
  | some (.index d), some (.index d'), _, h =>
    simp only [textOf, Option.elim_some, Count.source, List.append_assoc,
      List.singleton_append] at h
    have hstop (t : Text) : ∀ c, ('$' :: t).head? = some c → c.isDigit = false :=
      Text.stops_cons t (by decide)
    obtain ⟨rfl, hrest⟩ := literal_inj h (hstop rest) (hstop rest')
    exact ⟨rfl, (List.cons.inj hrest).2⟩
  | some (.name n), some (.name n'), _, h =>
    simp only [textOf, Option.elim_some, Count.source, List.append_assoc,
      List.singleton_append] at h
    obtain ⟨rfl, hrest⟩ := name_inj h
    exact ⟨rfl, hrest⟩

/-- A count does not start like the precision that is drawn from the list. -/
theorem count_ne_star (c : Count) (t : Text) (k : Kind) : c.source ++ k.1 ≠ '*' :: t := by
  intro h
  have hshape : shapeOf (some c) = shapeAt ('*' :: t) := by
    rw [← h, ← shapeAt_count (some c) k.stops]
    rfl
  have hstar : shapeAt ('*' :: t) = .missing := by
    simp [shapeAt, isIdentifierChar, Text.isWordChar]
  rw [hstar] at hshape
  cases c <;> simp [shapeOf] at hshape

private theorem ne_dot (k : Kind) (t : Text) : k.1 ≠ '.' :: t := by
  intro h
  refine k.notMem (d := '.') (by decide) (by decide) ?_
  rw [h]
  exact List.mem_cons_self

theorem behindWidth_inj {p p' : Option Precision} {k k' : Kind}
    (h : behindWidth p k = behindWidth p' k') : p = p' ∧ k = k' := by
  match p, p', h with
  | none, none, h => exact ⟨rfl, Subtype.ext h⟩
  | none, some (.count c), h => exact absurd h (ne_dot k _)
  | none, some .star, h => exact absurd h (ne_dot k _)
  | some (.count c), none, h => exact absurd h.symm (ne_dot k' _)
  | some .star, none, h => exact absurd h.symm (ne_dot k' _)
  | some (.count c), some (.count c'), h =>
    have htexts : textOf Count.source (some c) ++ k.1 = textOf Count.source (some c') ++ k'.1 :=
      (List.cons.inj h).2
    obtain ⟨hc, hk⟩ := count_inj htexts k.stops k'.stops
    exact ⟨by rw [Option.some.inj hc], Subtype.ext hk⟩
  | some .star, some .star, h =>
    exact ⟨rfl, Subtype.ext (List.cons.inj (List.cons.inj h).2).2⟩
  | some .star, some (.count c), h => exact absurd (List.cons.inj h).2.symm (count_ne_star c k.1 k')
  | some (.count c), some .star, h => exact absurd (List.cons.inj h).2 (count_ne_star c k'.1 k)

/-- The zero flag is a `0` at the start with no `$` behind it. -/
def zeroAt (t : Text) : Bool := t.head? == some '0' && t.tail.head? != some '$'

theorem head?_count_ne (w : Option Count) (h : Stops rest) :
    (textOf Count.source w ++ rest).head? ≠ some '$' := by
  have digits (d : Digits) (t : Text) : (d.1 ++ t).head? ≠ some '$' := by
    obtain ⟨c, s, hc⟩ := List.exists_cons_of_ne_nil d.2.1
    rw [hc]
    intro h
    obtain rfl : c = '$' := by simpa using h
    exact absurd (d.2.2 '$' (by rw [hc]; exact List.mem_cons_self)) (by decide)
  match w with
  | none => exact fun hc => (h.head '$' hc).2 rfl
  | some (.literal d) => exact digits d rest
  | some (.index d) =>
    rw [textOf, Option.elim_some, Count.source, List.append_assoc]
    exact digits d _
  | some (.name n) =>
    obtain ⟨c, s, hc, -⟩ := n.2.starts
    rw [textOf, Option.elim_some, Count.source, hc]
    intro h
    obtain rfl : c = '$' := by simpa using h
    exact absurd (n.2.isIdentifierChar '$' (by rw [hc]; exact List.mem_cons_self)) (by decide)

theorem Count.source_ne_nil (c : Count) : c.source ≠ [] := by
  cases c with
  | literal d => exact d.2.1
  | index d => simp [source]
  | name n => simp [source]

theorem zeroAt_source (f : FormatSpec) :
    zeroAt (flagText '0' f.zero ++
      (textOf Count.source f.width ++ behindWidth f.precision f.kind)) = f.zero := by
  have hstops := stops_behindWidth f.precision f.kind
  cases hz : f.zero with
  | true =>
    have hhead := head?_count_ne f.width hstops
    simpa [zeroAt, flagText] using hhead
  | false =>
    rw [flagText, if_neg Bool.false_ne_true, List.nil_append]
    cases hw : f.width with
    | none =>
      have hhead : (behindWidth f.precision f.kind).head? ≠ some '0' := fun hc =>
        absurd (hstops.head '0' hc).1 (by decide)
      simp [zeroAt, textOf, hhead]
    | some c =>
      obtain ⟨d, s, hc⟩ := List.exists_cons_of_ne_nil c.source_ne_nil
      by_cases hd : d = '0'
      · have hsource := f.leading hz c hw (by rw [hc, hd]; rfl)
        simp [zeroAt, textOf, hsource]
      · simp [zeroAt, textOf, hc, hd]

theorem flag_inj {mark : Char} {b b' : Bool}
    (h : flagText mark b ++ rest = flagText mark b' ++ rest')
    (hr : mark ∉ rest) (hr' : mark ∉ rest') : b = b' ∧ rest = rest' := by
  cases b <;> cases b'
  · exact ⟨rfl, h⟩
  · exact absurd (by rw [show rest = mark :: rest' from h]; exact List.mem_cons_self) hr
  · exact absurd (by rw [show rest' = mark :: rest from h.symm]; exact List.mem_cons_self) hr'
  · exact ⟨rfl, (List.cons.inj h).2⟩

theorem sign_inj {s s' : Option Sign}
    (h : textOf (fun s => [s.mark]) s ++ rest = textOf (fun s => [s.mark]) s' ++ rest')
    (hr : ∀ s : Sign, s.mark ∉ rest) (hr' : ∀ s : Sign, s.mark ∉ rest') :
    s = s' ∧ rest = rest' := by
  match s, s' with
  | none, none => exact ⟨rfl, h⟩
  | none, some a =>
    exact absurd (by rw [show rest = a.mark :: rest' from h]; exact List.mem_cons_self) (hr a)
  | some a, none =>
    exact absurd (by rw [show rest' = a.mark :: rest from h.symm]; exact List.mem_cons_self) (hr' a)
  | some a, some b =>
    obtain ⟨hmark, hrest⟩ := List.cons.inj h
    cases a <;> cases b <;> first | exact ⟨rfl, hrest⟩ | exact absurd hmark (by decide)

def isAlignmentMark (c : Char) : Bool := c == '<' || c == '^' || c == '>'

theorem isAlignmentMark_mark (side : Side) : isAlignmentMark side.mark = true := by
  cases side <;> rfl

theorem Alignment.source_inj {a a' : Alignment} (h : a.source = a'.source) : a = a' := by
  obtain ⟨hfill, hside⟩ := List.append_inj' h rfl
  have hfill : a.fill = a'.fill := by simpa using congrArg List.head? hfill
  have hside : a.side = a'.side := by
    have hmark := (List.cons.inj hside).1
    cases hs : a.side <;> cases hs' : a'.side <;> rw [hs, hs'] at hmark <;>
      first | rfl | exact absurd hmark (by decide)
  cases a
  cases a'
  cases hfill
  cases hside
  rfl

/-- The last mark of a text ends its alignment. -/
theorem align_inj {a a' : Option Alignment}
    (h : textOf Alignment.source a ++ rest = textOf Alignment.source a' ++ rest')
    (hr : ∀ c ∈ rest, isAlignmentMark c = false) (hr' : ∀ c ∈ rest', isAlignmentMark c = false) :
    a = a' ∧ rest = rest' := by
  have starts (a : Option Alignment) : ∀ c, (textOf Alignment.source a).reverse.head? = some c →
      (!isAlignmentMark c) = false := by
    intro c hc
    match a with
    | none => simp [textOf] at hc
    | some a =>
      obtain rfl : a.side.mark = c := by simpa [textOf, Alignment.source] using hc
      rw [isAlignmentMark_mark]
      rfl
  have hreverse := congrArg List.reverse h
  rw [List.reverse_append, List.reverse_append] at hreverse
  obtain ⟨hrest, hsource⟩ := Text.run_append_inj (p := (!isAlignmentMark ·)) hreverse
    (fun c hc => by simp [hr c (List.mem_reverse.1 hc)])
    (fun c hc => by simp [hr' c (List.mem_reverse.1 hc)]) (starts a) (starts a')
  refine ⟨?_, List.reverse_inj.1 hrest⟩
  replace hsource := List.reverse_inj.1 hsource
  match a, a' with
  | none, none => rfl
  | none, some a => exact absurd hsource.symm (by simp [textOf, Alignment.source])
  | some a, none => exact absurd hsource (by simp [textOf, Alignment.source])
  | some a, some a' => rw [Alignment.source_inj hsource]

/-- The characters of a spec behind its flags. -/
def isTailChar (c : Char) : Bool := isIdentifierChar c || ['$', '.', '*', '?'].contains c

theorem isTailChar_of_mem_count {c : Count} {d : Char} (h : d ∈ c.source) :
    isTailChar d = true := by
  have digits (t : Digits) (hd : d ∈ t.1) : isTailChar d = true := by
    simp [isTailChar, isIdentifierChar_of_isDigit (t.2.2 d hd)]
  have dollar (hd : d = '$') : isTailChar d = true := by rw [hd]; decide
  cases c with
  | literal t => exact digits t h
  | index t =>
    rcases List.mem_append.1 h with h | h
    · exact digits t h
    · exact dollar (by simpa using h)
  | name n =>
    rcases List.mem_append.1 h with h | h
    · simp [isTailChar, n.2.isIdentifierChar d h]
    · exact dollar (by simpa using h)

theorem isTailChar_of_mem_behindWidth {p : Option Precision} {k : Kind} {d : Char}
    (h : d ∈ behindWidth p k) : isTailChar d = true := by
  rcases List.mem_append.1 h with h | h
  · match p with
    | none => simp [textOf] at h
    | some (.count c) =>
      rcases List.mem_cons.1 h with rfl | h
      · decide
      · exact isTailChar_of_mem_count h
    | some .star =>
      have plain : ['.', '*'].all isTailChar = true := by decide
      exact List.all_eq_true.1 plain d h
  · rcases k.isIdentifierChar_of_mem h with rfl | hk
    · decide
    · simp [isTailChar, hk]

theorem isTailChar_of_mem (f : FormatSpec) {d : Char}
    (h : d ∈ flagText '0' f.zero ++
      (textOf Count.source f.width ++ behindWidth f.precision f.kind)) : isTailChar d = true := by
  rcases List.mem_append.1 h with h | h
  · cases hz : f.zero with
    | false => simp [hz, flagText] at h
    | true =>
      obtain rfl : d = '0' := by simpa [hz, flagText] using h
      decide
  · rcases List.mem_append.1 h with h | h
    · cases hw : f.width with
      | none => simp [hw, textOf] at h
      | some c =>
        rw [hw] at h
        exact isTailChar_of_mem_count h
    · exact isTailChar_of_mem_behindWidth h

end Inj

/-- The spec behind its alternate flag. -/
private def tail (f : FormatSpec) : Text :=
  flagText '0' f.zero ++ (textOf Count.source f.width ++ behindWidth f.precision f.kind)

private theorem notMem_tail (f : FormatSpec) {c : Char} (hc : isTailChar c = false) : c ∉ f.tail :=
  fun hm => absurd (f.isTailChar_of_mem hm) (by simp [hc])

/-- Behind the alignment a sign stands in front of all else, and neither is a mark. -/
private theorem mem_behindAlign (f : FormatSpec) {c : Char}
    (hc : c ∈ textOf (fun s => [s.mark]) f.sign ++ (flagText '#' f.alternate ++ f.tail)) :
    (∃ s : Sign, c = s.mark) ∨ c ∈ flagText '#' f.alternate ++ f.tail := by
  refine (List.mem_append.1 hc).imp_left fun hc => ?_
  cases hs : f.sign with
  | none => simp [hs, textOf] at hc
  | some s => exact ⟨s, by simpa [hs, textOf] using hc⟩

private theorem mem_behindSign (f : FormatSpec) {c : Char}
    (hc : c ∈ flagText '#' f.alternate ++ f.tail) : c = '#' ∨ c ∈ f.tail := by
  refine (List.mem_append.1 hc).imp_left fun hc => ?_
  cases ha : f.alternate with
  | false => simp [ha, flagText] at hc
  | true => simpa [ha, flagText] using hc

private theorem isAlignmentMark_of_mem (f : FormatSpec) :
    ∀ c ∈ textOf (fun s => [s.mark]) f.sign ++ (flagText '#' f.alternate ++ f.tail),
      isAlignmentMark c = false := by
  intro c hc
  rcases f.mem_behindAlign hc with ⟨s, rfl⟩ | hc
  · cases s <;> rfl
  · rcases f.mem_behindSign hc with rfl | hc
    · rfl
    · have hne (d : Char) (hd : isTailChar d = false) : c ≠ d := by
        rintro rfl
        exact f.notMem_tail hd hc
      simp [isAlignmentMark, hne '<' (by decide), hne '^' (by decide), hne '>' (by decide)]

private theorem sign_notMem (f : FormatSpec) (s : Sign) :
    s.mark ∉ flagText '#' f.alternate ++ f.tail := by
  intro hm
  rcases f.mem_behindSign hm with h | h
  · cases s <;> exact absurd h (by decide)
  · cases s <;> exact f.notMem_tail (by decide) h

/-- A text is a spec in one way only. -/
theorem source_inj {f f' : FormatSpec} (h : f.source = f'.source) : f = f' := by
  obtain ⟨halign, h⟩ := align_inj h f.isAlignmentMark_of_mem f'.isAlignmentMark_of_mem
  obtain ⟨hsign, h⟩ := sign_inj h f.sign_notMem f'.sign_notMem
  obtain ⟨halternate, h⟩ := flag_inj h (f.notMem_tail (by decide)) (f'.notMem_tail (by decide))
  have hzero : f.zero = f'.zero := by rw [← f.zeroAt_source, ← f'.zeroAt_source]; rw [h]
  rw [hzero] at h
  obtain ⟨hwidth, h⟩ := count_inj (List.append_cancel_left h) (stops_behindWidth _ _)
    (stops_behindWidth _ _)
  obtain ⟨hprecision, hkind⟩ := behindWidth_inj h
  cases f
  cases f'
  cases halign
  cases hsign
  cases halternate
  cases hzero
  cases hwidth
  cases hprecision
  cases hkind
  rfl

end FormatSpec

end TextTransforms
