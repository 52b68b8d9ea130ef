import TextTransforms.Calculator.Readers
import TextTransforms.Proofs.Number.Numeral
import TextTransforms.Proofs.Text.Runs

/-!
# The grammar of expressions

A derivation of an expression is a tree over all of its text, blanks included: operands
joined by the operators of a level (`Chain`), operands that are a tighter chain or signed
atoms (`Operand`, `Signed`), atoms (`Atom`) and the arguments of a function (`CallTail`). Each
tree spells a text (`Chain.source`) and stands for an expression (`Chain.expr`), in which
operators of one level bind from the left and a plus sign leaves no trace. The mark of every
operator (`Level.IsMark`) and the decimal that digits denote (`DecimalText.value`) are stated
here by themselves; the readers go by the same marks and decimals
(`Level.operator?_eq_some_iff`, `DecimalText.value_eq`).

Numbers and names are as long as they can be (`Chain.IsLongest`). What may follow a chain is
no part of a number, a name or an operand (`Follows`), so this holds of every derivation
(`Chain.isLongest`).
-/

namespace TextTransforms.Expr

/-! ## Leaves -/

/-- Spaces, tabs and line breaks. -/
abbrev Space := { t : Text // ∀ c ∈ t, c.isWhitespace = true }

abbrev Digits := { t : Text // t ≠ [] ∧ ∀ c ∈ t, c.isDigit = true }

/-- A number as it is written. -/
inductive DecimalText where
  | integer (whole : Digits)
  | decimal (whole fraction : Digits)
  | point (fraction : Digits)

namespace DecimalText

def source : DecimalText → Text
  | integer whole => whole
  | decimal whole fraction => whole ++ '.' :: fraction
  | point fraction => '.' :: fraction

/-- The digits on both sides of the point. -/
def digits : DecimalText → Text
  | integer whole => whole
  | decimal whole fraction => whole ++ fraction
  | point fraction => fraction

/-- The number of digits behind the point. -/
def places : DecimalText → Nat
  | integer _ => 0
  | decimal _ fraction => fraction.1.length
  | point fraction => fraction.1.length

/-- The decimal that is written: the number of its digits, with the point as many places before
their end as digits follow it. -/
def value (n : DecimalText) : Decimal where
  digits := Nat.ofDigits 10 (n.digits.reverse.map Numeral.digit)
  exponent := -n.places

theorem isDigit_of_mem_digits (n : DecimalText) : ∀ c ∈ n.digits, c.isDigit = true := by
  cases n with
  | integer whole => exact whole.2.2
  | decimal whole fraction =>
    intro c hc
    rcases List.mem_append.1 hc with hc | hc
    · exact whole.2.2 c hc
    · exact fraction.2.2 c hc
  | point fraction => exact fraction.2.2

/-- The reader makes this decimal of the digits before and behind the point. -/
theorem value_eq (n : DecimalText) :
    n.value = match n with
      | integer whole => .ofDigits whole []
      | decimal whole fraction => .ofDigits whole fraction
      | point fraction => .ofDigits [] fraction := by
  rw [value, ← Numeral.value_eq_ofDigits n.isDigit_of_mem_digits]
  cases n with
  | integer whole => simp [digits, places, Decimal.ofDigits]
  | decimal whole fraction => rfl
  | point fraction => rfl

/-- The text that follows does not go on with the number. -/
def IsLongest (n : DecimalText) (rest : Text) : Prop :=
  ∀ c, rest.head? = some c → c.isDigit = false ∧ ∀ whole, n = integer whole → c ≠ '.'

end DecimalText

/-- The name of a constant or a function. -/
structure Name where
  first : Char
  others : Text
  isAlpha : first.isAlpha = true
  isWordChar : ∀ c ∈ others, Text.isWordChar c = true

namespace Name

def text (n : Name) : Text := n.first :: n.others

def source (n : Name) : Text := 'M' :: 'a' :: 't' :: 'h' :: '.' :: n.text

/-- The text that follows does not go on with the name. -/
def IsLongest (_n : Name) (rest : Text) : Prop :=
  ∀ c, rest.head? = some c → Text.isWordChar c = false

end Name

/-- The character that an operator of a level is written with. -/
inductive Level.IsMark : Level → Char → Operator → Prop
  | add : IsMark .sum '+' .add
  | sub : IsMark .sum '-' .sub
  | mul : IsMark .product '*' .mul
  | div : IsMark .product '/' .div
  | rem : IsMark .product '%' .rem

theorem Level.operator?_eq_some_iff {l : Level} {c : Char} {op : Operator} :
    l.operator? c = some op ↔ l.IsMark c op := by
  constructor
  · intro h
    unfold Level.operator? at h
    split at h
    · obtain rfl := Option.some.inj h
      exact .add
    · obtain rfl := Option.some.inj h
      exact .sub
    · obtain rfl := Option.some.inj h
      exact .mul
    · obtain rfl := Option.some.inj h
      exact .div
    · obtain rfl := Option.some.inj h
      exact .rem
    · exact nomatch h
  · intro h
    cases h <;> rfl

theorem Level.IsMark.unique {l : Level} {c : Char} {op op' : Operator} (h : l.IsMark c op)
    (h' : l.IsMark c op') : op = op' :=
  Option.some.inj ((operator?_eq_some_iff.2 h).symm.trans (operator?_eq_some_iff.2 h'))

/-- An operator of a level between its blanks. -/
structure Link (l : Level) where
  before : Space
  mark : Char
  operator : Operator
  isMark : l.IsMark mark operator
  behind : Space

/-! ## Trees -/

mutual

/-- What the operators of a level join. -/
inductive Operand : Level → Type
  | product (chain : Chain .product) : Operand .sum
  | signed (s : Signed) : Operand .product

/-- Operands joined by the operators of a level. -/
inductive Chain : Level → Type
  | mk {l : Level} (first : Operand l) (more : More l) : Chain l

/-- Further operands. -/
inductive More : Level → Type
  | nil {l : Level} : More l
  | cons {l : Level} (link : Link l) (operand : Operand l) (more : More l) : More l

inductive Signed : Type
  | minus (behind : Space) (operand : Signed) : Signed
  | plus (behind : Space) (operand : Signed) : Signed
  | atom (a : Atom) : Signed

inductive Atom : Type
  | number (n : DecimalText) : Atom
  | constant (name : Name) : Atom
  | call (name : Name) (behind : Space) (tail : CallTail) : Atom
  | group (before : Space) (body : Chain .sum) (behind : Space) : Atom

/-- Arguments with commas between them, and the parenthesis that closes them. -/
inductive CallTail : Type
  | last (before : Space) (argument : Chain .sum) (behind : Space) : CallTail
  | cons (before : Space) (argument : Chain .sum) (behind : Space) (tail : CallTail) : CallTail

end

/-! ## What a tree spells -/

mutual

def Operand.source {l : Level} : Operand l → Text
  | .product chain => chain.source
  | .signed s => s.source

def Chain.source {l : Level} : Chain l → Text
  | .mk first more => first.source ++ more.source

def More.source {l : Level} : More l → Text
  | .nil => []
  | .cons link operand more =>
    link.before ++ link.mark :: (link.behind ++ (operand.source ++ more.source))

def Signed.source : Signed → Text
  | .minus behind operand => '-' :: (behind ++ operand.source)
  | .plus behind operand => '+' :: (behind ++ operand.source)
  | .atom a => a.source

def Atom.source : Atom → Text
  | .number n => n.source
  | .constant name => name.source
  | .call name behind tail => name.source ++ (behind ++ '(' :: tail.source)
  | .group before body behind => '(' :: (before ++ (body.source ++ (behind ++ [')'])))

def CallTail.source : CallTail → Text
  | .last before argument behind => before ++ (argument.source ++ (behind ++ [')']))
  | .cons before argument behind tail =>
    before ++ (argument.source ++ (behind ++ ',' :: tail.source))

end

/-! ## What a tree stands for -/

mutual

def Operand.expr {l : Level} : Operand l → Expr
  | .product chain => chain.expr
  | .signed s => s.expr

def Chain.expr {l : Level} : Chain l → Expr
  | .mk first more => more.join first.expr

/-- The operands joined to what stands on the left of them. -/
def More.join {l : Level} : More l → Expr → Expr
  | .nil, left => left
  | .cons link operand more, left => more.join (.binary link.operator left operand.expr)

def Signed.expr : Signed → Expr
  | .minus _ operand => .neg operand.expr
  | .plus _ operand => operand.expr
  | .atom a => a.expr

def Atom.expr : Atom → Expr
  | .number n => .number n.value
  | .constant name => .constant name.text
  | .call name _ tail => .call name.text tail.exprs
  | .group _ body _ => body.expr

def CallTail.exprs : CallTail → List Expr
  | .last _ argument _ => [argument.expr]
  | .cons _ argument _ tail => argument.expr :: tail.exprs

end

/-! ## What may follow -/

/-- What may stand behind a chain and its blanks. -/
def Level.follow : Level → List Char
  | .sum => [')', ',']
  | .product => ['+', '-', ')', ',']

/-- What may stand behind an operand and its blanks. -/
def Level.operandFollow : Level → List Char
  | .sum => Level.product.follow
  | .product => ['*', '/', '%', '+', '-', ')', ',']

/-- Behind its blanks the text is at its end or goes on with one of the characters. -/
def Follows (cs : List Char) (rest : Text) : Prop :=
  ∀ c, (skipSpace rest).head? = some c → c ∈ cs

/-- Spaces, tabs and line breaks are no part of a number or a name. -/
theorem not_isWordChar_of_isWhitespace {c : Char} (h : c.isWhitespace = true) :
    Text.isWordChar c = false ∧ c ≠ '.' := by
  simp only [Char.isWhitespace, Bool.or_eq_true, decide_eq_true_eq] at h
  rcases h with ((rfl | rfl) | rfl) | rfl <;> decide

theorem not_isWhitespace_of_isWordChar {c : Char} (h : Text.isWordChar c = true) :
    c.isWhitespace = false := by
  cases hs : c.isWhitespace with
  | false => rfl
  | true => simp [(not_isWordChar_of_isWhitespace hs).1] at h

section Follows

variable {l : Level} {cs cs' : List Char} {rest : Text} {c : Char}

@[simp] theorem skipSpace_append (s : Space) (t : Text) : skipSpace (s ++ t) = skipSpace t :=
  List.dropWhile_append_of_pos s.2

theorem skipSpace_cons (t : Text) (h : c.isWhitespace = false) : skipSpace (c :: t) = c :: t := by
  simp [skipSpace, h]

theorem skipSpace_mark (s : Space) (t : Text) (h : c.isWhitespace = false) :
    skipSpace (s ++ c :: t) = c :: t := by
  rw [skipSpace_append, skipSpace_cons t h]

theorem Follows.mono (h : Follows cs rest) (hcs : cs ⊆ cs') : Follows cs' rest :=
  fun c hc => hcs (h c hc)

theorem follows_nil : Follows cs [] := by simp [Follows, skipSpace]

theorem follows_cons (s : Space) (t : Text) (hc : c ∈ cs) (hs : c.isWhitespace = false) :
    Follows cs (s ++ c :: t) := by
  intro d hd
  rw [skipSpace_mark s t hs] at hd
  obtain rfl : c = d := by simpa using hd
  exact hc

theorem Follows.head (h : Follows cs rest) (hc : rest.head? = some c) :
    c.isWhitespace = true ∨ c ∈ cs := by
  cases hs : c.isWhitespace with
  | true => exact .inl rfl
  | false =>
    obtain ⟨t, rfl⟩ : ∃ t, rest = c :: t := by
      cases rest with
      | nil => simp at hc
      | cons d t => exact ⟨t, by rw [Option.some.inj hc]⟩
    refine .inr (h c ?_)
    rw [skipSpace_cons t hs]
    rfl

/-- What may follow an operand goes on neither with a number nor with a name. -/
theorem Follows.stops (h : Follows Level.product.operandFollow rest) (hc : rest.head? = some c) :
    Text.isWordChar c = false ∧ c ≠ '.' := by
  rcases h.head hc with hs | hm
  · exact not_isWordChar_of_isWhitespace hs
  · have : Level.product.operandFollow.all (fun c => !Text.isWordChar c && c != '.') = true := by
      decide
    simpa using List.all_eq_true.1 this c hm

theorem Level.follow_subset (l : Level) : l.follow ⊆ l.operandFollow := by
  cases l <;> decide

theorem Level.operator?_of_mem_follow (h : c ∈ l.follow) : l.operator? c = none := by
  have : l.follow.all (fun c => (l.operator? c).isNone) = true := by cases l <;> decide
  simpa using List.all_eq_true.1 this c h

/-- An operator may follow an operand, and is no blank. -/
theorem Link.mark_spec (link : Link l) :
    link.mark ∈ l.operandFollow ∧ link.mark.isWhitespace = false := by
  have h := link.isMark
  generalize link.mark = c, link.operator = op at h
  cases h <;> decide

theorem More.follows (m : More l) (h : Follows l.follow rest) :
    Follows l.operandFollow (m.source ++ rest) := by
  cases m with
  | nil => exact h.mono l.follow_subset
  | cons link operand more =>
    rw [More.source, List.append_assoc]
    exact follows_cons _ _ link.mark_spec.1 link.mark_spec.2

end Follows

/-! ## Longest leaves -/

mutual

/-- Every number and every name of the tree is as long as it can be in front of `rest`. -/
def Operand.IsLongest {l : Level} : Operand l → Text → Prop
  | .product chain, rest => chain.IsLongest rest
  | .signed s, rest => s.IsLongest rest

def Chain.IsLongest {l : Level} : Chain l → Text → Prop
  | .mk first more, rest => first.IsLongest (more.source ++ rest) ∧ more.IsLongest rest

def More.IsLongest {l : Level} : More l → Text → Prop
  | .nil, _ => True
  | .cons _ operand more, rest => operand.IsLongest (more.source ++ rest) ∧ more.IsLongest rest

def Signed.IsLongest : Signed → Text → Prop
  | .minus _ operand, rest => operand.IsLongest rest
  | .plus _ operand, rest => operand.IsLongest rest
  | .atom a, rest => a.IsLongest rest

def Atom.IsLongest : Atom → Text → Prop
  | .number n, rest => n.IsLongest rest
  | .constant name, rest => name.IsLongest rest
  | .call name behind tail, rest =>
    name.IsLongest (behind ++ '(' :: (tail.source ++ rest)) ∧ tail.IsLongest rest
  | .group _ body behind, rest => body.IsLongest (behind ++ ')' :: rest)

def CallTail.IsLongest : CallTail → Text → Prop
  | .last _ argument behind, rest => argument.IsLongest (behind ++ ')' :: rest)
  | .cons _ argument behind tail, rest =>
    argument.IsLongest (behind ++ ',' :: (tail.source ++ rest)) ∧ tail.IsLongest rest

end

theorem follows_paren (s : Space) (t : Text) : Follows Level.sum.follow (s ++ ')' :: t) :=
  follows_cons s t (by decide) (by decide)

theorem follows_comma (s : Space) (t : Text) : Follows Level.sum.follow (s ++ ',' :: t) :=
  follows_cons s t (by decide) (by decide)

private theorem Name.isLongest_of_follows (n : Name) {rest : Text}
    (h : Follows Level.product.operandFollow rest) : n.IsLongest rest :=
  fun _ hc => (h.stops hc).1

theorem Name.isLongest_of_paren (n : Name) (s : Space) (t : Text) :
    n.IsLongest (s ++ '(' :: t) := by
  intro c hc
  have hf : Follows ['('] (s ++ '(' :: t) := follows_cons s t (by decide) (by decide)
  rcases hf.head hc with hs | hm
  · exact (not_isWordChar_of_isWhitespace hs).1
  · obtain rfl : c = '(' := by simpa using hm
    decide

private theorem DecimalText.isLongest_of_follows (n : DecimalText) {rest : Text}
    (h : Follows Level.product.operandFollow rest) : n.IsLongest rest := by
  intro c hc
  obtain ⟨hw, hp⟩ := h.stops hc
  refine ⟨?_, fun _ _ => hp⟩
  cases hd : c.isDigit with
  | false => rfl
  | true => simp [Text.isWordChar_of_isDigit hd] at hw

mutual

private theorem Operand.isLongest_of_follows {l : Level} {rest : Text} :
    (o : Operand l) → Follows l.operandFollow rest → o.IsLongest rest
  | .product chain, h => chain.isLongest h
  | .signed s, h => s.isLongest_of_follows h

/-- In front of what may follow a chain, all its numbers and names are as long as they can be. -/
theorem Chain.isLongest {l : Level} {rest : Text} :
    (chain : Chain l) → Follows l.follow rest → chain.IsLongest rest
  | .mk first more, h => ⟨first.isLongest_of_follows (more.follows h), more.isLongest_of_follows h⟩

private theorem More.isLongest_of_follows {l : Level} {rest : Text} :
    (m : More l) → Follows l.follow rest → m.IsLongest rest
  | .nil, _ => trivial
  | .cons _ operand more, h =>
    ⟨operand.isLongest_of_follows (more.follows h), more.isLongest_of_follows h⟩

private theorem Signed.isLongest_of_follows {rest : Text} :
    (s : Signed) → Follows Level.product.operandFollow rest → s.IsLongest rest
  | .minus _ operand, h => operand.isLongest_of_follows h
  | .plus _ operand, h => operand.isLongest_of_follows h
  | .atom a, h => a.isLongest_of_follows h

private theorem Atom.isLongest_of_follows {rest : Text} :
    (a : Atom) → Follows Level.product.operandFollow rest → a.IsLongest rest
  | .number n, h => n.isLongest_of_follows h
  | .constant name, h => name.isLongest_of_follows h
  | .call name behind tail, _ =>
    ⟨name.isLongest_of_paren behind (tail.source ++ rest), tail.isLongest_of_any rest⟩
  | .group _ body behind, _ => body.isLongest (follows_paren behind rest)

private theorem CallTail.isLongest_of_any :
    (tail : CallTail) → (rest : Text) → tail.IsLongest rest
  | .last _ argument behind, rest => argument.isLongest (follows_paren behind rest)
  | .cons _ argument behind tail, rest =>
    ⟨argument.isLongest (follows_comma behind (tail.source ++ rest)), tail.isLongest_of_any rest⟩

end

/-! ## Where a tree starts and ends -/

/-- The text starts with a character that is no blank. -/
def StartsSolid (t : Text) : Prop := ∃ c s, t = c :: s ∧ c.isWhitespace = false

/-- The text ends with a character that is no blank. -/
def EndsSolid (t : Text) : Prop := ∃ s c, t = s ++ [c] ∧ c.isWhitespace = false

theorem skipSpace_of_startsSolid {t : Text} (h : StartsSolid t) (rest : Text) :
    skipSpace (t ++ rest) = t ++ rest := by
  obtain ⟨c, s, rfl, hc⟩ := h
  exact skipSpace_cons _ hc

theorem EndsSolid.append {t : Text} (h : EndsSolid t) (s : Text) : EndsSolid (s ++ t) := by
  obtain ⟨u, c, rfl, hc⟩ := h
  exact ⟨s ++ u, c, by simp, hc⟩

theorem EndsSolid.cons {t : Text} (h : EndsSolid t) (c : Char) : EndsSolid (c :: t) :=
  h.append [c]

theorem endsSolid_of_forall {t : Text} (hne : t ≠ []) (h : ∀ c ∈ t, Text.isWordChar c = true) :
    EndsSolid t := by
  refine ⟨t.dropLast, t.getLast hne, (List.dropLast_concat_getLast hne).symm, ?_⟩
  exact not_isWhitespace_of_isWordChar (h _ (List.getLast_mem hne))

/-- What an atom starts with tells numbers, names and groups apart, and atoms from signs. -/
theorem Atom.exists_cons (a : Atom) :
    ∃ c t, a.source = c :: t ∧ (c.isDigit = true ∨ c = '.' ∨ c = 'M' ∨ c = '(') := by
  have digits (d : Digits) (s : Text) : ∃ c t, d.1 ++ s = c :: t ∧ c.isDigit = true := by
    obtain ⟨c, t, e⟩ := List.exists_cons_of_ne_nil d.2.1
    exact ⟨c, t ++ s, by rw [e, List.cons_append], d.2.2 c (by simp [e])⟩
  cases a with
  | number n =>
    cases n with
    | integer whole =>
      obtain ⟨c, t, e, hc⟩ := digits whole []
      exact ⟨c, t, by rw [← e, List.append_nil]; rfl, .inl hc⟩
    | decimal whole fraction =>
      obtain ⟨c, t, e, hc⟩ := digits whole ('.' :: fraction)
      exact ⟨c, t, e, .inl hc⟩
    | point fraction => exact ⟨'.', fraction, rfl, by simp⟩
  | constant name => exact ⟨'M', _, rfl, by simp⟩
  | call name behind tail => exact ⟨'M', _, rfl, by simp⟩
  | group before body behind => exact ⟨'(', _, rfl, by simp⟩

theorem Atom.source_ne_sign (a : Atom) {c : Char} {t : Text} (hc : c ∈ ['-', '+']) :
    a.source ≠ c :: t := by
  obtain ⟨d, s, e, hd⟩ := a.exists_cons
  rw [e]
  intro h
  obtain rfl := (List.cons.inj h).1
  obtain rfl | rfl : d = '-' ∨ d = '+' := by simpa using hc
  · exact absurd hd (by decide)
  · exact absurd hd (by decide)

theorem Atom.startsSolid (a : Atom) : StartsSolid a.source := by
  obtain ⟨c, t, e, hc⟩ := a.exists_cons
  refine ⟨c, t, e, ?_⟩
  rcases hc with hc | rfl | rfl | rfl
  · exact not_isWhitespace_of_isWordChar (Text.isWordChar_of_isDigit hc)
  · decide
  · decide
  · decide

theorem Signed.startsSolid (s : Signed) : StartsSolid s.source := by
  cases s with
  | minus behind operand => exact ⟨'-', _, rfl, by decide⟩
  | plus behind operand => exact ⟨'+', _, rfl, by decide⟩
  | atom a => exact a.startsSolid

theorem startsSolid_append {s : Text} (h : StartsSolid s) (t : Text) :
    StartsSolid (s ++ t) := by
  obtain ⟨c, u, rfl, hc⟩ := h
  exact ⟨c, u ++ t, rfl, hc⟩

mutual

theorem Operand.startsSolid {l : Level} : (o : Operand l) → StartsSolid o.source
  | .product chain => chain.startsSolid
  | .signed s => s.startsSolid

theorem Chain.startsSolid {l : Level} : (chain : Chain l) → StartsSolid chain.source
  | .mk first more => startsSolid_append first.startsSolid more.source

end

theorem DecimalText.endsSolid (n : DecimalText) : EndsSolid n.source := by
  have digits (d : Digits) : EndsSolid d.1 :=
    endsSolid_of_forall d.2.1 fun c hc => Text.isWordChar_of_isDigit (d.2.2 c hc)
  cases n with
  | integer whole => exact digits whole
  | decimal whole fraction => exact ((digits fraction).cons '.').append whole.1
  | point fraction => exact (digits fraction).cons '.'

theorem Name.endsSolid (n : Name) : EndsSolid n.source := by
  refine EndsSolid.append (endsSolid_of_forall (by simp) fun c hc => ?_) "Math.".toList
  rcases List.mem_cons.1 hc with rfl | hc
  · simp [Text.isWordChar, Char.isAlphanum, n.isAlpha]
  · exact n.isWordChar c hc

theorem endsSolid_paren (s : Text) : EndsSolid (s ++ [')']) := ⟨s, ')', rfl, by decide⟩

mutual

theorem Operand.endsSolid {l : Level} : (o : Operand l) → EndsSolid o.source
  | .product chain => chain.endsSolid
  | .signed s => s.endsSolid

theorem Chain.endsSolid {l : Level} : (chain : Chain l) → EndsSolid chain.source
  | .mk first more => more.endsSolid_append first.endsSolid

private theorem More.endsSolid_append {l : Level} {s : Text} :
    (m : More l) → EndsSolid s → EndsSolid (s ++ m.source)
  | .nil, h => by simpa [More.source] using h
  | .cons link operand more, _ =>
    (((more.endsSolid_append operand.endsSolid).append link.behind.1).cons link.mark).append
      link.before.1 |>.append s

theorem Signed.endsSolid : (s : Signed) → EndsSolid s.source
  | .minus behind operand => (operand.endsSolid.append behind.1).cons '-'
  | .plus behind operand => (operand.endsSolid.append behind.1).cons '+'
  | .atom a => a.endsSolid

theorem Atom.endsSolid : (a : Atom) → EndsSolid a.source
  | .number n => n.endsSolid
  | .constant name => name.endsSolid
  | .call name behind tail => ((tail.endsSolid.cons '(').append behind.1).append name.source
  | .group before body behind =>
    (((endsSolid_paren behind.1).append body.source).append before.1).cons '('

theorem CallTail.endsSolid : (tail : CallTail) → EndsSolid tail.source
  | .last before argument behind =>
    ((endsSolid_paren behind.1).append argument.source).append before.1
  | .cons before argument behind tail =>
    (((tail.endsSolid.cons ',').append behind.1).append argument.source).append before.1

end

end TextTransforms.Expr
