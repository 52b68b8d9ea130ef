import TextTransforms.Proofs.Calculator.Grammar

/-!
# Derivations are read

Every reader reads what a tree of its kind spells, up to a text that may follow there, and
returns the expression that the tree stands for (`Chain.read` and the others). So a text is
spelled by one tree only (`Chain.source_inj`).
-/

namespace TextTransforms.Expr

/-! ## Leaves -/

theorem readNumber_source (n : DecimalText) {rest : Text}
    (h : Follows Level.product.operandFollow rest) :
    readNumber (n.source ++ rest) = some (n.value, rest) := by
  have hstop (c : Char) (hc : rest.head? = some c) : c.isDigit = false ∧ c ≠ '.' := by
    obtain ⟨hw, hp⟩ := h.stops hc
    exact ⟨Bool.eq_false_iff.2 fun hd => by simp [Text.isWordChar_of_isDigit hd] at hw, hp⟩
  have take (d : Digits) : (d.1 ++ rest).takeWhile Char.isDigit = d.1 :=
    Text.takeWhile_run d.2.2 fun c hc => (hstop c hc).1
  have drop (d : Digits) : (d.1 ++ rest).dropWhile Char.isDigit = rest :=
    Text.dropWhile_run d.2.2 fun c hc => (hstop c hc).1
  have hpoint (s : Text) : ∀ c, ('.' :: s).head? = some c → c.isDigit = false :=
    Text.stops_cons s (by decide)
  cases n with
  | integer whole =>
    have hhead : rest.head? ≠ some '.' := fun hc => (hstop '.' hc).2 rfl
    simp [DecimalText.source, DecimalText.value_eq, readNumber, take, drop, hhead, whole.2.1]
  | decimal whole fraction =>
    have htake := Text.takeWhile_run whole.2.2 (hpoint (fraction.1 ++ rest))
    have hdrop := Text.dropWhile_run whole.2.2 (hpoint (fraction.1 ++ rest))
    simp [DecimalText.source, DecimalText.value_eq, readNumber, htake, hdrop, take, drop,
      fraction.2.1]
  | point fraction =>
    simp [DecimalText.source, DecimalText.value_eq, readNumber, take, drop, fraction.2.1]

theorem readName_source (n : Name) {rest : Text} (h : n.IsLongest rest) :
    readName (n.source ++ rest) = some (n.text, rest) := by
  simp [Name.source, Name.text, readName, n.isAlpha, Text.takeWhile_run n.isWordChar h,
    Text.dropWhile_run n.isWordChar h]

theorem readNumber_eq_none {t : Text} {c : Char} (hd : c.isDigit = false) (hp : c ≠ '.') :
    readNumber (c :: t) = none := by
  simp [readNumber, hd, hp]

theorem readName_eq_none {t : Text} {c : Char} (h : c ≠ 'M') : readName (c :: t) = none := by
  unfold readName
  split
  · rename_i e
    exact absurd (List.cons.inj e).1 h
  · rfl

theorem atom?_source_of_name (n : Name) (rest : Text) :
    atom? (n.source ++ rest) = (member? (n.source ++ rest)).or (group? (n.source ++ rest)) := by
  rw [atom?_eq, Name.source, List.cons_append, readNumber_eq_none (by decide) (by decide)]

/-! ## What a reader does with a tree -/

section Readers

variable {l : Level} (rest : Text)

theorem level?_source (first : Operand l) (m : More l) :
    level? l ((Chain.mk first m).source ++ rest) =
      (operand? l (first.source ++ (m.source ++ rest))).map fun (e, behind) => more l e behind := by
  rw [Chain.source, List.append_assoc, level?_eq]

theorem more_source {link : Link l} {operand : Operand l} {m : More l} {right : Expr}
    {behind : Text} (h : operand? l (operand.source ++ (m.source ++ rest)) = some (right, behind))
    (left : Expr) :
    more l left ((More.cons link operand m).source ++ rest) =
      more l (.binary link.operator left right) behind := by
  rw [More.source, List.append_assoc, more_eq, List.cons_append,
    skipSpace_mark _ _ link.mark_spec.2, List.append_assoc, List.append_assoc]
  simp only [Level.operator?_eq_some_iff.2 link.isMark, skipSpace_append,
    skipSpace_of_startsSolid operand.startsSolid]
  rw [h]

theorem signed?_minus (behind : Space) (s : Signed) :
    signed? ((Signed.minus behind s).source ++ rest) =
      (signed? (s.source ++ rest)).map fun (e, r) => (.neg e, r) := by
  rw [Signed.source, List.cons_append, List.append_assoc, signed?_eq]
  simp only [if_true, skipSpace_append, skipSpace_of_startsSolid s.startsSolid]

theorem signed?_plus (behind : Space) (s : Signed) :
    signed? ((Signed.plus behind s).source ++ rest) = signed? (s.source ++ rest) := by
  rw [Signed.source, List.cons_append, List.append_assoc, signed?_eq]
  simp only [if_true, skipSpace_append, skipSpace_of_startsSolid s.startsSolid,
    show '+' ≠ '-' by decide, if_false]

theorem signed?_atom (a : Atom) :
    signed? ((Signed.atom a).source ++ rest) = atom? (a.source ++ rest) := by
  obtain ⟨c, t, e, -⟩ := a.exists_cons
  have hminus : c ≠ '-' := fun hc => a.source_ne_sign (by simp) (hc ▸ e)
  have hplus : c ≠ '+' := fun hc => a.source_ne_sign (by simp) (hc ▸ e)
  rw [Signed.source, e, List.cons_append, signed?_eq]
  simp only [hminus, hplus, if_false]

variable {rest}

theorem atom?_call {tail : CallTail}
    (h : arguments? (tail.source ++ rest) = some (tail.exprs, rest)) (name : Name)
    (behind : Space) :
    atom? ((Atom.call name behind tail).source ++ rest) =
      some ((Atom.call name behind tail).expr, rest) := by
  have hname := readName_source name (name.isLongest_of_paren behind (tail.source ++ rest))
  rw [Atom.source, List.append_assoc, List.append_assoc, List.cons_append,
    atom?_source_of_name, member?_eq, hname]
  simp only
  rw [skipSpace_mark _ _ (by decide)]
  simp only
  rw [h]
  simp only
  rw [Option.some_or, Atom.expr]

theorem atom?_group {body : Chain .sum} {behind : Space}
    (h : level? .sum (body.source ++ (behind.1 ++ ')' :: rest)) =
      some (body.expr, behind.1 ++ ')' :: rest)) (before : Space) :
    atom? ((Atom.group before body behind).source ++ rest) =
      some ((Atom.group before body behind).expr, rest) := by
  rw [Atom.source, List.cons_append, atom?_eq, readNumber_eq_none (by decide) (by decide),
    member?_eq, readName_eq_none (by decide), group?_eq, Option.none_or]
  simp only [List.append_assoc, List.singleton_append, skipSpace_append,
    skipSpace_of_startsSolid body.startsSolid]
  rw [h]
  simp only
  rw [skipSpace_mark _ _ (by decide)]
  simp only [Atom.expr]

end Readers

/-! ## Trees -/

mutual

theorem Operand.read {l : Level} {rest : Text} :
    (o : Operand l) → Follows l.operandFollow rest →
      operand? l (o.source ++ rest) = some (o.expr, rest)
  | .product chain, h => chain.read h
  | .signed s, h => s.read h

theorem Chain.read {l : Level} {rest : Text} :
    (chain : Chain l) → Follows l.follow rest →
      level? l (chain.source ++ rest) = some (chain.expr, rest)
  | .mk first more, h => by
    rw [level?_source, first.read (more.follows h)]
    simp only [Option.map_some]
    rw [more.read first.expr h, Chain.expr]

theorem More.read {l : Level} {rest : Text} :
    (m : More l) → (left : Expr) → Follows l.follow rest →
      more l left (m.source ++ rest) = (m.join left, rest)
  | .nil, left, h => by
    rw [More.source, List.nil_append, more_eq, More.join]
    split
    · rfl
    -- What goes on is no operator of the level.
    · rename_i c behind hs
      rw [Level.operator?_of_mem_follow (h c (by rw [hs]; rfl))]
  | .cons link operand tail, left, h => by
    rw [more_source rest (operand.read (tail.follows h)),
      tail.read (.binary link.operator left operand.expr) h, More.join]

theorem Signed.read {rest : Text} :
    (s : Signed) → Follows Level.product.operandFollow rest →
      signed? (s.source ++ rest) = some (s.expr, rest)
  | .minus behind operand, h => by
    rw [signed?_minus, operand.read h, Option.map_some, Signed.expr]
  | .plus behind operand, h => by
    rw [signed?_plus, operand.read h, Signed.expr]
  | .atom a, h => by
    rw [signed?_atom, a.read h, Signed.expr]

theorem Atom.read {rest : Text} :
    (a : Atom) → Follows Level.product.operandFollow rest →
      atom? (a.source ++ rest) = some (a.expr, rest)
  | .number n, h => by
    rw [Atom.source, atom?_eq, readNumber_source n h, Atom.expr]
  | .constant name, h => by
    have hname := readName_source name fun _ hc => (h.stops hc).1
    rw [Atom.source, atom?_source_of_name, member?_eq, hname]
    simp only
    split
    -- No argument list opens behind a constant.
    · rename_i behind hs
      exact absurd (h '(' (by rw [hs]; rfl)) (by decide)
    · rw [Option.some_or, Atom.expr]
  | .call name behind tail, _ => atom?_call (tail.read rest) name behind
  | .group before body behind, _ => atom?_group (body.read (follows_paren behind rest)) before

theorem CallTail.read :
    (tail : CallTail) → (rest : Text) →
      arguments? (tail.source ++ rest) = some (tail.exprs, rest)
  | .last before argument behind, rest => by
    rw [CallTail.source, arguments?_eq]
    simp only [List.append_assoc, List.singleton_append, skipSpace_append,
      skipSpace_of_startsSolid argument.startsSolid]
    rw [argument.read (follows_paren behind rest)]
    simp only
    rw [skipSpace_mark _ _ (by decide)]
    simp only [CallTail.exprs]
  | .cons before argument behind tail, rest => by
    rw [CallTail.source, arguments?_eq]
    simp only [List.append_assoc, List.cons_append, skipSpace_append,
      skipSpace_of_startsSolid argument.startsSolid]
    rw [argument.read (follows_comma behind (tail.source ++ rest))]
    simp only
    rw [skipSpace_mark _ _ (by decide)]
    simp only [tail.read rest, Option.map_some, CallTail.exprs]

end

/-! ## One tree for a text

Two trees with one text are read alike, so their first parts end at the same place, and the
parts are trees with one text each.
-/

section Split

variable {rest rest' : Text}

/-- Blanks in front of something solid. -/
theorem Space.append_inj {s s' : Space} {t t' : Text} (h : s.1 ++ t = s'.1 ++ t')
    (ht : StartsSolid t) (ht' : StartsSolid t') : s = s' ∧ t = t' := by
  obtain ⟨c, u, rfl, hc⟩ := ht
  obtain ⟨c', u', rfl, hc'⟩ := ht'
  obtain ⟨hs, rfl, rfl⟩ := Text.run_cons_inj h s.2 s'.2 hc hc'
  exact ⟨Subtype.ext hs, rfl⟩

theorem startsSolid_cons {c : Char} (t : Text) (hc : c.isWhitespace = false) :
    StartsSolid (c :: t) := ⟨c, t, rfl, hc⟩

theorem Operand.split {l : Level} {o o' : Operand l} (h : o.source ++ rest = o'.source ++ rest')
    (hr : Follows l.operandFollow rest) (hr' : Follows l.operandFollow rest') :
    o.source = o'.source ∧ rest = rest' := by
  have hread := o.read hr
  rw [h, o'.read hr'] at hread
  obtain ⟨-, rfl⟩ : o'.expr = o.expr ∧ rest' = rest := by simpa using hread
  exact ⟨List.append_cancel_right h, rfl⟩

theorem Chain.split {l : Level} {c c' : Chain l} (h : c.source ++ rest = c'.source ++ rest')
    (hr : Follows l.follow rest) (hr' : Follows l.follow rest') :
    c.source = c'.source ∧ rest = rest' := by
  have hread := c.read hr
  rw [h, c'.read hr'] at hread
  obtain ⟨-, rfl⟩ : c'.expr = c.expr ∧ rest' = rest := by simpa using hread
  exact ⟨List.append_cancel_right h, rfl⟩

theorem Name.split {n n' : Name} (h : n.source ++ rest = n'.source ++ rest')
    (hr : n.IsLongest rest) (hr' : n'.IsLongest rest') : n = n' ∧ rest = rest' := by
  have hread := readName_source n hr
  rw [h, readName_source n' hr'] at hread
  obtain ⟨htext, rfl⟩ : n'.text = n.text ∧ rest' = rest := by simpa using hread
  obtain ⟨hfirst, hothers⟩ : n'.first = n.first ∧ n'.others = n.others := by
    simpa [Name.text] using htext
  cases n
  cases n'
  cases hfirst
  cases hothers
  exact ⟨rfl, rfl⟩

end Split

theorem Link.eq_of_mark {l : Level} {k k' : Link l} (hb : k.before = k'.before)
    (hm : k.mark = k'.mark) (hd : k.behind = k'.behind) : k = k' := by
  cases k with
  | mk before mark operator isMark behind =>
    cases k' with
    | mk before' mark' operator' isMark' behind' =>
      cases hb
      cases hm
      cases hd
      obtain rfl := isMark.unique isMark'
      rfl

namespace DecimalText

/-- The digits in front of the point. -/
private def whole : DecimalText → Text
  | integer whole => whole
  | decimal whole _ => whole
  | point _ => []

/-- The point and the digits behind it. -/
private def pointed : DecimalText → Text
  | integer _ => []
  | decimal _ fraction => '.' :: fraction
  | point fraction => '.' :: fraction

private theorem source_eq (n : DecimalText) : n.source = n.whole ++ n.pointed := by
  cases n <;> simp [source, whole, pointed]

private theorem isDigit_of_mem_whole (n : DecimalText) : ∀ c ∈ n.whole, c.isDigit = true := by
  cases n with
  | integer d => exact d.2.2
  | decimal d _ => exact d.2.2
  | point _ => simp [whole]

private theorem head?_pointed (n : DecimalText) :
    ∀ c, n.pointed.head? = some c → c.isDigit = false := by
  cases n with
  | integer _ => simp [pointed]
  | decimal _ fraction => exact Text.stops_cons fraction.1 (by decide)
  | point fraction => exact Text.stops_cons fraction.1 (by decide)

theorem source_inj {n n' : DecimalText} (h : n.source = n'.source) : n = n' := by
  rw [source_eq, source_eq] at h
  obtain ⟨hw, hp⟩ := Text.run_append_inj h n.isDigit_of_mem_whole n'.isDigit_of_mem_whole
    n.head?_pointed n'.head?_pointed
  cases n with
  | integer d =>
    cases n' with
    | integer d' => rw [Subtype.ext hw]
    | decimal => exact nomatch hp
    | point => exact nomatch hp
  | decimal d f =>
    cases n' with
    | integer => exact nomatch hp
    | decimal d' f' => rw [Subtype.ext hw, Subtype.ext (List.cons.inj hp).2]
    | point => exact absurd hw d.2.1
  | point f =>
    cases n' with
    | integer => exact nomatch hp
    | decimal d' => exact absurd hw.symm d'.2.1
    | point f' => rw [Subtype.ext (List.cons.inj hp).2]

end DecimalText

/-- A chain between blanks, in front of a parenthesis or a comma. -/
theorem Chain.split_enclosed {before before' behind behind' : Space} {c c' : Chain .sum}
    {m m' : Char} {t t' : Text} (hm : m ∈ Level.sum.follow) (hm' : m' ∈ Level.sum.follow)
    (h : before.1 ++ (c.source ++ (behind ++ m :: t)) =
      before'.1 ++ (c'.source ++ (behind' ++ m' :: t'))) :
    before = before' ∧ c.source = c'.source ∧ behind = behind' ∧ m = m' ∧ t = t' := by
  have solid : ∀ d ∈ Level.sum.follow, d.isWhitespace = false := by simp [Level.follow]
  obtain ⟨hb, h⟩ := Space.append_inj h (startsSolid_append c.startsSolid _)
    (startsSolid_append c'.startsSolid _)
  obtain ⟨hc, h⟩ := Chain.split h (follows_cons behind t hm (solid m hm))
    (follows_cons behind' t' hm' (solid m' hm'))
  obtain ⟨hd, h⟩ := Space.append_inj h (startsSolid_cons t (solid m hm))
    (startsSolid_cons t' (solid m' hm'))
  exact ⟨hb, hc, hd, List.cons.inj h⟩

/-- The four shapes of an atom. -/
inductive Shape where
  | number
  | constant
  | call
  | group

namespace Atom

def shape : Atom → Shape
  | number _ => .number
  | constant _ => .constant
  | call .. => .call
  | group .. => .group

/-- The shape shows from what is read first. -/
private def shapeOf (t : Text) : Shape :=
  if (readNumber t).isSome then .number
  else match readName t with
    | none => .group
    | some (_, []) => .constant
    | some (_, _ :: _) => .call

private theorem shapeOf_source (a : Atom) : shapeOf a.source = a.shape := by
  have unnumbered (n : Name) (rest : Text) : readNumber (n.source ++ rest) = none :=
    readNumber_eq_none (by decide) (by decide)
  cases a with
  | number n =>
    have hread := @readNumber_source n [] follows_nil
    rw [List.append_nil] at hread
    simp [shapeOf, source, hread, shape]
  | constant name =>
    have hread := @readName_source name [] (by simp [Name.IsLongest])
    have hnone := unnumbered name []
    rw [List.append_nil] at hread hnone
    simp [shapeOf, source, hread, hnone, shape]
  | call name behind tail =>
    have hread := readName_source name (name.isLongest_of_paren behind tail.source)
    have hnone := unnumbered name (behind ++ '(' :: tail.source)
    have hne : behind.1 ++ '(' :: tail.source ≠ [] := by simp
    rw [source, shapeOf, hnone, hread]
    generalize behind.1 ++ '(' :: tail.source = rest at hne
    cases rest with
    | nil => exact absurd rfl hne
    | cons c s => simp [shape]
  | group before body behind =>
    have hnone : readNumber (group before body behind).source = none :=
      readNumber_eq_none (by decide) (by decide)
    have hname : readName (group before body behind).source = none :=
      readName_eq_none (by decide)
    simp [shapeOf, hnone, hname, shape]

theorem shape_eq {a a' : Atom} (h : a.source = a'.source) : a.shape = a'.shape := by
  rw [← shapeOf_source, h, shapeOf_source]

end Atom

mutual

theorem Operand.source_inj {l : Level} : (o o' : Operand l) → o.source = o'.source → o = o'
  | .product chain, .product chain', h => congrArg _ (chain.source_inj chain' h)
  | .signed s, .signed s', h => congrArg _ (s.source_inj s' h)
termination_by structural o => o

/-- A text is spelled by one chain only. -/
theorem Chain.source_inj {l : Level} : (c c' : Chain l) → c.source = c'.source → c = c'
  | .mk first more, .mk first' more', h => by
    obtain ⟨hf, hm⟩ := Operand.split h
      (by simpa using more.follows follows_nil) (by simpa using more'.follows follows_nil)
    rw [first.source_inj first' hf, more.source_inj more' hm]
termination_by structural c => c

theorem More.source_inj {l : Level} : (m m' : More l) → m.source = m'.source → m = m'
  | .nil, .nil, _ => rfl
  | .nil, .cons .., h => by simp [More.source] at h
  | .cons .., .nil, h => by simp [More.source] at h
  | .cons link operand more, .cons link' operand' more', h => by
    obtain ⟨hb, h⟩ := Space.append_inj h (startsSolid_cons _ link.mark_spec.2)
      (startsSolid_cons _ link'.mark_spec.2)
    obtain ⟨hm, h⟩ := List.cons.inj h
    obtain ⟨hd, h⟩ := Space.append_inj h (startsSolid_append operand.startsSolid _)
      (startsSolid_append operand'.startsSolid _)
    obtain ⟨ho, h⟩ := Operand.split h
      (by simpa using more.follows follows_nil) (by simpa using more'.follows follows_nil)
    rw [Link.eq_of_mark hb hm hd, operand.source_inj operand' ho, more.source_inj more' h]
termination_by structural m => m

theorem Signed.source_inj : (s s' : Signed) → s.source = s'.source → s = s'
  | .minus behind operand, s', h => by
    cases s' with
    | minus behind' operand' =>
      obtain ⟨rfl, ho⟩ := Space.append_inj (List.cons.inj h).2 operand.startsSolid
        operand'.startsSolid
      rw [operand.source_inj operand' ho]
    | plus => exact absurd (List.cons.inj h).1 (by decide)
    | atom a => exact absurd h.symm (a.source_ne_sign (by decide))
  | .plus behind operand, s', h => by
    cases s' with
    | minus => exact absurd (List.cons.inj h).1 (by decide)
    | plus behind' operand' =>
      obtain ⟨rfl, ho⟩ := Space.append_inj (List.cons.inj h).2 operand.startsSolid
        operand'.startsSolid
      rw [operand.source_inj operand' ho]
    | atom a => exact absurd h.symm (a.source_ne_sign (by decide))
  | .atom a, s', h => by
    cases s' with
    | minus => exact absurd h (a.source_ne_sign (by decide))
    | plus => exact absurd h (a.source_ne_sign (by decide))
    | atom a' => rw [a.source_inj a' h]
termination_by structural s => s

theorem Atom.source_inj : (a a' : Atom) → a.source = a'.source → a = a'
  | .number n, a', h => by
    cases a' with
    | number n' => rw [DecimalText.source_inj h]
    | _ => exact absurd (Atom.shape_eq h) (by simp [Atom.shape])
  | .constant name, a', h => by
    cases a' with
    | constant name' =>
      obtain ⟨rfl, -⟩ := Name.split (congrArg (· ++ []) h) (by simp [Name.IsLongest])
        (by simp [Name.IsLongest])
      rfl
    | _ => exact absurd (Atom.shape_eq h) (by simp [Atom.shape])
  | .call name behind tail, a', h => by
    cases a' with
    | call name' behind' tail' =>
      obtain ⟨rfl, hn⟩ := Name.split h (name.isLongest_of_paren behind _)
        (name'.isLongest_of_paren behind' _)
      obtain ⟨rfl, hb⟩ := Space.append_inj hn (startsSolid_cons _ (by decide))
        (startsSolid_cons _ (by decide))
      rw [tail.source_inj tail' (List.cons.inj hb).2]
    | _ => exact absurd (Atom.shape_eq h) (by simp [Atom.shape])
  | .group before body behind, a', h => by
    cases a' with
    | group before' body' behind' =>
      obtain ⟨rfl, hb, rfl, -⟩ := Chain.split_enclosed (by decide) (by decide) (List.cons.inj h).2
      rw [body.source_inj body' hb]
    | _ => exact absurd (Atom.shape_eq h) (by simp [Atom.shape])
termination_by structural a => a

theorem CallTail.source_inj : (t t' : CallTail) → t.source = t'.source → t = t'
  | .last before argument behind, t', h => by
    cases t' with
    | last before' argument' behind' =>
      obtain ⟨rfl, ha, rfl, -⟩ := Chain.split_enclosed (by decide) (by decide) h
      rw [argument.source_inj argument' ha]
    | cons before' argument' behind' tail' =>
      obtain ⟨-, -, -, hm, -⟩ := Chain.split_enclosed (by decide) (by decide) h
      exact absurd hm (by decide)
  | .cons before argument behind tail, t', h => by
    cases t' with
    | last before' argument' behind' =>
      obtain ⟨-, -, -, hm, -⟩ := Chain.split_enclosed (by decide) (by decide) h
      exact absurd hm (by decide)
    | cons before' argument' behind' tail' =>
      obtain ⟨rfl, ha, rfl, -, ht⟩ := Chain.split_enclosed (by decide) (by decide) h
      rw [argument.source_inj argument' ha, tail.source_inj tail' ht]
termination_by structural t => t

end

end TextTransforms.Expr
