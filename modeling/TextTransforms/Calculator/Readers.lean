import TextTransforms.Calculator.Parser

/-!
# The readers of expressions as plain functions

Each reader without the proof that it carries, and the equation that says what it
reads. Reasoning about expressions starts from these equations. Every reader
leaves a shorter end of the text (`length_lt_of_level?` and the others,
`level?_suffix`).
-/

namespace TextTransforms.Expr

def level? (l : Level) (t : Text) : Option (Expr × Text) := (readLevel l t).map Subtype.val

def more (l : Level) (e : Expr) (t : Text) : Expr × Text := (readMore l e t).val

def signed? (t : Text) : Option (Expr × Text) := (readSigned t).map Subtype.val

/-- The operands of a level are what binds tighter. -/
def operand? : Level → Text → Option (Expr × Text)
  | .sum, t => level? .product t
  | .product, t => signed? t

def atom? (t : Text) : Option (Expr × Text) := (readAtom t).map Subtype.val

def member? (t : Text) : Option (Expr × Text) := (readMember t).map Subtype.val

def group? (t : Text) : Option (Expr × Text) := (readGroup t).map Subtype.val

def arguments? (t : Text) : Option (List Expr × Text) := (readArguments t).map Subtype.val

theorem parseStart?_eq (t : Text) : parseStart? t = level? .sum t := rfl

/-! ## Equations -/

theorem level?_eq (l : Level) (t : Text) :
    level? l t = (operand? l t).map fun (e, rest) => more l e rest := by
  unfold level?
  rw [readLevel.eq_def]
  cases l
  · simp only [operand?, level?]
    cases readLevel .product t with
    | none => rfl
    | some r => obtain ⟨⟨e, rest⟩, h⟩ := r; rfl
  · simp only [operand?, signed?]
    cases readSigned t with
    | none => rfl
    | some r => obtain ⟨⟨e, rest⟩, h⟩ := r; rfl

theorem more_eq (l : Level) (left : Expr) (t : Text) :
    more l left t = match skipSpace t with
      | [] => (left, t)
      | c :: behind =>
        match l.operator? c with
        | none => (left, t)
        | some op =>
          match operand? l (skipSpace behind) with
          | none => (left, t)
          | some (right, rest) => more l (.binary op left right) rest := by
  unfold more
  rw [readMore]
  split
  · rename_i h; simp [h]
  · rename_i c behind h
    simp only [h]
    cases l.operator? c with
    | none => rfl
    | some op =>
      cases l
      · simp only [operand?, level?]
        cases readLevel .product (skipSpace behind) with
        | none => rfl
        | some r => obtain ⟨⟨e, rest⟩, h⟩ := r; rfl
      · simp only [operand?, signed?]
        cases readSigned (skipSpace behind) with
        | none => rfl
        | some r => obtain ⟨⟨e, rest⟩, h⟩ := r; rfl

theorem signed?_eq (t : Text) :
    signed? t = match t with
      | [] => none
      | c :: behind =>
        if c = '-' then (signed? (skipSpace behind)).map fun (e, rest) => (.neg e, rest)
        else if c = '+' then signed? (skipSpace behind)
        else atom? (c :: behind) := by
  unfold signed?
  rw [readSigned.eq_def]
  cases t with
  | nil => rfl
  | cons c behind =>
    simp only
    split
    · cases readSigned (skipSpace behind) with
      | none => rfl
      | some r => obtain ⟨⟨e, rest⟩, h⟩ := r; rfl
    · split
      · cases readSigned (skipSpace behind) with
        | none => rfl
        | some r => obtain ⟨⟨e, rest⟩, h⟩ := r; rfl
      · rfl

theorem arguments?_eq (t : Text) :
    arguments? t = match level? .sum (skipSpace t) with
      | none => none
      | some (e, rest) =>
        match skipSpace rest with
        | ')' :: rest' => some ([e], rest')
        | ',' :: behind => (arguments? behind).map fun (args, rest') => (e :: args, rest')
        | _ => none := by
  unfold arguments?
  rw [readArguments]
  simp only [level?]
  cases readLevel .sum (skipSpace t) with
  | none => rfl
  | some r =>
    obtain ⟨⟨e, rest⟩, h⟩ := r
    dsimp only
    split
    · rename_i h; simp [h]
    · rename_i behind h
      simp only [Option.map_some, h]
      cases readArguments behind with
      | none => rfl
      | some r => obtain ⟨⟨e, rest⟩, h⟩ := r; rfl
    · simp only [Option.map_none, Option.map_some]

theorem member?_eq (t : Text) :
    member? t = match readName t with
      | none => none
      | some (name, rest) =>
        match skipSpace rest with
        | '(' :: behind =>
          match arguments? behind with
          | none => some (.constant name, rest)
          | some (args, rest') => some (.call name args, rest')
        | _ => some (.constant name, rest) := by
  unfold member?
  rw [readMember.eq_def]
  split
  · rename_i h; simp [h]
  · rename_i name rest hn
    simp only [hn]
    split
    · rename_i behind hp
      simp only [hp, arguments?]
      cases readArguments behind with
      | none => rfl
      | some r => obtain ⟨⟨e, rest⟩, h⟩ := r; rfl
    · rename_i h1
      split
      · exact absurd ‹_› (h1 _)
      · rfl

theorem group?_eq (t : Text) :
    group? t = match t with
      | '(' :: behind =>
        match level? .sum (skipSpace behind) with
        | none => none
        | some (e, rest) =>
          match skipSpace rest with
          | ')' :: rest' => some (e, rest')
          | _ => none
      | _ => none := by
  unfold group?
  rw [readGroup.eq_def]
  split
  · rename_i behind
    simp only [level?]
    cases readLevel .sum (skipSpace behind) with
    | none => rfl
    | some r =>
      obtain ⟨⟨e, rest⟩, h⟩ := r
      dsimp only
      split
      · rename_i hc; simp [hc]
      · simp only [Option.map_none, Option.map_some]
  · simp

theorem atom?_eq (t : Text) :
    atom? t = match readNumber t with
      | some (d, rest) => some (.number d, rest)
      | none => (member? t).or (group? t) := by
  unfold atom?
  rw [readAtom.eq_def]
  split
  · rename_i h; simp [h]
  · rename_i h
    simp only [h, member?, group?]
    cases readMember t <;> rfl

/-! ## The rest is shorter -/

theorem length_lt_of_level? {l : Level} {t rest : Text} {e : Expr}
    (h : level? l t = some (e, rest)) : rest.length < t.length := by
  obtain ⟨r, -, hr⟩ := Option.map_eq_some_iff.1 h
  have := r.property
  rwa [hr] at this

theorem length_lt_of_signed? {t rest : Text} {e : Expr} (h : signed? t = some (e, rest)) :
    rest.length < t.length := by
  obtain ⟨r, -, hr⟩ := Option.map_eq_some_iff.1 h
  have := r.property
  rwa [hr] at this

theorem length_lt_of_operand? {l : Level} {t rest : Text} {e : Expr}
    (h : operand? l t = some (e, rest)) : rest.length < t.length := by
  cases l
  · exact length_lt_of_level? h
  · exact length_lt_of_signed? h

theorem length_lt_of_arguments? {t rest : Text} {args : List Expr}
    (h : arguments? t = some (args, rest)) : rest.length < t.length := by
  obtain ⟨r, -, hr⟩ := Option.map_eq_some_iff.1 h
  have := r.property
  rwa [hr] at this

/-! ## The rest is an end of the text -/

theorem skipSpace_suffix (t : Text) : skipSpace t <:+ t := List.dropWhile_suffix _

theorem suffix_of_skipSpace {t rest : Text} {c : Char} (h : skipSpace t = c :: rest) :
    rest <:+ t :=
  (List.suffix_cons c rest).trans (h ▸ skipSpace_suffix t)

theorem suffix_of_readNumber {t rest : Text} {d : Decimal} (h : readNumber t = some (d, rest)) :
    rest <:+ t := by
  unfold readNumber at h
  dsimp only at h
  have hd : t.dropWhile Char.isDigit <:+ t := List.dropWhile_suffix _
  split at h
  · obtain ⟨-, rfl⟩ : _ = d ∧ _ = rest := by simpa using h
    exact (List.dropWhile_suffix _).trans ((List.tail_suffix _).trans hd)
  · split at h
    · obtain ⟨-, rfl⟩ : _ = d ∧ _ = rest := by simpa using h
      exact hd
    · simp at h

theorem suffix_of_readName {t name rest : Text} (h : readName t = some (name, rest)) :
    rest <:+ t := by
  unfold readName at h
  split at h
  · rename_i c t
    split at h
    · obtain ⟨-, rfl⟩ : _ = name ∧ _ = rest := by simpa using h
      exact (List.dropWhile_suffix _).trans ⟨['M', 'a', 't', 'h', '.', c], rfl⟩
    · simp at h
  · simp at h

/-- A reader leaves an end of the text. -/
def LeavesSuffix {α : Type} (read : Text → Option (α × Text)) (t : Text) : Prop :=
  ∀ a rest, read t = some (a, rest) → rest <:+ t

/-- Every reader leaves an end of each text shorter than `n`. -/
private structure SuffixBelow (n : Nat) : Prop where
  level : ∀ l t, t.length < n → LeavesSuffix (level? l) t
  signed : ∀ t, t.length < n → LeavesSuffix signed? t
  more : ∀ l e t, t.length < n → (more l e t).2 <:+ t
  arguments : ∀ t, t.length < n → LeavesSuffix arguments? t

namespace SuffixBelow

variable {n : Nat} (ih : SuffixBelow n) {t : Text}
include ih

private theorem operand (l : Level) (ht : t.length < n) : LeavesSuffix (operand? l) t := by
  cases l with
  | sum => exact ih.level .product t ht
  | product => exact ih.signed t ht

private theorem group (ht : t.length < n + 1) : LeavesSuffix group? t := by
  intro e rest h
  rw [group?_eq] at h
  split at h
  · rename_i behind
    have hb := length_skipSpace_le behind
    rw [List.length_cons] at ht
    split at h
    · simp at h
    · rename_i e' middle hl
      have hm := ih.level .sum _ (by omega) _ _ hl
      split at h
      · rename_i hc
        obtain ⟨-, rfl⟩ : _ = e ∧ _ = rest := by simpa using h
        exact (suffix_of_skipSpace hc).trans
          (hm.trans ((skipSpace_suffix behind).trans (List.suffix_cons _ _)))
      · simp at h
  · simp at h

private theorem member (ht : t.length < n + 1) : LeavesSuffix member? t := by
  intro e rest h
  rw [member?_eq] at h
  split at h
  · simp at h
  · rename_i name middle hn
    have hm := suffix_of_readName hn
    have hl := length_lt_of_readName hn
    split at h
    · rename_i behind hp
      have hb := suffix_of_skipSpace hp
      split at h
      · obtain ⟨-, rfl⟩ : _ = e ∧ _ = rest := by simpa using h
        exact hm
      · rename_i args rest' ha
        obtain ⟨-, rfl⟩ : _ = e ∧ _ = rest := by simpa using h
        have := hb.length_le
        exact (ih.arguments _ (by omega) _ _ ha).trans (hb.trans hm)
    · obtain ⟨-, rfl⟩ : _ = e ∧ _ = rest := by simpa using h
      exact hm

private theorem atom (ht : t.length < n + 1) : LeavesSuffix atom? t := by
  intro e rest h
  rw [atom?_eq] at h
  split at h
  · rename_i hd
    obtain ⟨-, rfl⟩ : _ = e ∧ _ = rest := by simpa using h
    exact suffix_of_readNumber hd
  · rcases Option.or_eq_some_iff.1 h with h | ⟨-, h⟩
    · exact ih.member ht e rest h
    · exact ih.group ht e rest h

private theorem signed_succ (ht : t.length < n + 1) : LeavesSuffix signed? t := by
  intro e rest h
  rw [signed?_eq] at h
  split at h
  · simp at h
  · rename_i c behind
    have hb := length_skipSpace_le behind
    have hs := (skipSpace_suffix behind).trans (List.suffix_cons c behind)
    have hc := ht
    rw [List.length_cons] at ht
    split at h
    · obtain ⟨⟨e', rest'⟩, hr, he⟩ := Option.map_eq_some_iff.1 h
      obtain ⟨-, rfl⟩ : _ = e ∧ rest' = rest := by simpa using he
      exact (ih.signed _ (by omega) _ _ hr).trans hs
    · split at h
      · exact (ih.signed _ (by omega) _ _ h).trans hs
      · exact ih.atom hc e rest h

private theorem more_succ (l : Level) (e : Expr) (ht : t.length < n + 1) :
    (Expr.more l e t).2 <:+ t := by
  rw [more_eq]
  split
  · exact List.suffix_refl t
  · rename_i c behind hs
    have hb := length_skipSpace_le behind
    have hbt := suffix_of_skipSpace hs
    have hlen := length_skipSpace_le t
    rw [hs, List.length_cons] at hlen
    split
    · exact List.suffix_refl t
    · split
      · exact List.suffix_refl t
      · rename_i right rest hr
        have hl := length_lt_of_operand? hr
        exact (ih.more _ _ _ (by omega)).trans ((ih.operand l (by omega) _ _ hr).trans
          ((skipSpace_suffix behind).trans hbt))

private theorem level_of_operand {l : Level} (ht : t.length < n + 1)
    (hOperand : LeavesSuffix (operand? l) t) : LeavesSuffix (level? l) t := by
  intro e rest h
  rw [level?_eq] at h
  obtain ⟨⟨e', rest'⟩, hr, he⟩ := Option.map_eq_some_iff.1 h
  have hl := length_lt_of_operand? hr
  have hm := ih.more_succ l e' (t := rest') (by omega)
  rw [show Expr.more l e' rest' = (e, rest) from he] at hm
  exact hm.trans (hOperand _ _ hr)

/-- The operands of a sum are products, those of a product are signed. -/
private theorem level_succ (l : Level) (ht : t.length < n + 1) : LeavesSuffix (level? l) t := by
  have hProduct : LeavesSuffix (level? .product) t := ih.level_of_operand ht (ih.signed_succ ht)
  cases l with
  | sum => exact ih.level_of_operand ht hProduct
  | product => exact hProduct

private theorem arguments_succ (ht : t.length < n + 1) : LeavesSuffix arguments? t := by
  intro args rest h
  rw [arguments?_eq] at h
  have hb := length_skipSpace_le t
  split at h
  · simp at h
  · rename_i e middle hl
    have hm := (ih.level_succ .sum (by omega) _ _ hl).trans (skipSpace_suffix t)
    have hlt := length_lt_of_level? hl
    split at h
    · rename_i hc
      obtain ⟨-, rfl⟩ : _ = args ∧ _ = rest := by simpa using h
      exact (suffix_of_skipSpace hc).trans hm
    · rename_i behind hc
      obtain ⟨⟨args', rest'⟩, hr, he⟩ := Option.map_eq_some_iff.1 h
      obtain ⟨-, rfl⟩ : _ = args ∧ rest' = rest := by simpa using he
      have hbm := suffix_of_skipSpace hc
      have hlen := hbm.length_le
      exact (ih.arguments _ (by omega) _ _ hr).trans (hbm.trans hm)
    · simp at h

end SuffixBelow

private theorem suffixBelow (n : Nat) : SuffixBelow n := by
  induction n with
  | zero => exact ⟨by simp, by simp, by simp, by simp⟩
  | succ n ih =>
    exact ⟨fun l _ => ih.level_succ l, fun _ => ih.signed_succ, fun l e _ => ih.more_succ l e,
      fun _ => ih.arguments_succ⟩

theorem level?_suffix {l : Level} {t rest : Text} {e : Expr} (h : level? l t = some (e, rest)) :
    rest <:+ t :=
  (suffixBelow (t.length + 1)).level l t (Nat.lt_succ_self _) e rest h

end TextTransforms.Expr
