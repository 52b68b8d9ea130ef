import TextTransforms.Proofs.Markup.Cloning
import TextTransforms.Proofs.Text.Slices

/-!
# The element by its byte offsets

The element at a cursor can be found without cutting the text: one walk goes back over its bytes
to the `<`, another one goes on to the end, and both keep nothing but offsets (`elementRange`).
The tags on the way are sliced out of the text, and so is the copy of a clone (`cloneRange`).

No such read fails, whatever the text and the cursor are, and the outcome is the one of
`elementAt?` and `clone` (`elementRange_safe`). At an ASCII character the walk does what the
search on characters does (`moveAt_eq`), and the bytes of every other character are passed
(`endFrom_skip`, `bracketBefore_skip`); so an offset that is found or sliced at is always one
where a character begins.
-/

namespace TextTransforms.Markup

/-! ## The walks -/

/-- Walks back over the bytes before an offset to the `<` that opens the bracket it stands in. -/
def bracketBefore (t : Text) (depth : Nat) : Nat → Except ReadFault (Option Nat)
  | 0 => return none
  | offset + 1 => do
    let b ← t.byteAt offset
    if b = '>' then bracketBefore t (depth + 1) offset
    else if b = '<' then
      if depth = 0 then return some offset else bracketBefore t (depth - 1) offset
    else bracketBefore t depth offset

/-- What the walk to the end of an element does at a byte. -/
inductive Move
  /-- The element ends at the offset. -/
  | stop (offset : Nat)
  /-- The byte is passed; `depth` elements of the name are open behind it. -/
  | pass (inTag : Bool) (depth : Nat)

/-- At a `<` in front of a slash; the offset is the one behind both. -/
def closingMove (t name : Text) (inTag : Bool) (depth offset : Nat) : Except ReadFault Move := do
  match Text.find? '>' (← t.sliceFrom offset) with
  | some close =>
    let inside ← t.slice offset (offset + close)
    if Text.trim inside = name then
      if depth - 1 = 0 then return .stop (offset + close + 1)
      else return .pass inTag (depth - 1)
    else return .pass inTag depth
  | none => return .pass inTag depth

/-- Whether the tag that a text starts with closes itself. -/
def isSelfClosing (t : Text) : Except ReadFault Bool := do
  match Text.find? '>' t with
  | some close => return (← t.slice 0 close).getLast? == some '/'
  | none => return false

/-- At a `<` in front of anything but a slash. -/
def openingMove (t name : Text) (inTag : Bool) (depth offset : Nat) : Except ReadFault Move := do
  let tag ← t.sliceFrom offset
  let opening := '<' :: name
  if opening.isPrefixOf tag ∧ ¬ t.bytes[offset + Text.utf8Length opening]?.any Char.isAlphanum then
    if ← isSelfClosing tag then return .pass inTag depth else return .pass inTag (depth + 1)
  else return .pass inTag depth

def moveAt (t name : Text) (inTag : Bool) (depth offset : Nat) : Except ReadFault Move := do
  let b ← t.byteAt offset
  let next := t.bytes[offset + 1]?
  if b = '/' ∧ next = some '>' ∧ inTag ∧ depth = 1 then return .stop (offset + 2)
  else if b = '>' then return .pass false depth
  else if b = '<' ∧ next = some '/' then closingMove t name inTag depth (offset + 2)
  else if b = '<' then openingMove t name inTag depth offset
  else return .pass inTag depth

/-- Walks on to the end of the element called `name`, of whose name `depth` elements are open. -/
def endFrom (t name : Text) (inTag : Bool) (depth offset : Nat) :
    Except ReadFault (Option Nat) := do
  if offset < t.bytes.length then
    match ← moveAt t name inTag depth offset with
    | .stop stop => return some stop
    | .pass inTag depth => endFrom t name inTag depth (offset + 1)
  else return none
termination_by t.bytes.length - offset

/-- From where to where the element goes whose `<` is at the offset. -/
def rangeFrom (t : Text) (start : Nat) : Except ReadFault (Option (Nat × Nat)) := do
  let length := ((← t.bytesFrom (start + 1)).takeWhile Char.isAlphanum).length
  if length = 0 then return none
  else
    let name ← t.slice (start + 1) (start + 1 + length)
    return (← endFrom t name true 1 (start + 1)).map fun stop => (start, stop)

/-- From where to where the element at the cursor goes. -/
def elementRange (t : Text) (cursor : Nat) : Except ReadFault (Option (Nat × Nat)) := do
  if t.bytes.isEmpty then return none
  else
    match ← bracketBefore t 0 (min cursor (t.bytes.length - 1) + 1) with
    | none => return none
    | some start => rangeFrom t start

/-- The text with the element at the cursor cloned, put together from slices. -/
def cloneRange (t : Text) (cursor : Nat) (increment : Bool) :
    Except ReadFault (Except Error Text) := do
  match ← elementRange t cursor with
  | none => return .error .noElement
  | some (start, stop) =>
    let element ← t.slice start stop
    let copy := if increment then incrementNumbers element else element
    return .ok ((← t.slice 0 stop) ++ '\n' :: copy ++ (← t.sliceFrom stop))

/-! ## Walking back -/

section WalkBack

variable {t : Text} {depth : Nat}

theorem bracketBefore_succ {offset : Nat} {b : Char} (h : t.byteAt offset = .ok b) :
    bracketBefore t depth (offset + 1) =
      if b = '>' then bracketBefore t (depth + 1) offset
      else if b = '<' then
        if depth = 0 then .ok (some offset) else bracketBefore t (depth - 1) offset
      else bracketBefore t depth offset := by
  rw [bracketBefore, h]
  rfl

theorem bracketBefore_skip {offset : Nat} (n : Nat)
    (h : ∀ i, offset ≤ i → i < offset + n → t.WideAt i) :
    bracketBefore t depth (offset + n) = bracketBefore t depth offset := by
  induction n with
  | zero => rfl
  | succ n ih =>
    obtain ⟨b, hb, hwide⟩ := h (offset + n) (by omega) (by omega)
    rw [← Nat.add_assoc, bracketBefore_succ hb, if_neg (Text.ne_of_ascii hwide (by decide)),
      if_neg (Text.ne_of_ascii hwide (by decide))]
    exact ih fun i hlow hhigh => h i hlow (by omega)

/-- From between two characters, the walk finds the bracket that the search on characters finds.
The induction follows the search, from the last character of the text to the first. -/
theorem bracketBefore_eq (r rest : Text) (depth : Nat) (passed : Text) :
    bracketBefore (r.reverse ++ rest) depth r.utf8Length =
      .ok ((openingBracket? depth passed r).map fun (before, _) =>
        Text.utf8Length before.reverse) := by
  induction r generalizing rest depth passed with
  | nil => rfl
  | cons c r ih =>
    rw [List.reverse_cons, List.append_assoc, List.singleton_append, Text.utf8Length,
      Nat.add_comm, openingBracket?]
    rcases Nat.lt_or_ge c.toNat 128 with hc | hc
    · have hbyte := Text.byteAt_append hc r.reverse rest
      rw [Text.utf8Length_reverse] at hbyte
      rw [Text.utf8Size_of_ascii hc, bracketBefore_succ hbyte]
      split
      · exact ih ..
      · split
        · split
          · rw [Option.map_some, ← Text.utf8Length_reverse r]
          · exact ih ..
        · exact ih ..
    · rw [if_neg (Text.ne_of_ascii hc (by decide)), if_neg (Text.ne_of_ascii hc (by decide)),
        bracketBefore_skip]
      · exact ih ..
      · intro i hlow hhigh
        rw [← Text.utf8Length_reverse] at hlow hhigh
        exact Text.wideAt_append hc hlow hhigh

end WalkBack

/-! ## Moves -/

theorem closingTag?_eq_none {t : Text} (h : t.head? ≠ some '/') : closingTag? name t = none := by
  unfold closingTag?
  split
  · exact absurd rfl h
  · rfl

theorem closingMove_eq (name s rest : Text) (inTag : Bool) (k : Nat) :
    closingMove (s ++ '<' :: '/' :: rest) name inTag (k + 1) (s.utf8Length + 2) =
      .ok (match closingTag? name ('/' :: rest) with
        | some (tag, _) =>
          if k = 0 then .stop (s.utf8Length + 1 + tag.utf8Length) else .pass inTag k
        | none => .pass inTag (k + 1)) := by
  have hsplit : s ++ '<' :: '/' :: rest = (s ++ ['<', '/']) ++ rest := by simp
  have hlen : s.utf8Length + 2 = Text.utf8Length (s ++ ['<', '/']) := by
    rw [Text.utf8Length_append]
    rfl
  have hfrom := Text.sliceFrom_append (s ++ ['<', '/']) rest
  rw [hsplit, hlen, closingMove, hfrom, closingTag?]
  change (match Text.find? '>' rest with | some _ => _ | none => _) = _
  rw [Text.find?]
  cases hcut : Text.cut? '>' rest with
  | none => rfl
  | some p =>
    obtain ⟨inside, behind⟩ := p
    obtain ⟨rfl, -⟩ := Text.cut?_eq_some_iff.1 hcut
    have hslice := Text.slice_append (s ++ ['<', '/']) inside ('>' :: behind)
    rw [List.append_assoc] at hslice
    simp only [Option.map_some]
    rw [hslice]
    change (if Text.trim inside = name then _ else _) = _
    by_cases htrim : Text.trim inside = name
    · rw [if_pos htrim, if_pos htrim]
      have hstop : Text.utf8Length (s ++ ['<', '/']) + inside.utf8Length + 1 =
          s.utf8Length + 1 + Text.utf8Length ('/' :: inside ++ ['>']) := by
        have htag : Text.utf8Length ('/' :: inside ++ ['>']) = 1 + inside.utf8Length + 1 :=
          Text.utf8Length_append ('/' :: inside) ['>']
        rw [← hlen, htag]
        omega
      rw [hstop, Nat.add_sub_cancel]
      dsimp only
      split <;> rfl
    · rw [if_neg htrim, if_neg htrim]
      rfl

/-- Whether a tag closes itself, from what follows its `<`. -/
def closesItself (t : Text) : Bool :=
  match Text.cut? '>' t with
  | some (inside, _) => inside.getLast? == some '/'
  | none => false

theorem isSelfClosing_eq (t : Text) : isSelfClosing ('<' :: t) = .ok (closesItself t) := by
  rw [isSelfClosing, closesItself, Text.find?, Text.cut?, if_neg (by decide)]
  cases hcut : Text.cut? '>' t with
  | none => rfl
  | some p =>
    obtain ⟨inside, behind⟩ := p
    obtain ⟨rfl, -⟩ := Text.cut?_eq_some_iff.1 hcut
    have hslice := Text.slice_zero_append ('<' :: inside) ('>' :: behind)
    rw [List.cons_append] at hslice
    simp only [Option.map_some]
    rw [hslice]
    change Except.ok (('<' :: inside).getLast? == some '/') = _
    cases inside with
    | nil => rfl
    | cons c inside => rfl

theorem opensNested_eq (name behind : Text) :
    opensNested name (name ++ behind) =
      (!behind.head?.any Char.isAlphanum && !closesItself (name ++ behind)) := by
  have hp : name.isPrefixOf? (name ++ behind) = some behind :=
    List.isPrefixOf?_eq_some_iff_append_eq.2 rfl
  rw [opensNested, hp, closesItself]
  cases Text.cut? '>' (name ++ behind) <;> rfl

theorem openingMove_eq (name s rest : Text) (inTag : Bool) (depth : Nat) :
    openingMove (s ++ '<' :: rest) name inTag depth s.utf8Length =
      .ok (.pass inTag (if opensNested name rest then depth + 1 else depth)) := by
  rw [openingMove, Text.sliceFrom_append]
  change (if _ then (isSelfClosing ('<' :: rest) >>= fun _ => _) else _) = _
  rw [isSelfClosing_eq, List.isPrefixOf_cons_cons_self, ← List.isSome_isPrefixOf?_eq_isPrefixOf]
  cases hp : name.isPrefixOf? rest with
  | none =>
    rw [opensNested, hp]
    rfl
  | some behind =>
    obtain rfl := List.isPrefixOf?_eq_some_iff_append_eq.1 hp
    -- The byte behind the name is read from the text that follows it.
    have hnext : (s ++ '<' :: (name ++ behind)).bytes[
        s.utf8Length + Text.utf8Length ('<' :: name)]? = (Text.bytes behind).head? := by
      have hbyte := Text.getElem?_bytes_append (s ++ '<' :: name) behind 0
      rw [List.append_assoc, Text.utf8Length_append, Nat.add_zero] at hbyte
      rw [List.head?_eq_getElem?]
      exact hbyte
    rw [hnext, Text.any_head?_bytes Text.isAsciiTest_isAlphanum, opensNested_eq]
    by_cases hlonger : behind.head?.any Char.isAlphanum = true
    · rw [if_neg fun h => h.2 hlonger, hlonger]
      rfl
    · rw [if_pos ⟨rfl, hlonger⟩, eq_false_of_ne_true hlonger]
      cases closesItself (name ++ behind) <;> rfl

instance (c : Char) (t : Text) (inTag : Bool) (k : Nat) : Decidable (EndsTag c t inTag k) :=
  inferInstanceAs (Decidable (_ ∧ _ ∧ _ ∧ _))

/-- What the walk does at an ASCII character, in the terms of the search on characters. -/
theorem moveAt_eq {c : Char} (hc : c.toNat < 128) (name : TagName) (s rest : Text) (inTag : Bool)
    (k : Nat) :
    moveAt (s ++ c :: rest) name.1 inTag (k + 1) s.utf8Length =
      .ok (if EndsTag c rest inTag k then .stop (s.utf8Length + 2)
        else if c = '>' then .pass false (k + 1)
        else if c = '<' then
          match closingTag? name.1 rest with
          | some (tag, _) =>
            if k = 0 then .stop (s.utf8Length + 1 + tag.utf8Length) else .pass inTag k
          | none => .pass inTag (if opensNested name.1 rest then k + 2 else k + 1)
        else .pass inTag (k + 1)) := by
  have hnext (d : Char) (hd : d.toNat < 128) :
      (s ++ c :: rest).bytes[s.utf8Length + 1]? = some d ↔ rest.head? = some d := by
    rw [Text.getElem?_bytes_append, Text.bytes_cons_of_ascii hc, List.getElem?_cons_succ,
      ← List.head?_eq_getElem?, Text.head?_bytes_eq_some_iff hd]
  rw [moveAt, Text.byteAt_append hc]
  change (if _ then _ else if _ then _ else if _ then _ else if _ then _ else _) = _
  simp only [hnext '>' (by decide), hnext '/' (by decide), Nat.add_eq_right]
  by_cases hends : EndsTag c rest inTag k
  · rw [if_pos hends, if_pos (show c = '/' ∧ rest.head? = some '>' ∧ inTag ∧ k = 0 from hends)]
    rfl
  rw [if_neg hends, if_neg (show ¬ (c = '/' ∧ rest.head? = some '>' ∧ inTag ∧ k = 0) from hends)]
  by_cases hclose : c = '>'
  · rw [if_pos hclose, if_pos hclose]
    rfl
  rw [if_neg hclose, if_neg hclose]
  by_cases hopen : c = '<'
  · subst hopen
    rw [if_pos rfl, if_pos rfl]
    by_cases hslash : rest.head? = some '/'
    · obtain ⟨r, rfl⟩ : ∃ r, rest = '/' :: r := List.head?_eq_some_iff.1 hslash
      rw [if_pos ⟨rfl, rfl⟩, closingMove_eq, opensNested_of_slash]
      rfl
    · rw [if_neg fun h => hslash h.2, openingMove_eq, closingTag?_eq_none hslash]
  · rw [if_neg fun h => hopen h.1, if_neg hopen, if_neg hopen]
    rfl

theorem moveAt_of_wideAt {t name : Text} {inTag : Bool} {depth offset : Nat}
    (h : t.WideAt offset) :
    moveAt t name inTag depth offset = .ok (.pass inTag depth) := by
  obtain ⟨b, hb, hwide⟩ := h
  have hne (d : Char) (hd : d.toNat < 128) : b ≠ d := Text.ne_of_ascii hwide hd
  rw [moveAt, hb]
  change (if _ then _ else if _ then _ else if _ then _ else if _ then _ else _) = _
  rw [if_neg fun h => hne '/' (by decide) h.1, if_neg (hne '>' (by decide)),
    if_neg fun h => hne '<' (by decide) h.1, if_neg (hne '<' (by decide))]
  rfl

/-! ## Walking on -/

section WalkOn

variable {t name : Text} {inTag : Bool} {depth offset : Nat}

theorem endFrom_stop {stop : Nat} (hlt : offset < t.bytes.length)
    (h : moveAt t name inTag depth offset = .ok (.stop stop)) :
    endFrom t name inTag depth offset = .ok (some stop) := by
  rw [endFrom, if_pos hlt, h]
  rfl

theorem endFrom_pass {inTag' : Bool} {depth' : Nat} (hlt : offset < t.bytes.length)
    (h : moveAt t name inTag depth offset = .ok (.pass inTag' depth')) :
    endFrom t name inTag depth offset = endFrom t name inTag' depth' (offset + 1) := by
  rw [endFrom, if_pos hlt, h]
  rfl

theorem endFrom_skip (n : Nat) (h : ∀ i, offset ≤ i → i < offset + n → t.WideAt i) :
    endFrom t name inTag depth offset = endFrom t name inTag depth (offset + n) := by
  induction n with
  | zero => rfl
  | succ n ih =>
    have hwide := h (offset + n) (by omega) (by omega)
    obtain ⟨b, hb, -⟩ := id hwide
    rw [ih fun i hlow hhigh => h i hlow (by omega),
      endFrom_pass (Text.lt_length_of_byteAt hb) (moveAt_of_wideAt hwide), Nat.add_assoc]

/-- The offset behind what is found from an offset on. -/
def endOf (offset : Nat) (r : Option (Text × Text)) : Option Nat :=
  r.map fun (inside, _) => offset + inside.utf8Length

theorem endOf_within (offset : Nat) (s : Text) (r : Option (Text × Text)) :
    endOf offset (within s r) = endOf (offset + s.utf8Length) r := by
  cases r <;> simp [endOf, within, Nat.add_assoc]

/-- From between two characters, the walk ends where the search on characters does. The induction
is on the text that is left; the bytes of a character that is not ASCII are passed one by one,
as the search passes the character. -/
theorem endFrom_eq (name : TagName) (s rest : Text) (inTag : Bool) (k : Nat) :
    endFrom (s ++ rest) name.1 inTag (k + 1) s.utf8Length =
      .ok (endOf s.utf8Length (elementEnd? name.1 inTag k rest)) := by
  induction rest generalizing s inTag k with
  | nil =>
    rw [endFrom, if_neg (by rw [List.append_nil, Text.length_bytes]; omega)]
    rfl
  | cons c rest ih =>
    have hsnoc : s ++ c :: rest = (s ++ [c]) ++ rest := by simp
    have hlen : s.utf8Length + c.utf8Size = Text.utf8Length (s ++ [c]) := by
      rw [Text.utf8Length_append]
      rfl
    have hpass (inTag : Bool) (k : Nat) :
        endFrom (s ++ c :: rest) name.1 inTag (k + 1) (s.utf8Length + c.utf8Size) =
          .ok (endOf s.utf8Length (within [c] (elementEnd? name.1 inTag k rest))) := by
      rw [hsnoc, hlen, ih, endOf_within, Text.utf8Length_append]
    rcases Nat.lt_or_ge c.toNat 128 with hc | hc
    · have hlt := Text.lt_length_of_byteAt (Text.byteAt_append hc s rest)
      have hmove := moveAt_eq hc name s rest inTag k
      rw [Text.utf8Size_of_ascii hc] at hpass
      by_cases hends : EndsTag c rest inTag k
      · rw [if_pos hends] at hmove
        rw [endFrom_stop hlt hmove, elementEnd?_endsTag hends, hends.1]
        rfl
      rw [if_neg hends] at hmove
      by_cases hclose : c = '>'
      · subst hclose
        rw [if_pos rfl] at hmove
        rw [endFrom_pass hlt hmove, elementEnd?_close]
        exact hpass false k
      rw [if_neg hclose] at hmove
      by_cases hopen : c = '<'
      · subst hopen
        rw [if_pos rfl] at hmove
        rw [elementEnd?_open]
        cases hclosing : closingTag? name.1 rest with
        | some p =>
          rw [hclosing] at hmove
          dsimp only at hmove ⊢
          cases k with
          | zero =>
            rw [if_pos rfl] at hmove ⊢
            rw [endFrom_stop hlt hmove, Nat.add_assoc]
            rfl
          | succ k =>
            rw [if_neg (Nat.succ_ne_zero k)] at hmove ⊢
            rw [endFrom_pass hlt hmove]
            exact hpass inTag k
        | none =>
          rw [hclosing] at hmove
          dsimp only at hmove ⊢
          rw [endFrom_pass hlt hmove]
          split
          · exact hpass inTag (k + 1)
          · exact hpass inTag k
      · rw [if_neg hopen] at hmove
        rw [endFrom_pass hlt hmove, elementEnd?_other hopen hclose hends]
        exact hpass inTag k
    · have hne (d : Char) (hd : d.toNat < 128) : c ≠ d := Text.ne_of_ascii hc hd
      rw [elementEnd?_other (hne '<' (by decide)) (hne '>' (by decide))
          fun h => hne '/' (by decide) h.1,
        endFrom_skip c.utf8Size fun i hlow hhigh => Text.wideAt_append hc hlow hhigh]
      exact hpass inTag k

end WalkOn

/-! ## The range -/

section Range

variable {t : Text} {n cursor : Nat} {f : Found}

/-- The character that a byte belongs to. -/
theorem exists_snoc_of_cutBehind (h : n < t.utf8Length) :
    ∃ (s : Text) (c : Char) (rest : Text), cutBehind n t = (s ++ [c], rest) ∧ t = s ++ c :: rest ∧
      s.utf8Length ≤ n ∧ n < s.utf8Length + c.utf8Size := by
  induction t generalizing n with
  | nil => exact absurd h (Nat.not_lt_zero n)
  | cons d t ih =>
    rw [Text.utf8Length] at h
    rw [cutBehind]
    by_cases hd : n < d.utf8Size
    · rw [if_pos hd]
      exact ⟨[], d, t, rfl, rfl, Nat.zero_le n, by rwa [Text.utf8Length_nil, Nat.zero_add]⟩
    · rw [if_neg hd]
      obtain ⟨s, c, rest, hcut, rfl, hlow, hhigh⟩ := ih (n := n - d.utf8Size) (by omega)
      refine ⟨d :: s, c, rest, by rw [hcut]; rfl, rfl, ?_, ?_⟩
      · rw [Text.utf8Length]
        omega
      · rw [Text.utf8Length]
        omega

/-- From any byte, also one inside a character, the walk goes back as the search does from the
character that the byte belongs to. -/
theorem bracketBefore_cursor (h : n < t.utf8Length) :
    bracketBefore t 0 (n + 1) =
      .ok ((openingBracket? 0 [] (cutBehind n t).1.reverse).map fun (before, _) =>
        Text.utf8Length before.reverse) := by
  obtain ⟨s, c, rest, hcut, rfl, hlow, hhigh⟩ := exists_snoc_of_cutBehind h
  have hbehind := bracketBefore_eq (s ++ [c]).reverse rest 0 []
  rw [List.reverse_reverse, Text.utf8Length_reverse, Text.utf8Length_append, List.append_assoc]
    at hbehind
  rw [hcut, ← hbehind]
  change bracketBefore _ 0 (n + 1) = bracketBefore (s ++ c :: rest) 0 (s.utf8Length + c.utf8Size)
  rcases Nat.lt_or_ge c.toNat 128 with hc | hc
  · rw [Text.utf8Size_of_ascii hc] at hhigh ⊢
    rw [Nat.le_antisymm (Nat.le_of_lt_succ hhigh) hlow]
  · obtain ⟨i, rfl⟩ := Nat.exists_eq_add_of_le hlow
    rw [bracketBefore_skip c.utf8Size fun j hlow hhigh => Text.wideAt_append hc hlow hhigh,
      Nat.add_assoc, bracketBefore_skip (i + 1)]
    intro j hlow hhigh
    exact Text.wideAt_append hc hlow (by omega)

theorem rangeFrom_eq (before inside : Text) :
    rangeFrom (before ++ '<' :: inside) before.utf8Length =
      .ok (if (inside.takeWhile Char.isAlphanum).isEmpty then none
        else (elementEnd? (inside.takeWhile Char.isAlphanum) true 0 inside).map
          fun (element, _) => (before.utf8Length,
            before.utf8Length + Text.utf8Length ('<' :: element))) := by
  have hsplit : before ++ '<' :: inside = (before ++ ['<']) ++ inside := by simp
  have hlen : before.utf8Length + 1 = Text.utf8Length (before ++ ['<']) := by
    rw [Text.utf8Length_append]
    rfl
  rw [rangeFrom, hsplit, hlen, Text.bytesFrom_append]
  change (if (inside.bytes.takeWhile Char.isAlphanum).length = 0 then _ else _) = _
  rw [Text.takeWhile_bytes Text.isAsciiTest_isAlphanum]
  by_cases hname : inside.takeWhile Char.isAlphanum = []
  · rw [hname]
    rfl
  let name : TagName := ⟨inside.takeWhile Char.isAlphanum, hname, fun _ => List.mem_takeWhile_imp⟩
  have hlength : name.1.utf8Length = name.1.length :=
    Text.utf8Length_of_ascii fun c hc => Text.isAsciiTest_isAlphanum c (name.2.2 c hc)
  have hslice := Text.slice_append (before ++ ['<']) name.1 (inside.dropWhile Char.isAlphanum)
  rw [List.append_assoc, List.takeWhile_append_dropWhile, hlength] at hslice
  rw [if_neg fun h => hname (List.length_eq_zero_iff.1 h), hslice,
    if_neg fun h => hname (List.isEmpty_iff.1 h)]
  change (endFrom (before ++ ['<'] ++ inside) name.1 true 1 _ >>= fun _ => _) = _
  rw [endFrom_eq name, endOf, ← hlen]
  cases elementEnd? name.1 true 0 inside with
  | none => rfl
  | some p =>
    obtain ⟨element, after⟩ := p
    change Except.ok (some (before.utf8Length, before.utf8Length + 1 + element.utf8Length)) = _
    rw [Nat.add_assoc]
    rfl

/-- The range of the element that is found; no read on the way fails. -/
theorem elementRange_eq (t : Text) (cursor : Nat) :
    elementRange t cursor = .ok ((elementAt? t cursor).map fun f => (f.start, f.stop)) := by
  by_cases ht : t = []
  · subst ht
    rfl
  have hpos : t.utf8Length ≠ 0 := fun h => ht (Text.utf8Length_eq_zero_iff.1 h)
  have hbytes : t.bytes.isEmpty = false := by
    rw [List.isEmpty_eq_false_iff, ← List.length_pos_iff, Text.length_bytes]
    omega
  rw [elementRange, hbytes, if_neg Bool.false_ne_true, ← elementAt?_min, Text.length_bytes,
    bracketBefore_cursor (by omega), elementAt?]
  generalize min cursor (t.utf8Length - 1) = n
  have hcut := cutBehind_append n t
  dsimp only
  cases hb : openingBracket? 0 [] (cutBehind n t).1.reverse with
  | none => rfl
  | some p =>
    obtain ⟨before, between⟩ := p
    have hsplit := openingBracket?_eq hb
    rw [List.reverse_reverse, List.append_nil] at hsplit
    rw [hsplit, List.append_assoc, List.cons_append] at hcut
    change rangeFrom t (Text.utf8Length before.reverse) = .ok (Option.map _ (if _ then _ else _))
    generalize between ++ (cutBehind n t).2 = inside at *
    rw [← hcut, rangeFrom_eq]
    by_cases hname : (inside.takeWhile Char.isAlphanum).isEmpty = true
    · rw [if_pos hname, if_pos hname]
      rfl
    · rw [if_neg hname, if_neg hname]
      cases elementEnd? (inside.takeWhile Char.isAlphanum) true 0 inside <;> rfl

theorem cloneRange_eq (t : Text) (cursor : Nat) (increment : Bool) :
    cloneRange t cursor increment = .ok (clone t cursor increment) := by
  rw [cloneRange, elementRange_eq, clone]
  cases h : elementAt? t cursor with
  | none => rfl
  | some f =>
    obtain rfl := source_of_elementAt? h
    have helement := Text.slice_append f.before f.element f.after
    have hupTo := Text.slice_zero_append (f.before ++ f.element) f.after
    have hafter := Text.sliceFrom_append (f.before ++ f.element) f.after
    rw [Text.utf8Length_append] at hupTo hafter
    change (f.source.slice f.start f.stop >>= fun element => _) = _
    rw [Found.source, Found.stop, Found.start, helement]
    change (Text.slice _ 0 _ >>= fun element => _) = _
    rw [hupTo]
    change (Text.sliceFrom _ _ >>= fun after => _) = _
    rw [hafter]
    rfl

/-- What is found starts at the cursor or in front of it. -/
theorem start_le_of_elementAt? (h : elementAt? t cursor = some f) : f.start ≤ cursor := by
  have hpos : t.utf8Length ≠ 0 := by
    intro hzero
    rw [Text.utf8Length_eq_zero_iff.1 hzero] at h
    exact nomatch h
  obtain ⟨s, c, rest, hcut, -, hlow, -⟩ :=
    exists_snoc_of_cutBehind (t := t) (n := min cursor (t.utf8Length - 1)) (by omega)
  rw [← elementAt?_min, elementAt?_iff_cut hcut] at h
  obtain ⟨between, -, hb, -⟩ := h
  have hsplit := openingBracket?_eq hb
  rw [List.reverse_reverse, List.reverse_reverse, List.append_nil] at hsplit
  -- The text before the `<` ends in front of the character that the cursor is in.
  have hs := congrArg List.dropLast hsplit
  rw [List.dropLast_concat, List.dropLast_append_of_ne_nil (List.cons_ne_nil _ _)] at hs
  rw [hs, Text.utf8Length_append] at hlow
  rw [Found.start]
  omega

end Range

/-! ## What the element looks like -/

theorem closingTag?_eq_bracket {name : TagName} {t tag rest : Text}
    (h : closingTag? name.1 t = some (tag, rest)) :
    ∃ before behind, '<' :: tag = bracket (closingInside name before behind) := by
  unfold closingTag? at h
  split at h
  · split at h
    · rename_i inside _ _
      split at h
      · rename_i htrim
        obtain ⟨rfl, -⟩ : _ = tag ∧ _ = rest := by simpa using h
        obtain ⟨before, behind, hinside, hbefore, hbehind⟩ := Text.exists_blanks_trim inside
        refine ⟨⟨before, hbefore⟩, ⟨behind, hbehind⟩, ?_⟩
        rw [hinside, htrim]
        rfl
      · exact nomatch h
    · exact nomatch h
  · exact nomatch h

/-- The tag that a text ends with as the element called `name`: its own, or a closing tag. -/
def EndsElement (name : TagName) (u : Text) : Prop :=
  ['/', '>'] <:+ u ∨ ∃ before behind, bracket (closingInside name before behind) <:+ u

theorem EndsElement.append {name : TagName} {u : Text} (h : EndsElement name u) (s : Text) :
    EndsElement name (s ++ u) := by
  have hu := List.suffix_append s u
  obtain h | ⟨before, behind, h⟩ := h
  · exact .inl (h.trans hu)
  · exact .inr ⟨before, behind, h.trans hu⟩

/-- The search stops behind a `/>`, or behind a closing tag of the name. -/
theorem endsElement_of_elementEnd? {name : TagName} {t element after : Text} {inTag : Bool}
    {k : Nat} (h : elementEnd? name.1 inTag k t = some (element, after)) :
    EndsElement name element := by
  induction t generalizing inTag k element with
  | nil => exact nomatch h
  | cons c t ih =>
    have hwithin {inTag : Bool} {k : Nat}
        (h : within [c] (elementEnd? name.1 inTag k t) = some (element, after)) :
        EndsElement name element := by
      obtain ⟨inside, hinside, rfl⟩ := within_eq_some_iff.1 h
      exact (ih hinside).append [c]
    by_cases hends : EndsTag c t inTag k
    · rw [elementEnd?_endsTag hends, hends.1] at h
      obtain ⟨rfl, -⟩ : ['/', '>'] = element ∧ _ = after := by simpa using h
      exact .inl (List.suffix_refl _)
    by_cases hclose : c = '>'
    · subst hclose
      rw [elementEnd?_close] at h
      exact hwithin h
    by_cases hopen : c = '<'
    · subst hopen
      rw [elementEnd?_open] at h
      cases hclosing : closingTag? name.1 t with
      | some p =>
        obtain ⟨tag, rest⟩ := p
        rw [hclosing] at h
        dsimp only at h
        split at h
        · obtain ⟨rfl, -⟩ : '<' :: tag = element ∧ rest = after := by simpa using h
          obtain ⟨before, behind, htag⟩ := closingTag?_eq_bracket hclosing
          rw [htag]
          exact .inr ⟨before, behind, List.suffix_refl _⟩
        · exact hwithin h
      | none =>
        rw [hclosing] at h
        exact hwithin h
    · rw [elementEnd?_other hopen hclose hends] at h
      exact hwithin h

/-- What is found starts with its name and ends as an element of this name does. -/
theorem exists_name_of_elementAt? {t : Text} {cursor : Nat} {f : Found}
    (h : elementAt? t cursor = some f) :
    ∃ (name : TagName) (rest : Text), f.element = '<' :: (name.1 ++ rest) ∧
      (∀ c, rest.head? = some c → c.isAlphanum = false) ∧ EndsElement name f.element := by
  rw [elementAt?_iff_cut rfl] at h
  obtain ⟨between, element, -, hname, he, helement⟩ := h
  generalize between ++ (cutBehind cursor t).2 = inside at hname he
  let name : TagName := ⟨inside.takeWhile Char.isAlphanum, hname, fun _ => List.mem_takeWhile_imp⟩
  obtain ⟨hmem, -⟩ := elementEnd?_exchange (gt_notMem_name _) he
  have htake : element.takeWhile Char.isAlphanum = name.1 := by
    rw [← takeWhile_name_append hmem f.after, ← elementEnd?_eq he]
  refine ⟨name, element.dropWhile Char.isAlphanum, ?_, ?_, ?_⟩
  · rw [helement, ← htake, List.takeWhile_append_dropWhile]
  · intro c hc
    have hhead := List.head?_dropWhile_not Char.isAlphanum element
    rw [hc] at hhead
    simpa using hhead
  · have hends : EndsElement name element := endsElement_of_elementEnd? he
    rw [helement]
    exact hends.append ['<']

/-- Whatever the text and the cursor are, finding and cloning the element by its offsets runs
into no fault, and gives what the search on characters gives. A range that is found starts at the
cursor or in front of it and lies in the text; what stands there starts with `<` and a name, and
ends with `/>` or with a closing tag of that name. -/
theorem elementRange_safe (t : Text) (cursor : Nat) :
    elementRange t cursor = .ok ((elementAt? t cursor).map fun f => (f.start, f.stop)) ∧
    (∀ increment, cloneRange t cursor increment = .ok (clone t cursor increment)) ∧
    ∀ start stop, elementRange t cursor = .ok (some (start, stop)) →
      start ≤ cursor ∧ start < stop ∧ stop ≤ t.utf8Length ∧
      ∃ element, t.slice start stop = .ok element ∧
        ∃ (name : TagName) (rest : Text), element = '<' :: (name.1 ++ rest) ∧
          (∀ c, rest.head? = some c → c.isAlphanum = false) ∧
          (['/', '>'] <:+ element ∨
            ∃ before behind, bracket (closingInside name before behind) <:+ element) := by
  refine ⟨elementRange_eq t cursor, cloneRange_eq t cursor, ?_⟩
  intro start stop h
  rw [elementRange_eq] at h
  obtain ⟨f, hf, hrange⟩ := Option.map_eq_some_iff.1 (Except.ok.inj h)
  obtain ⟨rfl, rfl⟩ : f.start = start ∧ f.stop = stop := by simpa using hrange
  obtain ⟨name, rest, helement, hrest, hends⟩ := exists_name_of_elementAt? hf
  have hsource := source_of_elementAt? hf
  have hlength : f.start + f.element.utf8Length + f.after.utf8Length = t.utf8Length := by
    rw [← hsource, Found.source, Text.utf8Length_append, Text.utf8Length_append]
    rfl
  have hpos : 0 < f.element.utf8Length := by
    rw [helement, Text.utf8Length]
    exact Nat.add_pos_left (Char.utf8Size_pos _) _
  refine ⟨start_le_of_elementAt? hf, ?_, ?_, f.element, ?_, name, rest, helement, hrest, hends⟩
  · rw [Found.stop]
    omega
  · rw [Found.stop]
    omega
  · rw [← hsource]
    exact Text.slice_append f.before f.element f.after

/-- A cursor inside the `é` of a tag, with a closing tag that is written with blanks. -/
theorem elementRange_safe_inCharacter :
    elementRange "ü<b é>ñ</ b >ü".toList 6 = .ok (some (2, 16)) ∧ 2 ≤ 6 ∧
      16 ≤ Text.utf8Length "ü<b é>ñ</ b >ü".toList ∧
      ∃ element, Text.slice "ü<b é>ñ</ b >ü".toList 2 16 = .ok element := by
  have hfound : elementAt? "ü<b é>ñ</ b >ü".toList 6 =
      some ⟨['ü'], "<b é>ñ</ b >".toList, ['ü']⟩ := by decide
  obtain ⟨hrange, -, hspan⟩ := elementRange_safe "ü<b é>ñ</ b >ü".toList 6
  rw [hfound] at hrange
  obtain ⟨hstart, -, hstop, element, hslice, -⟩ := hspan 2 16 hrange
  exact ⟨hrange, hstart, hstop, element, hslice⟩

end TextTransforms.Markup
