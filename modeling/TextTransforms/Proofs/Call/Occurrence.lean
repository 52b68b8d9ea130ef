import TextTransforms.Proofs.Call.Grammar
import TextTransforms.Proofs.Call.Layout

/-!
# Occurrences of calls

A call occurs in a text where the text spells it: a name at the start of a word, `!`, and
in parentheses a literal and a tail, with blanks in the places that `Call.Gaps` lists
(`Call.Occurs`). The search finds a call exactly if one occurs, it finds the leftmost one,
and the text determines all parts of a call that occurs at a given place
(`find?_eq_some_iff_leftmost`).
-/

namespace TextTransforms.Call

/-- A call as the text in which it stands spells it, from its name to its closing
parenthesis. -/
def spelled (call : Call) (gaps : Gaps) : Text :=
  call.name ++ behindName gaps call.quote call.literal call.rawArguments

/-- The call stands in the text, with these blanks. As `!` follows the name, it is a whole
word if no word character stands before it. -/
structure Occurs (t : Text) (call : Call) (gaps : Gaps) : Prop where
  text : t = call.before ++ (call.spelled gaps ++ call.after)
  wordStart : ∀ c, call.before.getLast? = some c → Text.isWordChar c = false
  isName : isName call.name = true
  quote : call.quote = '"' ∨ call.quote = '\''
  literal : IsBody call.quote call.literal
  tail : ∀ raw, call.rawArguments = some raw → IsTail (')' :: call.after) raw
  isMultiline : call.isMultiline = (call.spelled gaps).contains '\n'

/-! ## What is read at a word -/

theorem readTail_closing_iff {raw : Option Text} {after : Text} :
    readTail (closing raw ++ after) = some (raw, after) ↔
      ∀ r, raw = some r → IsTail (')' :: after) r := by
  cases raw with
  | none => simp [closing, readTail]
  | some r =>
    rw [closing, List.cons_append, readTail_comma_eq_some_iff]
    simp

theorem endsOutside_false_iff {before : Text} :
    EndsOutside false before ↔ ∀ c, before.getLast? = some c → Text.isWordChar c = false := by
  unfold EndsOutside
  cases before.getLast? <;> simp

private theorem lineFeed_notMem_name {t : Text} (h : isName t = true) : '\n' ∉ t :=
  Text.notMem_of_isWord (isWord_of_isName h) (by decide)

/-- A call occurs where it is read. -/
theorem exists_occurs_iff {t : Text} {call : Call} :
    (∃ gaps, Occurs t call gaps) ↔
      ∃ rest, t = call.before ++ rest ∧ EndsOutside false call.before ∧
        readAtWord rest = some { call with before := [] } := by
  constructor
  · rintro ⟨gaps, h⟩
    refine ⟨call.spelled gaps ++ call.after, h.text, endsOutside_false_iff.2 h.wordStart,
      readAtWord_eq_some_iff.2 ⟨rfl, h.isName, h.quote, isBody_iff.1 h.literal,
        readTail_closing_iff.2 h.tail, gaps, by simp [spelled], ?_⟩⟩
    have hline := h.isMultiline
    rw [spelled, List.contains_eq_any_beq, List.any_append, ← List.contains_eq_any_beq,
      ← List.contains_eq_any_beq] at hline
    simpa [lineFeed_notMem_name h.isName] using hline
  · rintro ⟨rest, rfl, hout, hread⟩
    obtain ⟨-, hname, hq, hl, ht, gaps, rfl, hline⟩ := readAtWord_eq_some_iff.1 hread
    refine ⟨gaps, by simp [spelled], endsOutside_false_iff.1 hout, hname, hq, isBody_iff.2 hl,
      readTail_closing_iff.1 ht, ?_⟩
    dsimp only at hline
    rw [hline, spelled]
    simp [lineFeed_notMem_name hname]

theorem exists_occurs_of_find? {t : Text} {call : Call} (h : find? t = some call) :
    ∃ gaps, Occurs t call gaps := by
  obtain ⟨rest, call', rfl, hout, hread, e⟩ := findFrom_eq_some h
  refine exists_occurs_iff.2 ⟨rest, rfl, hout, ?_⟩
  rw [e, hread]
  congr 1
  exact (readAtWord_eq_some_iff.1 hread).1 ▸ rfl

/-- Where a call occurs, the search finds it or one further left. -/
theorem Occurs.exists_find? {t : Text} {call : Call} {gaps : Gaps} (h : Occurs t call gaps) :
    ∃ found, find? t = some found ∧ found.before.length ≤ call.before.length := by
  obtain ⟨rest, rfl, hout, hread⟩ := exists_occurs_iff.1 ⟨gaps, h⟩
  exact exists_findFrom hout hread

/-! ## One reading -/

private theorem blanks_inj {s s' : { t : Text // Text.IsBlanks t }} {c : Char} {t t' : Text}
    (hc : Text.isBlank c = false) (h : s.1 ++ c :: t = s'.1 ++ c :: t') : s = s' ∧ t = t' := by
  obtain ⟨hs, -, ht⟩ := Text.run_cons_inj h s.2 s'.2 hc hc
  exact ⟨Subtype.ext hs, ht⟩

/-- The blanks of a call can be told from what it is spelled as. -/
theorem spelled_inj {call : Call} {gaps gaps' : Gaps}
    (hq : call.quote = '"' ∨ call.quote = '\'') (h : call.spelled gaps = call.spelled gaps') :
    gaps = gaps' := by
  obtain ⟨mark, front, behind⟩ := gaps
  obtain ⟨mark', front', behind'⟩ := gaps'
  have hquote : Text.isBlank call.quote = false := by rcases hq with e | e <;> rw [e] <;> decide
  have hbang := List.append_cancel_left h
  obtain ⟨rfl, hfront⟩ := blanks_inj (by decide) (List.cons.inj hbang).2
  obtain ⟨rfl, hliteral⟩ := blanks_inj hquote hfront
  have hbehind := List.append_cancel_right (List.cons.inj (List.append_cancel_left hliteral)).2
  obtain rfl := Subtype.ext hbehind
  rfl

/-- Two calls that occur at the same place are the same, blanks included. -/
theorem Occurs.unique {t : Text} {call call' : Call} {gaps gaps' : Gaps}
    (h : Occurs t call gaps) (h' : Occurs t call' gaps')
    (hlen : call.before.length = call'.before.length) : call = call' ∧ gaps = gaps' := by
  obtain ⟨rest, e, -, hread⟩ := exists_occurs_iff.1 ⟨gaps, h⟩
  obtain ⟨rest', e', -, hread'⟩ := exists_occurs_iff.1 ⟨gaps', h'⟩
  obtain ⟨hbefore, rfl⟩ := List.append_inj (e.symm.trans e') hlen
  have hsame := Option.some.inj (hread.symm.trans hread')
  obtain rfl : call = call' := by
    obtain ⟨before, name, quote, literal, raw, after, isMultiline⟩ := call
    obtain ⟨before', name', quote', literal', raw', after', isMultiline'⟩ := call'
    obtain rfl : before = before' := hbefore
    simpa using hsame
  refine ⟨rfl, spelled_inj h.quote ?_⟩
  exact List.append_cancel_right (List.append_cancel_left (h.text.symm.trans h'.text))

/-- The search finds a call exactly if one occurs. What it finds is the leftmost one, and
no call occurs at the same place with other parts. -/
theorem find?_eq_some_iff_leftmost (t : Text) :
    ((find? t).isSome = true ↔ ∃ call gaps, Occurs t call gaps) ∧
    (∀ call, find? t = some call ↔
      (∃ gaps, Occurs t call gaps) ∧
        ∀ other gaps, Occurs t other gaps → call.before.length ≤ other.before.length) ∧
    ∀ call call' gaps gaps', Occurs t call gaps → Occurs t call' gaps' →
      call.before.length = call'.before.length → call = call' ∧ gaps = gaps' := by
  refine ⟨⟨fun h => ?_, fun ⟨call, gaps, h⟩ => ?_⟩, fun call => ⟨fun h => ?_, fun h => ?_⟩,
    fun call call' gaps gaps' => Occurs.unique⟩
  · obtain ⟨call, hc⟩ := Option.isSome_iff_exists.1 h
    exact ⟨call, exists_occurs_of_find? hc⟩
  · obtain ⟨found, hfound, -⟩ := h.exists_find?
    rw [hfound, Option.isSome_some]
  · refine ⟨exists_occurs_of_find? h, fun other gaps ho => ?_⟩
    obtain ⟨found, hfound, hle⟩ := ho.exists_find?
    obtain rfl : call = found := Option.some.inj (h.symm.trans hfound)
    exact hle
  · obtain ⟨⟨gaps, ho⟩, hleft⟩ := h
    obtain ⟨found, hfound, hle⟩ := ho.exists_find?
    obtain ⟨gaps', hf⟩ := exists_occurs_of_find? hfound
    have hlen := Nat.le_antisymm (hleft found gaps' hf) hle
    rw [hfound, (ho.unique hf hlen).1]

theorem find?_eq_some_iff_leftmost_println :
    ∃ (call : Call) (gaps : Gaps),
      Occurs "print (println! ( \"{}\" , &'a b)); print!(\"\")".toList call gaps ∧
      call.rawArguments = some " &'a b".toList ∧
      ∀ other gaps', Occurs "print (println! ( \"{}\" , &'a b)); print!(\"\")".toList other gaps' →
        7 ≤ other.before.length ∧ (other.before.length = 7 → other = call ∧ gaps' = gaps) := by
  let call : Call := ⟨"print (".toList, "println".toList, '"', "{}".toList,
    some " &'a b".toList, "); print!(\"\")".toList, false⟩
  obtain ⟨-, hfound, hunique⟩ :=
    find?_eq_some_iff_leftmost "print (println! ( \"{}\" , &'a b)); print!(\"\")".toList
  obtain ⟨⟨gaps, ho⟩, hleft⟩ := (hfound call).1 (by decide +kernel)
  exact ⟨call, gaps, ho, rfl, fun other gaps' h =>
    ⟨hleft other gaps' h, fun hlen => hunique other call gaps' gaps h ho hlen⟩⟩

end TextTransforms.Call
