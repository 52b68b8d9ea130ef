import TextTransforms.Proofs.Call.Grammar
import TextTransforms.Proofs.Call.Layout

/-!
# Two scans of the arguments

The arguments of a call are scanned twice: once with all of the text behind them, for the
parenthesis that closes the call, and once by themselves, for the commas between them. What
opens a literal depends on the text that follows, so the two could differ. They read the same
lexemes, and the second scan meets neither an unclosed `"` nor a closer at depth zero, and ends
at depth zero (`argumentScans_agree`).
-/

namespace TextTransforms

/-! ## Scans without irregularity -/

/-- The scan for commas, whose depth `depthAfter` follows, meets no closer at depth zero, where
its depth would stay at zero, and no unclosed `"`, and ends at depth zero. -/
structure ScansCleanly (ls : List Lexeme) : Prop where
  closer : ∀ front l rest, ls = front ++ l :: rest → l.isCloser = true → 0 < depthAfter 0 front
  string : Lexeme.char '"' ∉ ls
  ends : depthAfter 0 ls = 0

/-- The scan of the tail passes exactly what the scan for commas passes without irregularity,
and both leave the same depth. -/
theorem depthBehind_eq_some_iff {d d' : Nat} {ls : List Lexeme} :
    depthBehind d ls = some d' ↔
      (∀ front l rest, ls = front ++ l :: rest → l.isCloser = true → 0 < depthAfter d front) ∧
        Lexeme.char '"' ∉ ls ∧ depthAfter d ls = d' := by
  induction ls generalizing d with
  | nil => simp [depthBehind, depthAfter]
  | cons l ls ih =>
    rw [depthBehind]
    constructor
    · intro h
      split at h
      · simp at h
      · rename_i hq
        split at h
        · simp at h
        · rename_i hl
          obtain ⟨hcloser, hstring, hends⟩ := ih.1 h
          refine ⟨fun front m rest e hm => ?_, ?_, hends⟩
          · cases front with
            | nil =>
              obtain ⟨rfl, -⟩ : l = m ∧ ls = rest := by simpa using e
              exact Nat.pos_of_ne_zero fun hd => hl ⟨hm, hd⟩
            | cons k front =>
              obtain ⟨rfl, hls⟩ : l = k ∧ ls = front ++ m :: rest := by simpa using e
              exact hcloser front m rest hls hm
          · intro hm
            rcases List.mem_cons.1 hm with e | hm
            · exact hq e.symm
            · exact hstring hm
    · rintro ⟨hcloser, hstring, hends⟩
      have hq : l ≠ .char '"' := fun e => hstring (e ▸ List.mem_cons_self)
      have hl : ¬ (l.isCloser = true ∧ d = 0) := by
        rintro ⟨hc, rfl⟩
        exact absurd (hcloser [] l ls rfl hc) (by simp [depthAfter])
      rw [if_neg hq, if_neg hl]
      have hbehind : Lexeme.char '"' ∉ ls := fun hm => hstring (List.mem_cons_of_mem _ hm)
      refine ih.2 ⟨fun front m rest e hm => ?_, hbehind, hends⟩
      exact hcloser (l :: front) m rest (by rw [e, List.cons_append]) hm

theorem scansCleanly_iff {ls : List Lexeme} : ScansCleanly ls ↔ depthBehind 0 ls = some 0 := by
  rw [depthBehind_eq_some_iff]
  exact ⟨fun h => ⟨h.closer, h.string, h.ends⟩, fun h => ⟨h.1, h.2.1, h.2.2⟩⟩

/-! ## Balanced arguments -/

/-- The trimmed text of a piece is a tail by itself. -/
theorem isTail_argumentOf {rest : Text} {p : List Lexeme} (h : Lexed rest p) (hp : IsPiece p) :
    IsTail [] (argumentOf p) := by
  obtain ⟨bs, core, bs', rfl, hb, hb', hcore⟩ := exists_core h
  have hlexed : Lexed [] core :=
    (lexed_append.1 (lexed_append.1 h).1).2.replace (fun _ _ _ => rfl) (opensNoMore_nil _)
  exact isTail_iff.2 ⟨core, hcore, hlexed, (hp.of_blanks hb hb').depth⟩

/-- If the scan for commas is clean, each argument is balanced. -/
theorem isTail_of_mem_splitArguments {raw a : Text} (h : ScansCleanly (lexemes raw))
    (ha : a ∈ splitArguments raw) : IsTail [] a := by
  obtain ⟨⟨hdepth, hwhole⟩, hrest⟩ := isPiece_of_mem_pieces (scansCleanly_iff.1 h)
  have hpiece : ∀ p ∈ (pieces 0 (lexemes raw)).1 :: (pieces 0 (lexemes raw)).2, IsPiece p :=
    List.forall_mem_cons.2 ⟨⟨hdepth, hwhole⟩, hrest⟩
  rw [splitArguments_eq] at ha
  obtain ⟨p, hp, rfl⟩ := List.mem_map.1 (List.mem_filter.1 ha).1
  obtain ⟨rest, hlexed⟩ := (apart_pieces (lexed_lexemes raw)).lexed hp
  exact isTail_argumentOf hlexed (hpiece p hp)

/-! ## Agreement -/

/-- Scanned with the text behind it and scanned alone, a tail is the same lexemes. -/
theorem splitAtClose_of_readTail {raw after : Text}
    (h : Call.readTail (',' :: (raw ++ ')' :: after)) = some (some raw, after)) :
    splitAtClose 0 (lexemes (raw ++ ')' :: after)) = some (lexemes raw, lexemes after) := by
  obtain ⟨⟨inside, rest⟩, hsplit, he⟩ := Option.map_eq_some_iff.1 h
  obtain ⟨hinside, hrest⟩ : sourceOf inside = raw ∧ sourceOf rest = after := by simpa using he
  have hlexed := lexed_of_lexemes (splitAtClose_eq hsplit)
  have hraw : lexemes raw = inside := by
    rw [← hinside]
    exact hlexed.1.lexemes_sourceOf
  have hafter : lexemes after = rest := by
    have hback := hlexed.2
    rw [sourceOf_cons, hrest, Lexeme.source, List.singleton_append,
      lexemes_plain after (by decide) (by decide)] at hback
    exact (List.cons.inj hback).2
  rw [hsplit, hraw, hafter]

/-- The scan for the closing parenthesis of a call goes through the lexemes that the raw
arguments have by themselves, so the scan for commas skips the same literals in them. It goes
through them without irregularity, and each argument is balanced. -/
theorem argumentScans_agree {t raw : Text} {call : Call} (h : Call.find? t = some call)
    (hr : call.rawArguments = some raw) :
    ∃ front, t = call.before ++ (call.name ++ (front ++ ',' :: (raw ++ ')' :: call.after))) ∧
      splitAtClose 0 (lexemes (raw ++ ')' :: call.after)) =
        some (lexemes raw, lexemes call.after) ∧
      ScansCleanly (lexemes raw) ∧ ∀ a ∈ splitArguments raw, IsTail [] a := by
  obtain ⟨-, front, gap, hlaid, e⟩ := Call.exists_of_find? h
  have htail := hlaid.tail
  rw [hr, Call.closing, List.cons_append, List.append_assoc, List.singleton_append] at htail
  have hsplit := splitAtClose_of_readTail htail
  have hclean : ScansCleanly (lexemes raw) :=
    scansCleanly_iff.2 (depthBehind_of_splitAtClose hsplit)
  refine ⟨front ++ call.quote :: (call.literal ++ call.quote :: gap), ?_, hsplit, hclean,
    fun a => isTail_of_mem_splitArguments hclean⟩
  rw [hr] at e
  rw [e]
  simp [Call.closing]

theorem argumentScans_agree_println :
    ∃ (call : Call) (raw front : Text),
      Call.find? "println!(\"{} {}\", f(')', \"](\"), &x as &'a str) + 'b'".toList = some call ∧
      call.rawArguments = some raw ∧
      "println!(\"{} {}\", f(')', \"](\"), &x as &'a str) + 'b'".toList =
        call.before ++ (call.name ++ (front ++ ',' :: (raw ++ ')' :: call.after))) ∧
      splitAtClose 0 (lexemes (raw ++ ')' :: call.after)) =
        some (lexemes raw, lexemes call.after) ∧
      ScansCleanly (lexemes raw) ∧
      splitArguments raw = ["f(')', \"](\")".toList, "&x as &'a str".toList] ∧
      ∀ a ∈ splitArguments raw, IsTail [] a := by
  let raw := " f(')', \"](\"), &x as &'a str".toList
  let call : Call := ⟨[], "println".toList, '"', "{} {}".toList, some raw, " + 'b'".toList, false⟩
  have hc : Call.find? "println!(\"{} {}\", f(')', \"](\"), &x as &'a str) + 'b'".toList =
      some call := by decide +kernel
  have hraw : splitArguments raw = ["f(')', \"](\")".toList, "&x as &'a str".toList] := by
    decide +kernel
  have hr : call.rawArguments = some raw := rfl
  obtain ⟨front, htext, hsplit, hclean, hbalanced⟩ := argumentScans_agree hc hr
  exact ⟨call, raw, front, hc, rfl, htext, hsplit, hclean, hraw, hbalanced⟩

end TextTransforms
