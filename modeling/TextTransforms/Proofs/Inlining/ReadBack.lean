import TextTransforms.Proofs.Inlining.Rewritten

/-!
# Reading back

The text of a rewritten call is read as the call that was meant: the literal ends
where it should, its template is the one that was written, and behind it stand the
arguments that stayed (`Call.find?_assemble`, `Call.templateTokens_rewritten`).

Two things around the call matter. A name in front of it that was no call may be one
once the rest of the text changes, and a `'` right behind it may close a literal that
a `'` in the last argument opens.
-/

namespace TextTransforms

/-! ## The arguments -/

theorem mem_of_mem_splitArguments {raw a : Text} {c : Char} (ha : a ∈ splitArguments raw)
    (hc : c ∈ a) : c ∈ raw := by
  have hp := congrArg sourceOf (pieces_eq 0 (lexemes raw))
  rw [source_lexemes] at hp
  unfold splitArguments at ha
  dsimp only at ha
  obtain ⟨p, hm, rfl⟩ := List.mem_map.1 (List.mem_filter.1 ha).1
  have hsource : c ∈ sourceOf p := Text.mem_of_mem_trim hc
  rw [← hp, sourceOf_append, List.mem_append]
  rcases List.mem_cons.1 hm with rfl | hm
  · exact .inl hsource
  · refine .inr (List.mem_flatMap.2 ?_)
    obtain ⟨l, hl, hcl⟩ := List.mem_flatMap.1 hsource
    exact ⟨l, List.mem_flatMap.2 ⟨p, hm, List.mem_cons_of_mem _ hl⟩, hcl⟩

private theorem quote_notMem_of_trim {t : Text} (h : '\'' ∉ Text.trim t) : '\'' ∉ t :=
  fun hm => h (Text.mem_trim hm (by decide))

/-- The arguments that stay behind are some of the pieces of the tail. -/
theorem keeps_remaining {ps : List (List Lexeme)} {as : Arguments}
    (hs : as.map Argument.source =
      (ps.map fun p => Text.trim (sourceOf p)).filter fun a => !a.isEmpty)
    (hu : ∀ a ∈ as, a.used = true → '\'' ∉ a.source) : Keeps ps as.remaining := by
  induction ps generalizing as with
  | nil =>
    obtain rfl : as = [] := by simpa using hs
    exact .nil
  | cons p ps ih =>
    rw [List.map_cons, List.filter_cons] at hs
    split at hs
    · rename_i hne
      obtain ⟨a, as, rfl, ha, hs⟩ := List.map_eq_cons_iff.1 hs
      have hrest := ih hs fun b hb => hu b (List.mem_cons_of_mem _ hb)
      cases hused : a.used with
      | true =>
        have hq := hu a List.mem_cons_self hused
        rw [ha] at hq
        simpa [Arguments.remaining, hused] using hrest.drop (quote_notMem_of_trim hq)
      | false =>
        have := hrest.keep (p := p) (by simpa using hne)
        simpa [Arguments.remaining, hused, ha] using this
    · rename_i he
      have hempty : Text.trim (sourceOf p) = [] := by simpa using he
      exact (ih hs hu).drop (quote_notMem_of_trim (by simp [hempty]))

/-! ## The call -/

section Call

variable {call : Call} {m : Draft} {raw : Text}
  (traces : m.Traces call.tokens call.arguments) (hraw : call.rawArguments = some raw)
include traces hraw

private theorem mem_of_mem_source {i : Nat} {a : Argument} (ha : m.arguments[i]? = some a)
    {c : Char} (hc : c ∈ a.source) : c ∈ raw := by
  have hm : a.source ∈ call.arguments := by
    rw [← traces.sources]
    exact List.mem_map_of_mem (List.mem_of_getElem? ha)
  rw [Call.arguments, hraw] at hm
  exact mem_of_mem_splitArguments hm hc

private theorem exists_readTail (tail : Call.readTail (Call.closing call.rawArguments ++ call.after)
      = some (call.rawArguments, call.after)) (hafter : call.after.head? ≠ some '\'') :
    ∃ raw', Call.readTail (Text.trimStart
      (writeTail call.lineEnd call.after m.arguments.remaining)) = some (raw', call.after) ∧
        (raw'.map splitArguments).getD [] = m.arguments.remaining := by
  rw [hraw] at tail
  obtain ⟨ps, hplaced, hsplit⟩ := exists_pieces_of_readTail tail
  refine readTail_writeTail Call.isBlanks_lineEnd hafter (keeps_remaining ?_ ?_) hplaced
  · rw [traces.sources, ← hsplit, Call.arguments, hraw]
    rfl
  · intro a ha hused
    obtain ⟨i, hi⟩ := List.mem_iff_getElem?.1 ha
    have hu : m.arguments.IsUsed i a.source := by
      rw [Arguments.IsUsed, hi, ← hused]
    exact fun hq => Arguments.not_supplies traces.inlinable (by decide) (.inr (.inr ⟨i, _, hu, hq⟩))

theorem line_cases {front gap : Text} (hlaid : call.IsLaidOut front gap)
    (hliteral : call.tokens.flatMap Token.source = call.literal) :
    call.isMultiline = true ∨
      '\n' ∉ m.resolve.template ∧ ∀ k ∈ m.arguments.remaining, '\n' ∉ k := by
  have hline := hlaid.isMultiline
  cases hm : call.isMultiline with
  | true => exact .inl rfl
  | false =>
    rw [hm, hraw, eq_comm, ← Bool.not_eq_true, List.contains_iff_mem] at hline
    simp only [List.mem_append, List.mem_cons, Call.closing, not_or] at hline
    obtain ⟨-, -, hlit, -, -, -, hrawline, -⟩ := hline
    refine .inr ⟨fun hn => ?_, fun k hk hn => ?_⟩
    · rcases traces.mem_template hn with hn | hn | hn | ⟨i, s, hu, hn⟩
      · rw [hliteral] at hn
        exact hlit hn
      · simp at hn
      · simp at hn
      · exact hrawline (mem_of_mem_source traces hraw hu hn)
    · obtain ⟨a, ha, rfl⟩ := List.mem_map.1 hk
      obtain ⟨i, hi⟩ := List.mem_iff_getElem?.1 (List.mem_filter.1 ha).1
      exact hrawline (mem_of_mem_source traces hraw hi hn)

end Call

/-- Behind the text that was in front of it, the call that is written is found. -/
theorem Call.find?_assemble {t : Text} {call : Call} {d : Draft} (hc : Call.find? t = some call)
    (hd : call.rewritten? = some d) (hname : Call.HasNoName call.before)
    (hafter : call.after.head? ≠ some '\'') :
    ∃ raw, Call.find? (call.assemble d) =
        some { call with literal := d.template, rawArguments := raw } ∧
      (raw.map splitArguments).getD [] = d.arguments.remaining := by
  obtain ⟨m, -, rfl, traces, ⟨i₀, s₀, hu₀⟩, -, htokens⟩ := Call.exists_of_rewritten? hd
  obtain ⟨hout, front, gap, hlaid, -⟩ := Call.exists_of_find? hc
  have hliteral := source_of_tokens htokens
  obtain ⟨raw, hraw⟩ := call.exists_rawArguments traces hu₀
  obtain ⟨raw', htail, hsplit⟩ := exists_readTail traces hraw hlaid.tail hafter
  have hscan : scanBody call.quote false m.resolve.template = some false := by
    refine traces.scansAs_template hlaid.quote false false ?_
    rw [hliteral]
    exact hlaid.literal
  have hread := Call.readAtWord_written hlaid.isName hlaid.quote hscan htail
    (line_cases traces hraw hlaid hliteral)
  refine ⟨raw', ?_, ?_⟩
  · rw [Call.assemble_eq, Draft.arguments_resolve]
    exact Call.find?_append hout hname hread
  · rw [Draft.arguments_resolve]
    exact hsplit

/-- A rewritten template that is not too long is accepted, with the texts it had. -/
theorem Call.templateTokens_rewritten {call : Call} {d : Draft} (hd : call.rewritten? = some d)
    (hlen : d.template.utf8Length ≤ Error.templateLimit) :
    templateTokens d.template = .ok d.tokens ∧
      List.Forall₂ Token.SameKind call.tokens d.tokens := by
  obtain ⟨m, -, rfl, traces, -, -, htokens⟩ := Call.exists_of_rewritten? hd
  have hkind := traces.becomes_resolve.imp fun _ _ hb => hb.sameKind
  refine ⟨templateTokens_eq_ok_iff.2 ⟨hlen, ?_, ?_⟩, hkind⟩
  · rw [← hkind.length_eq]
    exact (templateTokens_eq_ok_iff.1 htokens).2.1
  · exact traces.readTokens_template (Call.spells_tokens htokens)

/-- The call that is written is read back: around it nothing has changed, its template
is read as the texts it had with what became of each placeholder between them, and
behind it stand the arguments that are left. -/
theorem find?_inlined {t u : Text} {call : Call} (h : inlined? t = some u)
    (hc : Call.find? t = some call) (hname : Call.HasNoName call.before)
    (hafter : call.after.head? ≠ some '\'') :
    ∃ d raw, call.rewritten? = some d ∧
      Call.find? u = some { call with literal := d.template, rawArguments := raw } ∧
      (d.template.utf8Length ≤ Error.templateLimit →
        templateTokens d.template = .ok d.tokens ∧
          List.Forall₂ Token.SameKind call.tokens d.tokens) ∧
      (raw.map splitArguments).getD [] = d.arguments.remaining := by
  obtain ⟨call', d, hc', hd, rfl⟩ := inlined?_eq_some_iff.1 h
  obtain rfl : call = call' := by simpa [hc] using hc'
  obtain ⟨raw, hfind, hsplit⟩ := Call.find?_assemble hc hd hname hafter
  exact ⟨d, raw, hd, hfind, Call.templateTokens_rewritten hd, hsplit⟩

theorem find?_inlined_println :
    ∃ (call : Call) (d : Draft) (raw : Option Text),
      Call.find? "println!(\"{} {}\", a, f(b));".toList = some call ∧ call.rewritten? = some d ∧
      Call.find? "println!(\"{a} {}\", f(b));".toList =
        some { call with literal := d.template, rawArguments := raw } ∧
      (raw.map splitArguments).getD [] = d.arguments.remaining := by
  let call : Call :=
    ⟨[], "println".toList, '"', "{} {}".toList, some " a, f(b)".toList, [';'], false⟩
  have hc : Call.find? "println!(\"{} {}\", a, f(b));".toList = some call := by decide +kernel
  have hu : inlined? "println!(\"{} {}\", a, f(b));".toList =
      some "println!(\"{a} {}\", f(b));".toList := by decide +kernel
  obtain ⟨d, raw, hd, hfind, -, hsplit⟩ := find?_inlined hu hc Call.hasNoName_nil (by decide)
  exact ⟨call, d, raw, hc, hd, hfind, hsplit⟩

end TextTransforms
