import TextTransforms.Proofs.Inlining.Rewritten

/-!
# Flags of the rewritten specs

The last pass writes the counts of a spec and nothing else (`resolveSpec_eq_writeCounts`). So
a spec that follows the grammar of formatting still does in the rewritten call, and its flags
are those it had exactly if it had no zero flag in front of a width `K$` (`flags_inlined`).
-/

namespace TextTransforms

/-- The arguments that the counts of a spec refer to are names, as far as they may stand in a
placeholder. -/
def FormatSpec.RefersToNames (f : FormatSpec) (args : List Text) : Prop :=
  ∀ c, f.HasCount c → ∀ k, c.RefersTo k →
    ∀ a, args[k]? = some a → isInlinable a = true → IsIdentifier a

/-- The flags of a placeholder are kept, all but a zero flag that is lost. -/
def Placeholder.KeepsFlags (args : List Text) (p p' : Placeholder) : Prop :=
  ∀ f : FormatSpec, p.spec = some f.source → f.source ≠ ['.', '*'] → f.RefersToNames args →
    ∃ f' : FormatSpec, p'.spec = some f'.source ∧
      (f.LosesZero → f'.flags = { f.flags with zero := false }) ∧
      (¬ f.LosesZero → f'.flags = f.flags)

def Token.KeepsFlags (args : List Text) : Token → Token → Prop
  | .text s, .text s' => s = s'
  | .placeholder p, .placeholder p' => p.KeepsFlags args p'
  | _, _ => False

/-! ## The last pass -/

/-- A count is written as a number, or as the argument that it refers to. -/
theorem isCountText_countText {as : Arguments} {k : Nat}
    (h : ∀ s, as.IsUsed k s → IsIdentifier s) : IsCountText (SpecPiece.countText as k) := by
  unfold SpecPiece.countText
  cases hr : as.reference? k with
  | none => exact .inl ⟨k, rfl⟩
  | some r =>
    obtain ⟨⟨s, used⟩, ha, rfl⟩ := Option.map_eq_some_iff.1 hr
    cases used with
    | true => exact .inr (h s ha)
    | false => exact .inl ⟨_, rfl⟩

section Traces

variable {tokens : List Token} {texts : List Text} {d : Draft} (h : d.Traces tokens texts)
include h

theorem Placeholder.Becomes.keepsFlags {p p' : Placeholder} (hb : p.Becomes d.arguments p') :
    p.KeepsFlags texts p' := by
  intro f hf hstar hnames
  have hspec := hb.spec
  rw [hf] at hspec
  generalize hf' : p'.spec = spec' at hspec
  generalize hs : f.source = spec at hspec hstar
  cases hspec with
  | precision => exact absurd rfl hstar
  | resolved =>
    obtain ⟨f', hsource, hflags⟩ := f.exists_written fun c hc k hk =>
      isCountText_countText fun s (hu : d.arguments.IsUsed k s) =>
        hnames c hc k hk s (h.getElem?_of_isUsed hu) (h.inlinable k s hu)
    refine ⟨f', ?_, hflags⟩
    rw [hsource, ← resolveSpec_eq_writeCounts, hs]

theorem Draft.Traces.keepsFlags :
    List.Forall₂ (Token.KeepsFlags texts) tokens d.resolve.tokens := by
  refine h.becomes_resolve.imp fun token token' hb => ?_
  cases token <;> cases token' <;> simp only [Token.Becomes] at hb
  · exact hb
  · exact Placeholder.Becomes.keepsFlags h hb

end Traces

/-! ## The rewritten call -/

/-- In a rewritten call every spec that follows the grammar still does. It says the same but
for the arguments that its counts refer to, unless it had a zero flag directly in front of a
width `K$`: that one is lost. -/
theorem flags_inlined {t u : Text} {call : Call} (h : inlined? t = some u)
    (hc : Call.find? t = some call) :
    ∃ d : Draft, call.rewritten? = some d ∧
      u = call.before ++ call.written d.template d.arguments.remaining ∧
      (readTokens d.template).2 = [] ∧
      List.Forall₂ (Token.KeepsFlags call.arguments) call.tokens (readTokens d.template).1 := by
  obtain ⟨call', d, hc', hd, rfl⟩ := inlined?_eq_some_iff.1 h
  obtain rfl : call = call' := by simpa [hc] using hc'
  obtain ⟨m, -, rfl, traces, -, -, htokens⟩ := Call.exists_of_rewritten? hd
  have hread := traces.readTokens_template (Call.spells_tokens htokens)
  refine ⟨m.resolve, hd, call.assemble_eq _, by rw [hread], ?_⟩
  rw [hread]
  exact traces.keepsFlags

theorem flags_inlined_precision :
    ∃ (call : Call) (d : Draft),
      Call.find? "println!(\"{0:*^+#010.1$}\", x, p)".toList = some call ∧
      call.rewritten? = some d ∧
      List.Forall₂ (Token.KeepsFlags call.arguments) call.tokens (readTokens d.template).1 := by
  let call : Call :=
    ⟨[], "println".toList, '"', "{0:*^+#010.1$}".toList, some " x, p".toList, [], false⟩
  have hc : Call.find? "println!(\"{0:*^+#010.1$}\", x, p)".toList = some call := by
    decide +kernel
  have hu : inlined? "println!(\"{0:*^+#010.1$}\", x, p)".toList =
      some "println!(\"{x:*^+#010.0$}\", p)".toList := by decide +kernel
  obtain ⟨d, hd, -, -, hflags⟩ := flags_inlined hu hc
  exact ⟨call, d, hc, hd, hflags⟩

/-- A width that numbers an argument, with a zero flag. -/
private theorem exists_zeroIndexed :
    ∃ f : FormatSpec, f.source = "01$".toList ∧ f.zero = true :=
  ⟨{  align := none
      sign := none
      alternate := false
      zero := true
      width := some (.index ⟨['1'], by simp, by simp⟩)
      precision := none
      kind := ⟨[], by simp⟩
      leading := nofun }, rfl, rfl⟩

private theorem exists_named : ∃ f : FormatSpec, f.source = "w$".toList ∧ f.zero = false := by
  refine ⟨{
      align := none
      sign := none
      alternate := false
      zero := false
      width := some (.name ⟨['w'], isIdentifier_singleton (by decide) (by decide)⟩)
      precision := none
      kind := ⟨[], by simp⟩
      leading := fun _ c hc hzero => ?_ }, rfl, rfl⟩
  obtain rfl := Option.some.inj hc
  exact absurd hzero (by decide)

/-- A zero flag in front of a width that numbers an argument is lost, whatever is read into the
new spec. -/
theorem flags_inlined_zero_lost :
    ∃ (call : Call) (d : Draft) (f : FormatSpec) (spec : Text),
      Call.find? "println!(\"{0:01$}\", x, w)".toList = some call ∧
      call.rewritten? = some d ∧
      inlined? "println!(\"{0:01$}\", x, w)".toList = some "println!(\"{x:w$}\")".toList ∧
      call.tokens = [.placeholder ⟨['0'], some f.source⟩] ∧
      f.source ≠ ['.', '*'] ∧ f.RefersToNames call.arguments ∧
      (readTokens d.template).1 = [.placeholder ⟨['x'], some spec⟩] ∧
      ∀ f' : FormatSpec, f'.source = spec → f'.flags ≠ f.flags := by
  let call : Call := ⟨[], "println".toList, '"', "{0:01$}".toList, some " x, w".toList, [], false⟩
  let d : Draft := ⟨[.field ⟨.inlined ['x'], some (.inlined ['w', '$'])⟩],
    [⟨['x'], true⟩, ⟨['w'], true⟩]⟩
  obtain ⟨f, hsource, hzero⟩ := exists_zeroIndexed
  refine ⟨call, d, f, "w$".toList, by decide +kernel, by decide +kernel, by decide +kernel,
    by rw [hsource]; decide +kernel, by rw [hsource]; decide, ?_, by decide +kernel,
    fun f' hf' => ?_⟩
  · intro c _ k _ a ha _
    have harguments : call.arguments = [['x'], ['w']] := by decide +kernel
    rw [harguments] at ha
    rcases (by simpa using List.mem_of_getElem? ha : a = ['x'] ∨ a = ['w']) with rfl | rfl
    · exact isIdentifier_singleton (by decide) (by decide)
    · exact isIdentifier_singleton (by decide) (by decide)
  · obtain ⟨named, hnamed, hkept⟩ := exists_named
    obtain rfl : f' = named := FormatSpec.source_inj (hf'.trans hnamed.symm)
    intro h
    have hsame : f'.zero = f.zero := congrArg FormatSpec.Flags.zero h
    rw [hkept, hzero] at hsame
    exact Bool.false_ne_true hsame

end TextTransforms
