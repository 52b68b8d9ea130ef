import Mathlib.Data.List.Forall2
import TextTransforms.Call.Lexeme

/-!
# Bodies of literals

`scanBody` follows the escapes of a literal over a stretch of its body. A body is
read up to its first mark exactly if the scan passes the body and no backslash is
left waiting (`readBody_eq_some_iff`); it is read to no end exactly if the scan
passes the whole text (`readBody_eq_none_iff`).

A stretch may stand in for another if the scan passes it wherever it passed the
other, and leaves the same state (`ScansAs`): so may any text without marks in
front of a character that is neither a mark nor a backslash
(`scansAs_of_unmarked`).
-/

namespace TextTransforms

/-- Whether a backslash waits for its character behind a stretch of a body; nothing
if the stretch holds a mark that closes the literal. -/
def scanBody (mark : Char) (escaped : Bool) : Text → Option Bool
  | [] => some escaped
  | c :: t =>
    if escaped then scanBody mark false t
    else if c = '\\' then scanBody mark true t
    else if c = mark then none
    else scanBody mark false t

section ScanBody

variable {mark : Char}

@[simp] theorem scanBody_nil (e : Bool) : scanBody mark e [] = some e := rfl

theorem scanBody_append (e : Bool) (s t : Text) :
    scanBody mark e (s ++ t) = (scanBody mark e s).bind (scanBody mark · t) := by
  induction s generalizing e with
  | nil => rfl
  | cons c s ih =>
    simp only [List.cons_append, scanBody]
    split
    · exact ih false
    · split
      · exact ih true
      · split
        · rfl
        · exact ih false

/-- A character that is neither mark nor backslash leaves nothing waiting. -/
theorem scanBody_plain (e : Bool) {c : Char} (t : Text) (hm : c ≠ mark) (hb : c ≠ '\\') :
    scanBody mark e (c :: t) = scanBody mark false t := by
  cases e <;> simp [scanBody, hm, hb]

theorem isSome_scanBody_of_notMem (e : Bool) {t : Text} (h : mark ∉ t) :
    (scanBody mark e t).isSome = true := by
  induction t generalizing e with
  | nil => rfl
  | cons c t ih =>
    have hc : c ≠ mark := fun hc => h (hc ▸ List.mem_cons_self)
    have ht := fun e => ih e fun hm => h (List.mem_cons_of_mem _ hm)
    simp only [scanBody, hc, if_false]
    split
    · exact ht false
    · split
      · exact ht true
      · exact ht false

/-- Behind a text without marks and a plain character nothing is waiting. -/
theorem scanBody_unmarked (e : Bool) {s : Text} {c : Char} (t : Text) (hs : mark ∉ s)
    (hm : c ≠ mark) (hb : c ≠ '\\') : scanBody mark e (s ++ c :: t) = scanBody mark false t := by
  obtain ⟨e', he⟩ := Option.isSome_iff_exists.1 (isSome_scanBody_of_notMem e hs)
  rw [scanBody_append, he, Option.bind_some, scanBody_plain e' t hm hb]

/-! ## Reading a body -/

theorem readBody_mark (t : Text) (hm : mark ≠ '\\') :
    readBody mark (mark :: t) = some ([], t) := by
  unfold readBody
  rw [if_neg hm, if_pos rfl]

theorem readBody_plain {c : Char} (t : Text) (hm : c ≠ mark) (hb : c ≠ '\\') :
    readBody mark (c :: t) = (readBody mark t).map fun (body, rest) => (c :: body, rest) := by
  conv_lhs => unfold readBody
  rw [if_neg hb, if_neg hm]

theorem readBody_of_scanBody {body : Text} (rest : Text) (hm : mark ≠ '\\')
    (h : scanBody mark false body = some false) :
    readBody mark (body ++ mark :: rest) = some (body, rest) := by
  match body with
  | [] => exact readBody_mark rest hm
  | [c] =>
    by_cases hc : c = '\\'
    · simp [scanBody, hc] at h
    · have hcm : c ≠ mark := by
        rintro rfl
        simp [scanBody, hc] at h
      rw [List.singleton_append, readBody_plain _ hcm hc, readBody_mark rest hm]
      rfl
  | c :: d :: body =>
    by_cases hc : c = '\\'
    · have hb : scanBody mark false body = some false := by simpa [scanBody, hc] using h
      simp [readBody, hc, readBody_of_scanBody rest hm hb]
    · have hcm : c ≠ mark := by
        rintro rfl
        simp [scanBody, hc] at h
      have hb : scanBody mark false (d :: body) = some false := by
        rwa [scanBody_plain false _ hcm hc] at h
      rw [List.cons_append, readBody_plain _ hcm hc, readBody_of_scanBody rest hm hb]
      rfl

theorem scanBody_of_readBody {t body rest : Text} (h : readBody mark t = some (body, rest)) :
    scanBody mark false body = some false := by
  fun_induction readBody mark t generalizing body rest with
  | case1 => simp at h
  | case2 => simp at h
  | case3 d t ih =>
    obtain ⟨⟨a, b⟩, hr, he⟩ := Option.map_eq_some_iff.1 h
    obtain ⟨rfl, -⟩ : _ = body ∧ _ = rest := by simpa using he
    simpa [scanBody] using ih hr
  | case4 t _ =>
    obtain ⟨rfl, -⟩ : [] = body ∧ t = rest := by simpa using h
    rfl
  | case5 c t hc hcm ih =>
    obtain ⟨⟨a, b⟩, hr, he⟩ := Option.map_eq_some_iff.1 h
    obtain ⟨rfl, -⟩ : _ = body ∧ _ = rest := by simpa using he
    rw [scanBody_plain false _ hcm hc]
    exact ih hr

theorem readBody_eq_some_iff {t body rest : Text} (hm : mark ≠ '\\') :
    readBody mark t = some (body, rest) ↔
      t = body ++ mark :: rest ∧ scanBody mark false body = some false := by
  constructor
  · exact fun h => ⟨eq_of_readBody h, scanBody_of_readBody h⟩
  · rintro ⟨rfl, h⟩
    exact readBody_of_scanBody rest hm h

theorem readBody_eq_none_iff {t : Text} :
    readBody mark t = none ↔ (scanBody mark false t).isSome = true := by
  fun_induction readBody mark t with
  | case1 => simp
  | case2 => simp [scanBody]
  | case3 d t ih => simpa [scanBody] using ih
  | case4 t hc => simp [scanBody, hc]
  | case5 c t hc hcm ih =>
    rw [scanBody_plain false _ hcm hc]
    simpa using ih

/-! ## Stretches that stand in for others -/

/-- Wherever the scan passes `old` it passes `new`, and leaves the same state. -/
def ScansAs (mark : Char) (old new : Text) : Prop :=
  ∀ e e', scanBody mark e old = some e' → scanBody mark e new = some e'

theorem ScansAs.refl (t : Text) : ScansAs mark t t := fun _ _ h => h

theorem ScansAs.append {s s' t t' : Text} (hs : ScansAs mark s s') (ht : ScansAs mark t t') :
    ScansAs mark (s ++ t) (s' ++ t') := by
  intro e e' h
  rw [scanBody_append] at h ⊢
  obtain ⟨e₁, h₁, h₂⟩ := Option.bind_eq_some_iff.1 h
  rw [hs e e₁ h₁, Option.bind_some]
  exact ht e₁ e' h₂

theorem ScansAs.cons {s s' : Text} (c : Char) (hs : ScansAs mark s s') :
    ScansAs mark (c :: s) (c :: s') :=
  (ScansAs.refl [c]).append hs

theorem scansAs_of_unmarked {s s' t t' : Text} {c : Char} (hs : mark ∉ s) (hs' : mark ∉ s')
    (hm : c ≠ mark) (hb : c ≠ '\\') (ht : ScansAs mark t t') :
    ScansAs mark (s ++ c :: t) (s' ++ c :: t') := by
  intro e e' h
  rw [scanBody_unmarked e t hs hm hb] at h
  rw [scanBody_unmarked e t' hs' hm hb]
  exact ht false e' h

theorem scansAs_flatten {ss ss' : List Text} (h : List.Forall₂ (ScansAs mark) ss ss') :
    ScansAs mark ss.flatten ss'.flatten := by
  induction h with
  | nil => exact ScansAs.refl _
  | cons hs _ ih =>
    rw [List.flatten_cons, List.flatten_cons]
    exact hs.append ih

end ScanBody

end TextTransforms
