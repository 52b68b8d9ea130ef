import TextTransforms.Call.Basic
import TextTransforms.Proofs.Text.Runs

/-!
# Finding the call

The call that is found stands at a maximal word of the text (`findFrom_eq_some`), and no call
can be read further left (`exists_findFrom`). Behind a text without a maximal word that names a
call, the search finds whatever is read there (`find?_append`).
-/

namespace TextTransforms

/-- A word between two texts, neither of which goes on with it. -/
structure Text.IsMaximalWord (before word after : Text) : Prop where
  isWord : Text.isWord word = true
  before : ∀ c, before.getLast? = some c → Text.isWordChar c = false
  after : ∀ c, after.head? = some c → Text.isWordChar c = false

namespace Call

/-- No maximal word of the text is a name that a call can have. -/
def HasNoName (t : Text) : Prop :=
  ∀ l w r, t = l ++ w ++ r → Text.IsMaximalWord l w r → isName w = false

theorem hasNoName_nil : HasNoName [] := by
  intro l w r e hm
  obtain ⟨-, rfl, -⟩ : l = [] ∧ w = [] ∧ r = [] := by simpa using e
  exact absurd hm.isWord (by decide)

/-- A word may start behind this text: it does not end within a word. `inWord` tells
whether a word character stands right before it. -/
def EndsOutside (inWord : Bool) (before : Text) : Prop :=
  match before.getLast? with
  | none => inWord = false
  | some c => Text.isWordChar c = false

theorem endsOutside_cons {inWord : Bool} {c : Char} {before : Text} :
    EndsOutside inWord (c :: before) ↔ EndsOutside (Text.isWordChar c) before := by
  cases before with
  | nil => simp [EndsOutside]
  | cons d before =>
    rw [EndsOutside, EndsOutside, List.getLast?_cons_cons]
    cases h : (d :: before).getLast? with
    | none => simp at h
    | some e => rfl

/-- What is read at a word starts with that word. -/
private theorem exists_cons_of_readAtWord {t : Text} {call : Call} (h : readAtWord t = some call) :
    call.before = [] ∧ ∃ c rest, t = c :: rest ∧ Text.isWordChar c = true := by
  unfold readAtWord at h
  dsimp only at h
  split at h
  · rename_i hn
    obtain ⟨_, -, rfl⟩ := Option.map_eq_some_iff.1 h
    refine ⟨rfl, ?_⟩
    cases t with
    | nil => exact absurd hn (by decide)
    | cons c rest =>
      refine ⟨c, rest, rfl, ?_⟩
      by_contra hc
      rw [List.takeWhile_cons_of_neg hc] at hn
      exact absurd hn (by decide)
  · simp at h

/-- The call that is found starts at a word of the text. -/
theorem findFrom_eq_some {inWord : Bool} {t : Text} {call : Call}
    (h : findFrom inWord t = some call) :
    ∃ rest call', t = call.before ++ rest ∧ EndsOutside inWord call.before ∧
      readAtWord rest = some call' ∧ call = { call' with before := call.before } := by
  induction t generalizing inWord call with
  | nil => simp [findFrom] at h
  | cons c t ih =>
    rw [findFrom] at h
    split at h
    · rename_i found hfound
      obtain rfl : found = call := by simpa using h
      split at hfound
      · rename_i hstart
        have hb := (exists_cons_of_readAtWord hfound).1
        refine ⟨c :: t, found, by rw [hb]; rfl, ?_, hfound, rfl⟩
        rw [hb]
        simpa [EndsOutside] using (Bool.and_eq_true_iff.1 hstart).1
      · simp at hfound
    · obtain ⟨found, hfound, rfl⟩ := Option.map_eq_some_iff.1 h
      obtain ⟨rest, call', e, hout, hread, hcall⟩ := ih hfound
      refine ⟨rest, call', by rw [e]; rfl, endsOutside_cons.2 hout, hread, ?_⟩
      rw [hcall]

/-- Wherever a call is read, the search finds that one or one before it. -/
theorem exists_findFrom {inWord : Bool} {before rest : Text} {call : Call}
    (hout : EndsOutside inWord before) (h : readAtWord rest = some call) :
    ∃ found, findFrom inWord (before ++ rest) = some found ∧
      found.before.length ≤ before.length := by
  induction before generalizing inWord with
  | nil =>
    obtain rfl : inWord = false := hout
    obtain ⟨hbefore, c, rest, rfl, hc⟩ := exists_cons_of_readAtWord h
    refine ⟨call, ?_, by simp [hbefore]⟩
    rw [List.nil_append, findFrom]
    simp [hc, h]
  | cons c before ih =>
    obtain ⟨found, hfound, hle⟩ := ih (endsOutside_cons.1 hout)
    rw [List.cons_append, findFrom]
    split
    · rename_i here hhere
      refine ⟨here, rfl, ?_⟩
      split at hhere
      · rw [(exists_cons_of_readAtWord hhere).1]
        exact Nat.zero_le _
      · simp at hhere
    · refine ⟨_, by rw [hfound, Option.map_some], ?_⟩
      simpa using hle

private theorem readAtWord_eq_none {before rest : Text} {c : Char} (hc : Text.isWordChar c = true)
    (hout : EndsOutside true (c :: before))
    (hname : ∀ w r, c :: before = w ++ r → Text.IsMaximalWord [] w r → isName w = false) :
    readAtWord (c :: (before ++ rest)) = none := by
  have hcut := List.takeWhile_append_dropWhile (p := Text.isWordChar) (l := c :: before)
  have hhead : ∀ d, ((c :: before).dropWhile Text.isWordChar).head? = some d →
      Text.isWordChar d = false := fun _ => Text.head?_dropWhile
  have hne : (c :: before).dropWhile Text.isWordChar ≠ [] := by
    intro e
    rw [e, List.append_nil] at hcut
    -- the last character would be a word character
    cases hl : (c :: before).getLast? with
    | none => simp at hl
    | some d =>
      have hd : Text.isWordChar d = false := by simpa [EndsOutside, hl] using hout
      have hm := List.mem_of_getLast? hl
      rw [← hcut] at hm
      rw [List.mem_takeWhile_imp hm] at hd
      simp at hd
  have htake : (c :: (before ++ rest)).takeWhile Text.isWordChar =
      (c :: before).takeWhile Text.isWordChar := by
    rw [← List.cons_append, ← hcut, List.append_assoc]
    rw [Text.takeWhile_run (fun _ => List.mem_takeWhile_imp), hcut]
    intro d hd
    refine hhead d ?_
    obtain ⟨x, xs, e⟩ := List.exists_cons_of_ne_nil hne
    rw [e] at hd ⊢
    exact hd
  have hword : Text.isWord ((c :: before).takeWhile Text.isWordChar) = true := by
    simp [Text.isWord, hc, List.all_takeWhile]
  have hnone := hname _ _ hcut.symm ⟨hword, by simp, hhead⟩
  simp [readAtWord, htake, hnone]

/-- Behind a text without names the search finds what is read there. -/
theorem findFrom_append {inWord : Bool} {before rest : Text} {call : Call}
    (hout : EndsOutside inWord before)
    (hname : ∀ l w r, before = l ++ w ++ r → EndsOutside inWord l → Text.IsMaximalWord l w r →
      isName w = false)
    (h : readAtWord rest = some call) :
    findFrom inWord (before ++ rest) = some { call with before } := by
  induction before generalizing inWord with
  | nil =>
    obtain rfl : inWord = false := hout
    obtain ⟨hbefore, c, rest, rfl, hc⟩ := exists_cons_of_readAtWord h
    rw [List.nil_append, findFrom]
    simp [hc, h, ← hbefore]
  | cons c before ih =>
    have hout' := endsOutside_cons.1 hout
    have hrest := ih hout' fun l w r e hl hm => by
      refine hname (c :: l) w r (by rw [e]; rfl) (endsOutside_cons.2 hl) ⟨hm.isWord, ?_, hm.after⟩
      intro d hd
      cases l with
      | nil =>
        obtain rfl : c = d := by simpa using hd
        simpa [EndsOutside] using hl
      | cons x l => exact hm.before d (by simpa using hd)
    rw [List.cons_append, findFrom]
    have hnone : (if (!inWord && Text.isWordChar c) = true then readAtWord (c :: (before ++ rest))
        else none) = none := by
      split
      · rename_i hstart
        obtain ⟨hin, hc⟩ := Bool.and_eq_true_iff.1 hstart
        refine readAtWord_eq_none hc ?_ fun w r e hm => ?_
        · rw [endsOutside_cons] at hout ⊢
          exact hout
        · exact hname [] w r (by simpa using e) (by simpa [EndsOutside] using hin) hm
      · rfl
    rw [hnone, hrest]
    rfl

/-- Behind a text without names that does not end within a word, the call that is
read there is found. -/
theorem find?_append {before rest : Text} {call : Call} (hout : EndsOutside false before)
    (hname : HasNoName before) (h : readAtWord rest = some call) :
    find? (before ++ rest) = some { call with before } :=
  findFrom_append hout (fun l w r e _ hm => hname l w r e hm) h

end Call

end TextTransforms
