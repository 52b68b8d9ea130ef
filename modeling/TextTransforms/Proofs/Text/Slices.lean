import Mathlib.Data.List.Basic
import TextTransforms.Text.Basic

/-!
# Slices at byte offsets

A program that keeps byte offsets reads a text through them: a single byte, the bytes from an
offset on, or the part between two offsets. Such a read fails behind the end of the text, and a
slice fails as well where an offset lies inside a character. The slices that do not fail are the
parts of the text (`slice_eq_ok_iff`).

A test that only ASCII characters pass gives the same answer on the bytes of a text as on its
characters (`takeWhile_bytes`, `head?_bytes_eq_some_iff`), as every byte of another character
fails it (`wideAt_append`).
-/

namespace TextTransforms

/-- What goes wrong when a text is read at an offset. -/
inductive ReadFault
  /-- The offset is behind the text. -/
  | outside (offset : Nat)
  /-- The slice is no part of the text, or it cuts through a character. -/
  | slice (start stop : Nat)
  deriving DecidableEq, Repr

namespace Text

/-! ## Bytes -/

/-- The bytes of the UTF-8 form, each as the character with its code. -/
def bytes (t : Text) : List Char := (t.flatMap String.utf8EncodeChar).map Char.ofUInt8

def byteAt (t : Text) (offset : Nat) : Except ReadFault Char :=
  match t.bytes[offset]? with
  | some b => .ok b
  | none => .error (.outside offset)

def bytesFrom (t : Text) (offset : Nat) : Except ReadFault (List Char) :=
  if offset ≤ t.bytes.length then .ok (t.bytes.drop offset) else .error (.outside offset)

/-- A byte stands at the offset that is no ASCII character. -/
def WideAt (t : Text) (offset : Nat) : Prop := ∃ b, t.byteAt offset = .ok b ∧ 128 ≤ b.toNat

/-- Only ASCII characters pass the test. -/
def IsAsciiTest (p : Char → Bool) : Prop := ∀ c, p c = true → c.toNat < 128

section Bytes

variable {c d : Char} {s t : Text}

theorem bytes_append (s t : Text) : (s ++ t).bytes = s.bytes ++ t.bytes := by
  rw [bytes, List.flatMap_append, List.map_append]
  rfl

theorem length_bytes (t : Text) : t.bytes.length = t.utf8Length := by
  induction t with
  | nil => rfl
  | cons c t ih =>
    have hone : bytes [c] = (String.utf8EncodeChar c).map Char.ofUInt8 := by simp [bytes]
    rw [← List.singleton_append, bytes_append, List.length_append, ih, hone, List.length_map,
      String.length_utf8EncodeChar]
    rfl

theorem ne_of_ascii (h : 128 ≤ c.toNat) (hd : d.toNat < 128) : c ≠ d := by
  rintro rfl
  omega

theorem utf8Size_of_ascii (h : c.toNat < 128) : c.utf8Size = 1 := by
  rw [Char.utf8Size_eq_one_iff, UInt32.le_iff_toNat_le]
  exact Nat.le_of_lt_succ h

theorem utf8Length_of_ascii (h : ∀ c ∈ t, c.toNat < 128) : t.utf8Length = t.length := by
  induction t with
  | nil => rfl
  | cons c t ih =>
    rw [utf8Length, utf8Size_of_ascii (h c List.mem_cons_self),
      ih fun d hd => h d (List.mem_cons_of_mem c hd), List.length_cons, Nat.add_comm]

theorem utf8Length_reverse (t : Text) : utf8Length t.reverse = t.utf8Length := by
  induction t with
  | nil => rfl
  | cons c t ih =>
    rw [List.reverse_cons, utf8Length_append, ih, Nat.add_comm]
    rfl

theorem toNat_ofUInt8 (b : UInt8) : (Char.ofUInt8 b).toNat = b.toNat := UInt8.toNat_toUInt32 b

theorem bytes_of_ascii (h : c.toNat < 128) : bytes [c] = [c] := by
  have hbyte : Char.ofUInt8 c.val.toUInt8 = c := by
    apply Char.ext
    apply UInt32.toNat_inj.1
    change (Char.ofUInt8 c.val.toUInt8).toNat = c.toNat
    rw [toNat_ofUInt8, UInt32.toNat_toUInt8]
    exact Nat.mod_eq_of_lt (Nat.lt_trans h (by decide))
  rw [bytes, List.flatMap_singleton, String.utf8EncodeChar_eq_singleton (utf8Size_of_ascii h),
    List.map_singleton, hbyte]

theorem bytes_cons_of_ascii (h : c.toNat < 128) (t : Text) : bytes (c :: t) = c :: t.bytes := by
  rw [← List.singleton_append, bytes_append, bytes_of_ascii h, List.singleton_append]

theorem le_of_mem_utf8EncodeChar (h : 128 ≤ c.toNat) {u : UInt8}
    (hu : u ∈ String.utf8EncodeChar c) : 128 ≤ u.toNat := by
  have hc : 128 ≤ c.val.toNat := h
  have hofNat (n : Nat) : (UInt8.ofNat n).toNat = n % 256 := UInt8.toNat_ofNat'
  rw [String.utf8EncodeChar] at hu
  split at hu
  · omega
  split at hu
  · simp only [List.mem_cons, List.not_mem_nil, or_false] at hu
    rcases hu with rfl | rfl <;> rw [hofNat] <;> omega
  split at hu
  · simp only [List.mem_cons, List.not_mem_nil, or_false] at hu
    rcases hu with rfl | rfl | rfl <;> rw [hofNat] <;> omega
  · simp only [List.mem_cons, List.not_mem_nil, or_false] at hu
    rcases hu with rfl | rfl | rfl | rfl <;> rw [hofNat] <;> omega

theorem le_of_mem_bytes (h : 128 ≤ c.toNat) {b : Char} (hb : b ∈ bytes [c]) :
    128 ≤ b.toNat := by
  rw [bytes, List.flatMap_singleton] at hb
  obtain ⟨u, hu, rfl⟩ := List.mem_map.1 hb
  rw [toNat_ofUInt8]
  exact le_of_mem_utf8EncodeChar h hu

/-- What stands behind a text at an offset. -/
theorem getElem?_bytes_append (s t : Text) (i : Nat) :
    (s ++ t).bytes[s.utf8Length + i]? = t.bytes[i]? := by
  rw [bytes_append, ← length_bytes, List.getElem?_append_right (Nat.le_add_right _ _),
    Nat.add_sub_cancel_left]

/-- Every byte of a character that is not ASCII is no ASCII character either. -/
theorem wideAt_append (h : 128 ≤ c.toNat) {offset : Nat} (hlow : s.utf8Length ≤ offset)
    (hhigh : offset < s.utf8Length + c.utf8Size) : WideAt (s ++ c :: t) offset := by
  obtain ⟨i, rfl⟩ := Nat.exists_eq_add_of_le hlow
  have hi : i < (bytes [c]).length := by
    rw [length_bytes, utf8Length, utf8Length_nil]
    omega
  refine ⟨(bytes [c])[i], ?_, le_of_mem_bytes h (List.getElem_mem hi)⟩
  rw [byteAt, getElem?_bytes_append, ← List.singleton_append, bytes_append,
    List.getElem?_append_left hi, List.getElem?_eq_getElem hi]

theorem byteAt_append (h : c.toNat < 128) (s t : Text) :
    (s ++ c :: t).byteAt s.utf8Length = .ok c := by
  have hbyte := getElem?_bytes_append s (c :: t) 0
  rw [Nat.add_zero, bytes_cons_of_ascii h, List.getElem?_cons_zero] at hbyte
  rw [byteAt, hbyte]

theorem lt_length_of_byteAt {b : Char} {offset : Nat} (h : t.byteAt offset = .ok b) :
    offset < t.bytes.length := by
  rw [byteAt] at h
  split at h
  · rename_i hbyte
    exact (List.getElem?_eq_some_iff.1 hbyte).1
  · exact nomatch h

theorem bytesFrom_append (s t : Text) : (s ++ t).bytesFrom s.utf8Length = .ok t.bytes := by
  rw [bytesFrom, bytes_append, ← length_bytes, if_pos (by rw [List.length_append]; omega),
    List.drop_left]

end Bytes

/-! ## Tests for ASCII characters -/

section Tests

variable {p : Char → Bool} {c : Char} {t : Text}

theorem IsAsciiTest.eq_false (hp : IsAsciiTest p) (h : 128 ≤ c.toNat) : p c = false := by
  cases hc : p c with
  | false => rfl
  | true => exact absurd (hp c hc) (Nat.not_lt.2 h)

theorem isAsciiTest_isAlphanum : IsAsciiTest Char.isAlphanum := by
  intro c hc
  have hle : c.toNat ≤ 90 ∨ c.toNat ≤ 122 ∨ c.toNat ≤ 57 := by
    rcases Bool.or_eq_true_iff.1 hc with h | h
    · rcases Bool.or_eq_true_iff.1 h with h | h
      · exact .inl (of_decide_eq_true h).2
      · exact .inr (.inl (of_decide_eq_true (Bool.and_eq_true_iff.1 h).2))
    · exact .inr (.inr (of_decide_eq_true (Bool.and_eq_true_iff.1 h).2))
  omega

/-- The bytes of a text start with a byte that fails the test, or with its first character. -/
theorem bytes_cons_cases (c : Char) (t : Text) :
    (c.toNat < 128 ∧ bytes (c :: t) = c :: t.bytes) ∨
      (128 ≤ c.toNat ∧ ∃ b bs, bytes (c :: t) = b :: bs ∧ 128 ≤ b.toNat) := by
  rcases Nat.lt_or_ge c.toNat 128 with h | h
  · exact .inl ⟨h, bytes_cons_of_ascii h t⟩
  · right
    have hne : bytes [c] ≠ [] := by
      intro hnil
      have hlen := length_bytes [c]
      rw [hnil, utf8Length, utf8Length_nil] at hlen
      have := c.utf8Size_pos
      simp at hlen
      omega
    obtain ⟨b, bs, hb⟩ := List.exists_cons_of_ne_nil hne
    refine ⟨h, b, bs ++ t.bytes, ?_, le_of_mem_bytes h (by rw [hb]; exact List.mem_cons_self)⟩
    rw [← List.singleton_append, bytes_append, hb, List.cons_append]

theorem takeWhile_bytes (hp : IsAsciiTest p) (t : Text) :
    t.bytes.takeWhile p = t.takeWhile p := by
  induction t with
  | nil => rfl
  | cons c t ih =>
    rcases bytes_cons_cases c t with ⟨-, hbytes⟩ | ⟨h, b, bs, hbytes, hb⟩
    · rw [hbytes, List.takeWhile_cons, List.takeWhile_cons, ih]
    · rw [hbytes, List.takeWhile_cons_of_neg (by rw [hp.eq_false hb]; decide),
        List.takeWhile_cons_of_neg (by rw [hp.eq_false h]; decide)]

theorem any_head?_bytes (hp : IsAsciiTest p) (t : Text) :
    t.bytes.head?.any p = t.head?.any p := by
  cases t with
  | nil => rfl
  | cons c t =>
    rcases bytes_cons_cases c t with ⟨-, hbytes⟩ | ⟨h, b, bs, hbytes, hb⟩
    · rw [hbytes]
      rfl
    · rw [hbytes]
      simp only [List.head?_cons, Option.any_some]
      rw [hp.eq_false h, hp.eq_false hb]

theorem head?_bytes_eq_some_iff (h : c.toNat < 128) :
    t.bytes.head? = some c ↔ t.head? = some c := by
  have hp : IsAsciiTest (· == c) := by
    intro d hd
    rwa [eq_of_beq hd]
  have hany (o : Option Char) : o.any (· == c) = true ↔ o = some c := by
    simp [Option.any_eq_true]
  rw [← hany, any_head?_bytes hp, hany]

end Tests

/-! ## Slices -/

/-- Cuts a text at an offset that lies between two of its characters. -/
def cutAt? : Nat → Text → Option (Text × Text)
  | 0, t => some ([], t)
  | _ + 1, [] => none
  | n + 1, c :: t =>
    if c.utf8Size ≤ n + 1 then
      (cutAt? (n + 1 - c.utf8Size) t).map fun (head, tail) => (c :: head, tail)
    else none

def slice (t : Text) (start stop : Nat) : Except ReadFault Text :=
  match (cutAt? stop t).bind fun (upTo, _) => cutAt? start upTo with
  | some (_, u) => .ok u
  | none => .error (.slice start stop)

/-- The slice from an offset up to the end. -/
def sliceFrom (t : Text) (start : Nat) : Except ReadFault Text := slice t start t.utf8Length

/-- Where the character is found first. -/
def find? (mark : Char) (t : Text) : Option Nat :=
  (cut? mark t).map fun (head, _) => head.utf8Length

theorem cutAt?_append (s u : Text) : cutAt? s.utf8Length (s ++ u) = some (s, u) := by
  induction s with
  | nil => simp [cutAt?]
  | cons c s ih =>
    have hc := c.utf8Size_pos
    obtain ⟨n, hn⟩ : ∃ n, utf8Length (c :: s) = n + 1 :=
      Nat.exists_eq_add_one.2 (by rw [utf8Length]; omega)
    have hrest : n + 1 - c.utf8Size = utf8Length s := by
      rw [← hn, utf8Length]
      omega
    rw [utf8Length] at hn
    rw [utf8Length, hn, List.cons_append, cutAt?, if_pos (by omega), hrest, ih, Option.map_some]

theorem append_of_cutAt? {n : Nat} {s t u : Text} (h : cutAt? n t = some (s, u)) :
    t = s ++ u ∧ s.utf8Length = n := by
  fun_induction cutAt? n t generalizing s with
  | case1 t =>
    obtain ⟨rfl, rfl⟩ : [] = s ∧ t = u := by simpa using h
    exact ⟨rfl, rfl⟩
  | case2 => exact nomatch h
  | case3 n c t hc ih =>
    obtain ⟨⟨head, tail⟩, hcut, he⟩ := Option.map_eq_some_iff.1 h
    obtain ⟨rfl, rfl⟩ : c :: head = s ∧ tail = u := by simpa using he
    obtain ⟨rfl, hlen⟩ := ih hcut
    refine ⟨rfl, ?_⟩
    rw [utf8Length]
    omega
  | case4 => exact nomatch h

/-- The slices of a text are its parts, from where the text before them ends. -/
theorem slice_eq_ok_iff {t u : Text} {start stop : Nat} :
    t.slice start stop = .ok u ↔
      ∃ s rest, t = s ++ u ++ rest ∧ s.utf8Length = start ∧ (s ++ u).utf8Length = stop := by
  constructor
  · intro h
    rw [slice] at h
    split at h
    · rename_i s v hcut
      obtain rfl : v = u := by simpa using h
      obtain ⟨⟨upTo, rest⟩, hcutStop, hcutStart⟩ := Option.bind_eq_some_iff.1 hcut
      obtain ⟨rfl, hstop⟩ := append_of_cutAt? hcutStop
      obtain ⟨rfl, hstart⟩ := append_of_cutAt? hcutStart
      exact ⟨s, rest, rfl, hstart, hstop⟩
    · exact nomatch h
  · rintro ⟨s, rest, rfl, rfl, rfl⟩
    rw [slice, cutAt?_append, Option.bind_some]
    dsimp only
    rw [cutAt?_append]

/-- A part of a text is sliced at its offsets. -/
theorem slice_append (s u rest : Text) :
    (s ++ u ++ rest).slice s.utf8Length (s.utf8Length + u.utf8Length) = .ok u :=
  slice_eq_ok_iff.2 ⟨s, rest, rfl, rfl, utf8Length_append s u⟩

theorem slice_zero_append (u rest : Text) : (u ++ rest).slice 0 u.utf8Length = .ok u :=
  slice_eq_ok_iff.2 ⟨[], rest, rfl, rfl, rfl⟩

theorem sliceFrom_append (s t : Text) : (s ++ t).sliceFrom s.utf8Length = .ok t :=
  slice_eq_ok_iff.2 ⟨s, [], (List.append_nil _).symm, rfl, rfl⟩

end Text

end TextTransforms
