import Asenal.Lib.Memory
import Asenal.Lib.Text

/-!
# C strings

What programs do with C strings through `<string.h>` and `<stdio.h>`: the string at an address
(`cstr`), the first occurrence of a pattern (`strstr`), bounded printing into memory
(`snprintf`), the conversions `%s` and `%d` of `sscanf`, and reading lines (`fgets`). A C string is
the list of its bytes without the terminator, so none of them is `0`.

* `strstr_eq_none_iff`, `strstr_eq_some` — `strstr` finds a pattern iff it occurs.
* `strstr_append_of_not_mem`, `strstr_pair` — where the first occurrence in an append is.
* `scanS_append`, `scanD_dec` — what was printed with `%s` and `%d` is read back.
* `peek_snprintf` — text that fits is stored as it is.
* `fgetsAll_line` — a line that fits into the buffer of `fgets` is read whole.
* `fgetsAll_lines` — a text is read line by line.
* `fgetsAll_newline` — what a newline at the end changes.
-/

namespace Asenal.Lib.CString

open Asenal.Lib.Text Asenal.Lib.Memory

/-! ## Strings and their terminator -/

/-- The C string at the start of some memory: its bytes up to the first `0`. -/
def cstr (s : Bytes) : Bytes := s.takeWhile (· != 0)

/-- A string without its terminator. -/
abbrev CStr := { s : Bytes // 0 ∉ s }

/-- A text without `0` is a C string as it is. -/
theorem cstr_of_not_mem {s : Bytes} (h : 0 ∉ s) : cstr s = s := by
  rw [cstr, List.takeWhile_eq_self_iff]
  intro b hb
  rw [bne_iff_ne]
  rintro rfl
  exact h hb

/-- A C string ends at its terminator. -/
theorem cstr_append_nul {s : Bytes} (h : 0 ∉ s) (r : Bytes) : cstr (s ++ 0 :: r) = s := by
  have : ∀ b ∈ s, (b != 0) = true := fun b hb => bne_iff_ne.mpr fun e => h (e ▸ hb)
  simp [cstr, List.takeWhile_append_of_pos this]

/-- If the terminator stands in a part of the memory, what stands behind the part is not read. -/
theorem cstr_append_of_mem {s : Bytes} (h : 0 ∈ s) (r : Bytes) : cstr (s ++ r) = cstr s := by
  induction s with
  | nil => exact absurd h List.not_mem_nil
  | cons b s ih =>
      by_cases hb : b = 0
      · simp [cstr, hb]
      · have hs : 0 ∈ s := (List.mem_cons.mp h).resolve_left (Ne.symm hb)
        have := ih hs
        unfold cstr at this ⊢
        simp [hb, this]

/-- A C string does not contain its terminator. -/
theorem not_mem_cstr (s : Bytes) : 0 ∉ cstr s := by
  intro h
  simpa using List.mem_takeWhile_imp h

/-! ## First occurrences -/

/-- `strstr`: the position of the first occurrence of a pattern. -/
def strstr (needle : Bytes) : Bytes → Option ℕ
  | [] => if needle = [] then some 0 else none
  | b :: s => if needle <+: b :: s then some 0 else (strstr needle s).map (· + 1)

/-- The pattern is not found iff it does not occur. -/
theorem strstr_eq_none_iff (needle s : Bytes) : strstr needle s = none ↔ ¬ needle <:+: s := by
  induction s with
  | nil => simp [strstr, List.infix_nil]
  | cons b s ih =>
      rw [strstr, List.infix_cons_iff]
      split_ifs with h
      · simp [h]
      · simp [h, ih]

/-- What is found is an occurrence of the pattern. -/
theorem strstr_eq_some {needle s : Bytes} {k : ℕ} (h : strstr needle s = some k) :
    ∃ a b, s = a ++ (needle ++ b) ∧ a.length = k := by
  induction s generalizing k with
  | nil =>
      rw [strstr] at h
      split_ifs at h with hn
      cases h
      exact ⟨[], [], by simp [hn], rfl⟩
  | cons c s ih =>
      rw [strstr] at h
      split_ifs at h with hp
      · cases h
        obtain ⟨b, hb⟩ := hp
        exact ⟨[], b, hb.symm, rfl⟩
      · obtain ⟨j, hj, rfl⟩ := Option.map_eq_some_iff.mp h
        obtain ⟨a, b, rfl, rfl⟩ := ih hj
        exact ⟨c :: a, b, rfl, rfl⟩

/-- In front of a byte that the pattern does not begin with nothing is found. -/
theorem strstr_append_of_not_mem {c : UInt8} (n : Bytes) {a : Bytes} (h : c ∉ a) (s : Bytes) :
    strstr (c :: n) (a ++ s) = (strstr (c :: n) s).map (· + a.length) := by
  induction a with
  | nil => simp
  | cons b a ih =>
      have hb : ¬ (c :: n) <+: b :: (a ++ s) := by
        rw [List.cons_prefix_cons]
        exact fun e => h (by simp [e.1])
      rw [List.cons_append, strstr, if_neg hb, ih fun hm => h (List.mem_cons_of_mem b hm),
        Option.map_map]
      rfl

/-- A text begins with the pattern. -/
theorem strstr_append_self {needle : Bytes} (h : needle ≠ []) (s : Bytes) :
    strstr needle (needle ++ s) = some 0 := by
  obtain ⟨c, n, rfl⟩ := List.exists_cons_of_ne_nil h
  exact if_pos (List.prefix_append (c :: n) s)

/-- A pattern of two different bytes behind a text without it is found right there. -/
theorem strstr_pair {c d : UInt8} (hcd : c ≠ d) {s : Bytes} (h : ¬ [c, d] <:+: s) (r : Bytes) :
    strstr [c, d] (s ++ c :: d :: r) = some s.length := by
  induction s with
  | nil => exact strstr_append_self (List.cons_ne_nil c [d]) r
  | cons b s ih =>
      rw [List.infix_cons_iff, not_or] at h
      have hb : ¬ [c, d] <+: b :: (s ++ c :: d :: r) := by
        rintro hp
        rw [List.cons_prefix_cons] at hp
        obtain ⟨rfl, hp⟩ := hp
        cases s with
        | nil =>
            rw [List.nil_append, List.cons_prefix_cons] at hp
            exact hcd hp.1.symm
        | cons e s => exact h.1 (by simpa using hp)
      rw [List.cons_append, strstr, if_neg hb, ih h.2]
      rfl

/-- A pattern does not overlap a text that lacks the byte it begins with. -/
theorem infix_append_iff_of_not_mem {c : UInt8} {n a : Bytes} (h : c ∉ a) (s : Bytes) :
    c :: n <:+: a ++ s ↔ c :: n <:+: s := by
  rw [← not_iff_not, ← strstr_eq_none_iff, ← strstr_eq_none_iff, strstr_append_of_not_mem n h]
  simp

/-! ## Printing into memory -/

/-- `snprintf` with a buffer of `size` bytes at the address `pos`: as much of the text as fits
is stored, with its terminator. What it returns is the length of the whole text. -/
def snprintf (m : Mem UInt8) (pos size : ℕ) (s : Bytes) : Mem UInt8 :=
  if size = 0 then m else poke m pos (s.take (size - 1) ++ [0])

/-- Nothing in front of the buffer is changed. -/
theorem peek_snprintf_before (m : Mem UInt8) {pos len at_ : ℕ} (size : ℕ) (s : Bytes)
    (h : pos + len ≤ at_) : peek (snprintf m at_ size s) pos len = peek m pos len := by
  unfold snprintf
  split_ifs
  · rfl
  · exact peek_poke_before m _ h

/-- Text that fits with its terminator is stored as it is. -/
theorem peek_snprintf (m : Mem UInt8) (pos : ℕ) {size : ℕ} {s : Bytes} (h : s.length < size) :
    peek (snprintf m pos size s) pos s.length = s := by
  rw [snprintf, if_neg (by omega), List.take_of_length_le (by omega)]
  exact peek_poke_append m pos s [0]

/-- Text that is printed right behind a run of cells makes it longer. -/
theorem peek_snprintf_extend (m : Mem UInt8) {pos len at_ size : ℕ} {s : Bytes}
    (hat : at_ = pos + len) (h : s.length < size) :
    peek (snprintf m at_ size s) pos (len + s.length) = peek m pos len ++ s := by
  rw [hat, peek_add, peek_snprintf_before m size s (Nat.le_refl _), peek_snprintf m _ h]

/-- Text that fits without its terminator loses its last byte to it. -/
theorem peek_snprintf_cut (m : Mem UInt8) {pos len at_ : ℕ} (s : Bytes) (b : UInt8)
    (hat : at_ = pos + len) :
    peek (snprintf m at_ (s.length + 1) (s ++ [b])) pos (len + (s.length + 1)) =
      peek m pos len ++ (s ++ [0]) := by
  rw [snprintf, if_neg (Nat.succ_ne_zero _), Nat.add_sub_cancel, List.take_left' rfl]
  have := peek_poke_extend m (s ++ [0]) hat
  rwa [List.length_append, List.length_singleton] at this

/-! ## Scanning -/

/-- The conversion `%s`: skip white space and read a word; nothing is stored if there is none. -/
def scanS (s : Bytes) : Option (Bytes × Bytes) :=
  if skipSpace s = [] then none else some (word (skipSpace s), afterWord (skipSpace s))

/-- An `int` from an integer that was read: the conversion is done in 64 bits, where it
saturates, and cut to 32 bits. -/
def toInt32 (v : ℤ) : Int32 := Int32.ofInt (max (-2 ^ 63) (min v (2 ^ 63 - 1)))

/-- The conversion `%d`: skip white space and read a decimal integer; nothing is stored if there
is none. -/
def scanD (s : Bytes) : Option (Int32 × Bytes) :=
  match scanInt (skipSpace s) with
  | (some v, r) => some (toInt32 v, r)
  | (none, _) => none

/-- `atoi`. -/
def atoi (s : Bytes) : ℤ :=
  match scanD s with
  | some (v, _) => v.toInt
  | none => 0

/-- White space in front of a word is skipped. -/
theorem scanS_cons_of_isSpace {b : UInt8} (h : isSpace b = true) (s : Bytes) :
    scanS (b :: s) = scanS s := by
  simp [scanS, skipSpace, h]

/-- White space in front of an integer is skipped. -/
theorem scanD_cons_of_isSpace {b : UInt8} (h : isSpace b = true) (s : Bytes) :
    scanD (b :: s) = scanD s := by
  simp [scanD, skipSpace, h]

/-- A word that is followed by white space is read back. -/
theorem scanS_append {w r : Bytes} (hne : w ≠ []) (hw : ∀ b ∈ w, isSpace b = false)
    (hr : Delimited r) : scanS (w ++ r) = some (w, r) := by
  obtain ⟨b, t, rfl⟩ := List.exists_cons_of_ne_nil hne
  have hskip : skipSpace (b :: t ++ r) = b :: t ++ r :=
    skipSpace_of_head (hw b List.mem_cons_self)
  rw [scanS, hskip, if_neg (List.append_ne_nil_of_left_ne_nil hne r), word_append hw hr,
    afterWord_append hw hr]

/-- What `%s` reads is a word without white space. -/
theorem scanS_eq_some {s w r : Bytes} (h : scanS s = some (w, r)) :
    w ≠ [] ∧ ∀ b ∈ w, isSpace b = false := by
  unfold scanS at h
  split_ifs at h with hs
  simp only [Option.some.injEq, Prod.mk.injEq] at h
  obtain ⟨rfl, -⟩ := h
  exact ⟨word_ne_nil hs, fun b hb => not_isSpace_of_mem_word hb⟩

/-- An integer in the range of `int` is stored as it is. -/
theorem toInt32_toInt (b : Int32) : toInt32 b.toInt = b := by
  have h₁ := b.le_toInt
  have h₂ := b.toInt_lt
  have hclamp : max (-2 ^ 63) (min b.toInt (2 ^ 63 - 1)) = b.toInt := by omega
  rw [toInt32, hclamp, Int32.ofInt_toInt]

/-- A decimal number that is followed by a byte that is no digit is read back. -/
theorem scanD_dec (n : ℕ) {r : Bytes} (hr : ∀ b ∈ r.head?, isDigit b = false) :
    scanD (dec n ++ r) = some (toInt32 n, r) := by
  have hskip : skipSpace (dec n ++ r) = dec n ++ r := by
    obtain ⟨b, t, ht⟩ := List.exists_cons_of_ne_nil (dec_ne_nil n)
    rw [ht]
    refine skipSpace_of_head (isSpace_of_isDigit (isDigit_of_mem_dec (n := n) ?_))
    rw [ht]
    exact List.mem_cons_self
  rw [scanD, hskip, scanInt_append (numeral_dec n) hr]

/-- The words of a text, by the conversion `%s`. -/
theorem words_eq (s : Bytes) :
    words s = match scanS s with
      | none => []
      | some (w, r) => w :: words r := by
  rw [words, scanS]
  by_cases h : skipSpace s = []
  · rw [dif_pos h, if_pos h]
  · rw [dif_neg h, if_neg h]

/-! ## Lines of a file -/

/-- `fgets` with a buffer of `size` bytes: the bytes up to the next newline and with it, at most
`size - 1` of them, and the rest of the file. -/
def fgets (size : ℕ) (s : Bytes) : Bytes × Bytes :=
  let n := min (size - 1) ((s.takeWhile (· != 10)).length + 1)
  (s.take n, s.drop n)

/-- What `fgets` returns one call after another, until the end of the file. -/
def fgetsAll (size : ℕ) (s : Bytes) : List Bytes :=
  if _h : s = [] ∨ size ≤ 1 then []
  else (fgets size s).1 :: fgetsAll size (fgets size s).2
termination_by s.length
decreasing_by
  rw [not_or] at _h
  have := List.length_pos_of_ne_nil _h.1
  rw [fgets, List.length_drop]
  omega

/-- No line is left at the end of the file. -/
@[simp] theorem fgetsAll_nil (size : ℕ) : fgetsAll size [] = [] := by
  rw [fgetsAll, dif_pos (Or.inl rfl)]

/-- The first line that is read, and the others. -/
theorem fgetsAll_cons {size : ℕ} (hsize : 1 < size) {s : Bytes} (hs : s ≠ []) :
    fgetsAll size s = (fgets size s).1 :: fgetsAll size (fgets size s).2 := by
  rw [fgetsAll, dif_neg (not_or.mpr ⟨hs, by omega⟩)]

/-- What `fgets` reads of a text that begins with the line `l`. -/
theorem fgets_line (size : ℕ) {l : Bytes} (hl : 10 ∉ l) (r : Bytes) :
    fgets size (l ++ 10 :: r) =
      if size - 1 ≤ l.length then (l.take (size - 1), l.drop (size - 1) ++ 10 :: r)
      else (l ++ [10], r) := by
  have htake : (l ++ 10 :: r).takeWhile (· != 10) = l := by
    have : ∀ b ∈ l, (b != 10) = true := fun b hb => bne_iff_ne.mpr fun e => hl (e ▸ hb)
    simp [List.takeWhile_append_of_pos this]
  unfold fgets
  rw [htake]
  dsimp only
  split_ifs with hcut
  · have hmin : min (size - 1) (l.length + 1) = size - 1 := by omega
    rw [hmin, List.take_append_of_le_length hcut, List.drop_append_of_le_length hcut]
  · have hmin : min (size - 1) (l.length + 1) = (l ++ [10]).length := by
      rw [List.length_append, List.length_singleton]
      omega
    have heq : l ++ 10 :: r = l ++ [10] ++ r := List.append_cons l 10 r
    rw [hmin, heq, List.take_left, List.drop_left]

/-- A line that fits into the buffer is read whole. -/
theorem fgetsAll_line {size : ℕ} {l : Bytes} (hl : 10 ∉ l) (hsize : l.length + 1 < size)
    (r : Bytes) : fgetsAll size (l ++ 10 :: r) = (l ++ [10]) :: fgetsAll size r := by
  have hne : l ++ 10 :: r ≠ [] := List.append_ne_nil_of_right_ne_nil _ (List.cons_ne_nil _ _)
  rw [fgetsAll_cons (by omega) hne, fgets_line size hl, if_neg (by omega)]

/-- No read goes past the end of a line. -/
theorem fgetsAll_append_line (size : ℕ) {l : Bytes} (hl : 10 ∉ l) (r : Bytes) :
    fgetsAll size (l ++ 10 :: r) = fgetsAll size (l ++ [10]) ++ fgetsAll size r := by
  by_cases hsize : size ≤ 1
  · simp [fgetsAll, hsize]
  · have hne : ∀ t, l ++ 10 :: t ≠ [] := fun t =>
      List.append_ne_nil_of_right_ne_nil _ (List.cons_ne_nil _ _)
    by_cases hcut : size - 1 ≤ l.length
    · -- the line goes on behind the buffer
      have hdrop : 10 ∉ l.drop (size - 1) := fun h => hl (List.mem_of_mem_drop h)
      have ih := fgetsAll_append_line size hdrop r
      rw [fgetsAll_cons (by omega) (hne r), fgetsAll_cons (by omega) (hne []), fgets_line size hl,
        fgets_line size hl, if_pos hcut, if_pos hcut, ih, List.cons_append]
    · rw [fgetsAll_line hl (by omega), fgetsAll_line hl (by omega), fgetsAll_nil]
      rfl
termination_by l.length
decreasing_by
  rw [List.length_drop]
  omega

/-- The lines of a text, each with the newline that ends it; the last one may have none. -/
def lines : Bytes → List Bytes
  | [] => []
  | b :: s =>
      if b = 10 then [10] :: lines s
      else
        match lines s with
        | [] => [[b]]
        | l :: ls => (b :: l) :: ls

/-- The first line of a text. -/
theorem lines_append {l : Bytes} (hl : 10 ∉ l) (r : Bytes) :
    lines (l ++ 10 :: r) = (l ++ [10]) :: lines r := by
  induction l with
  | nil => rfl
  | cons b l ih =>
      rw [List.mem_cons, not_or] at hl
      rw [List.cons_append, lines, if_neg (Ne.symm hl.1), ih hl.2]
      rfl

/-- A text without a newline is one line. -/
theorem lines_of_not_mem {l : Bytes} (hl : 10 ∉ l) (hne : l ≠ []) : lines l = [l] := by
  induction l with
  | nil => exact absurd rfl hne
  | cons b l ih =>
      rw [List.mem_cons, not_or] at hl
      rw [lines, if_neg (Ne.symm hl.1)]
      cases l with
      | nil => rfl
      | cons c l => rw [ih hl.2 (List.cons_ne_nil c l)]

/-- What holds of texts without a newline, and with a text of it and a line in front of it, holds of
every text. -/
theorem lines_induction {p : Bytes → Prop} (hlast : ∀ l, 10 ∉ l → p l)
    (hline : ∀ l r, 10 ∉ l → p r → p (l ++ 10 :: r)) (s : Bytes) : p s := by
  by_cases h : 10 ∈ s
  · obtain ⟨l, r, hs, hl⟩ := List.eq_append_cons_of_mem h
    have hshort : r.length < s.length := by
      rw [hs, List.length_append, List.length_cons]
      omega
    rw [hs]
    exact hline l r hl (lines_induction hlast hline r)
  · exact hlast s h
termination_by s.length

/-- **A text is read line by line**: each of its lines is cut into pieces that fit the buffer. -/
theorem fgetsAll_lines (size : ℕ) (s : Bytes) :
    fgetsAll size s = (lines s).flatMap (fgetsAll size) := by
  induction s using lines_induction with
  | hlast l hl =>
      by_cases hne : l = []
      · rw [hne]
        exact fgetsAll_nil size
      · rw [lines_of_not_mem hl hne, List.flatMap_singleton]
  | hline l r hl ih => rw [lines_append hl, List.flatMap_cons, fgetsAll_append_line size hl, ih]

/-- No line is empty. -/
theorem ne_nil_of_mem_lines {s l : Bytes} (h : l ∈ lines s) : l ≠ [] := by
  induction s using lines_induction with
  | hlast t ht =>
      by_cases hne : t = []
      · rw [hne] at h
        exact absurd h List.not_mem_nil
      · rw [lines_of_not_mem ht hne, List.mem_singleton] at h
        exact h ▸ hne
  | hline t r ht ih =>
      rw [lines_append ht, List.mem_cons] at h
      rcases h with rfl | h
      · exact List.append_ne_nil_of_right_ne_nil _ (List.cons_ne_nil _ _)
      · exact ih h

/-- A newline stands at the end of a line only. -/
theorem newline_of_mem_lines {s l : Bytes} (h : l ∈ lines s) :
    10 ∉ l ∨ ∃ t, 10 ∉ t ∧ l = t ++ [10] := by
  induction s using lines_induction with
  | hlast t ht =>
      by_cases hne : t = []
      · rw [hne] at h
        exact absurd h List.not_mem_nil
      · rw [lines_of_not_mem ht hne, List.mem_singleton] at h
        exact Or.inl (h ▸ ht)
  | hline t r ht ih =>
      rw [lines_append ht, List.mem_cons] at h
      rcases h with rfl | h
      · exact Or.inr ⟨t, ht, rfl⟩
      · exact ih h

/-- A line that fits the buffer is one piece. -/
theorem fgetsAll_of_mem_lines {size : ℕ} {s l : Bytes} (h : l ∈ lines s) (hsize : l.length < size) :
    fgetsAll size l = [l] := by
  have hne := ne_nil_of_mem_lines h
  have hpos := List.length_pos_of_ne_nil hne
  rcases newline_of_mem_lines h with hnl | ⟨t, ht, rfl⟩
  · have htake : l.takeWhile (· != 10) = l := by
      rw [List.takeWhile_eq_self_iff]
      exact fun b hb => bne_iff_ne.mpr fun e => hnl (e ▸ hb)
    have hget : fgets size l = (l, []) := by
      unfold fgets
      dsimp only
      rw [htake, List.take_of_length_le (by omega), List.drop_eq_nil_of_le (by omega)]
    rw [fgetsAll_cons (by omega) hne, hget, fgetsAll_nil]
  · rw [List.length_append, List.length_singleton] at hsize
    rw [fgetsAll_line ht hsize, fgetsAll_nil]

/-- **Lines that fit the buffer** are read as they are. -/
theorem fgetsAll_eq_lines {size : ℕ} {s : Bytes} (h : ∀ l ∈ lines s, l.length < size) : fgetsAll size s = lines s := by
  have heach : (lines s).flatMap (fgetsAll size) = (lines s).flatMap fun l => [l] :=
    List.flatMap_congr fun l hl => fgetsAll_of_mem_lines hl (h l hl)
  rw [fgetsAll_lines, heach, List.flatMap_singleton']

/-- Something is read of a text that is not empty. -/
theorem fgetsAll_ne_nil {size : ℕ} (hsize : 1 < size) {s : Bytes} (hs : s ≠ []) :
    fgetsAll size s ≠ [] := by
  rw [fgetsAll_cons hsize hs]
  exact List.cons_ne_nil _ _

/-- What `fgets` reads of a text without a newline. -/
theorem fgets_of_not_mem (size : ℕ) {l : Bytes} (hl : 10 ∉ l) :
    fgets size l = (l.take (size - 1), l.drop (size - 1)) := by
  have htake : l.takeWhile (· != 10) = l := by
    rw [List.takeWhile_eq_self_iff]
    exact fun b hb => bne_iff_ne.mpr fun e => hl (e ▸ hb)
  unfold fgets
  rw [htake]
  dsimp only
  rcases Nat.le_total (size - 1) l.length with h | h
  · rw [min_eq_left (by omega)]
  · rw [List.take_of_length_le h, List.drop_eq_nil_of_le h, List.take_of_length_le (by omega),
      List.drop_eq_nil_of_le (by omega)]

/-- **A newline at the end** of a line that lacks it goes to the last piece, or is a piece of its own if that one
fills the buffer. -/
theorem fgetsAll_newline_of_not_mem {size : ℕ} (hsize : 1 < size) {l : Bytes} (hl : 10 ∉ l) (hne : l ≠ []) :
    ∃ ls p, fgetsAll size l = ls ++ [p] ∧ p ≠ [] ∧ 10 ∉ p ∧ p.length ≤ size - 1 ∧
      fgetsAll size (l ++ [10]) = ls ++ if p.length < size - 1 then [p ++ [10]] else [p, [10]] := by
  have hne' : l ++ [10] ≠ [] := List.append_ne_nil_of_left_ne_nil hne _
  have hnil : fgetsAll size (l ++ [10]) = _ := fgetsAll_cons hsize hne'
  rw [fgets_line size hl []] at hnil
  rcases Nat.lt_or_ge l.length (size - 1) with hshort | hlong
  · refine ⟨[], l, ?_, hne, hl, Nat.le_of_lt hshort, ?_⟩
    · rw [fgetsAll_cons hsize hne, fgets_of_not_mem size hl, List.take_of_length_le (Nat.le_of_lt hshort),
        List.drop_eq_nil_of_le (Nat.le_of_lt hshort), fgetsAll_nil]
      rfl
    · rw [hnil, if_neg (by omega), if_pos hshort, fgetsAll_nil]
      rfl
  · rw [if_pos hlong] at hnil
    by_cases hrest : l.drop (size - 1) = []
    · have hlen : l.length ≤ size - 1 := List.drop_eq_nil_iff.mp hrest
      have htake : l.take (size - 1) = l := List.take_of_length_le hlen
      refine ⟨[], l, ?_, hne, hl, hlen, ?_⟩
      · rw [fgetsAll_cons hsize hne, fgets_of_not_mem size hl, htake, hrest, fgetsAll_nil]
        rfl
      · have hown := fgetsAll_line (l := []) List.not_mem_nil (show [].length + 1 < size from hsize) []
        rw [List.nil_append, fgetsAll_nil] at hown
        rw [hnil, htake, hrest, if_neg (not_lt.mpr hlong), List.nil_append]
        exact congrArg (l :: ·) hown
    · have hdrop : 10 ∉ l.drop (size - 1) := fun h => hl (List.mem_of_mem_drop h)
      obtain ⟨ls, p, hpieces, hp, hp10, hplen, hfinished⟩ := fgetsAll_newline_of_not_mem hsize hdrop hrest
      refine ⟨l.take (size - 1) :: ls, p, ?_, hp, hp10, hplen, ?_⟩
      · rw [fgetsAll_cons hsize hne, fgets_of_not_mem size hl, hpieces]
        rfl
      · rw [hnil, hfinished]
        rfl
termination_by l.length
decreasing_by
  rw [List.length_drop]
  omega

/-- **A newline at the end** of a text that lacks it. -/
theorem fgetsAll_newline {size : ℕ} (hsize : 1 < size) {s : Bytes} (hs : s ≠ []) (hlast : s.getLast? ≠ some 10) :
    ∃ ls p, fgetsAll size s = ls ++ [p] ∧ p ≠ [] ∧ 10 ∉ p ∧ p.length ≤ size - 1 ∧
      fgetsAll size (s ++ [10]) = ls ++ if p.length < size - 1 then [p ++ [10]] else [p, [10]] := by
  induction s using lines_induction with
  | hlast l hl => exact fgetsAll_newline_of_not_mem hsize hl hs
  | hline l r hl ih =>
      have hr : r ≠ [] := by
        rintro rfl
        exact hlast List.getLast?_concat
      have hrlast : r.getLast? ≠ some 10 := by
        rwa [List.getLast?_append_of_ne_nil _ (List.cons_ne_nil 10 r), List.getLast?_cons_of_ne_nil hr] at hlast
      obtain ⟨ls, p, hpieces, hp, hp10, hplen, hfinished⟩ := ih hr hrlast
      refine ⟨fgetsAll size (l ++ [10]) ++ ls, p, ?_, hp, hp10, hplen, ?_⟩
      · rw [fgetsAll_append_line size hl, hpieces, List.append_assoc]
      · rw [List.append_assoc l, List.cons_append, fgetsAll_append_line size hl, hfinished, List.append_assoc]

end Asenal.Lib.CString
