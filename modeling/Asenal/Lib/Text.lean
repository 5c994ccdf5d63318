import Mathlib.Data.Nat.Digits.Lemmas
import Mathlib.Data.List.TakeWhile

/-!
# Byte texts, words and decimal numerals

Texts are lists of bytes. This file has what the C and C++ input routines share: white space as
`isspace` has it in the C locale, the split of a text into words, and decimal integers as
`printf("%d")` writes them and as the integer conversions of `scanf` and `istream` read them
(an optional sign and the longest run of digits).

* `nextWord` — reading one word off a text leaves the text of the remaining words.
* `scanInt_append` — a numeral followed by a non-digit is read back with its value and nothing
  else is consumed; `numeral_dec` — what `dec` prints is a numeral of that value.
-/

namespace Asenal.Lib.Text

/-- A text is a sequence of bytes. -/
abbrev Bytes := List UInt8

/-- What holds of the 256 bytes one by one holds of every byte. -/
theorem forall_byte {p : UInt8 → Prop} (h : ∀ n < 256, p n.toUInt8) (b : UInt8) : p b := by
  have := h b.toNat b.toNat_lt
  rwa [Nat.toUInt8, UInt8.ofNat_toNat] at this

/-- The bytes of an ASCII string literal. -/
def ascii (s : String) : Bytes := s.toList.map fun c => c.toNat.toUInt8

/-- The first occurrence of a symbol cuts a text in one way only. -/
theorem append_cons_inj {α : Type*} {c : α} {x x' z z' : List α} (hx : c ∉ x) (hx' : c ∉ x')
    (h : x ++ c :: z = x' ++ c :: z') : x = x' ∧ z = z' := by
  induction x generalizing x' with
  | nil =>
      cases x' with
      | nil => exact ⟨rfl, (List.cons.inj h).2⟩
      | cons b x' =>
          rw [(List.cons.inj h).1] at hx'
          exact absurd List.mem_cons_self hx'
  | cons b x ih =>
      rw [List.mem_cons, not_or] at hx
      cases x' with
      | nil => exact absurd (List.cons.inj h).1.symm hx.1
      | cons b' x' =>
          rw [List.mem_cons, not_or] at hx'
          obtain ⟨hb, hrest⟩ := List.cons.inj h
          obtain ⟨hxx, hz⟩ := ih hx.2 hx'.2 hrest
          rw [hb, hxx]
          exact ⟨rfl, hz⟩

/-! ## White space and words -/

/-- `isspace` in the C locale: blank, and tab to carriage return. -/
def isSpace (b : UInt8) : Bool := b == 32 || (9 ≤ b && b ≤ 13)

/-- The text from its first non-blank byte on. -/
def skipSpace (s : Bytes) : Bytes := s.dropWhile isSpace

/-- The bytes up to the first white space. -/
def word (s : Bytes) : Bytes := s.takeWhile fun b => !isSpace b

/-- What follows the bytes up to the first white space. -/
def afterWord (s : Bytes) : Bytes := s.dropWhile fun b => !isSpace b

/-- A text begins with white space, or is empty. -/
def Delimited (s : Bytes) : Prop := ∀ b ∈ s.head?, isSpace b = true

/-- A text ends with white space. -/
def endsInSpace (s : Bytes) : Bool := s.getLast?.any isSpace

/-- A word and what follows it make up the text. -/
theorem word_append_afterWord (s : Bytes) : word s ++ afterWord s = s :=
  List.takeWhile_append_dropWhile

/-- What follows a word begins with white space. -/
theorem delimited_afterWord (s : Bytes) : Delimited (afterWord s) := by
  intro b hb
  have := List.head?_dropWhile_not (fun b => !isSpace b) s
  unfold afterWord at hb
  rw [Option.mem_def] at hb
  rw [hb] at this
  simpa using this

/-- A word has no white space. -/
theorem not_isSpace_of_mem_word {s : Bytes} {b : UInt8} (h : b ∈ word s) : isSpace b = false := by
  simpa using List.mem_takeWhile_imp h

/-- A run of non-blank bytes followed by white space is the first word. -/
theorem word_append {w r : Bytes} (hw : ∀ b ∈ w, isSpace b = false) (hr : Delimited r) :
    word (w ++ r) = w := by
  have hnil : r.takeWhile (fun b => !isSpace b) = [] := by
    cases r with
    | nil => rfl
    | cons b r => simp [hr b rfl]
  rw [word, List.takeWhile_append_of_pos (by simpa using hw), hnil, List.append_nil]

/-- A run of non-blank bytes followed by white space leaves what follows it. -/
theorem afterWord_append {w r : Bytes} (hw : ∀ b ∈ w, isSpace b = false) (hr : Delimited r) :
    afterWord (w ++ r) = r := by
  have h := word_append_afterWord (w ++ r)
  rw [word_append hw hr] at h
  exact List.append_cancel_left h

/-- A text that begins with a non-blank byte has nothing to skip. -/
theorem skipSpace_of_head {b : UInt8} {s : Bytes} (h : isSpace b = false) :
    skipSpace (b :: s) = b :: s := by
  simp [skipSpace, h]

/-- The first word of a text that begins with a non-blank byte is not empty. -/
theorem word_ne_nil {s : Bytes} (h : skipSpace s ≠ []) : word (skipSpace s) ≠ [] := by
  have hhead := List.head?_dropWhile_not isSpace s
  unfold skipSpace at h ⊢
  cases hs : s.dropWhile isSpace with
  | nil => exact absurd hs h
  | cons b t =>
      rw [hs] at hhead
      simp only [List.head?_cons] at hhead
      simp [word, hhead]

/-- What follows the first word is shorter than the text. -/
theorem length_afterWord_lt {s : Bytes} (h : skipSpace s ≠ []) :
    (afterWord (skipSpace s)).length < s.length := by
  have h₁ := congrArg List.length (word_append_afterWord (skipSpace s))
  have h₂ := List.length_pos_of_ne_nil (word_ne_nil h)
  have h₃ : (skipSpace s).length ≤ s.length := (List.dropWhile_suffix _).length_le
  rw [List.length_append] at h₁
  omega

/-- The words of a text: its maximal runs of non-blank bytes. -/
def words (s : Bytes) : List Bytes :=
  if _h : skipSpace s = [] then []
  else word (skipSpace s) :: words (afterWord (skipSpace s))
termination_by s.length
decreasing_by exact length_afterWord_lt _h

/-- A text without words is blank. -/
theorem words_eq_nil_iff (s : Bytes) : words s = [] ↔ skipSpace s = [] := by
  rw [words]
  split_ifs with h <;> simp [h]

/-- **The next word**: a text with a first word `w` is blanks, `w`, and a text of the remaining
words that is separated from `w`. -/
theorem nextWord {s w : Bytes} {ws : List Bytes} (h : words s = w :: ws) :
    ∃ sp r, s = sp ++ w ++ r ∧ skipSpace s = w ++ r ∧ words r = ws ∧ Delimited r ∧ w ≠ [] ∧
      ∀ b ∈ w, isSpace b = false := by
  rw [words] at h
  split_ifs at h with hs
  simp only [List.cons.injEq] at h
  obtain ⟨rfl, rfl⟩ := h
  refine ⟨s.takeWhile isSpace, afterWord (skipSpace s), ?_, (word_append_afterWord _).symm, rfl,
    delimited_afterWord _, word_ne_nil hs, fun b hb => not_isSpace_of_mem_word hb⟩
  rw [List.append_assoc, word_append_afterWord]
  exact List.takeWhile_append_dropWhile.symm

/-- A blank text that is not empty ends in white space. -/
theorem endsInSpace_of_blank {s : Bytes} (h : skipSpace s = []) : endsInSpace s = !s.isEmpty := by
  unfold skipSpace at h
  rw [List.dropWhile_eq_nil_iff] at h
  rcases List.eq_nil_or_concat s with rfl | ⟨t, b, rfl⟩
  · rfl
  · simp [endsInSpace, h b (by simp)]

/-- Behind a word, the end of the text is the end of what follows, or of the word. -/
theorem endsInSpace_append (sp r : Bytes) {w : Bytes} (hw : w ≠ [])
    (hns : ∀ b ∈ w, isSpace b = false) :
    endsInSpace (sp ++ w ++ r) = (!r.isEmpty && endsInSpace r) := by
  rcases List.eq_nil_or_concat r with rfl | ⟨t, b, rfl⟩
  · obtain ⟨t, b, rfl⟩ := (List.eq_nil_or_concat w).resolve_left hw
    have hb : isSpace b = false := hns b (by simp)
    simp [endsInSpace, ← List.append_assoc, hb]
  · simp [endsInSpace, ← List.append_assoc]

/-! ## Decimal numerals -/

/-- `isdigit`. -/
def isDigit (b : UInt8) : Bool := 48 ≤ b && b ≤ 57

/-- The value of a sequence of digits. -/
def digitsVal (ds : Bytes) : ℕ := ds.foldl (fun n d => 10 * n + (d.toNat - 48)) 0

/-- Read an optional sign: whether it was `-`, and what follows. -/
def scanSign : Bytes → Bool × Bytes
  | 45 :: s => (true, s)
  | 43 :: s => (false, s)
  | s => (false, s)

/-- Read an integer off the front of a text: an optional sign and the longest run of digits.
The value is `none` if there is no digit; what was read is consumed in any case. -/
def scanInt (s : Bytes) : Option ℤ × Bytes :=
  let r := scanSign s
  let ds := r.2.takeWhile isDigit
  (if ds = [] then none else some (if r.1 then -(digitsVal ds : ℤ) else digitsVal ds),
    r.2.dropWhile isDigit)

/-- The value of a text that is a decimal integer from end to end. -/
def numeral (w : Bytes) : Option ℤ :=
  match scanInt w with
  | (some v, []) => some v
  | _ => none

/-- Split an integer numeral into its sign and its digits. -/
theorem numeral_eq_some {w : Bytes} {v : ℤ} (h : numeral w = some v) :
    ∃ ds, ds ≠ [] ∧ (∀ d ∈ ds, isDigit d = true) ∧ (scanSign w).2 = ds ∧
      v = if (scanSign w).1 then -(digitsVal ds : ℤ) else digitsVal ds := by
  unfold numeral at h
  split at h
  · next v' hw =>
      cases h
      simp only [scanInt, Prod.mk.injEq] at hw
      obtain ⟨hv, hrest⟩ := hw
      have hall : (scanSign w).2.takeWhile isDigit = (scanSign w).2 := by
        have := List.takeWhile_append_dropWhile (p := isDigit) (l := (scanSign w).2)
        rwa [hrest, List.append_nil] at this
      rw [hall] at hv
      split_ifs at hv with hne hs
      · exact ⟨_, hne, List.dropWhile_eq_nil_iff.mp hrest, rfl, by simpa [hs] using hv.symm⟩
      · exact ⟨_, hne, List.dropWhile_eq_nil_iff.mp hrest, rfl, by simpa [hs] using hv.symm⟩
  · cases h

/-- A sign in front of more text is the same sign. -/
theorem scanSign_append {w : Bytes} (hw : w ≠ []) (r : Bytes) :
    scanSign (w ++ r) = ((scanSign w).1, (scanSign w).2 ++ r) := by
  obtain ⟨b, t, rfl⟩ := List.exists_cons_of_ne_nil hw
  by_cases h₁ : b = 45
  · subst h₁
    rfl
  · by_cases h₂ : b = 43
    · subst h₂
      rfl
    · rw [List.cons_append]
      unfold scanSign
      split
      · simp_all
      · simp_all
      · split <;> simp_all

/-- **Reading a numeral**: a numeral followed by a byte that is no digit is read back with its
value, and nothing behind it is consumed. -/
theorem scanInt_append {w r : Bytes} {v : ℤ} (hw : numeral w = some v)
    (hr : ∀ b ∈ r.head?, isDigit b = false) : scanInt (w ++ r) = (some v, r) := by
  obtain ⟨ds, hne, hall, hds, hv⟩ := numeral_eq_some hw
  have hwne : w ≠ [] := by
    rintro rfl
    exact hne hds.symm
  have htake : r.takeWhile isDigit = [] := by
    cases r with
    | nil => rfl
    | cons b r => simp [hr b rfl]
  have hdrop : r.dropWhile isDigit = r := by
    cases r with
    | nil => rfl
    | cons b r => simp [hr b rfl]
  simp only [scanInt, scanSign_append hwne, hds, List.takeWhile_append_of_pos hall,
    List.dropWhile_append_of_pos hall, htake, hdrop, List.append_nil, if_neg hne, ← hv]

/-- White space is no digit. -/
theorem isDigit_of_isSpace {b : UInt8} (h : isSpace b = true) : isDigit b = false := by
  grind [isSpace, isDigit]

/-- A digit is no white space. -/
theorem isSpace_of_isDigit {b : UInt8} (h : isDigit b = true) : isSpace b = false := by
  grind [isSpace, isDigit]

/-- The decimal digits of a natural number. -/
def dec (n : ℕ) : Bytes :=
  if n = 0 then [48] else (Nat.digits 10 n).reverse.map fun d => UInt8.ofNat (48 + d)

/-- `printf("%d")`. -/
def decInt (z : ℤ) : Bytes := if z < 0 then 45 :: dec z.natAbs else dec z.natAbs

/-- The byte of a decimal digit is a digit of that value. -/
theorem digit_byte {d : ℕ} (h : d < 10) :
    isDigit (UInt8.ofNat (48 + d)) = true ∧ (UInt8.ofNat (48 + d)).toNat - 48 = d := by
  revert d
  decide

/-- The decimal digits of a number are digits. -/
theorem isDigit_of_mem_dec {n : ℕ} {b : UInt8} (h : b ∈ dec n) : isDigit b = true := by
  unfold dec at h
  split_ifs at h with hn
  · rw [List.mem_singleton.mp h]
    rfl
  · obtain ⟨d, hd, rfl⟩ := List.mem_map.mp h
    exact (digit_byte (Nat.digits_lt_base (by decide) (List.mem_reverse.mp hd))).1

/-- A number has at least one decimal digit. -/
theorem dec_ne_nil (n : ℕ) : dec n ≠ [] := by
  unfold dec
  split_ifs with hn
  · exact List.cons_ne_nil _ _
  · simpa [Nat.digits_eq_nil_iff_eq_zero] using hn

/-- A byte string of digits carries no sign. -/
theorem scanSign_of_digits {ds : Bytes} (h : ∀ d ∈ ds, isDigit d = true) :
    scanSign ds = (false, ds) := by
  cases ds with
  | nil => rfl
  | cons d ds =>
      have hd := h d List.mem_cons_self
      unfold scanSign
      split
      · simp_all [isDigit]
      · simp_all [isDigit]
      · rfl

/-- The digits printed for a number have its value. -/
theorem digitsVal_dec (n : ℕ) : digitsVal (dec n) = n := by
  have hfold : ∀ ds : List ℕ, (∀ d ∈ ds, d < 10) →
      digitsVal (ds.reverse.map fun d => UInt8.ofNat (48 + d)) = Nat.ofDigits 10 ds := by
    intro ds hds
    rw [digitsVal, List.foldl_map, List.foldl_reverse, Nat.ofDigits_eq_foldr]
    induction ds with
    | nil => rfl
    | cons d ds ih =>
        rw [List.foldr_cons, List.foldr_cons, ih fun e he => hds e (List.mem_cons_of_mem _ he),
          (digit_byte (hds d List.mem_cons_self)).2]
        simp only [Nat.cast_id]
        omega
  unfold dec
  split_ifs with hn
  · rw [hn]
    rfl
  · rw [hfold _ fun d hd => Nat.digits_lt_base (by decide) hd, Nat.ofDigits_digits]

/-- What `printf("%d")` prints for a natural number is a numeral of that value. -/
theorem numeral_dec (n : ℕ) : numeral (dec n) = some (n : ℤ) := by
  have hall : ∀ d ∈ dec n, isDigit d = true := by
    intro d hd
    exact isDigit_of_mem_dec hd
  have htake : (dec n).takeWhile isDigit = dec n := List.takeWhile_eq_self_iff.mpr hall
  have hdrop : (dec n).dropWhile isDigit = [] := List.dropWhile_eq_nil_iff.mpr hall
  simp [numeral, scanInt, scanSign_of_digits hall, htake, hdrop, dec_ne_nil, digitsVal_dec]

/-! ## Texts of integers -/

/-- The integers of a text, if all its words are decimal integers. -/
def ints (s : Bytes) : Option (List ℤ) := (words s).mapM numeral

/-- The empty text has no integers. -/
theorem ints_nil : ints [] = some [] := by
  simp [ints, words, skipSpace]

/-- A text of no integers is blank. -/
theorem ints_eq_some_nil {s : Bytes} (h : ints s = some []) : skipSpace s = [] := by
  rw [← words_eq_nil_iff]
  unfold ints at h
  cases hw : words s with
  | nil => rfl
  | cons w ws =>
      rw [hw] at h
      simp only [List.mapM_cons, Option.bind_eq_bind, Option.bind_eq_some_iff, Option.pure_def,
        Option.some.injEq] at h
      obtain ⟨_, _, _, _, h⟩ := h
      cases h

/-- **The next integer**: a text of integers that begins with `v` reads as `v`, and leaves a
text of the remaining integers. What is left is empty only if `v` was the last integer and
nothing stood behind it. -/
theorem nextInt {s : Bytes} {v : ℤ} {vs : List ℤ} (h : ints s = some (v :: vs)) :
    ∃ r, skipSpace s ≠ [] ∧ scanInt (skipSpace s) = (some v, r) ∧ ints r = some vs ∧
      (r.isEmpty = true ↔ vs = [] ∧ endsInSpace s = false) ∧
      (vs ≠ [] → endsInSpace r = endsInSpace s) := by
  unfold ints at h
  cases hw : words s with
  | nil => simp [hw] at h
  | cons w ws =>
      rw [hw] at h
      simp only [List.mapM_cons, Option.bind_eq_bind, Option.bind_eq_some_iff, Option.pure_def,
        Option.some.injEq, List.cons.injEq] at h
      obtain ⟨v', hv, vs', hvs, rfl, rfl⟩ := h
      obtain ⟨sp, r, hs, hskip, hr, hdelim, hne, hns⟩ := nextWord hw
      have hrest : ints r = some vs' := by rw [ints, hr, hvs]
      have hends := endsInSpace_append sp r hne hns
      rw [← hs] at hends
      refine ⟨r, ?_, ?_, hrest, ?_, ?_⟩
      · rw [hskip]
        exact List.append_ne_nil_of_left_ne_nil hne r
      · rw [hskip]
        exact scanInt_append hv fun b hb => isDigit_of_isSpace (hdelim b hb)
      · constructor
        · intro hemp
          rw [List.isEmpty_iff] at hemp
          subst hemp
          rw [ints_nil] at hrest
          exact ⟨by simpa using hrest.symm, by simpa using hends⟩
        · rintro ⟨rfl, hsp⟩
          have hblank := endsInSpace_of_blank (ints_eq_some_nil hrest)
          rw [hsp, hblank] at hends
          simpa using hends.symm
      · intro hvs'
        have hemp : r.isEmpty = false := by
          rw [Bool.eq_false_iff, ne_eq, List.isEmpty_iff]
          rintro rfl
          rw [ints_nil] at hrest
          apply hvs'
          simpa using hrest.symm
        rw [hends, hemp]
        simp

end Asenal.Lib.Text
