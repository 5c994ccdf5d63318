import Asenal.Pack.Lines

/-!
# What the head parser stores

The accesses that the readers make, and those of the head parser: it stores in the slots of the
package and in the array `tmp` of ten bytes. An access is safe if it stays inside the array it is
made on, and if what is stored has its terminator there.

* `lineAccesses_safe_iff` — what a line stores fits iff its second word has at most nine bytes, or
  the line is malformed.
* `parseLinesT_safe_iff` — the same for all lines that are scanned.
-/

namespace Asenal.Pack

open Asenal.Lib.Text Asenal.Lib.Memory Asenal.Lib.CString

/-! ## Accesses -/

/-- The fixed arrays of the two readers and the slots of a package. -/
inductive Slot
  | sizebuf
  | tmp
  | headbuf
  | eofstr
  | name (i : ℕ)
  | value (i : ℕ)
  deriving DecidableEq

/-- The number of bytes of an array; a slot that the package does not have has none. -/
def Slot.capacity : Slot → ℕ
  | .sizebuf => sizeNum
  | .tmp => 10
  | .headbuf => maxHeadSize
  | .eofstr => bufEof.length + 1
  | .name i => if i < maxPackItemNum then maxItemSize else 0
  | .value i => if i < maxPackItemNum then maxItemSize else 0

/-- A memory access: `len` bytes of the array are read at `pos`, or bytes are stored. -/
inductive Access
  | read (pos len : ℕ)
  | store (slot : Slot) (bs : Bytes)
  deriving DecidableEq

/-- An access to an array of `bufsize` bytes stays inside, and so does what is stored, with its
terminator. -/
def Access.Safe (bufsize : Int32) : Access → Prop
  | .read pos len => ((pos + len : ℕ) : ℤ) ≤ bufsize.toInt
  | .store slot bs => 0 ∈ bs ∧ bs.length ≤ slot.capacity

/-- A text that is stored with its terminator has to be shorter than the array. -/
theorem Access.safe_store_iff (bufsize : Int32) (slot : Slot) (bs : Bytes) :
    (Access.store slot (bs ++ [0])).Safe bufsize ↔ bs.length < slot.capacity := by
  simp [Access.Safe]

/-! ## The parser with its accesses -/

/-- What a line of the head stores when `i` slots are in use. -/
def lineAccesses (i : ℕ) (line : Bytes) : List Access :=
  [.store (.name i) [0], .store (.value i) [0]] ++
    match strstr sep line with
    | none => []
    | some p =>
        if maxItemSize ≤ p ∨ maxItemSize ≤ line.length - (p + sep.length) then []
        else
          .store (.value i) (printItem (line.drop (p + sep.length)) ++ [0]) ::
            match scanS line with
            | none => []
            | some (w, r) =>
                .store (.name i) (w ++ [0]) ::
                  match scanS r with
                  | none => []
                  | some (w, _) => [.store .tmp (w ++ [0])]

/-- The loop of the head parser over the lines, with its accesses. -/
def parseLinesT : List Bytes → HeadScan → List Access × Except HeadScan HeadScan
  | [], st => ([], .ok st)
  | l :: ls, st =>
      if maxPackItemNum ≤ st.i then ([], .ok st)
      else
        match st.line l with
        | .error st' => (lineAccesses st.i l, .error st')
        | .ok st' =>
            let r := parseLinesT ls st'
            (lineAccesses st.i l ++ r.1, r.2)

/-- Recording the accesses does not change what the loop computes. -/
theorem parseLinesT_eq (ls : List Bytes) (st : HeadScan) :
    (parseLinesT ls st).2 = parseLines ls st := by
  induction ls generalizing st with
  | nil => rfl
  | cons l ls ih =>
      rw [parseLinesT, parseLines]
      split_ifs
      · rfl
      · cases st.line l with
        | error st' => rfl
        | ok st' => exact ih st'

/-! ## The slots of a line -/

/-- The word that begins at the first non-blank byte of a text ends at the next blank. -/
theorem length_word_skipSpace_le {a s : Bytes} (ha : skipSpace a ≠ []) :
    (word (skipSpace (a ++ 32 :: s))).length ≤ a.length := by
  have hskip : skipSpace (a ++ 32 :: s) = skipSpace a ++ 32 :: s := by
    unfold skipSpace at ha ⊢
    rw [List.dropWhile_append, if_neg (by simpa using ha)]
  have hword : word (skipSpace a ++ 32 :: s) = word (skipSpace a) := by
    unfold word
    rw [List.takeWhile_append]
    split_ifs with hall
    · simp only [isSpace, beq_self_eq_true, Bool.true_or, Bool.not_true, List.takeWhile_cons,
        Bool.false_eq_true, if_false, List.append_nil]
      exact (List.takeWhile_prefix _).eq_of_length hall |>.symm
    · rfl
  rw [hskip, hword]
  exact (List.takeWhile_prefix _).length_le.trans (List.dropWhile_suffix _).length_le

/-- The first word of a line with a separator is not longer than what stands in front of the
separator, unless it is the colon. -/
theorem length_word_of_sep {line w r : Bytes} {p : ℕ} (hp : strstr sep line = some p)
    (hw : scanS line = some (w, r)) : w.length ≤ max p 1 := by
  obtain ⟨a, b, rfl, rfl⟩ := strstr_eq_some hp
  unfold scanS at hw
  split_ifs at hw
  cases hw
  by_cases ha : skipSpace a = []
  · have hskip : skipSpace (a ++ (sep ++ b)) = 58 :: 32 :: b := by
      unfold skipSpace at ha ⊢
      rw [List.dropWhile_append, if_pos (by simpa using ha)]
      simp [isSpace]
    rw [hskip]
    exact le_max_right a.length 1
  · exact (length_word_skipSpace_le ha).trans (le_max_left _ _)

/-- **What a line stores fits** in the slots iff its second word fits in `tmp`, or the line is
malformed. -/
theorem lineAccesses_safe_iff (bufsize : Int32) {i : ℕ} (hi : i < maxPackItemNum) (l : Bytes) :
    (∀ a ∈ lineAccesses i l, a.Safe bufsize) ↔
      (lineOk l = true → ∀ w ∈ secondWord l, w.length < 10) := by
  have hcap : ∀ slot : Slot, slot.capacity = maxItemSize → ∀ bs : Bytes, bs.length < maxItemSize →
      (Access.store slot (bs ++ [0])).Safe bufsize := by
    intro slot hslot bs hbs
    rw [Access.safe_store_iff, hslot]
    exact hbs
  have hname := hcap (.name i) (if_pos hi)
  have hvalue := hcap (.value i) (if_pos hi)
  have hclear : ∀ a ∈ [Access.store (.name i) [0], Access.store (.value i) [0]],
      a.Safe bufsize := by
    rw [List.forall_mem_cons, List.forall_mem_singleton]
    exact ⟨hname [] (by decide), hvalue [] (by decide)⟩
  unfold lineAccesses lineOk secondWord
  rw [List.forall_mem_append, and_iff_right hclear]
  cases hp : strstr sep l with
  | none => simp
  | some p =>
      simp only [Bool.and_eq_true, decide_eq_true_eq]
      by_cases hlen : maxItemSize ≤ p ∨ maxItemSize ≤ l.length - (p + sep.length)
      · rw [if_pos hlen]
        apply iff_of_true (List.forall_mem_nil _)
        intro h
        omega
      · obtain ⟨w, r, hw⟩ := scanS_of_sep hp
        rw [if_neg hlen, hw]
        rw [not_or, not_le, not_le] at hlen
        have hitem : (printItem (l.drop (p + sep.length))).length < maxItemSize := by
          rw [printItem, List.length_take]
          simp only [maxItemSize]
          omega
        have hfirst : w.length < maxItemSize := by
          have := length_word_of_sep hp hw
          simp only [maxItemSize] at hlen ⊢
          omega
        simp only [List.forall_mem_cons, Option.bind_some, forall_const, hlen, and_self,
          and_iff_right (hvalue _ hitem), and_iff_right (hname _ hfirst)]
        cases hw₂ : scanS r with
        | none => simp
        | some q =>
            simp only [List.forall_mem_singleton, Access.safe_store_iff, Option.map_some,
              Option.mem_def, Option.some.injEq, forall_eq']
            rfl

/-- The lines of a head whose words are scanned: those that the loop reaches before a malformed one,
when `i` slots are in use and the array holds `tmp`. -/
def scannedLines : List Bytes → ℕ → Bytes → List Bytes
  | [], _, _ => []
  | l :: ls, i, tmp =>
      if i < maxPackItemNum ∧ lineOk l = true then
        l :: scannedLines ls (slotsAfter i tmp l) (tmpAfter tmp l)
      else []

/-- What the loop stores fits iff the second words of the lines that are scanned fit in `tmp`. -/
theorem parseLinesT_safe_iff (bufsize : Int32) (ls : List Bytes) (st : HeadScan) :
    (∀ a ∈ (parseLinesT ls st).1, a.Safe bufsize) ↔
      ∀ l ∈ scannedLines ls st.i st.tmp, ∀ w ∈ secondWord l, w.length < 10 := by
  induction ls generalizing st with
  | nil => simp [parseLinesT, scannedLines]
  | cons l ls ih =>
      rw [parseLinesT, scannedLines]
      by_cases hfull : maxPackItemNum ≤ st.i
      · rw [if_pos hfull, if_neg (fun h => absurd h.1 (Nat.not_lt.mpr hfull))]
        simp
      have hi := Nat.not_le.mp hfull
      have hline := lineAccesses_safe_iff bufsize hi l
      rw [if_neg hfull]
      rcases st.line_cases l with ⟨hbad, hl⟩ | ⟨hok, w, v, hl⟩
      · rw [if_neg (fun h => absurd h.2 (by rw [hbad]; exact Bool.false_ne_true))]
        rw [hbad] at hline
        simp [hl, hline]
      · rw [if_pos ⟨hi, hok⟩]
        rw [hok] at hline
        simp only [hl, List.forall_mem_append, List.forall_mem_cons, hline, ih, forall_const]

/-! ## A head that fits -/

/-- The first word of a size line. -/
def startWord : Bytes := [126, 66, 85, 70, 33]

/-- The second words of the lines of a head that are scanned have at most nine bytes. -/
def WordsFit (head : Bytes) : Prop :=
  ∀ l ∈ scannedLines (headLines (cstr head)) 0 startWord, ∀ w ∈ secondWord l, w.length < 10

/-- `WordsFit` can be decided. -/
instance (head : Bytes) : Decidable (WordsFit head) :=
  inferInstanceAs (Decidable (∀ l ∈ scannedLines (headLines (cstr head)) 0 startWord,
    ∀ w ∈ secondWord l, w.length < 10))

end Asenal.Pack
