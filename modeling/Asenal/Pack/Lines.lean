import Asenal.Pack.Head

/-!
# The head line by line

The loop of the head parser cuts a line off the head and looks at it. Here the cutting comes
first: `headLines` is the list of lines the loop can meet, and `parseLines` is the loop over such
a list. Whether the loop accepts a head, and which lines it scans, depends on the lines and on
the array `tmp`, and on nothing that the slots of the package hold.

* `parseHead_eq` — the loop is the loop over the lines.
* `parseHead_ok_iff` — when a head is accepted.
-/

namespace Asenal.Pack

open Asenal.Lib.Text Asenal.Lib.Memory Asenal.Lib.CString

/-! ## Cutting the head into lines -/

/-- The lines of a head, up to the first empty line or the last line end. -/
def headLines (ph : Bytes) : List Bytes :=
  match strstr crlf ph with
  | none => []
  | some 0 => []
  | some (q + 1) =>
      if _h : ph = [] then []
      else ph.take (q + 1) :: headLines (ph.drop (q + 1 + crlf.length))
termination_by ph.length
decreasing_by
  have := List.length_pos_of_ne_nil _h
  rw [List.length_drop]
  omega

/-- The loop of the head parser over the lines of the head. -/
def parseLines : List Bytes → HeadScan → Except HeadScan HeadScan
  | [], st => .ok st
  | l :: ls, st =>
      if maxPackItemNum ≤ st.i then .ok st
      else
        match st.line l with
        | .error st => .error st
        | .ok st => parseLines ls st

/-- **The loop of the head parser** is the loop over the lines of the head. -/
theorem parseHead_eq (ph : Bytes) (st : HeadScan) :
    parseHead ph st = parseLines (headLines ph) st := by
  induction ph, st using parseHead.induct with
  | case1 ph st hstop =>
      rw [parseHead, dif_pos hstop]
      rcases hstop with rfl | hfull
      · rw [headLines]
        rfl
      · cases headLines ph with
        | nil => rfl
        | cons l ls => rw [parseLines, if_pos hfull]
  | case2 ph st hstop hnone =>
      rw [parseHead, dif_neg hstop, headLines, hnone]
      rfl
  | case3 ph st hstop hzero =>
      rw [parseHead, dif_neg hstop, headLines, hzero]
      rfl
  | case4 ph st hstop q hq st₁ hl =>
      obtain ⟨hne, hfree⟩ := not_or.mp hstop
      rw [parseHead, dif_neg hstop, headLines, hq]
      simp only [hl, dif_neg hne, parseLines, if_neg hfree]
  | case5 ph st hstop q hq st₁ hl ih =>
      obtain ⟨hne, hfree⟩ := not_or.mp hstop
      rw [parseHead, dif_neg hstop, headLines, hq]
      simp only [hl, dif_neg hne, parseLines, if_neg hfree, ih]

/-! ## One line -/

/-- A line that the parser takes: it has a separator, and the texts before and behind the first
one are shorter than a slot. -/
def lineOk (line : Bytes) : Bool :=
  match strstr sep line with
  | none => false
  | some p => p < maxItemSize && line.length - (p + sep.length) < maxItemSize

/-- The second word of a line. -/
def secondWord (line : Bytes) : Option Bytes := (scanS line).bind fun r => (scanS r.2).map Prod.fst

/-- What the array `tmp` holds behind a line. -/
def tmpAfter (tmp line : Bytes) : Bytes := (secondWord line).getD tmp

/-- How many slots are in use behind a line. -/
def slotsAfter (i : ℕ) (tmp line : Bytes) : ℕ :=
  if (tmpAfter tmp line).head? = some 58 then i + 1 else i

/-- What a line does: a malformed one is an error and leaves a cleared slot, and another one
fills the slot. -/
theorem HeadScan.line_cases (st : HeadScan) (l : Bytes) :
    (lineOk l = false ∧ st.line l = .error { st with
        name := Function.update st.name st.i []
        value := Function.update st.value st.i [] }) ∨
      (lineOk l = true ∧ ∃ w v, st.line l = .ok
        ⟨Function.update st.name st.i w, Function.update st.value st.i v,
          slotsAfter st.i st.tmp l, tmpAfter st.tmp l⟩) := by
  unfold HeadScan.line lineOk
  cases hp : strstr sep l with
  | none => exact Or.inl ⟨rfl, rfl⟩
  | some p =>
      simp only [Bool.and_eq_true, Bool.and_eq_false_iff, decide_eq_true_eq, decide_eq_false_iff_not,
        not_lt]
      by_cases hlen : maxItemSize ≤ p ∨ maxItemSize ≤ l.length - (p + sep.length)
      · rw [if_pos hlen]
        exact Or.inl ⟨hlen, rfl⟩
      · obtain ⟨w, r, hw⟩ := scanS_of_sep hp
        rw [if_neg hlen]
        rw [not_or, not_le, not_le] at hlen
        refine Or.inr ⟨hlen, w, printItem (l.drop (p + sep.length)), ?_⟩
        simp only [hw, Function.update_idem, slotsAfter, tmpAfter, secondWord, Option.bind_some]

/-! ## Whether a head is accepted -/

/-- All lines that the loop reaches are well formed; `i` slots are in use and the array holds
`tmp`. -/
def LinesOk : List Bytes → ℕ → Bytes → Prop
  | [], _, _ => True
  | l :: ls, i, tmp =>
      maxPackItemNum ≤ i ∨
        (lineOk l = true ∧ LinesOk ls (slotsAfter i tmp l) (tmpAfter tmp l))

/-- `LinesOk` can be decided. -/
instance decidableLinesOk : (ls : List Bytes) → (i : ℕ) → (tmp : Bytes) →
    Decidable (LinesOk ls i tmp)
  | [], _, _ => isTrue trivial
  | l :: ls, i, tmp =>
      have := decidableLinesOk ls (slotsAfter i tmp l) (tmpAfter tmp l)
      inferInstanceAs (Decidable (_ ∨ _ ∧ _))

/-- The loop accepts the lines iff all lines that it reaches are well formed. -/
theorem parseLines_ok_iff (ls : List Bytes) (st : HeadScan) :
    (∃ st', parseLines ls st = .ok st') ↔ LinesOk ls st.i st.tmp := by
  induction ls generalizing st with
  | nil => exact ⟨fun _ => trivial, fun _ => ⟨st, rfl⟩⟩
  | cons l ls ih =>
      rw [parseLines, LinesOk]
      by_cases hfull : maxPackItemNum ≤ st.i
      · rw [if_pos hfull]
        exact ⟨fun _ => Or.inl hfull, fun _ => ⟨st, rfl⟩⟩
      rw [if_neg hfull]
      rcases st.line_cases l with ⟨hbad, hl⟩ | ⟨hok, w, v, hl⟩
      · rw [hl, hbad]
        simp [hfull]
      · rw [hl, hok]
        simp only
        rw [ih]
        simp [hfull]

/-- **When a head is accepted**: all lines that the parser reaches are well formed. -/
theorem parseHead_ok_iff (ph : Bytes) (st : HeadScan) :
    (∃ st', parseHead ph st = .ok st') ↔ LinesOk (headLines ph) st.i st.tmp := by
  rw [parseHead_eq]
  exact parseLines_ok_iff _ _

/-- A head that is not accepted is an error. -/
theorem parseHead_error_of_not {ph : Bytes} {st : HeadScan}
    (h : ¬ LinesOk (headLines ph) st.i st.tmp) : ∃ st', parseHead ph st = .error st' := by
  rw [← parseHead_ok_iff] at h
  cases hp : parseHead ph st with
  | error st' => exact ⟨st', rfl⟩
  | ok st' => exact absurd ⟨st', hp⟩ h

end Asenal.Pack
