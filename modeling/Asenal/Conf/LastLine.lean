import Asenal.Conf.Comments

/-!
# The last line

The newline of a line ends a name without a value, and the terminator of a line does not. So a last line without a
newline may be read in another way than with it: an item without a value is lost, and a name that fits its array, with
nothing behind it, is too long, because the terminator is counted. Where the line fills the buffer the newline comes as
a line of its own, for which there has to be room in the table.

* `lineOf_newline` — what a newline changes of a line.
* `readconf_finished_iff` — when a newline at the end changes nothing of what is read.
-/

namespace Asenal.Conf

open Asenal.Lib.Text Asenal.Lib.CString Asenal.Lib.Memory

/-! ## A newline behind a line -/

/-- A text with a newline behind its last line, if that one lacks it. -/
def finished (s : Bytes) : Bytes := if s = [] ∨ s.getLast? = some 10 then s else s ++ [10]

/-- A line that ends with its colon, and blanks. -/
structure StopsAtColon (p : Bytes) : Prop where
  comment : isComment p = false
  noNul : 0 ∉ p
  name_ne : lineName p ≠ []
  name_lt : (lineName p).length < wordSize
  colon : behindColon (behindName p) = some []

/-- A line of blanks and a name that fills its array with the terminator. -/
structure StopsInName (p : Bytes) : Prop where
  comment : isComment p = false
  noNul : 0 ∉ p
  name_length : (lineName p).length + 1 = wordSize
  behind : behindName p = []

/-- The last line of a text lacks its newline and is read in another way with it: it is reached, and it stops at its
colon or in its name, or it is an item that fills both the buffer and the table. -/
def LastLineMatters (n : ℕ) (s : Bytes) : Prop :=
  s.getLast? ≠ some 10 ∧ ∃ ls p, fgetsAll (lineSize - 1) s = ls ++ [p] ∧ Reached n ls ∧
    (p.length < lineSize - 2 ∧ (StopsAtColon p ∨ StopsInName p) ∨
      p.length = lineSize - 2 ∧ isItemText p = true ∧ ls.countP isItemText + 1 = n)

variable {p : Bytes}

theorem isComment_newline (hp : p ≠ []) : isComment (p ++ [10]) = isComment p := by
  rw [isComment, List.head?_append_of_ne_nil _ hp, isComment]

theorem cstr_newline (h : 0 ∉ p) : cstr (p ++ [10]) = p ++ [10] := by
  apply cstr_of_not_mem
  simp [h]

/-- Behind the colon of a line the newline is an empty value. -/
theorem StopsAtColon.lineOf (h : StopsAtColon p) (hp : p ≠ []) :
    lineOf p = .skip ∧ lineOf (p ++ [10]) = .item ⟨lineName p, []⟩ := by
  have hfit : ¬ wordSize ≤ (lineName p).length := not_le.mpr h.name_lt
  have hbehind : behindName p ≠ [] := by
    intro hnil
    have hcolon := h.colon
    rw [hnil] at hcolon
    exact absurd hcolon (by decide)
  have hlong : nameTooLong p = false := by simp [nameTooLong, hfit, hbehind]
  constructor
  · rw [lineOf_eq, h.comment, cstr_of_not_mem h.noNul, shape, hlong, h.colon, if_neg h.name_ne]
    rfl
  · rw [lineOf_eq, isComment_newline hp, h.comment, cstr_newline h.noNul, shape_newline, if_neg hfit,
      if_neg h.name_ne, h.colon]
    rfl

/-- Behind a name that fills its array the newline is read in place of the terminator. -/
theorem StopsInName.lineOf (h : StopsInName p) (hp : p ≠ []) :
    lineOf p = .tooLong ∧ lineOf (p ++ [10]) = .skip := by
  have hfit : ¬ wordSize ≤ (lineName p).length := by
    have := h.name_length
    omega
  have hlong : nameTooLong p = true := by simp [nameTooLong, h.name_length, h.behind]
  constructor
  · rw [lineOf_eq, h.comment, cstr_of_not_mem h.noNul, shape, hlong]
    rfl
  · rw [lineOf_eq, isComment_newline hp, h.comment, cstr_newline h.noNul, shape_newline, if_neg hfit, h.behind]
    split_ifs <;> rfl

/-- **What a newline changes of a line**: nothing, if the line does not stop at its colon or in its name. -/
theorem lineOf_newline (hp : p ≠ []) (hcolon : ¬ StopsAtColon p) (hname : ¬ StopsInName p) :
    lineOf (p ++ [10]) = lineOf p := by
  rw [lineOf_eq, lineOf_eq, isComment_newline hp]
  cases hcomment : isComment p with
  | true => rfl
  | false =>
      by_cases hnul : 0 ∈ p
      · rw [cstr_append_of_mem hnul]
      · rw [cstr_newline hnul, cstr_of_not_mem hnul, shape_newline, shape]
        by_cases hlong : wordSize ≤ (lineName p).length
        · have htoo : nameTooLong p = true := by simp [nameTooLong, hlong]
          rw [if_pos hlong, if_pos htoo]
        · have hfits : nameTooLong p = false := by
            rw [← Bool.not_eq_true]
            intro htoo
            simp only [nameTooLong, hlong, decide_false, Bool.false_or, Bool.and_eq_true, decide_eq_true_eq,
              List.isEmpty_iff] at htoo
            exact hname ⟨hcomment, hnul, htoo.1, htoo.2⟩
          rw [if_neg hlong, hfits]
          by_cases hempty : lineName p = []
          · simp only [hempty, if_true]
            rfl
          · rw [if_neg hempty, if_neg hempty]
            cases hv : behindColon (behindName p) with
            | none => rfl
            | some v =>
                have hne : v ≠ [] := by
                  rintro rfl
                  exact hcolon ⟨hcomment, hnul, hempty, not_le.mp hlong, hv⟩
                rw [Option.elim_some, if_neg hne]
                rfl

/-! ## A newline behind a text -/

/-- Two texts that are read to the end with another number of items are not read alike. -/
theorem not_sameResult_of_length (files : Files) (workPath fname : Bytes) (d : ConfData) {s s' : Bytes}
    (h : complete d.size (fgetsAll (lineSize - 1) s) = true) (h' : complete d.size (fgetsAll (lineSize - 1) s') = true)
    (hlen : (stored d.size (fgetsAll (lineSize - 1) s)).length ≠ (stored d.size (fgetsAll (lineSize - 1) s')).length) :
    ¬ SameResult (ulReadconf (files.put (totalname workPath fname) s) workPath fname d)
      (ulReadconf (files.put (totalname workPath fname) s') workPath fname d) := by
  intro hsame
  rw [ulReadconf_put, ulReadconf_put, if_pos h, if_pos h'] at hsame
  have hitems := congrArg List.length hsame.2
  simp only [ConfData.items, List.length_map, List.length_range] at hitems
  exact hlen hitems

/-- A newline in the last piece of a text. -/
theorem sameResult_short (files : Files) (workPath fname : Bytes) (d : ConfData) {s s' : Bytes} {ls : List Bytes}
    (hs : fgetsAll (lineSize - 1) s = ls ++ [p]) (hs' : fgetsAll (lineSize - 1) s' = ls ++ [p ++ [10]]) (hp : p ≠ []) :
    SameResult (ulReadconf (files.put (totalname workPath fname) s) workPath fname d)
        (ulReadconf (files.put (totalname workPath fname) s') workPath fname d) ↔
      ¬ (Reached d.size ls ∧ (StopsAtColon p ∨ StopsInName p)) := by
  have hshort : ∀ q, (complete d.size (ls ++ [q]) = true ↔ Reached d.size ls ∧ lineOf q ≠ .tooLong) := by
    intro q
    rw [complete_concat, ← Bool.not_eq_true, ← lineOf_eq_tooLong_iff]
  by_cases hreached : Reached d.size ls
  swap
  · have hstored : stored d.size (fgetsAll (lineSize - 1) s) = stored d.size (fgetsAll (lineSize - 1) s') := by
      rw [hs, hs', stored_concat, stored_concat, if_neg hreached, if_neg hreached]
    rw [sameResult_iff files workPath fname d hstored, hs, hs', hshort, hshort]
    exact iff_of_true (by simp [hreached]) fun h => hreached h.1
  by_cases hcolon : StopsAtColon p
  · obtain ⟨hwithout, hwith⟩ := hcolon.lineOf hp
    apply iff_of_false _ fun h => h ⟨hreached, Or.inl hcolon⟩
    apply not_sameResult_of_length
    · rw [hs, hshort, hwithout]
      exact ⟨hreached, by simp⟩
    · rw [hs', hshort, hwith]
      exact ⟨hreached, by simp⟩
    · rw [hs, hs', stored_concat, stored_concat, hwithout, hwith, if_pos hreached, if_pos hreached]
      simp [Line.item?]
  by_cases hname : StopsInName p
  · obtain ⟨hwithout, hwith⟩ := hname.lineOf hp
    have hstored : stored d.size (fgetsAll (lineSize - 1) s) = stored d.size (fgetsAll (lineSize - 1) s') := by
      rw [hs, hs', stored_concat, stored_concat, hwithout, hwith]
      rfl
    rw [sameResult_iff files workPath fname d hstored, hs, hs', hshort, hshort, hwithout, hwith]
    exact iff_of_false (by simp [hreached]) fun h => h ⟨hreached, Or.inr hname⟩
  · have hline := lineOf_newline hp hcolon hname
    have hstored : stored d.size (fgetsAll (lineSize - 1) s) = stored d.size (fgetsAll (lineSize - 1) s') := by
      rw [hs, hs', stored_concat, stored_concat, hline]
    rw [sameResult_iff files workPath fname d hstored, hs, hs', hshort, hshort, hline]
    exact iff_of_true Iff.rfl fun h => h.2.elim hcolon hname

/-- A newline behind the last piece of a text. -/
theorem sameResult_full (files : Files) (workPath fname : Bytes) (d : ConfData) {s s' : Bytes} {ls : List Bytes}
    (hs : fgetsAll (lineSize - 1) s = ls ++ [p]) (hs' : fgetsAll (lineSize - 1) s' = ls ++ [p] ++ [[10]]) :
    SameResult (ulReadconf (files.put (totalname workPath fname) s) workPath fname d)
        (ulReadconf (files.put (totalname workPath fname) s') workPath fname d) ↔
      ¬ (Reached d.size ls ∧ isItemText p = true ∧ ls.countP isItemText + 1 = d.size) := by
  have hskip : lineOf [10] = .skip := by decide
  have hfits : isLongName [10] = false := by
    rw [← Bool.not_eq_true, ← lineOf_eq_tooLong_iff, hskip]
    simp
  have hstored : stored d.size (fgetsAll (lineSize - 1) s) = stored d.size (fgetsAll (lineSize - 1) s') := by
    rw [hs, hs', stored_concat _ (ls ++ [p]), hskip]
    simp [Line.item?]
  rw [sameResult_iff files workPath fname d hstored, hs, hs', complete_concat, complete_concat, reached_concat]
  simp only [hfits, and_true]
  unfold Reached
  cases hitem : isItemText p with
  | true =>
      have hlong := isLongName_of_isItemText hitem
      simp only [hlong, Bool.toNat_true, true_and, and_true]
      constructor
      · intro h h'
        have hroom := (h.mp h'.1).2
        omega
      · intro h
        refine ⟨fun h' => ⟨h'.1, ?_⟩, fun h' => ⟨h'.1, by omega⟩⟩
        have hne : ls.countP isItemText + 1 ≠ d.size := fun heq => h ⟨h', heq⟩
        omega
  | false =>
      simp only [Bool.toNat_false, Nat.add_zero, Bool.false_eq_true, false_and, and_false, not_false_eq_true, iff_true]
      tauto

/-- **A newline at the end** of a text changes nothing of what is read, except when the last line comes differently
with it. -/
theorem readconf_finished_iff (files : Files) (workPath fname : Bytes) (d : ConfData) (s : Bytes) :
    SameResult (ulReadconf (files.put (totalname workPath fname) s) workPath fname d)
        (ulReadconf (files.put (totalname workPath fname) (finished s)) workPath fname d) ↔
      ¬ LastLineMatters d.size s := by
  by_cases hends : s = [] ∨ s.getLast? = some 10
  · rw [finished, if_pos hends]
    refine iff_of_true ⟨rfl, rfl⟩ ?_
    rintro ⟨hlast, ls, p, hpieces, -⟩
    rcases hends with rfl | hends
    · rw [fgetsAll_nil] at hpieces
      exact absurd hpieces (by simp)
    · exact hlast hends
  rw [finished, if_neg hends]
  rw [not_or] at hends
  obtain ⟨ls, p, hpieces, hp, -, hplen, hfinished⟩ := fgetsAll_newline (show 1 < lineSize - 1 by decide) hends.1 hends.2
  have hmatters : LastLineMatters d.size s ↔ Reached d.size ls ∧
      (p.length < lineSize - 2 ∧ (StopsAtColon p ∨ StopsInName p) ∨
        p.length = lineSize - 2 ∧ isItemText p = true ∧ ls.countP isItemText + 1 = d.size) := by
    constructor
    · rintro ⟨-, ls', p', hpieces', h⟩
      rw [hpieces] at hpieces'
      obtain ⟨rfl, hlast⟩ := List.append_inj' hpieces' rfl
      obtain rfl := List.singleton_inj.mp hlast
      exact h
    · exact fun h => ⟨hends.2, ls, p, hpieces, h⟩
  rw [hmatters]
  by_cases hshort : p.length < lineSize - 2
  · have hnl : fgetsAll (lineSize - 1) (s ++ [10]) = ls ++ [p ++ [10]] := by
      rw [hfinished]
      exact congrArg (ls ++ ·) (if_pos hshort)
    have hnot : p.length ≠ lineSize - 2 := Nat.ne_of_lt hshort
    simp only [sameResult_short files workPath fname d hpieces hnl hp, hshort, hnot, true_and, false_and, or_false]
  · have hnl : fgetsAll (lineSize - 1) (s ++ [10]) = ls ++ [p] ++ [[10]] := by
      rw [hfinished, List.append_assoc]
      exact congrArg (ls ++ ·) (if_neg hshort)
    have hfull : p.length = lineSize - 2 := Nat.le_antisymm hplen (not_lt.mp hshort)
    simp only [sameResult_full files workPath fname d hpieces hnl, hfull, lt_irrefl, true_and, false_and, false_or]

/-- The item of `a:` is lost without a newline. -/
theorem readconf_unfinished : ¬ ∀ (files : Files) (workPath fname : Bytes) (d : ConfData) (s : Bytes),
    SameResult (ulReadconf (files.put (totalname workPath fname) s) workPath fname d)
      (ulReadconf (files.put (totalname workPath fname) (finished s)) workPath fname d) := by
  intro hclaim
  have hsame := (hclaim (everywhere []) (ascii ".") (ascii "f") ⟨0, 1024, fun _ => ⟨[], []⟩⟩ (ascii "a:")).2
  have hwithout : (ulReadconf ((everywhere []).put (totalname (ascii ".") (ascii "f")) (ascii "a:")) (ascii ".")
      (ascii "f") ⟨0, 1024, fun _ => ⟨[], []⟩⟩).2.items = [] := by decide +kernel
  have hwith : (ulReadconf ((everywhere []).put (totalname (ascii ".") (ascii "f")) (finished (ascii "a:"))) (ascii ".")
      (ascii "f") ⟨0, 1024, fun _ => ⟨[], []⟩⟩).2.items = [⟨ascii "a", []⟩] := by decide +kernel
  rw [hwithout, hwith] at hsame
  exact absurd hsame (by simp)

end Asenal.Conf
