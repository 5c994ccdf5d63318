import Asenal.Lib.Checked

/-!
# The words of a line

`GetWord` goes through the characters of a string. A run of letters and digits is reported at the character
behind it, by stepping back from there; a character of four bytes does not close the run in front of it.

* `getWord_text` — the loop by characters.
* `words_iff` — the words of a text, each at its place.
* `getWord_iff` — when they are found.
-/

namespace Asenal.Acm

open Asenal.Lib.Text Asenal.Lib.Checked

/-! ## The program -/

/-- A word, by its place in the string. -/
structure SWord where
  word : ℕ
  size : ℕ
deriving DecidableEq

/-- Source: `QueryAnalysis.h` `CQueryAnalysis::CheckChar`. -/
def checkChar (data : Bytes) (size : ℤ) : ℤ :=
  if size ≤ 0 then 0
  else if data.getD 0 0 < 0x81 ∨ 0xFE < data.getD 0 0 then 1
  else if size < 2 then -1
  else if data.getD 1 0 < 0x30 ∨ 0x39 < data.getD 1 0 ∧ data.getD 1 0 < 0x40 ∨ data.getD 1 0 = 0x7F ∨
      0xFE < data.getD 1 0 then -1
  else if 0x40 ≤ data.getD 1 0 then 2
  else if size < 4 then -1
  else if data.getD 2 0 < 0x81 ∨ 0xFE < data.getD 2 0 then -1
  else if data.getD 3 0 < 0x30 ∨ 0x39 < data.getD 3 0 then -1
  else 4

/-- A letter or a digit. -/
def isAlnum (c : UInt8) : Bool := 97 ≤ c && c ≤ 122 || 65 ≤ c && c ≤ 90 || 48 ≤ c && c ≤ 57

/-- The run of `enSize` letters and digits in front of a place. -/
def closeRun (pos enSize : ℕ) : List SWord := if 0 < enSize then [⟨pos - enSize, enSize⟩] else []

/-- The run and the words behind a character of `len` bytes. Source: `QueryAnalysis.h`
`CQueryAnalysis::GetWord`, the body of the loop. -/
def wordStep (str : Bytes) (pos : ℕ) (len : ℤ) (st : ℕ × List SWord) : ℕ × List SWord :=
  if len = 1 then
    if isAlnum (str.getD pos 0) then (st.1 + 1, st.2) else (0, st.2 ++ closeRun pos st.1)
  else if len = 2 then (0, st.2 ++ closeRun pos st.1 ++ [⟨pos, len.toNat⟩])
  else st

/-- The loop with `n` rounds at most: each one goes on by a byte or more. Source: `QueryAnalysis.h`
`CQueryAnalysis::GetWord`. -/
def wordLoop (str : Bytes) : ℕ → ℕ → ℤ → ℕ × List SWord → List SWord
  | 0, pos, _, st => st.2 ++ closeRun pos st.1
  | n + 1, pos, size, st =>
      let len := checkChar (str.drop pos) size
      if 0 < len then wordLoop str n (pos + len.toNat) (size - len) (wordStep str pos len st)
      else st.2 ++ closeRun pos st.1

/-- Source: `QueryAnalysis.h` `CQueryAnalysis::GetWord`. -/
def getWord (str : Bytes) : List SWord := wordLoop str (intOf str.length).toNat 0 (intOf str.length) (0, [])

/-! ## The loop -/

variable {str : Bytes} {pos en n : ℕ} {size : ℤ} {st : ℕ × List SWord} {w : SWord}

/-- No character without room. -/
theorem checkChar_nonpos (data : Bytes) (h : size ≤ 0) : checkChar data size = 0 := if_pos h

/-- A character fits in the room. -/
theorem checkChar_le (data : Bytes) (h : 0 < checkChar data size) : checkChar data size ≤ size := by
  unfold checkChar at h ⊢
  split_ifs at h ⊢ <;> omega

/-- **The rounds are enough**: more of them than there are bytes change nothing. -/
theorem wordLoop_rounds (h : size ≤ n) : wordLoop str (n + 1) pos size st = wordLoop str n pos size st := by
  induction n generalizing pos size st with
  | zero => simp [wordLoop, checkChar_nonpos _ h]
  | succ n ih =>
      conv_lhs => rw [wordLoop]
      conv_rhs => rw [wordLoop]
      by_cases hpos : 0 < checkChar (str.drop pos) size
      · simp only [if_pos hpos]
        exact ih (by push_cast at h; omega)
      · simp only [if_neg hpos]

/-- The word of a run, if there is one. -/
theorem mem_closeRun : w ∈ closeRun pos en ↔ 0 < en ∧ w = ⟨pos - en, en⟩ := by
  unfold closeRun
  split_ifs with h <;> simp [h]

/-- The run that is not closed and the words end in front of a place. -/
structure Within (pos : ℕ) (st : ℕ × List SWord) : Prop where
  run : st.1 ≤ pos
  words : ∀ w ∈ st.2, w.word + w.size ≤ pos

/-- The word of a run is within. -/
theorem Within.closeRun (h : Within pos st) : ∀ w ∈ st.2 ++ closeRun pos st.1, w.word + w.size ≤ pos := by
  intro w hw
  rcases List.mem_append.mp hw with hw | hw
  · exact h.words w hw
  · obtain ⟨-, rfl⟩ := mem_closeRun.mp hw
    exact (Nat.sub_add_cancel h.run).le

/-- One character more. -/
theorem Within.wordStep {len : ℤ} (h : Within pos st) :
    Within (pos + len.toNat) (wordStep str pos len st) := by
  have hclosed : ∀ w ∈ st.2 ++ Acm.closeRun pos st.1, w.word + w.size ≤ pos + len.toNat := fun w hw =>
    (h.closeRun w hw).trans (Nat.le_add_right ..)
  have hrun := h.run
  unfold Acm.wordStep
  split_ifs
  · exact ⟨by simp; omega, fun w hw => (h.words w hw).trans (Nat.le_add_right ..)⟩
  · exact ⟨Nat.zero_le _, hclosed⟩
  · refine ⟨Nat.zero_le _, fun w hw => ?_⟩
    rcases List.mem_append.mp hw with hw | hw
    · exact hclosed w hw
    · simp [List.mem_singleton.mp hw]
  · exact ⟨hrun.trans (Nat.le_add_right ..), fun w hw => (h.words w hw).trans (Nat.le_add_right ..)⟩

/-- All words are within the text. -/
theorem wordLoop_within (h : Within pos st) (hsize : pos + size ≤ str.length) (hn : pos ≤ str.length) :
    ∀ w ∈ wordLoop str n pos size st, w.word + w.size ≤ str.length := by
  induction n generalizing pos size st with
  | zero => exact fun w hw => (h.closeRun w hw).trans hn
  | succ n ih =>
      intro w hw
      rw [wordLoop] at hw
      by_cases hpos : 0 < checkChar (str.drop pos) size
      · simp only [if_pos hpos] at hw
        have hle := checkChar_le _ hpos
        exact ih h.wordStep (by omega) (by omega) w hw
      · simp only [if_neg hpos] at hw
        exact (h.closeRun w hw).trans hn

/-- **The words** of a string are in it. -/
theorem getWord_within (str : Bytes) : ∀ w ∈ getWord str, w.word + w.size ≤ str.length := by
  have hle := intOf_le str.length
  exact wordLoop_within ⟨Nat.le_refl 0, nofun⟩ (by simpa using hle) (Nat.zero_le _)

/-! ## Characters -/

/-- A complete character of GB18030. -/
inductive GbChar where
  | one (a : UInt8) (ha : a < 0x80)
  | two (a b : UInt8) (ha : 0x81 ≤ a ∧ a ≤ 0xFE) (hb : 0x40 ≤ b ∧ b ≤ 0xFE ∧ b ≠ 0x7F)
  | four (a b c d : UInt8) (ha : 0x81 ≤ a ∧ a ≤ 0xFE) (hb : 0x30 ≤ b ∧ b ≤ 0x39)
      (hc : 0x81 ≤ c ∧ c ≤ 0xFE) (hd : 0x30 ≤ d ∧ d ≤ 0x39)

namespace GbChar

/-- Its bytes. -/
def bytes : GbChar → Bytes
  | one a _ => [a]
  | two a b _ _ => [a, b]
  | four a b c d _ _ _ _ => [a, b, c, d]

/-- A letter or a digit. -/
def IsAlnum : GbChar → Prop
  | one a _ => isAlnum a = true
  | _ => False

/-- A character of two bytes. -/
def IsTwo (c : GbChar) : Prop := c.bytes.length = 2

/-- A character of four bytes. -/
def IsFour (c : GbChar) : Prop := c.bytes.length = 4

end GbChar

/-- A string of complete characters. -/
def text (cs : List GbChar) : Bytes := cs.flatMap GbChar.bytes

/-- **The words** of the characters from a place on: the runs of letters and digits, as long as they are, and
the characters of two bytes. -/
inductive Words : ℕ → List GbChar → List SWord → Prop
  | nil (pos : ℕ) : Words pos [] []
  | run {pos run cs ws} : run ≠ [] → (∀ c ∈ run, c.IsAlnum) → (∀ c ∈ cs.head?, ¬ c.IsAlnum) →
      Words (pos + run.length) cs ws → Words pos (run ++ cs) (⟨pos, run.length⟩ :: ws)
  | two {pos c cs ws} : c.IsTwo → Words (pos + 2) cs ws → Words pos (c :: cs) (⟨pos, 2⟩ :: ws)
  | other {pos c cs ws} : ¬ c.IsAlnum → ¬ c.IsTwo → Words (pos + c.bytes.length) cs ws →
      Words pos (c :: cs) ws

/-- The words behind a run of `en` letters and digits; a character of four bytes closes the run, or it does
not. -/
def wordsBehind (closes : Bool) : ℕ → ℕ → List GbChar → List SWord
  | pos, en, [] => closeRun pos en
  | pos, en, .one a _ :: cs =>
      if isAlnum a then wordsBehind closes (pos + 1) (en + 1) cs
      else closeRun pos en ++ wordsBehind closes (pos + 1) 0 cs
  | pos, en, .two .. :: cs => closeRun pos en ++ ⟨pos, 2⟩ :: wordsBehind closes (pos + 2) 0 cs
  | pos, en, .four .. :: cs =>
      if closes then closeRun pos en ++ wordsBehind closes (pos + 4) 0 cs
      else wordsBehind closes (pos + 4) en cs

variable {c : GbChar} {cs cs' run : List GbChar} {ws : List SWord} {closes : Bool}

/-- A character in front of others. -/
@[simp] theorem text_cons (c : GbChar) (cs : List GbChar) : text (c :: cs) = c.bytes ++ text cs := rfl

/-- No run is no word. -/
@[simp] theorem closeRun_zero (pos : ℕ) : closeRun pos 0 = [] := rfl

/-- Each character has a byte. -/
theorem one_le_length_bytes (c : GbChar) : 1 ≤ c.bytes.length := by
  cases c <;> simp [GbChar.bytes]

/-! ## The words of a text -/

/-- A character that is no letter closes the run. -/
theorem wordsBehind_close (h : ∀ c ∈ cs.head?, ¬ c.IsAlnum) (pos en : ℕ) :
    wordsBehind true pos en cs = closeRun pos en ++ wordsBehind true pos 0 cs := by
  match cs with
  | [] => simp [wordsBehind]
  | .one a _ :: cs =>
      have ha : isAlnum a = false := by simpa [GbChar.IsAlnum] using h
      simp [wordsBehind, ha]
  | .two .. :: cs => simp [wordsBehind]
  | .four .. :: cs => simp [wordsBehind]

/-- Letters and digits make a run longer. -/
theorem wordsBehind_run (h : ∀ c ∈ run, c.IsAlnum) (pos en : ℕ) (cs : List GbChar) :
    wordsBehind closes pos en (run ++ cs) = wordsBehind closes (pos + run.length) (en + run.length) cs := by
  induction run generalizing pos en with
  | nil => rfl
  | cons c run ih =>
      obtain ⟨hc, hrun⟩ := List.forall_mem_cons.mp h
      cases c with
      | one a ha =>
          have ha : isAlnum a = true := hc
          rw [List.cons_append, wordsBehind, if_pos ha, ih hrun, List.length_cons]
          congr 1 <;> omega
      | two => exact hc.elim
      | four => exact hc.elim

/-- A run in front of a character that closes it. -/
theorem Words.close (h : Words (pos + run.length) cs ws) (hrun : ∀ c ∈ run, c.IsAlnum)
    (hhead : ∀ c ∈ cs.head?, ¬ c.IsAlnum) :
    Words pos (run ++ cs) (closeRun (pos + run.length) run.length ++ ws) := by
  by_cases hne : run = []
  · simpa [hne] using h
  · have hpos := List.length_pos_of_ne_nil hne
    simpa [closeRun, hpos] using h.run hne hrun hhead

/-- **The words behind a run** are the maximal runs and the wide characters. -/
theorem words_wordsBehind (run : List GbChar) (hrun : ∀ c ∈ run, c.IsAlnum) (pos : ℕ) (cs : List GbChar) :
    Words pos (run ++ cs) (wordsBehind true (pos + run.length) run.length cs) := by
  induction cs generalizing pos run with
  | nil =>
      have hnil := (Words.nil (pos + run.length)).close hrun nofun
      simpa [wordsBehind] using hnil
  | cons c cs ih =>
      have hfresh := ih [] nofun
      cases c with
      | one a ha =>
          by_cases halnum : isAlnum a = true
          · have hlonger : ∀ c ∈ run ++ [GbChar.one a ha], c.IsAlnum :=
              List.forall_mem_append.mpr ⟨hrun, List.forall_mem_singleton.mpr halnum⟩
            have hih := ih _ hlonger pos
            rw [List.length_append, List.append_assoc] at hih
            rwa [wordsBehind, if_pos halnum]
          · rw [wordsBehind, if_neg halnum]
            have hother : Words (pos + run.length) (.one a ha :: cs) _ :=
              .other halnum (by simp [GbChar.IsTwo, GbChar.bytes]) (hfresh _)
            exact hother.close hrun (by simpa [GbChar.IsAlnum] using halnum)
      | two a b ha hb =>
          have htwo : Words (pos + run.length) (.two a b ha hb :: cs) _ := .two rfl (hfresh _)
          exact htwo.close hrun (by simp [GbChar.IsAlnum])
      | four a b c d ha hb hc hd =>
          rw [wordsBehind, if_pos rfl]
          have hother : Words (pos + run.length) (.four a b c d ha hb hc hd :: cs) _ :=
            .other id (by simp [GbChar.IsTwo, GbChar.bytes]) (hfresh _)
          exact hother.close hrun (by simp [GbChar.IsAlnum])

/-- **There is one list** of words for each text. -/
theorem words_iff : Words pos cs ws ↔ ws = wordsBehind true pos 0 cs := by
  constructor
  · intro h
    induction h with
    | nil => rfl
    | @run pos run cs ws hne hrun hhead _ ih =>
        have hpos := List.length_pos_of_ne_nil hne
        rw [wordsBehind_run hrun, wordsBehind_close hhead, ← ih, Nat.zero_add]
        simp [closeRun, hpos]
    | @two pos c cs ws hc _ ih =>
        cases c with
        | one => cases hc
        | two => simp [wordsBehind, ih]
        | four => cases hc
    | @other pos c cs ws halnum htwo _ ih =>
        cases c with
        | one a =>
            have ha : isAlnum a = false := by simpa [GbChar.IsAlnum] using halnum
            simp [wordsBehind, ha, ih, GbChar.bytes]
        | two => exact absurd rfl htwo
        | four => simp [wordsBehind, ih, GbChar.bytes]
  · rintro rfl
    exact words_wordsBehind [] nofun pos cs

/-! ## The characters that are counted -/

/-- The characters in the first `n` bytes. -/
def fitting : ℕ → List GbChar → List GbChar
  | _, [] => []
  | n, c :: cs => if c.bytes.length ≤ n then c :: fitting (n - c.bytes.length) cs else []

/-- The characters of a text in as many bytes as its size says, which is an `int`. -/
def seenChars (cs : List GbChar) : List GbChar := fitting (intOf (text cs).length).toNat cs

/-- A text that fits is read whole. -/
theorem fitting_of_le (h : (text cs).length ≤ n) : fitting n cs = cs := by
  induction cs generalizing n with
  | nil => rfl
  | cons c cs ih =>
      rw [text_cons, List.length_append] at h
      rw [fitting, if_pos (by omega), ih (by omega)]

/-- A text below 2^31 bytes is seen whole. -/
theorem seenChars_of_lt (h : (text cs).length < 2 ^ 31) : seenChars cs = cs := by
  rw [seenChars, intOf_of_lt h]
  exact fitting_of_le (Nat.le_refl _)

/-- What fits is the beginning of a text. -/
theorem fitting_prefix (n : ℕ) (cs : List GbChar) : fitting n cs <+: cs := by
  induction cs generalizing n with
  | nil => exact List.prefix_refl []
  | cons c cs ih =>
      rw [fitting]
      split_ifs
      · exact (List.prefix_cons_inj c).mpr (ih _)
      · exact List.nil_prefix

/-- A character is found if it fits. -/
theorem checkChar_bytes (c : GbChar) (rest : Bytes) (h : c.bytes.length ≤ size) :
    checkChar (c.bytes ++ rest) size = c.bytes.length := by
  cases c <;> simp [checkChar, GbChar.bytes] at h ⊢ <;> grind

/-- A character that is cut off ends the loop. -/
theorem checkChar_cut (c : GbChar) (rest : Bytes) (h : size < c.bytes.length) :
    checkChar (c.bytes ++ rest) size ≤ 0 := by
  cases c <;> simp [checkChar, GbChar.bytes] at h ⊢ <;> grind

/-- A round of the loop by a character. -/
theorem wordStep_char (pre rest : Bytes) (c : GbChar) :
    (wordStep (pre ++ (c.bytes ++ rest)) pre.length c.bytes.length st).2 ++
      wordsBehind false (pre.length + c.bytes.length)
        (wordStep (pre ++ (c.bytes ++ rest)) pre.length c.bytes.length st).1 cs =
    st.2 ++ wordsBehind false pre.length st.1 (c :: cs) := by
  cases c with
  | one a ha =>
      by_cases halnum : isAlnum a = true
      · simp [wordStep, wordsBehind, GbChar.bytes, halnum]
      · simp [wordStep, wordsBehind, GbChar.bytes, halnum]
  | two => simp [wordStep, wordsBehind, GbChar.bytes]
  | four => simp [wordStep, wordsBehind, GbChar.bytes]

/-- Nothing fits without room. -/
theorem fitting_zero (cs : List GbChar) : fitting 0 cs = [] := by
  cases cs with
  | nil => rfl
  | cons c cs =>
      have := one_le_length_bytes c
      exact if_neg (by omega)

/-- **The loop** by characters. -/
theorem wordLoop_text (pre : Bytes) (st : ℕ × List SWord) (hn : size ≤ n) (hsize : size ≤ (text cs).length) :
    wordLoop (pre ++ text cs) n pre.length size st =
      st.2 ++ wordsBehind false pre.length st.1 (fitting size.toNat cs) := by
  induction n generalizing pre size st cs with
  | zero =>
      have hzero : size.toNat = 0 := by omega
      rw [hzero, fitting_zero]
      rfl
  | succ n ih =>
      rw [wordLoop, List.drop_left]
      cases cs with
      | nil => simp [checkChar_nonpos _ hsize, fitting, wordsBehind]
      | cons c cs =>
          have hone := one_le_length_bytes c
          rw [text_cons, List.length_append] at hsize
          rw [text_cons, fitting]
          by_cases hfit : (c.bytes.length : ℤ) ≤ size
          · have htoNat : (size - c.bytes.length).toNat = size.toNat - c.bytes.length := by omega
            have hrest : size - c.bytes.length ≤ (text cs).length := by omega
            have hih := ih (pre ++ c.bytes) (wordStep (pre ++ (c.bytes ++ text cs)) pre.length c.bytes.length st)
              (by omega) hrest
            rw [List.append_assoc, List.length_append] at hih
            simp only [checkChar_bytes c _ hfit, Int.toNat_natCast]
            rw [if_pos (by omega), if_pos (by omega), hih, htoNat, wordStep_char]
          · have hcut := checkChar_cut c (text cs) (not_le.mp hfit)
            simp only [if_neg (not_lt.mpr hcut)]
            rw [if_neg (by omega)]
            rfl

/-- **What is found**: the words of the characters that are counted, where one of four bytes does not close a
run. -/
theorem getWord_text (cs : List GbChar) : getWord (text cs) = wordsBehind false 0 0 (seenChars cs) := by
  have hloop := wordLoop_text [] (0, []) (Int.self_le_toNat (intOf (text cs).length)) (intOf_le _)
  simpa [getWord, seenChars] using hloop

/-! ## When the words are found -/

/-- No character of four bytes stands right behind a letter or a digit. -/
def Closed (cs : List GbChar) : Prop := cs.IsChain fun c d => c.IsAlnum → ¬ d.IsFour

/-- A word behind a run begins at the run or behind it. -/
theorem le_word_of_mem (hw : w ∈ wordsBehind closes pos en cs) : pos - en ≤ w.word := by
  have hrun : ∀ w ∈ closeRun pos en, pos - en ≤ w.word := fun w hw =>
    (mem_closeRun.mp hw).2 ▸ Nat.le_refl _
  induction cs generalizing pos en with
  | nil => exact hrun w hw
  | cons c cs ih =>
      have hbehind : ∀ {pos' en'}, pos - en ≤ pos' - en' → w ∈ wordsBehind closes pos' en' cs →
          pos - en ≤ w.word := fun hle hw =>
        hle.trans (ih hw fun w hw => (mem_closeRun.mp hw).2 ▸ Nat.le_refl _)
      cases c with
      | one a =>
          rw [wordsBehind] at hw
          split_ifs at hw
          · exact hbehind (by omega) hw
          · exact (List.mem_append.mp hw).elim (hrun w) (hbehind (by omega))
      | two =>
          simp only [wordsBehind, List.mem_append, List.mem_cons] at hw
          rcases hw with hw | rfl | hw
          · exact hrun w hw
          · exact Nat.sub_le pos en
          · exact hbehind (by omega) hw
      | four =>
          rw [wordsBehind] at hw
          split_ifs at hw
          · exact (List.mem_append.mp hw).elim (hrun w) (hbehind (by omega))
          · exact hbehind (by omega) hw

/-- One character in front of a closed text. -/
theorem closed_cons : Closed (c :: cs) ↔ (c.IsAlnum → ∀ d ∈ cs.head?, ¬ d.IsFour) ∧ Closed cs := by
  unfold Closed
  rw [List.isChain_cons]
  tauto

/-- Up to the first character of four bytes right behind a run, it does not matter whether one closes it. -/
theorem wordsBehind_eq_iff (hen : en ≤ pos) :
    wordsBehind false pos en cs = wordsBehind true pos en (cs ++ cs') ↔
      ((0 < en → ∀ c ∈ cs.head?, ¬ c.IsFour) ∧ Closed cs) ∧
        wordsBehind true pos en cs = wordsBehind true pos en (cs ++ cs') := by
  induction cs generalizing pos en with
  | nil => simp [wordsBehind, Closed]
  | cons c cs ih =>
      rw [closed_cons, List.cons_append]
      cases c with
      | one a ha =>
          by_cases halnum : isAlnum a = true
          · simp [wordsBehind, halnum, ih (Nat.succ_le_succ hen), GbChar.IsAlnum, GbChar.IsFour, GbChar.bytes]
          · simp [wordsBehind, halnum, ih (Nat.zero_le (pos + 1)), GbChar.IsAlnum, GbChar.IsFour, GbChar.bytes]
      | two =>
          simp [wordsBehind, ih (Nat.zero_le (pos + 2)), GbChar.IsAlnum, GbChar.IsFour, GbChar.bytes]
      | four a b c d ha hb hc hd =>
          rcases Nat.eq_zero_or_pos en with rfl | hpos
          · simp [wordsBehind, ih (Nat.zero_le (pos + 4)), GbChar.IsAlnum]
          · refine iff_of_false (fun heq => ?_) fun h => h.1.1 hpos _ rfl rfl
            have hrun : (⟨pos - en, en⟩ : SWord) ∈ wordsBehind false (pos + 4) en cs := by
              rw [wordsBehind, if_neg Bool.false_ne_true] at heq
              rw [heq, wordsBehind, if_pos rfl]
              exact List.mem_append_left _ (mem_closeRun.mpr ⟨hpos, rfl⟩)
            have hle := le_word_of_mem hrun
            simp only at hle
            omega

/-- **When the words are found**: where no character of four bytes stands right behind a letter or a digit. In
a text whose size is no `int` the characters that are not counted must not matter. -/
theorem getWord_iff (cs : List GbChar) : Words 0 cs (getWord (text cs)) ↔ Closed (seenChars cs) ∧
    ((text cs).length < 2 ^ 31 ∨ ∃ ws, Words 0 (seenChars cs) ws ∧ Words 0 cs ws) := by
  obtain ⟨cs', hcs⟩ := fitting_prefix (intOf (text cs).length).toNat cs
  have hseen : seenChars cs ++ cs' = cs := hcs
  have hiff : wordsBehind false 0 0 (seenChars cs) = wordsBehind true 0 0 (seenChars cs ++ cs') ↔ _ :=
    wordsBehind_eq_iff (Nat.le_refl 0)
  rw [hseen] at hiff
  have hsame : (∃ ws, Words 0 (seenChars cs) ws ∧ Words 0 cs ws) ↔
      wordsBehind true 0 0 (seenChars cs) = wordsBehind true 0 0 cs := by
    simp [words_iff]
  have hshort : (text cs).length < 2 ^ 31 → wordsBehind true 0 0 (seenChars cs) = wordsBehind true 0 0 cs :=
    fun hlt => by rw [seenChars_of_lt hlt]
  rw [words_iff, getWord_text, hiff, hsame, or_iff_right_of_imp hshort]
  simp

/-- The run in front of a character of four bytes is not reported, and one at its last byte is. -/
theorem getWord_four : ¬ ∀ cs : List GbChar, Words 0 cs (getWord (text cs)) := by
  intro h
  have hwords := words_iff.mp (h [.one 97 (by decide),
    .four 0x81 0x30 0x81 0x30 (by decide) (by decide) (by decide) (by decide), .one 98 (by decide)])
  exact absurd hwords (by decide)

end Asenal.Acm
