import Asenal.Conf.Reading

/-!
# The shape of a line

What the state machine makes of a line, said without the machine: blanks, a name, a colon that may have blanks
around it, and a value that goes on to the end of the line but for the blanks there. A line without a value is an item
only if something ends it: its newline or a carriage return.

* `lineOf_eq` — the machine reads a line by its shape.
* `shape_newline` — the shape of a line with a newline.
* `stored_concat`, `complete_concat` — what one more line adds to what has been read.
-/

namespace Asenal.Conf

open Asenal.Lib.Text Asenal.Lib.CString Asenal.Lib.Memory

/-! ## The shape -/

/-- A comment line. -/
def isComment (l : Bytes) : Bool := l.head? == some 35

/-- A byte that the reader takes as a part of a name. -/
def isNameByte (b : UInt8) : Bool := !(isBlank b || isEol b || b == 58 || b == 0)

/-- The name of a line: what stands behind the blanks in front. -/
def lineName (t : Bytes) : Bytes := (t.dropWhile isBlank).takeWhile isNameByte

/-- What stands behind the name of a line. -/
def behindName (t : Bytes) : Bytes := (t.dropWhile isBlank).dropWhile isNameByte

/-- What stands behind a colon, without the blanks around the colon. -/
def behindColon (r : Bytes) : Option Bytes :=
  match r.dropWhile isBlank with
  | 58 :: r => some (r.dropWhile isBlank)
  | _ => none

/-- The value in what stands behind the colon. -/
def lineValue (v : Bytes) : Bytes := if v.head?.any isEol then [] else trimTail v

/-- The name fills the array: with the terminator of the line, if nothing else follows it. -/
def nameTooLong (t : Bytes) : Bool :=
  decide (wordSize ≤ (lineName t).length) || decide ((lineName t).length + 1 = wordSize) && (behindName t).isEmpty

/-- A name with what stands behind its colon. -/
def valueLine (name v : Bytes) : Line :=
  if v ≠ [] ∧ (lineValue v).length < wordSize then .item ⟨name, lineValue v⟩ else .skip

/-- What a C string is as a line. -/
def shape (t : Bytes) : Line :=
  if nameTooLong t then .tooLong
  else if lineName t = [] then .skip
  else (behindColon (behindName t)).elim .skip (valueLine (lineName t))

/-- The line that the reader makes of what the machine says. -/
def Line.ofScan : Option LineScan → Line
  | none => .tooLong
  | some st => if st.status = .done ∧ st.sepSign = true then .item ⟨printWord st.tmp1, printWord st.tmp2⟩ else .skip

variable {line name r rest t x : Bytes} {c : UInt8} {st : LineScan}

/-- What a byte of a name is not. -/
theorem isNameByte_iff (b : UInt8) :
    isNameByte b = true ↔ isBlank b = false ∧ isEol b = false ∧ b ≠ 58 ∧ b ≠ 0 := by
  simp [isNameByte, and_assoc]

/-- Without a colon a line is skipped. -/
theorem Line.ofScan_of_sepSign (h : st.sepSign = false) : Line.ofScan (some st) = .skip :=
  if_neg fun hitem => Bool.false_ne_true (h.symm.trans hitem.2)

/-- What stands behind a colon. -/
theorem behindColon_colon (h : r.dropWhile isBlank = 58 :: x) : behindColon r = some (x.dropWhile isBlank) := by
  rw [behindColon, h]
  rfl

/-- Nothing stands behind another character. -/
theorem behindColon_other (h : r.dropWhile isBlank = c :: x) (hc : c ≠ 58) : behindColon r = none := by
  rw [behindColon, h]
  split
  · rename_i heq
    exact absurd (List.cons.inj heq).1 hc
  · rfl

/-- A line without a name is nothing. -/
theorem shape_of_lineName (h : lineName t = []) : shape t = .skip := by
  simp [shape, nameTooLong, h, wordSize]

/-! ## The machine -/

/-- A character that does not end the loop. -/
theorem scanFrom_cons {line : Bytes} {i : ℕ} {ch : UInt8} {rest : Bytes} {st st' : LineScan}
    (hstop : ¬ (st.status = .done ∨ st.status = .bad)) (h : st.step line i ch = some st') :
    scanFrom line i (ch :: rest) st = scanFrom line (i + 1) rest st' := by
  rw [scanFrom, if_neg hstop, h]

/-- The loop ends when the line is decided. -/
theorem scanFrom_stop (line : Bytes) (i : ℕ) (rest : Bytes) {st : LineScan}
    (h : st.status = .done ∨ st.status = .bad) : scanFrom line i rest st = some st := by
  cases rest with
  | nil => rfl
  | cons ch rest => rw [scanFrom, if_pos h]

/-- An accepted line ends the loop. -/
theorem scanFrom_done (line : Bytes) (i : ℕ) (rest : Bytes) {st : LineScan}
    (h : st.status = .done) : scanFrom line i rest st = some st :=
  scanFrom_stop line i rest (Or.inl h)

/-- The bytes of a name are collected. -/
theorem scanFrom_name {line w : Bytes} (hw : ∀ b ∈ w, isNameByte b = true) (i : ℕ) (rest t : Bytes)
    (ht : t.length + w.length < wordSize) :
    scanFrom line i (w ++ rest) ⟨.name, false, t, []⟩ =
      scanFrom line (i + w.length) rest ⟨.name, false, t ++ w, []⟩ := by
  induction w generalizing i t with
  | nil => rw [List.nil_append, List.append_nil, List.length_nil, Nat.add_zero]
  | cons b w ih =>
      rw [List.forall_mem_cons] at hw
      obtain ⟨hblank, heol, hcolon, -⟩ := (isNameByte_iff b).mp hw.1
      rw [List.length_cons] at ht
      have hlen : (t ++ [b]).length = t.length + 1 := by
        rw [List.length_append, List.length_singleton]
      have hstep : LineScan.step line i b ⟨.name, false, t, []⟩ =
          some ⟨.name, false, t ++ [b], []⟩ := by
        have hroom : t.length + 1 < wordSize := by omega
        simp [LineScan.step, hblank, heol, hcolon, hroom]
      rw [List.cons_append, scanFrom_cons (by simp) hstep, ih hw.2 _ _ (by omega),
        List.append_assoc, List.length_cons, Nat.add_assoc, Nat.add_comm 1]
      rfl

/-- What stands in front of a text that is not blank does not matter to its end. -/
theorem trimTail_append (pre : Bytes) {w : Bytes} (hw : trimTail w ≠ []) :
    trimTail (pre ++ w) = pre ++ trimTail w := by
  unfold trimTail List.rdropWhile at *
  rw [Ne, List.reverse_eq_nil_iff] at hw
  rw [List.reverse_append, List.dropWhile_append, if_neg (by simpa using hw), List.reverse_append,
    List.reverse_reverse]

/-- The newline at the end is cut off. -/
theorem trimTail_newline (w : Bytes) : trimTail (w ++ [10]) = trimTail w :=
  List.rdropWhile_concat_pos _ _ _ (by decide)

/-- A text that begins with a character of a value is not blank. -/
theorem trimTail_ne_nil {c : UInt8} (v : Bytes) (hc : (isBlank c || isEol c || c == 0) = false) :
    trimTail (c :: v) ≠ [] := by
  unfold trimTail
  rw [Ne, List.rdropWhile_eq_nil_iff]
  intro hall
  rw [hall c List.mem_cons_self] at hc
  exact absurd hc (by decide)

/-- The value is copied from its first character on, if it fits. -/
theorem scanFrom_copy (pre t v : Bytes) {c : UInt8} (sep : Bool)
    (hc : (isBlank c || isEol c || c == 0) = false) {rest : Bytes} (hrest : rest ≠ []) :
    scanFrom (pre ++ c :: v) (pre.length + 1) rest ⟨.value, sep, t, []⟩ =
      some (if (trimTail (c :: v)).length < wordSize then ⟨.done, sep, t, trimTail (c :: v)⟩
        else ⟨.bad, sep, t, []⟩) := by
  obtain ⟨d, rest, rfl⟩ := List.exists_cons_of_ne_nil hrest
  have hne := trimTail_ne_nil v hc
  have hpos := List.length_pos_of_ne_nil hne
  have htotal : (pre ++ trimTail (c :: v)).length = pre.length + (trimTail (c :: v)).length :=
    List.length_append
  have hcond : (1 ≤ pre.length + 1 ∧ pre.length + 1 ≤ (pre ++ trimTail (c :: v)).length ∧
      (pre ++ trimTail (c :: v)).length - (pre.length + 1) + 1 < wordSize) ↔
      (trimTail (c :: v)).length < wordSize := by
    omega
  have hstep : LineScan.step (pre ++ c :: v) (pre.length + 1) d ⟨.value, sep, t, []⟩ =
      some (if (trimTail (c :: v)).length < wordSize then ⟨.done, sep, t, trimTail (c :: v)⟩
        else ⟨.bad, sep, t, []⟩) := by
    simp only [LineScan.step, trimTail_append pre hne, hcond]
    split_ifs with hfit
    · rw [Nat.add_sub_cancel, List.drop_left, List.take_of_length_le (by omega)]
    · rfl
  rw [scanFrom_cons (by simp) hstep]
  apply scanFrom_stop
  split_ifs
  · exact Or.inl rfl
  · exact Or.inr rfl

/-- Blanks are passed over in front of the name and in front of the value. -/
theorem scanFrom_blanks (hst : st.status = .lead ∨ st.status = .gap) {w : Bytes} (hw : ∀ b ∈ w, isBlank b = true)
    (i : ℕ) (rest : Bytes) : scanFrom line i (w ++ rest) st = scanFrom line (i + w.length) rest st := by
  have hgo : ¬ (st.status = .done ∨ st.status = .bad) := by
    rcases hst with h | h <;> simp [h]
  induction w generalizing i with
  | nil => rfl
  | cons b w ih =>
      rw [List.forall_mem_cons] at hw
      have hcolon : b ≠ 58 := by
        rintro rfl
        exact absurd hw.1 (by decide)
      have hstep : st.step line i b = some st := by
        rcases hst with h | h <;> simp [LineScan.step, h, hw.1, hcolon]
      rw [List.cons_append, scanFrom_cons hgo hstep, ih hw.2, List.length_cons, Nat.add_assoc, Nat.add_comm 1]

/-- Blanks that begin a text are passed over. -/
theorem scanFrom_dropWhile (hst : st.status = .lead ∨ st.status = .gap) (pre r : Bytes) :
    scanFrom (pre ++ r) pre.length (r ++ [0]) st =
      scanFrom ((pre ++ r.takeWhile isBlank) ++ r.dropWhile isBlank) (pre ++ r.takeWhile isBlank).length
        (r.dropWhile isBlank ++ [0]) st := by
  have hw : ∀ b ∈ r.takeWhile isBlank, isBlank b = true := fun b hb => List.mem_takeWhile_imp hb
  conv_lhs => rw [← List.takeWhile_append_dropWhile (p := isBlank) (l := r)]
  rw [List.append_assoc _ _ [0], scanFrom_blanks hst hw, List.append_assoc, List.length_append]

/-- An empty line stays one. -/
theorem scanFrom_empty (hst : st.status = .empty) (i : ℕ) (rest : Bytes) :
    scanFrom line i rest st = some st := by
  induction rest generalizing i with
  | nil => rfl
  | cons b rest ih =>
      rw [scanFrom_cons (by simp [hst]) (show st.step line i b = some st by simp [LineScan.step, hst]), ih]

/-- A name that fills the array ends the reading. -/
theorem scanFrom_longName {w : Bytes} (hw : ∀ b ∈ w, isNameByte b = true) (i : ℕ) (rest : Bytes) {n : Bytes}
    (hn : n.length < wordSize) (hlong : wordSize ≤ n.length + w.length) :
    scanFrom line i (w ++ rest) ⟨.name, false, n, []⟩ = none := by
  induction w generalizing i n with
  | nil => exact absurd hlong (by rw [List.length_nil]; omega)
  | cons b w ih =>
      rw [List.forall_mem_cons] at hw
      obtain ⟨hblank, heol, hcolon, -⟩ := (isNameByte_iff b).mp hw.1
      rw [List.length_cons] at hlong
      have hlen : (n ++ [b]).length = n.length + 1 := by rw [List.length_append, List.length_singleton]
      rw [List.cons_append, scanFrom, if_neg (by simp)]
      by_cases hfull : wordSize ≤ n.length + 1
      · simp [LineScan.step, hblank, heol, hcolon, hfull]
      · have hstep : LineScan.step line i b ⟨.name, false, n, []⟩ = some ⟨.name, false, n ++ [b], []⟩ := by
          simp [LineScan.step, hblank, heol, hcolon, hfull]
        rw [hstep]
        exact ih hw.2 (i + 1) (by omega) (by omega)

/-- A text begins behind its blanks with no blank. -/
theorem isBlank_of_dropWhile (h : r.dropWhile isBlank = c :: x) : isBlank c = false := by
  have hhead := List.head_dropWhile_not isBlank (l := r) (by rw [h]; exact List.cons_ne_nil c x)
  simpa only [h, List.head_cons] using hhead

/-- A part of a line has no terminator in it. -/
theorem ne_zero_of_dropWhile {q : UInt8 → Bool} (hr : 0 ∉ r) (h : r.dropWhile q = c :: x) :
    c ≠ 0 ∧ 0 ∉ x := by
  have hmem : ∀ b ∈ c :: x, b ∈ r := fun b hb => (List.dropWhile_suffix q).subset (h ▸ hb)
  exact ⟨fun hc => hr (hc ▸ hmem c List.mem_cons_self), fun hx => hr (hmem 0 (List.mem_cons_of_mem c hx))⟩

/-- **Behind the colon** the machine reads a value. -/
theorem ofScan_gap_true (pre n : Bytes) (hr : 0 ∉ r) :
    Line.ofScan (scanFrom (pre ++ r) pre.length (r ++ [0]) ⟨.gap, true, n, []⟩) =
      valueLine (printWord n) (r.dropWhile isBlank) := by
  rw [scanFrom_dropWhile (Or.inr rfl)]
  generalize pre ++ r.takeWhile isBlank = pre
  cases hv : r.dropWhile isBlank with
  | nil => rfl
  | cons c x =>
      have hblank := isBlank_of_dropWhile hv
      obtain ⟨hnul, -⟩ := ne_zero_of_dropWhile hr hv
      by_cases heol : isEol c = true
      · have hcolon : c ≠ 58 := by
          rintro rfl
          exact absurd heol (by decide)
        have hstep : LineScan.step (pre ++ c :: x) pre.length c ⟨.gap, true, n, []⟩ = some ⟨.done, true, n, []⟩ := by
          simp [LineScan.step, hblank, heol, hcolon]
        rw [List.cons_append, scanFrom_cons (by simp) hstep, scanFrom_done _ _ _ rfl]
        simp [Line.ofScan, valueLine, lineValue, heol, printWord, wordSize]
      · have hstep : LineScan.step (pre ++ c :: x) pre.length c ⟨.gap, true, n, []⟩ = some ⟨.value, true, n, []⟩ := by
          by_cases hcolon : c = 58 <;> simp [LineScan.step, hblank, heol, hcolon]
        have hvalue : lineValue (c :: x) = trimTail (c :: x) := if_neg heol
        rw [List.cons_append, scanFrom_cons (by simp) hstep,
          scanFrom_copy pre n x true (by simp [hblank, heol, hnul])
            (List.append_ne_nil_of_right_ne_nil x (List.cons_ne_nil 0 [])), valueLine, hvalue]
        by_cases hfit : (trimTail (c :: x)).length < wordSize
        · rw [if_pos hfit, if_pos ⟨List.cons_ne_nil c x, hfit⟩]
          have hprint : printWord (trimTail (c :: x)) = trimTail (c :: x) :=
            List.take_of_length_le (Nat.le_sub_one_of_lt hfit)
          rw [Line.ofScan, if_pos ⟨rfl, rfl⟩, hprint]
        · rw [if_neg hfit, if_neg fun h => hfit h.2]
          rfl

/-- In front of the colon it looks for one. -/
theorem ofScan_gap_false (pre n : Bytes) (hr : 0 ∉ r) :
    Line.ofScan (scanFrom (pre ++ r) pre.length (r ++ [0]) ⟨.gap, false, n, []⟩) =
      (behindColon r).elim .skip (valueLine (printWord n)) := by
  rw [scanFrom_dropWhile (Or.inr rfl)]
  generalize pre ++ r.takeWhile isBlank = pre
  cases hv : r.dropWhile isBlank with
  | nil =>
      rw [behindColon, hv]
      rfl
  | cons c x =>
      have hblank := isBlank_of_dropWhile hv
      obtain ⟨hnul, hx⟩ := ne_zero_of_dropWhile hr hv
      by_cases hcolon : c = 58
      · subst hcolon
        have hstep : LineScan.step (pre ++ 58 :: x) pre.length 58 ⟨.gap, false, n, []⟩ = some ⟨.gap, true, n, []⟩ := rfl
        have hrest := ofScan_gap_true (pre ++ [58]) n hx
        rw [List.append_assoc, List.singleton_append, List.length_append, List.length_singleton] at hrest
        rw [List.cons_append, scanFrom_cons (by simp) hstep, behindColon_colon hv]
        exact hrest
      · rw [behindColon_other hv hcolon, Option.elim_none]
        by_cases heol : isEol c = true
        · have hstep : LineScan.step (pre ++ c :: x) pre.length c ⟨.gap, false, n, []⟩ =
              some ⟨.done, false, n, []⟩ := by
            simp [LineScan.step, hblank, heol, hcolon]
          rw [List.cons_append, scanFrom_cons (by simp) hstep, scanFrom_done _ _ _ rfl]
          exact Line.ofScan_of_sepSign rfl
        · have hstep : LineScan.step (pre ++ c :: x) pre.length c ⟨.gap, false, n, []⟩ =
              some ⟨.value, false, n, []⟩ := by
            simp [LineScan.step, hblank, heol, hcolon]
          rw [List.cons_append, scanFrom_cons (by simp) hstep,
            scanFrom_copy pre n x false (by simp [hblank, heol, hnul])
              (List.append_ne_nil_of_right_ne_nil x (List.cons_ne_nil 0 []))]
          apply Line.ofScan_of_sepSign
          split_ifs <;> rfl

/-- Behind the name. -/
theorem ofScan_name (pre n : Bytes) (hr : 0 ∉ r) (hstart : ∀ b ∈ r.head?, isNameByte b = false) :
    Line.ofScan (scanFrom (pre ++ r) pre.length (r ++ [0]) ⟨.name, false, n, []⟩) =
      if r = [] ∧ wordSize ≤ n.length + 1 then .tooLong
      else (behindColon r).elim .skip (valueLine (printWord n)) := by
  cases r with
  | nil =>
      by_cases hfull : wordSize ≤ n.length + 1
      · simp [scanFrom, LineScan.step, isBlank, isEol, hfull, Line.ofScan]
      · simp [scanFrom, LineScan.step, isBlank, isEol, hfull, Line.ofScan, behindColon]
  | cons c x =>
      rw [List.mem_cons, not_or] at hr
      rw [if_neg fun h => List.cons_ne_nil c x h.1, List.cons_append]
      have hassoc : pre ++ c :: x = (pre ++ [c]) ++ x := List.append_cons pre c x
      have hlen : pre.length + 1 = (pre ++ [c]).length := by rw [List.length_append, List.length_singleton]
      by_cases hblank : isBlank c = true
      · have hstep : LineScan.step (pre ++ c :: x) pre.length c ⟨.name, false, n, []⟩ = some ⟨.gap, false, n, []⟩ := by
          have hcolon : c ≠ 58 := by
            rintro rfl
            exact absurd hblank (by decide)
          simp [LineScan.step, hblank, hcolon]
        have hskip : behindColon (c :: x) = behindColon x := by
          rw [behindColon, List.dropWhile_cons_of_pos hblank, behindColon]
        rw [scanFrom_cons (by simp) hstep, hskip, hassoc, hlen]
        exact ofScan_gap_false (pre ++ [c]) n hr.2
      · by_cases hcolon : c = 58
        · subst hcolon
          have hstep : LineScan.step (pre ++ 58 :: x) pre.length 58 ⟨.name, false, n, []⟩ =
              some ⟨.gap, true, n, []⟩ := rfl
          rw [scanFrom_cons (by simp) hstep, hassoc, hlen]
          exact ofScan_gap_true (pre ++ [58]) n hr.2
        · have heol : isEol c = true := by
            have hname := hstart c rfl
            simp only [isNameByte, Bool.not_eq_false', Bool.or_eq_true, beq_iff_eq] at hname
            rcases hname with ((h | h) | h) | h
            · exact absurd h hblank
            · exact h
            · exact absurd h hcolon
            · exact absurd h (Ne.symm hr.1)
          have hstep : LineScan.step (pre ++ c :: x) pre.length c ⟨.name, false, n, []⟩ =
              some ⟨.bad, false, n, []⟩ := by
            simp [LineScan.step, hblank, heol, hcolon]
          have hnone := behindColon_other (List.dropWhile_cons_of_neg hblank : (c :: x).dropWhile isBlank = c :: x) hcolon
          rw [scanFrom_cons (by simp) hstep, scanFrom_stop _ _ _ (Or.inr rfl), hnone]
          exact Line.ofScan_of_sepSign rfl

/-- From the first character of the name on. -/
theorem ofScan_start (pre : Bytes) (hc : isNameByte c = true) (hx : 0 ∉ x) :
    Line.ofScan (scanFrom (pre ++ c :: x) pre.length (c :: x ++ [0]) ⟨.lead, false, [], []⟩) =
      if nameTooLong (c :: x) then .tooLong
      else (behindColon (behindName (c :: x))).elim .skip (valueLine (lineName (c :: x))) := by
  obtain ⟨hblank, heol, hcolon, hnul⟩ := (isNameByte_iff c).mp hc
  have hlead : (c :: x).dropWhile isBlank = c :: x := List.dropWhile_cons_of_neg (by simp [hblank])
  have hstep : LineScan.step (pre ++ c :: x) pre.length c ⟨.lead, false, [], []⟩ = some ⟨.name, false, [c], []⟩ := by
    simp [LineScan.step, hblank, heol, hcolon]
  rw [nameTooLong, lineName, behindName, hlead, List.takeWhile_cons_of_pos hc, List.dropWhile_cons_of_pos hc,
    List.cons_append, scanFrom_cons (by simp) hstep]
  have hsplit := List.takeWhile_append_dropWhile (p := isNameByte) (l := x)
  have hbytes : ∀ b ∈ x.takeWhile isNameByte, isNameByte b = true := fun b hb => List.mem_takeWhile_imp hb
  have hrest : 0 ∉ x.dropWhile isNameByte := fun h => hx ((List.dropWhile_suffix isNameByte).subset h)
  have hstart : ∀ b ∈ (x.dropWhile isNameByte).head?, isNameByte b = false := by
    intro b hb
    have hnot := List.head?_dropWhile_not isNameByte x
    rw [Option.mem_def.mp hb] at hnot
    simpa using hnot
  generalize x.takeWhile isNameByte = m at *
  generalize x.dropWhile isNameByte = u at *
  subst hsplit
  rw [List.append_assoc m u [0], List.length_cons]
  by_cases hlong : wordSize ≤ m.length + 1
  · have hnone : scanFrom (pre ++ c :: (m ++ u)) (pre.length + 1) (m ++ (u ++ [0])) ⟨.name, false, [c], []⟩ = none :=
      scanFrom_longName hbytes _ _ (by simp [wordSize]) (by rw [List.length_singleton]; omega)
    rw [hnone]
    simp [Line.ofScan, hlong]
  · have hprint : printWord (c :: m) = c :: m :=
      List.take_of_length_le (by rw [List.length_cons]; simp only [wordSize] at *; omega)
    have hline : pre ++ c :: (m ++ u) = pre ++ c :: m ++ u := by simp
    have hpos : pre.length + 1 + m.length = (pre ++ c :: m).length := by
      rw [List.length_append, List.length_cons, Nat.add_assoc, Nat.add_comm 1]
    rw [scanFrom_name hbytes _ _ _ (by rw [List.length_singleton]; omega), List.singleton_append, hline, hpos,
      ofScan_name _ _ hrest hstart, hprint, List.length_cons]
    have hiff : (u = [] ∧ wordSize ≤ m.length + 1 + 1) ↔
        (decide (wordSize ≤ m.length + 1) || decide (m.length + 1 + 1 = wordSize) && u.isEmpty) = true := by
      simp only [Bool.or_eq_true, Bool.and_eq_true, decide_eq_true_eq, List.isEmpty_iff]
      constructor
      · exact fun h => Or.inr ⟨by omega, h.1⟩
      · rintro (h | h)
        · exact absurd h hlong
        · exact ⟨h.2, by omega⟩
    rw [if_congr hiff rfl rfl]

/-- **The machine reads a line by its shape.** -/
theorem ofScan_scanLine (ht : 0 ∉ t) : Line.ofScan (scanLine t) = shape t := by
  have hlead := @scanFrom_dropWhile ⟨.lead, false, [], []⟩ (Or.inl rfl) [] t
  rw [List.nil_append, List.nil_append] at hlead
  have hshape : shape t = shape (t.dropWhile isBlank) := by
    have hagain : (t.dropWhile isBlank).dropWhile isBlank = t.dropWhile isBlank := List.dropWhile_idempotent _ _
    unfold shape nameTooLong lineName behindName
    rw [hagain]
  rw [scanLine, ← List.length_nil, hlead, hshape]
  generalize t.takeWhile isBlank = pre
  cases hv : t.dropWhile isBlank with
  | nil => rfl
  | cons c x =>
      have hblank := isBlank_of_dropWhile hv
      obtain ⟨hnul, hx⟩ := ne_zero_of_dropWhile ht hv
      have hlead : (c :: x).dropWhile isBlank = c :: x := List.dropWhile_cons_of_neg (by simp [hblank])
      by_cases hname : isNameByte c = true
      · have hne : lineName (c :: x) ≠ [] := by
          rw [lineName, hlead, List.takeWhile_cons_of_pos hname]
          exact List.cons_ne_nil c _
        rw [ofScan_start pre hname hx, shape, if_neg hne]
      · have hnone : shape (c :: x) = .skip := by
          apply shape_of_lineName
          rw [lineName, hlead, List.takeWhile_cons_of_neg hname]
        rw [hnone, List.cons_append]
        by_cases hcolon : c = 58
        · have hstep : LineScan.step (pre ++ c :: x) pre.length c ⟨.lead, false, [], []⟩ =
              some ⟨.bad, false, [], []⟩ := by
            rw [hcolon]
            rfl
          rw [scanFrom_cons (by simp) hstep, scanFrom_stop _ _ _ (Or.inr rfl)]
          exact Line.ofScan_of_sepSign rfl
        · have heol : isEol c = true := by
            simpa [isNameByte, hblank, hcolon, hnul] using hname
          have hstep : LineScan.step (pre ++ c :: x) pre.length c ⟨.lead, false, [], []⟩ =
              some ⟨.empty, false, [], []⟩ := by
            simp [LineScan.step, hblank, heol]
          rw [scanFrom_cons (by simp) hstep, scanFrom_empty rfl]
          exact Line.ofScan_of_sepSign rfl

/-- **What a line is**, by its shape; a comment line is nothing. -/
theorem lineOf_eq (p : Bytes) : lineOf p = if isComment p then .skip else shape (cstr p) := by
  have hnul : 0 ∉ cstr p := by
    intro h
    simpa using List.mem_takeWhile_imp h
  rw [← ofScan_scanLine hnul, lineOf, isComment]
  by_cases hcomment : p.head? = some 35
  · rw [if_pos (Or.inl hcomment), if_pos (by simp [hcomment])]
  · by_cases hempty : cstr p = []
    · rw [if_pos (Or.inr hempty), if_neg (by simp [hcomment]), hempty]
      rfl
    · rw [if_neg (not_or.mpr ⟨hcomment, hempty⟩), if_neg (by simp [hcomment])]
      cases scanLine (cstr p) <;> rfl

/-- A second colon belongs to the value. -/
example : shape (ascii " a :: b ") = .item ⟨ascii "a", ascii ": b"⟩ := by decide

/-! ## A newline behind a line -/

section newline

variable {q : UInt8 → Bool}

/-- A newline stays behind what is left. -/
theorem dropWhile_newline (h : q 10 = false) (t : Bytes) : (t ++ [10]).dropWhile q = t.dropWhile q ++ [10] := by
  rw [List.dropWhile_append]
  split_ifs with hempty
  · rw [List.dropWhile_cons_of_neg (by simp [h]), List.isEmpty_iff.mp hempty]
    rfl
  · rfl

/-- A newline is not taken. -/
theorem takeWhile_newline (h : q 10 = false) (t : Bytes) : (t ++ [10]).takeWhile q = t.takeWhile q := by
  rw [List.takeWhile_append]
  split_ifs with hall
  · rw [List.takeWhile_cons_of_neg (by simp [h]), List.append_nil]
    exact ((List.takeWhile_prefix q).eq_of_length hall).symm
  · rfl

/-- The name does not depend on the newline. -/
theorem lineName_newline (t : Bytes) : lineName (t ++ [10]) = lineName t := by
  rw [lineName, dropWhile_newline (by decide), takeWhile_newline (by decide), lineName]

/-- The newline stays behind the name. -/
theorem behindName_newline (t : Bytes) : behindName (t ++ [10]) = behindName t ++ [10] := by
  rw [behindName, dropWhile_newline (by decide), dropWhile_newline (by decide), behindName]

/-- The newline stays behind the colon. -/
theorem behindColon_newline (r : Bytes) : behindColon (r ++ [10]) = (behindColon r).map (· ++ [10]) := by
  have hdrop := dropWhile_newline (show isBlank 10 = false by decide)
  cases hr : r.dropWhile isBlank with
  | nil =>
      rw [behindColon, behindColon, hdrop, hr]
      rfl
  | cons c x =>
      have hr' : (r ++ [10]).dropWhile isBlank = c :: (x ++ [10]) := by rw [hdrop, hr, List.cons_append]
      by_cases hcolon : c = 58
      · subst hcolon
        rw [behindColon_colon hr', behindColon_colon hr, hdrop, Option.map_some]
      · rw [behindColon_other hr' hcolon, behindColon_other hr hcolon, Option.map_none]

/-- The value does not depend on the newline. -/
theorem lineValue_newline (v : Bytes) : lineValue (v ++ [10]) = lineValue v := by
  cases v with
  | nil => rfl
  | cons c x => rw [lineValue, trimTail_newline, List.cons_append, List.head?_cons, lineValue, List.head?_cons]

/-- The value of a line with a newline is not missing. -/
theorem valueLine_newline (name v : Bytes) :
    valueLine name (v ++ [10]) = if v = [] then .item ⟨name, []⟩ else valueLine name v := by
  by_cases hv : v = []
  · subst hv
    rfl
  · have hv' : v ++ [10] ≠ [] := List.append_ne_nil_of_left_ne_nil hv [10]
    rw [if_neg hv, valueLine, valueLine, lineValue_newline]
    simp only [hv, hv', ne_eq, not_false_eq_true, true_and]

/-- The shape of a line with a newline. -/
theorem shape_newline (t : Bytes) :
    shape (t ++ [10]) =
      if wordSize ≤ (lineName t).length then .tooLong
      else if lineName t = [] then .skip
      else (behindColon (behindName t)).elim .skip fun v =>
        if v = [] then .item ⟨lineName t, []⟩ else valueLine (lineName t) v := by
  have hlong : nameTooLong (t ++ [10]) = decide (wordSize ≤ (lineName t).length) := by
    have hbehind : (behindName t ++ [10]).isEmpty = false := by simp
    rw [nameTooLong, lineName_newline, behindName_newline, hbehind, Bool.and_false, Bool.or_false]
  rw [shape, hlong, lineName_newline, behindName_newline, behindColon_newline]
  simp only [decide_eq_true_eq]
  cases behindColon (behindName t) with
  | none => rfl
  | some v => simp only [Option.map_some, Option.elim_some, valueLine_newline]

end newline

/-! ## Lines by their shape -/

/-- A line that reads as `name : value`. -/
def isItemText (p : Bytes) : Bool :=
  !isComment p && !nameTooLong (cstr p) && !(lineName (cstr p)).isEmpty &&
    (behindColon (behindName (cstr p))).any fun v => !v.isEmpty && decide ((lineValue v).length < wordSize)

/-- A line whose name fills the array. -/
def isLongName (p : Bytes) : Bool := !isComment p && nameTooLong (cstr p)

variable {n : ℕ} {p l : Bytes} {ls : List Bytes}

/-- The lines with a name that is too long. -/
theorem lineOf_eq_tooLong_iff (p : Bytes) : lineOf p = .tooLong ↔ isLongName p = true := by
  rw [lineOf_eq, shape, isLongName]
  have hvalue : ∀ (name : Bytes) (v : Option Bytes), v.elim .skip (valueLine name) ≠ .tooLong := by
    intro name v
    cases v with
    | none => simp
    | some v =>
        rw [Option.elim_some, valueLine]
        split_ifs <;> simp
  split_ifs with hcomment hlong hname
  · simp [hcomment]
  · simp [hcomment, hlong]
  · simp [hlong]
  · simp [hlong, hvalue]

/-- The lines that are items. -/
theorem isSome_item?_lineOf (p : Bytes) : (lineOf p).item?.isSome = isItemText p := by
  rw [lineOf_eq, shape, isItemText]
  split_ifs with hcomment hlong hname
  · simp [hcomment, Line.item?]
  · simp [hlong, Line.item?]
  · simp [hname, Line.item?]
  · have hne : (lineName (cstr p)).isEmpty = false := by simpa using hname
    rw [Bool.eq_false_iff.mpr hcomment, Bool.eq_false_iff.mpr hlong, hne]
    cases behindColon (behindName (cstr p)) with
    | none => rfl
    | some v =>
        rw [Option.elim_some, valueLine, Option.any_some]
        split_ifs with hv
        · simp [Line.item?, hv.1, hv.2]
        · rw [not_and_or, not_not] at hv
          rcases hv with rfl | hv
          · rfl
          · simp [Line.item?, hv]

/-- A line with an item has a name that fits. -/
theorem isLongName_of_isItemText (h : isItemText p = true) : isLongName p = false := by
  simp only [isItemText, Bool.and_eq_true, Bool.not_eq_true'] at h
  rw [isLongName, h.1.1.2, Bool.and_false]

/-! ## What is read of a text -/

/-- The lines are read to the end, and there is room in a table of `n` for one more item. -/
def Reached (n : ℕ) (ls : List Bytes) : Prop := (∀ l ∈ ls, isLongName l = false) ∧ ls.countP isItemText < n

instance : Decidable (Reached n ls) := inferInstanceAs (Decidable (_ ∧ _))

/-- The first line is reached if there is room. -/
theorem reached_nil (n : ℕ) : Reached n [] ↔ 0 < n := by
  simp [Reached]

/-- A line that is skipped does not matter. -/
theorem reached_cons (h : lineOf l = .skip) : Reached n (l :: ls) ↔ Reached n ls := by
  have hlong : isLongName l = false := by
    rw [← Bool.not_eq_true, ← lineOf_eq_tooLong_iff, h]
    simp
  have hitem : isItemText l = false := by
    rw [← isSome_item?_lineOf, h]
    rfl
  simp [Reached, hlong, hitem]

/-- An item takes one place. -/
theorem reached_cons_item {it : ConfItem} (h : lineOf l = .item it) : Reached (n + 1) (l :: ls) ↔ Reached n ls := by
  have hitem : isItemText l = true := by
    rw [← isSome_item?_lineOf, h]
    rfl
  simp [Reached, isLongName_of_isItemText hitem, hitem]

/-- Nothing is reached behind a name that is too long. -/
theorem not_reached_cons (h : lineOf l = .tooLong) : ¬ Reached n (l :: ls) := by
  rw [lineOf_eq_tooLong_iff] at h
  simp [Reached, h]

/-- What is reached behind one line more. -/
theorem reached_concat : Reached n (ls ++ [l]) ↔
    (∀ l ∈ ls, isLongName l = false) ∧ isLongName l = false ∧ ls.countP isItemText + (isItemText l).toNat < n := by
  rw [Reached, List.forall_mem_append, List.forall_mem_singleton, and_assoc, List.countP_append, List.countP_singleton]
  cases isItemText l <;> simp

/-- Lines in front of what is reached are reached. -/
theorem Reached.of_append {a b : List Bytes} (h : Reached n (a ++ b)) : Reached n a := by
  rw [Reached, List.forall_mem_append, List.countP_append] at h
  exact ⟨h.1.1, by omega⟩

/-- Nothing is reached without room. -/
theorem not_reached_zero (ls : List Bytes) : ¬ Reached 0 ls := fun h => Nat.not_lt_zero _ h.2

/-- **What one more line stores**: its item, if it is reached. -/
theorem stored_concat (n : ℕ) (ls : List Bytes) (l : Bytes) :
    stored n (ls ++ [l]) = stored n ls ++ if Reached n ls then (lineOf l).item?.toList else [] := by
  induction ls generalizing n with
  | nil =>
      cases n with
      | zero => rw [stored_zero, stored_zero, if_neg (not_reached_zero [])]; rfl
      | succ n =>
          rw [if_pos ((reached_nil _).mpr (Nat.succ_pos n)), List.nil_append]
          cases hl : lineOf l with
          | skip => rw [stored_skip hl]; rfl
          | item it => rw [stored_item hl]; cases n <;> rfl
          | tooLong => rw [stored_tooLong hl]; rfl
  | cons q ls ih =>
      rw [List.cons_append]
      cases n with
      | zero => rw [stored_zero, stored_zero, if_neg (not_reached_zero (q :: ls))]; rfl
      | succ n =>
          cases hq : lineOf q with
          | skip => rw [stored_skip hq, stored_skip hq, ih, if_congr (reached_cons hq) rfl rfl]
          | item it =>
              rw [stored_item hq, stored_item hq, ih, if_congr (reached_cons_item hq) rfl rfl, List.cons_append]
          | tooLong => rw [stored_tooLong hq, stored_tooLong hq, if_neg (not_reached_cons hq)]; rfl

/-- **One more line is read** iff it is reached and its name fits. -/
theorem complete_concat (n : ℕ) (ls : List Bytes) (l : Bytes) :
    complete n (ls ++ [l]) = true ↔ Reached n ls ∧ isLongName l = false := by
  rw [← Bool.not_eq_true (isLongName l), ← lineOf_eq_tooLong_iff]
  induction ls generalizing n with
  | nil =>
      cases n with
      | zero => exact iff_of_false Bool.false_ne_true fun h => not_reached_zero [] h.1
      | succ n =>
          rw [List.nil_append, reached_nil]
          cases hl : lineOf l with
          | skip => rw [complete_skip hl]; simp [complete]
          | item it => rw [complete_item hl]; cases n <;> simp [complete]
          | tooLong => rw [complete_tooLong hl]; simp
  | cons q ls ih =>
      rw [List.cons_append]
      cases n with
      | zero => exact iff_of_false Bool.false_ne_true fun h => not_reached_zero (q :: ls) h.1
      | succ n =>
          cases hq : lineOf q with
          | skip => rw [complete_skip hq, ih, reached_cons hq]
          | item it => rw [complete_item hq, ih, reached_cons_item hq]
          | tooLong =>
              rw [complete_tooLong hq]
              exact iff_of_false Bool.false_ne_true fun h => not_reached_cons hq h.1

end Asenal.Conf
