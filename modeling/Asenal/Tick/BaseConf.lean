import Asenal.Lib.CString

/-!
# The settings of Tick

`BaseConf::ReadConf` makes an item of every line, and `getConfStr` looks a name up in the items. A `#` in front
of a line is skipped like a blank, so that a comment is a setting as well.

* `readLine_eq` — the item that is made of a line.
* `lookup_eq` — the answer for a name.
* `lookup_iff` — when it is the value of the first setting of that name.
-/

namespace Asenal.Tick

open Asenal.Lib.Text Asenal.Lib.CString

/-! ## The program -/

/-- `TICK_WORD_SIZE` -/
def wordSize : ℕ := 1024

/-- `TICK_CONF_MAX_NUM` -/
def confMaxNum : ℕ := 1024

/-- Source: `base_conf.h` `ConfItem`. -/
structure ConfItem where
  name : Bytes
  value : Bytes
deriving DecidableEq

/-- What the loop over a line keeps: `sep_sign`, `c_name` and `c_value`. -/
structure Scan where
  sepSign : Bool
  name : Bytes
  value : Bytes

/-- One character of a line. Source: `base_conf.cc` `ReadConf`, the `switch`. -/
def scanChar (st : Scan) : UInt8 × ℕ → Scan
  | (ch, i) =>
      if ch = 35 ∧ i = 0 then st
      -- the case of `#` goes on with the case of `:`
      else if ch = 35 ∨ ch = 58 then { st with sepSign := true }
      else if ch = 32 ∨ ch = 13 ∨ ch = 10 then st
      else if st.sepSign then { st with value := st.value ++ [ch] }
      else { st with name := st.name ++ [ch] }

/-- Source: `base_conf.cc` `ReadConf`, the body of the loop over the lines. -/
def readLine (line : Bytes) : ConfItem :=
  let st := (cstr line).zipIdx.foldl scanChar ⟨false, [], []⟩
  ⟨(cstr st.name).take (wordSize - 1), (cstr st.value).take (wordSize - 1)⟩

/-- The items, if there is room for them. Source: `base_conf.cc` `ReadConf`. -/
def readConf (text : Bytes) : Option (List ConfItem) :=
  let items := (fgetsAll wordSize text).map readLine
  if items.length ≤ confMaxNum then some items else none

/-- The value, unless there is no such name. Source: `base_conf.cc` `getConfStr`. -/
def getConfStr (items : List ConfItem) (name : Bytes) : Option Bytes :=
  (items.find? fun item => item.name = name).map ConfItem.value

/-- The answer for a name. -/
def lookup (text name : Bytes) : Option (Option Bytes) := (readConf text).map (getConfStr · name)

/-! ## Configuration files -/

/-- A blank, or a carriage return. -/
def Blank (b : UInt8) : Prop := b = 32 ∨ b = 13

/-- A character of a word. -/
def Letter (b : UInt8) : Prop := b ≠ 0 ∧ b ≠ 10 ∧ b ≠ 13 ∧ b ≠ 32 ∧ b ≠ 35 ∧ b ≠ 58

instance (b : UInt8) : Decidable (Blank b) := inferInstanceAs (Decidable (_ ∨ _))

instance (b : UInt8) : Decidable (Letter b) := inferInstanceAs (Decidable (_ ∧ _))

/-- A line without its newline. Blanks may stand around the `:`, and behind the value. -/
inductive Line
  | blank (s : Bytes)
  | comment (s : Bytes)
  | setting (name left right value behind : Bytes)

def Line.text : Line → Bytes
  | blank s => s
  | comment s => 35 :: s
  | setting name left right value behind => name ++ left ++ 58 :: (right ++ value ++ behind)

def Line.WellFormed (l : Line) : Prop :=
  l.text.length < wordSize - 1 ∧
    match l with
    | blank s => ∀ b ∈ s, Blank b
    | comment s => 10 ∉ s
    | setting name left right value behind => (∀ b ∈ name, Letter b) ∧ (∀ b ∈ left, Blank b) ∧
        (∀ b ∈ right, Blank b) ∧ (∀ b ∈ value, Letter b ∨ b = 58) ∧ ∀ b ∈ behind, Blank b

/-- The text has these lines. The last one may lack its newline. -/
def HasLines (file : List Line) (text : Bytes) : Prop :=
  List.Forall₂ (fun l t => t = l.text ∨ t = l.text ++ [10]) file (lines text)

def Line.isSetting : Line → Bool
  | setting .. => true
  | _ => false

/-- The value of the line, if it is a setting of that name. -/
def Line.gives (name : Bytes) : Line → Option Bytes
  | setting n _ _ value _ => if n = name then some value else none
  | _ => none

/-- The value of the first setting of that name. -/
def answer (file : List Line) (name : Bytes) : Option Bytes := file.findSome? (Line.gives name)

/-- The value of the first setting of that name is given, and the other lines do not matter. -/
def Answers (file : List Line) (text name : Bytes) : Prop :=
  lookup text name = some (answer file name) ∧
    ∀ text', HasLines (file.filter Line.isSetting) text' → lookup text' name = lookup text name

/-! ## What a line spells -/

def IsSep (b : UInt8) : Prop := b = 35 ∨ b = 58

instance (b : UInt8) : Decidable (IsSep b) := inferInstanceAs (Decidable (_ ∨ _))

/-- The text without blanks, the ends of lines, and separators. -/
def letters (s : Bytes) : Bytes := s.filter fun b => ¬(b = 32 ∨ b = 13 ∨ b = 10) ∧ ¬IsSep b

/-- The name in front of the first separator, and the value behind it. -/
def spell (s : Bytes) : ConfItem := ⟨letters (s.takeWhile (¬IsSep ·)), letters (s.dropWhile (¬IsSep ·))⟩

/-- The name and the value that stand in a line, whatever it is meant for. -/
def Line.spelled : Line → ConfItem
  | blank _ => ⟨[], []⟩
  | comment s => spell (cstr s)
  | setting name _ _ value _ => ⟨name, value.filter (· ≠ 58)⟩

/-- The first line with that name is a setting without a `:` in its value, or has the value of the first
setting. -/
def Undisturbed (file : List Line) (name : Bytes) : Prop :=
  match file.find? fun l => l.spelled.name = name with
  | none => True
  | some (.setting _ _ _ value _) => 58 ∉ value
  | some l => answer file name = some l.spelled.value

variable {l : Line} {file : List Line} {s t text name : Bytes} {b : UInt8} {st : Scan} {i : ℕ}

/-! ## One line -/

@[simp] theorem letters_nil : letters [] = [] := rfl

@[simp] theorem letters_append (s t : Bytes) : letters (s ++ t) = letters s ++ letters t := List.filter_append ..

theorem letters_cons (b : UInt8) (s : Bytes) : letters (b :: s) = letters [b] ++ letters s :=
  letters_append [b] s

theorem letters_sep (h : IsSep b) : letters [b] = [] := List.filter_cons_of_neg (by simp [h])

/-- A character that is no separator. -/
theorem scanChar_of_not (h : ¬IsSep b) (st : Scan) (i : ℕ) : scanChar st (b, i) =
    if st.sepSign then { st with value := st.value ++ letters [b] }
    else { st with name := st.name ++ letters [b] } := by
  rw [IsSep, not_or] at h
  by_cases hblank : b = 32 ∨ b = 13 ∨ b = 10
  · have hletters : letters [b] = [] := List.filter_cons_of_neg (by simp [hblank])
    simp [scanChar, h, hblank, hletters]
  · have hletters : letters [b] = [b] := List.filter_cons_of_pos (by simp [hblank, IsSep, h])
    rw [scanChar, if_neg (fun h' => h.1 h'.1), if_neg (not_or.mpr h), if_neg hblank, hletters]

/-- A separator, unless it begins a comment. -/
theorem scanChar_of_sep (h : IsSep b) (hi : b = 35 → i = 0 → st.sepSign = true) :
    scanChar st (b, i) = { st with sepSign := true } := by
  by_cases hskip : b = 35 ∧ i = 0
  · rw [scanChar, if_pos hskip, ← hi hskip.1 hskip.2]
  · rw [scanChar, if_neg hskip, if_pos (show b = 35 ∨ b = 58 from h)]

/-- **Behind a separator** all letters belong to the value. -/
theorem scan_value (s : Bytes) (i : ℕ) (name value : Bytes) :
    (s.zipIdx i).foldl scanChar ⟨true, name, value⟩ = ⟨true, name, value ++ letters s⟩ := by
  induction s generalizing i value with
  | nil => simp
  | cons b s ih =>
      have hstep : scanChar ⟨true, name, value⟩ (b, i) = ⟨true, name, value ++ letters [b]⟩ := by
        by_cases hb : IsSep b
        · rw [letters_sep hb, List.append_nil]
          exact scanChar_of_sep hb fun _ _ => rfl
        · exact scanChar_of_not hb _ i
      rw [List.zipIdx_cons, List.foldl_cons, hstep, ih, letters_cons b s, List.append_assoc]

/-- A text that begins with a separator has no name. -/
theorem spell_sep (h : IsSep b) (s : Bytes) : spell (b :: s) = ⟨[], letters s⟩ := by
  simp [spell, h, letters_cons b s, letters_sep h]

theorem spell_cons (h : ¬IsSep b) (s : Bytes) :
    spell (b :: s) = ⟨letters [b] ++ (spell s).name, (spell s).value⟩ := by
  simp [spell, h, letters_cons b (List.takeWhile _ s)]

/-- **A line**, unless it is a comment. -/
theorem scan_spell (s : Bytes) (hs : s.head? = some 35 → i ≠ 0) (name : Bytes) :
    let st := (s.zipIdx i).foldl scanChar ⟨false, name, []⟩
    st.name = name ++ (spell s).name ∧ st.value = (spell s).value := by
  induction s generalizing i name with
  | nil => simp [spell]
  | cons b s ih =>
      rw [List.zipIdx_cons, List.foldl_cons]
      by_cases hb : IsSep b
      · have hi : b = 35 → i = 0 → false = true := fun h h' => absurd h' (hs (congrArg some h))
        rw [scanChar_of_sep hb hi, scan_value, spell_sep hb]
        simp
      · rw [scanChar_of_not hb, spell_cons hb]
        simpa using ih (fun _ => Nat.succ_ne_zero i) (name ++ letters [b])

/-- What is spelled fits into an item. -/
theorem item_eq (hst : st.name = (spell s).name ∧ st.value = (spell s).value) (hs : 0 ∉ s)
    (hlen : s.length < wordSize) :
    ⟨(cstr st.name).take (wordSize - 1), (cstr st.value).take (wordSize - 1)⟩ = spell s := by
  have hfits : ∀ u : Bytes, u.Sublist s → (cstr u).take (wordSize - 1) = u := by
    intro u hu
    have hle := hu.length_le
    rw [cstr_of_not_mem fun h => hs (hu.subset h), List.take_of_length_le (by omega)]
  rw [hst.1, hst.2, hfits, hfits]
  · exact List.filter_sublist.trans (List.dropWhile_sublist _)
  · exact List.filter_sublist.trans (List.takeWhile_sublist _)

theorem length_cstr_le (s : Bytes) : (cstr s).length ≤ s.length := (List.takeWhile_sublist _).length_le

/-- The item of a line that is no comment. -/
theorem readLine_spell (hlen : t.length < wordSize) (hhead : t.head? ≠ some 35) : readLine t = spell (cstr t) := by
  have hle := length_cstr_le t
  have hfirst : (cstr t).head? ≠ some 35 := by
    rw [cstr, List.head?_takeWhile]
    intro h
    exact hhead (Option.filter_eq_some_iff.mp h).1
  exact item_eq (by simpa using scan_spell (cstr t) (fun h => absurd h hfirst) []) (not_mem_cstr t) (by omega)

/-- **The item of a comment** is what the rest of it spells. -/
theorem readLine_comment (hlen : t.length + 1 < wordSize) : readLine (35 :: t) = spell (cstr t) := by
  have hle := length_cstr_le t
  have hskip : (cstr (35 :: t)).zipIdx.foldl scanChar ⟨false, [], []⟩ =
      ((cstr t).zipIdx 1).foldl scanChar ⟨false, [], []⟩ := rfl
  unfold readLine
  rw [hskip]
  exact item_eq (by simpa using scan_spell (cstr t) (fun _ => Nat.one_ne_zero) []) (not_mem_cstr t) (by omega)

/-- Blanks, and the end of a line, spell nothing. -/
theorem letters_blank (h : ∀ b ∈ s, Blank b ∨ b = 10) : letters s = [] := by
  rw [letters, List.filter_eq_nil_iff]
  intro b hb
  rcases h b hb with (rfl | rfl) | rfl <;> simp

/-- Letters spell themselves, and a `:` nothing. -/
theorem letters_word (h : ∀ b ∈ s, Letter b ∨ b = 58) : letters s = s.filter (· ≠ 58) := by
  refine List.filter_congr fun b hb => ?_
  rcases h b hb with ⟨-, h10, h13, h32, h35, h58⟩ | rfl
  · simp [IsSep, *]
  · simp [IsSep]

/-- What is spelled in front of blanks. -/
theorem spell_append_blank (s : Bytes) {e : Bytes} (he : ∀ b ∈ e, Blank b ∨ b = 10) : spell (s ++ e) = spell s := by
  induction s with
  | nil =>
      have htake := letters_blank fun b hb => he b (List.takeWhile_subset (fun b => decide ¬IsSep b) hb)
      have hdrop := letters_blank fun b hb => he b ((List.dropWhile_sublist fun b => decide ¬IsSep b).subset hb)
      rw [List.nil_append, spell, htake, hdrop]
      rfl
  | cons b s ih =>
      by_cases hb : IsSep b
      · rw [List.cons_append, spell_sep hb, spell_sep hb, letters_append, letters_blank he, List.append_nil]
      · rw [List.cons_append, spell_cons hb, spell_cons hb, ih]

/-- What is spelled around the first separator. -/
theorem spell_append (hs : ∀ b ∈ s, ¬IsSep b) (hb : IsSep b) (t : Bytes) :
    spell (s ++ b :: t) = ⟨letters s, letters t⟩ := by
  induction s with
  | nil => exact spell_sep hb t
  | cons c s ih =>
      rw [List.forall_mem_cons] at hs
      rw [List.cons_append, spell_cons hs.1, ih hs.2, letters_cons c s]

/-- A line is shorter than the array. -/
theorem length_lt_wordSize (hl : l.WellFormed) (ht : t = l.text ∨ t = l.text ++ [10]) : t.length < wordSize := by
  have hshort := hl.1
  rcases ht with rfl | rfl
  · omega
  · rw [List.length_append, List.length_singleton]
    omega

/-- A blank line spells nothing. -/
theorem readLine_blank (hs : ∀ b ∈ s, Blank b ∨ b = 10) (hlen : s.length < wordSize) : readLine s = ⟨[], []⟩ := by
  have hzero : 0 ∉ s := fun h => absurd (hs 0 h) (by decide)
  have hhead : s.head? ≠ some 35 := fun h => absurd (hs 35 (List.mem_of_head? h)) (by decide)
  rw [readLine_spell hlen hhead, cstr_of_not_mem hzero]
  exact spell_append_blank [] hs

/-- A setting spells its name, and its value without `:`. -/
theorem readLine_setting {left right value behind : Bytes} (hname : ∀ b ∈ name, Letter b)
    (hleft : ∀ b ∈ left, Blank b) (hright : ∀ b ∈ right, Blank b) (hvalue : ∀ b ∈ value, Letter b ∨ b = 58)
    (hbehind : ∀ b ∈ behind, Blank b ∨ b = 10)
    (hlen : ((name ++ left) ++ 58 :: (right ++ value ++ behind)).length < wordSize) :
    readLine ((name ++ left) ++ 58 :: (right ++ value ++ behind)) = ⟨name, value.filter (· ≠ 58)⟩ := by
  have hbefore : ∀ b ∈ name ++ left, Letter b ∨ Blank b :=
    List.forall_mem_append.mpr ⟨fun b hb => Or.inl (hname b hb), fun b hb => Or.inr (hleft b hb)⟩
  have hall : ∀ b ∈ (name ++ left) ++ 58 :: (right ++ value ++ behind), (Letter b ∨ Blank b) ∨ b = 58 ∨ b = 10 := by
    simp only [List.forall_mem_append, List.forall_mem_cons]
    grind
  have hnone : ∀ b ∈ name ++ left, ¬IsSep b := by
    intro b hb
    rcases hbefore b hb with ⟨-, -, -, -, h35, h58⟩ | rfl | rfl
    · exact not_or.mpr ⟨h35, h58⟩
    · decide
    · decide
  have hzero : 0 ∉ (name ++ left) ++ 58 :: (right ++ value ++ behind) := fun h => absurd (hall 0 h) (by decide)
  have hhead : ((name ++ left) ++ 58 :: (right ++ value ++ behind)).head? ≠ some 35 :=
    fun h => absurd (hall 35 (List.mem_of_head? h)) (by decide)
  have hletters : letters name = name := by
    rw [letters_word fun b hb => Or.inl (hname b hb), List.filter_eq_self]
    intro b hb
    simpa using (hname b hb).2.2.2.2.2
  rw [readLine_spell hlen hhead, cstr_of_not_mem hzero, spell_append hnone (by decide)]
  simp [hletters, letters_word hvalue, letters_blank fun b hb => Or.inl (hleft b hb),
    letters_blank fun b hb => Or.inl (hright b hb), letters_blank hbehind]

/-- **The item of a line** is what it spells. -/
theorem readLine_eq (hl : l.WellFormed) (ht : t = l.text ∨ t = l.text ++ [10]) : readLine t = l.spelled := by
  have hlen := length_lt_wordSize hl ht
  obtain ⟨e, hend, rfl⟩ : ∃ e, (∀ b ∈ e, Blank b ∨ b = 10) ∧ t = l.text ++ e := by
    rcases ht with rfl | rfl
    · exact ⟨[], fun b hb => absurd hb List.not_mem_nil, (List.append_nil _).symm⟩
    · exact ⟨[10], List.forall_mem_singleton.mpr (Or.inr rfl), rfl⟩
  cases l with
  | blank s =>
      exact readLine_blank (List.forall_mem_append.mpr ⟨fun b hb => Or.inl (hl.2 b hb), hend⟩) hlen
  | comment s =>
      have hcomment : readLine (35 :: (s ++ e)) = spell (cstr (s ++ e)) := readLine_comment hlen
      rw [Line.text, List.cons_append, hcomment, Line.spelled]
      by_cases hs : 0 ∈ s
      · rw [cstr_append_of_mem hs]
      · have hzero : 0 ∉ s ++ e := by
          rw [List.mem_append, not_or]
          exact ⟨hs, fun h => absurd (hend 0 h) (by decide)⟩
        rw [cstr_of_not_mem hzero, cstr_of_not_mem hs, spell_append_blank s hend]
  | setting name left right value behind =>
      obtain ⟨-, hname, hleft, hright, hvalue, hbehind⟩ := hl
      have htext : (Line.setting name left right value behind).text ++ e =
          (name ++ left) ++ 58 :: (right ++ value ++ (behind ++ e)) := by
        simp [Line.text]
      rw [htext] at hlen ⊢
      exact readLine_setting hname hleft hright hvalue
        (List.forall_mem_append.mpr ⟨fun b hb => Or.inl (hbehind b hb), hend⟩) hlen

/-! ## Files -/

theorem items_of_lines {ts : List Bytes} (h : List.Forall₂ (fun l t => t = l.text ∨ t = l.text ++ [10]) file ts)
    (hwf : ∀ l ∈ file, l.WellFormed) :
    ts.map readLine = file.map Line.spelled ∧ ∀ t ∈ ts, t.length < wordSize := by
  induction h with
  | nil => exact ⟨rfl, fun t ht => absurd ht List.not_mem_nil⟩
  | cons ht _ ih =>
      rw [List.forall_mem_cons] at hwf
      obtain ⟨hitems, hlen⟩ := ih hwf.2
      rw [List.map_cons, List.map_cons, readLine_eq hwf.1 ht, hitems, List.forall_mem_cons]
      exact ⟨rfl, length_lt_wordSize hwf.1 ht, hlen⟩

/-- **The items of a file** are what its lines spell. -/
theorem readConf_eq (hwf : ∀ l ∈ file, l.WellFormed) (hlen : file.length ≤ confMaxNum) (htext : HasLines file text) :
    readConf text = some (file.map Line.spelled) := by
  obtain ⟨hread, hfit⟩ := items_of_lines htext hwf
  have hitems : (file.map Line.spelled).length ≤ confMaxNum := by rwa [List.length_map]
  unfold readConf
  rw [fgetsAll_eq_lines hfit, hread, if_pos hitems]

/-- **The answer** is what the first line spells that has the name. -/
theorem lookup_eq (hwf : ∀ l ∈ file, l.WellFormed) (hlen : file.length ≤ confMaxNum) (htext : HasLines file text)
    (name : Bytes) : lookup text name =
      some ((file.find? fun l => l.spelled.name = name).map fun l => l.spelled.value) := by
  rw [lookup, readConf_eq hwf hlen htext, Option.map_some, getConfStr, List.find?_map, Option.map_map]
  rfl

/-- Looking a name up in the settings alone gives the first one of them without its `:`. -/
theorem find_settings (file : List Line) (name : Bytes) :
    ((file.filter Line.isSetting).find? fun l => l.spelled.name = name).map (fun l => l.spelled.value) =
      (answer file name).map fun value => value.filter (· ≠ 58) := by
  induction file with
  | nil => rfl
  | cons l file ih =>
      cases l with
      | blank s => exact ih
      | comment s => exact ih
      | setting n left right value behind =>
          rw [List.filter_cons_of_pos rfl, List.find?_cons, answer, List.findSome?_cons]
          by_cases hname : n = name
          · simp [Line.spelled, Line.gives, hname]
          · simpa [Line.spelled, Line.gives, hname, answer] using ih

/-- A line that does not spell the name gives no value. -/
theorem gives_eq_none (h : l.spelled.name ≠ name) : l.gives name = none := by
  cases l with
  | blank s => rfl
  | comment s => rfl
  | setting n left right value behind => exact if_neg h

/-- If no line spells the name, there is no setting of that name. -/
theorem answer_of_find_none (h : (file.find? fun l => l.spelled.name = name) = none) : answer file name = none := by
  rw [List.find?_eq_none] at h
  exact List.findSome?_eq_none_iff.mpr fun l hl => gives_eq_none (by simpa using h l hl)

/-- If the first line that spells the name is a setting, it is the first one. -/
theorem answer_of_find_setting {n left right value behind : Bytes}
    (h : (file.find? fun l => l.spelled.name = name) = some (.setting n left right value behind)) :
    answer file name = some value := by
  obtain ⟨hn, before, after, rfl, hbefore⟩ := List.find?_eq_some_iff_append.mp h
  have hnone : before.findSome? (Line.gives name) = none :=
    List.findSome?_eq_none_iff.mpr fun l hl => gives_eq_none (by simpa using hbefore l hl)
  have hgives : (Line.setting n left right value behind).gives name = some value := if_pos (of_decide_eq_true hn)
  rw [answer, List.findSome?_append, hnone, List.findSome?_cons, hgives]
  rfl

/-- What is spelled has no `:`. -/
theorem not_mem_spelled (l : Line) : 58 ∉ l.spelled.value := by
  cases l with
  | blank s => exact List.not_mem_nil
  | comment s => simp [Line.spelled, spell, letters, IsSep]
  | setting => simp [Line.spelled]

theorem filter_colon_iff {value : Bytes} : value.filter (· ≠ 58) = value ↔ 58 ∉ value := by
  rw [List.filter_eq_self]
  exact ⟨fun h hmem => by simpa using h 58 hmem, fun h b hb => decide_eq_true fun hcolon => h (hcolon ▸ hb)⟩

/-- The first line that spells the name spells the value of the first setting. -/
theorem undisturbed_iff : Undisturbed file name ↔
    ∀ l, (file.find? fun l => l.spelled.name = name) = some l → answer file name = some l.spelled.value := by
  unfold Undisturbed
  cases hfind : file.find? fun l => l.spelled.name = name with
  | none => simp
  | some l =>
      cases l with
      | blank s => simp
      | comment s => simp
      | setting n left right value behind =>
          have hvalue : value.filter (· ≠ 58) = value ↔ 58 ∉ value := filter_colon_iff
          simp [answer_of_find_setting hfind, Line.spelled, ← hvalue, eq_comm]

/-- **When the value of the first setting is given**, and the other lines do not matter. -/
theorem lookup_iff (hwf : ∀ l ∈ file, l.WellFormed) (hlen : file.length ≤ confMaxNum) (htext : HasLines file text)
    (name : Bytes) : Answers file text name ↔ Undisturbed file name := by
  have hlookup := lookup_eq hwf hlen htext name
  rw [undisturbed_iff]
  constructor
  · rintro ⟨hanswer, -⟩ l hfind
    rw [hlookup, hfind] at hanswer
    exact (Option.some.inj hanswer).symm
  · intro h
    have hanswer : ((file.find? fun l => l.spelled.name = name).map fun l => l.spelled.value) = answer file name ∧
        (answer file name).map (fun value => value.filter (· ≠ 58)) = answer file name := by
      cases hfind : file.find? fun l => l.spelled.name = name with
      | none =>
          rw [answer_of_find_none hfind]
          exact ⟨rfl, rfl⟩
      | some l =>
          rw [h l hfind]
          exact ⟨rfl, congrArg some (filter_colon_iff.mpr (not_mem_spelled l))⟩
    refine ⟨hlookup.trans (congrArg some hanswer.1), fun text' htext' => ?_⟩
    have hsub : file.filter Line.isSetting ⊆ file := List.filter_subset_self ..
    rw [lookup_eq (fun l hl => hwf l (hsub hl)) ((List.length_filter_le ..).trans hlen) htext', find_settings,
      hanswer.2, hlookup, hanswer.1]

/-- The first two lines of `tick.conf`. -/
theorem lookup_iff_port :
    (∀ l ∈ [.comment (ascii " Bada port"), .setting (ascii "port") [32] [32] (ascii "9221") []], Line.WellFormed l) ∧
      HasLines [.comment (ascii " Bada port"), .setting (ascii "port") [32] [32] (ascii "9221") []]
        (ascii "# Bada port\nport : 9221\n") ∧
      Answers [.comment (ascii " Bada port"), .setting (ascii "port") [32] [32] (ascii "9221") []]
        (ascii "# Bada port\nport : 9221\n") (ascii "port") := by
  have hwf : ∀ l ∈ [.comment (ascii " Bada port"), .setting (ascii "port") [32] [32] (ascii "9221") []],
      Line.WellFormed l := by
    simp only [List.forall_mem_cons]
    exact ⟨⟨by decide, by decide⟩, ⟨by decide, by decide +kernel, by decide +kernel, by decide +kernel,
      by decide +kernel, by decide +kernel⟩, fun l hl => absurd hl List.not_mem_nil⟩
  have hlines : HasLines [.comment (ascii " Bada port"), .setting (ascii "port") [32] [32] (ascii "9221") []]
      (ascii "# Bada port\nport : 9221\n") := .cons (Or.inr rfl) (.cons (Or.inr rfl) .nil)
  exact ⟨hwf, hlines, (lookup_iff hwf (by decide) hlines _).mpr (show 58 ∉ ascii "9221" by decide)⟩

/-- A setting that is commented out. -/
theorem lookup_comment :
    (Line.comment (ascii "port : 9221")).WellFormed ∧
      HasLines [.comment (ascii "port : 9221")] (ascii "#port : 9221\n") ∧
      ¬Answers [.comment (ascii "port : 9221")] (ascii "#port : 9221\n") (ascii "port") := by
  have hwf : (Line.comment (ascii "port : 9221")).WellFormed := ⟨by decide, by decide⟩
  have hlines : HasLines [.comment (ascii "port : 9221")] (ascii "#port : 9221\n") := .cons (Or.inr rfl) .nil
  have hlookup := lookup_eq (List.forall_mem_singleton.mpr hwf) (by decide) hlines (ascii "port")
  refine ⟨hwf, hlines, fun h => ?_⟩
  have hanswer := hlookup.symm.trans h.1
  revert hanswer
  decide

end Asenal.Tick
