import Asenal.Conf.Shape

/-!
# Writing a table and reading it back

The writer prints an item as `name : value` on a line of its own, unless its name is not exactly one
white-space separated word; the reader has to find the name, the separator and the value again. The
two do not mean the same by white space: a vertical tab or a form feed in a name is a blank to the
writer, but not to the reader.

* `lineOf_lineText` — the reader gives back the name of a line, and its value without blanks.
* `readconf_lines` — the lines of a table are read back, one by one.
* `readconf_writeconf` — reading a written table gives the items whose names are one word, in order.
-/

namespace Asenal.Conf

open Asenal.Lib.Text Asenal.Lib.CString Asenal.Lib.Memory

/-! ## The writer -/

/-- `"%s : %s"` of an item. -/
def lineText (it : ConfItem) : Bytes := it.name ++ [32, 58, 32] ++ it.value

/-- What `sscanf(name, "%s %s", tstra, tstrb)` returns. -/
def scanWords (name : Bytes) : ℤ :=
  match scanS name with
  | none => -1
  | some (_, r) => if (scanS r).isSome then 2 else 1

/-- What is written for an item. Source: `ul_conf.cpp` `ul_writeconf`, the body of the loop. -/
def itemText (it : ConfItem) : Bytes :=
  if scanWords it.name ≠ 1 then [] else lineText it ++ [10]

/-- Write a table to a file. Source: `ul_conf.cpp` `ul_writeconf`. -/
def ulWriteconf (files : Files) (workPath fname : Bytes) (c : ConfData) : ℤ × Files :=
  if c.size < c.num ∨ c.num ≤ 0 then (-1, files)
  else
    let totalname := totalname workPath fname
    if files.writable totalname = false then (-1, files)
    else
      let text := c.items.flatMap itemText
      (1, { files with content := Function.update files.content totalname (some text) })

/-! ## What can be read back -/

/-- An item whose line the reader takes apart again. -/
structure Readable (it : ConfItem) : Prop where
  name_ne : it.name ≠ []
  name_bytes : ∀ b ∈ it.name, isNameByte b = true
  name_start : it.name.head? ≠ some 35
  name_lt : it.name.length < 2047
  value_bytes : ∀ b ∈ it.value, isEol b = false ∧ b ≠ 0
  value_start : ∀ b ∈ it.value.head?, isBlank b = false
  value_end : ∀ b ∈ it.value.getLast?, isBlank b = false
  value_lt : it.value.length < 2047
  line_lt : (lineText it).length < 4094

/-- A name is one word to the writer. -/
def oneWord (it : ConfItem) : Bool := (words it.name).length == 1

/-- The writer's test counts the words of the name. -/
theorem scanWords_eq_one_iff (it : ConfItem) : scanWords it.name = 1 ↔ oneWord it = true := by
  have hneg : (-1 : ℤ) ≠ 1 := by omega
  have htwo : (2 : ℤ) ≠ 1 := by omega
  unfold scanWords oneWord
  rw [words_eq]
  cases hfirst : scanS it.name with
  | none => exact iff_of_false hneg (by decide)
  | some x =>
      obtain ⟨w, r⟩ := x
      dsimp only
      rw [words_eq]
      cases scanS r with
      | none => exact iff_of_true rfl rfl
      | some y => exact iff_of_false htwo (by simp)

/-! ## The lines of items -/

/-- What the reader makes of a value: it skips the blanks in front of it and cuts off those behind it;
a carriage return in front of it ends the line. -/
def readBack (value : Bytes) : Bytes :=
  if (value.dropWhile isBlank).head? = some 13 then [] else trimTail (value.dropWhile isBlank)

/-- An item whose line the reader takes for an item with this name: only its value may change. -/
structure Scannable (it : ConfItem) : Prop where
  name_ne : it.name ≠ []
  name_bytes : ∀ b ∈ it.name, isNameByte b = true
  name_start : it.name.head? ≠ some 35
  name_lt : it.name.length < wordSize
  value_bytes : ∀ b ∈ it.value, b ≠ 10 ∧ b ≠ 0
  value_lt : it.value.length < wordSize
  line_lt : (lineText it).length < 4094

/-- What is read of the line of an item. -/
def readItem (it : ConfItem) : ConfItem := ⟨it.name, readBack it.value⟩

/-- A line of a written table is a C string without a newline. -/
theorem lineText_bytes {it : ConfItem} (h : Scannable it) :
    (∀ b ∈ lineText it, b ≠ 10 ∧ b ≠ 0) ∧ (lineText it).head? ≠ some 35 ∧ lineText it ≠ [] := by
  have hne := h.name_ne
  refine ⟨?_, ?_, by simp [lineText]⟩
  · intro b hb
    simp only [lineText, List.mem_append] at hb
    rcases hb with (hb | hb) | hb
    · obtain ⟨-, heol, -, hnul⟩ := (isNameByte_iff b).mp (h.name_bytes b hb)
      refine ⟨?_, hnul⟩
      rintro rfl
      exact absurd heol (by decide)
    · rw [List.mem_cons, List.mem_cons, List.mem_singleton] at hb
      rcases hb with rfl | rfl | rfl
      · decide
      · decide
      · decide
    · exact h.value_bytes b hb
  · rw [lineText, List.append_assoc, List.head?_append_of_ne_nil _ hne]
    exact h.name_start

/-- The value that is read is no longer than the one that was written. -/
theorem length_readBack_le (v : Bytes) : (readBack v).length ≤ v.length := by
  unfold readBack
  split_ifs
  · exact Nat.zero_le _
  · exact (List.rdropWhile_prefix _ _).length_le.trans (List.dropWhile_suffix _).length_le

/-- What is left of a value is what the reader finds behind its blanks. -/
theorem lineValue_dropWhile {v : Bytes} (hv : 10 ∉ v) : lineValue (v.dropWhile isBlank) = readBack v := by
  rw [lineValue, readBack]
  cases hd : v.dropWhile isBlank with
  | nil => rfl
  | cons c x =>
      have hc : c ≠ 10 := by
        rintro rfl
        exact hv ((List.dropWhile_suffix isBlank).subset (hd ▸ List.mem_cons_self))
      simp [isEol, hc]

/-- The parts of the line of an item. -/
theorem lineText_parts {it : ConfItem} (h : Scannable it) :
    lineName (lineText it) = it.name ∧ behindColon (behindName (lineText it)) = some (it.value.dropWhile isBlank) := by
  obtain ⟨b, w, hname⟩ := List.exists_cons_of_ne_nil h.name_ne
  have hblank : isBlank b = false := ((isNameByte_iff b).mp (h.name_bytes b (hname ▸ List.mem_cons_self))).1
  have hlead : (lineText it).dropWhile isBlank = it.name ++ ([32, 58, 32] ++ it.value) := by
    rw [lineText, List.append_assoc, hname, List.cons_append]
    exact List.dropWhile_cons_of_neg (by simp [hblank])
  have hsep : isNameByte 32 ≠ true := by decide
  constructor
  · rw [lineName, hlead, List.takeWhile_append_of_pos h.name_bytes, List.cons_append,
      List.takeWhile_cons_of_neg hsep, List.append_nil]
  · rw [behindName, hlead, List.dropWhile_append_of_pos h.name_bytes, List.cons_append,
      List.dropWhile_cons_of_neg hsep]
    rfl

/-- **The line of an item** is one, with its name and what is left of its value. -/
theorem lineOf_lineText {it : ConfItem} (h : Scannable it) :
    lineOf (lineText it ++ [10]) = .item (readItem it) := by
  obtain ⟨hbytes, hstart, hne⟩ := lineText_bytes h
  obtain ⟨hname, hcolon⟩ := lineText_parts h
  have hnul : 0 ∉ lineText it ++ [10] := by
    rw [List.mem_append, not_or]
    exact ⟨fun hb => (hbytes 0 hb).2 rfl, by decide⟩
  have hcomment : isComment (lineText it ++ [10]) = false := by
    rw [isComment, List.head?_append_of_ne_nil _ hne]
    exact beq_false_of_ne hstart
  have hvalue := lineValue_dropWhile fun hb => (h.value_bytes 10 hb).1 rfl
  have hfit : (readBack it.value).length < wordSize := (length_readBack_le _).trans_lt h.value_lt
  rw [lineOf_eq, hcomment, cstr_of_not_mem hnul, if_neg Bool.false_ne_true, shape_newline, hname,
    if_neg (not_le.mpr h.name_lt), if_neg h.name_ne, hcolon, Option.elim_some, readItem]
  by_cases hempty : it.value.dropWhile isBlank = []
  · rw [if_pos hempty, ← hvalue, hempty]
    rfl
  · rw [if_neg hempty, valueLine, hvalue, if_pos ⟨hempty, hfit⟩]

/-! ## The file -/

/-- The lines of a written table. -/
theorem fgetsAll_lineTexts {its : List ConfItem} (h : ∀ it ∈ its, Scannable it) :
    fgetsAll (lineSize - 1) (its.flatMap fun it => lineText it ++ [10]) =
      its.map fun it => lineText it ++ [10] := by
  induction its with
  | nil => exact fgetsAll_nil _
  | cons it its ih =>
      rw [List.forall_mem_cons] at h
      have hnl : 10 ∉ lineText it := fun hb => ((lineText_bytes h.1).1 10 hb).1 rfl
      have hshort : (lineText it).length + 1 < lineSize - 1 := Nat.add_lt_add_right h.1.line_lt 1
      rw [List.flatMap_cons, List.append_assoc, List.singleton_append, fgetsAll_line hnl hshort,
        ih h.2, List.map_cons]

/-- **The lines of a table are read back**. -/
theorem readconf_lines {its : List ConfItem} (h : ∀ it ∈ its, Scannable it) (d : ConfData)
    (hsize : its.length ≤ d.size) :
    (readconfNoDir (some (its.flatMap fun it => lineText it ++ [10])) d 0).1 = 1 ∧
      (readconfNoDir (some (its.flatMap fun it => lineText it ++ [10])) d 0).2.items =
        its.map readItem := by
  have hitem : ∀ it ∈ its, (lineOf (lineText it ++ [10])).item? = some (readItem it) := by
    intro it hit
    rw [lineOf_lineText (h it hit)]
    rfl
  have hitems : itemsOf (its.map fun it => lineText it ++ [10]) = its.map readItem := by
    unfold itemsOf
    rw [List.filterMap_map, ← List.filterMap_eq_map']
    exact List.filterMap_congr hitem
  have hcomplete : complete d.size (its.map fun it => lineText it ++ [10]) = true := by
    rw [complete_iff, hitems, List.length_map]
    refine ⟨?_, hsize, fun _ => ?_⟩
    · intro l hl
      obtain ⟨it, hit, rfl⟩ := List.mem_map.mp hl
      rw [lineOf_lineText (h it hit)]
      exact nofun
    · unfold endsInItem
      rw [List.getLast?_map, Option.all_map, Option.all_eq_true]
      intro it hit
      exact Option.isSome_of_eq_some (hitem it (List.mem_of_mem_getLast? hit))
  rw [readconfNoDir_some, fgetsAll_lineTexts h, Nat.sub_zero, if_pos hcomplete,
    stored_of_complete hcomplete, hitems]
  refine ⟨rfl, ?_⟩
  rw [items_eq_peek, Nat.zero_add]
  exact peek_poke_self d.item 0 (its.map readItem)

/-- An item that can be read back is read as it is. -/
theorem Readable.scannable {it : ConfItem} (h : Readable it) : Scannable it where
  name_ne := h.name_ne
  name_bytes := h.name_bytes
  name_start := h.name_start
  name_lt := h.name_lt.trans (by decide)
  value_bytes := by
    intro b hb
    obtain ⟨heol, hnul⟩ := h.value_bytes b hb
    refine ⟨?_, hnul⟩
    rintro rfl
    exact absurd heol (by decide)
  value_lt := h.value_lt.trans (by decide)
  line_lt := h.line_lt

/-- A value without line ends, and without blanks at its ends, is read as it is. -/
theorem readBack_eq {v : Bytes} (hbytes : ∀ b ∈ v, isEol b = false ∧ b ≠ 0)
    (hstart : ∀ b ∈ v.head?, isBlank b = false) (hend : ∀ b ∈ v.getLast?, isBlank b = false) :
    readBack v = v := by
  have hdrop : v.dropWhile isBlank = v := by
    cases v with
    | nil => rfl
    | cons c v => exact List.dropWhile_cons_of_neg (by simp [hstart c rfl])
  have hcr : v.head? ≠ some 13 := fun h =>
    absurd (hbytes 13 (List.mem_of_mem_head? h)).1 (by decide)
  rw [readBack, hdrop, if_neg hcr, trimTail, List.rdropWhile_eq_self_iff]
  intro hne
  have hlast := List.getLast?_eq_some_getLast hne
  obtain ⟨heol, hnul⟩ := hbytes _ (List.getLast_mem hne)
  simp [hend _ hlast, heol, hnul]

theorem Readable.readItem_eq {it : ConfItem} (h : Readable it) : readItem it = it := by
  unfold readItem
  rw [readBack_eq h.value_bytes h.value_start h.value_end]

/-- Only the items whose names are one word are written. -/
theorem flatMap_itemText (its : List ConfItem) :
    its.flatMap itemText = (its.filter oneWord).flatMap fun it => lineText it ++ [10] := by
  induction its with
  | nil => rfl
  | cons it its ih =>
      rw [List.flatMap_cons, ih, List.filter_cons, itemText]
      by_cases h : oneWord it = true
      · rw [if_pos h, if_neg (not_not_intro ((scanWords_eq_one_iff it).mpr h)), List.flatMap_cons]
      · rw [if_neg h, if_pos (mt (scanWords_eq_one_iff it).mp h), List.nil_append]

/-- A name without white space is one word. -/
theorem oneWord_of_isSpace {it : ConfItem} (hne : it.name ≠ [])
    (hspace : ∀ b ∈ it.name, isSpace b = false) : oneWord it = true := by
  have hscan := scanS_append hne hspace (r := []) (by simp [Delimited])
  rw [List.append_nil] at hscan
  rw [oneWord, words_eq, hscan]
  simp [words, skipSpace]

/-- A name that the reader takes is one word but for vertical tabs and form feeds. -/
theorem oneWord_of_isNameByte {it : ConfItem} (h : Readable it)
    (hvt : ∀ b ∈ it.name, b ≠ 11 ∧ b ≠ 12) : oneWord it = true := by
  apply oneWord_of_isSpace h.name_ne
  intro b hb
  obtain ⟨hblank, heol, -, -⟩ := (isNameByte_iff b).mp (h.name_bytes b hb)
  obtain ⟨h₁, h₂⟩ := hvt b hb
  unfold isSpace isBlank isEol at *
  grind

/-- **A written table** is read: the items whose names are one word, with what is left of their
values. -/
theorem ulReadconf_ulWriteconf (files : Files) (workPath fname : Bytes) (c d : ConfData)
    (hwritable : files.writable (totalname workPath fname) = true) (hnum : 1 ≤ c.num)
    (hsize : c.num ≤ c.size) (hitems : ∀ it ∈ c.items, Scannable it) (hroom : c.num ≤ d.size) :
    (ulWriteconf files workPath fname c).1 = 1 ∧
      (ulReadconf (ulWriteconf files workPath fname c).2 workPath fname d).1 = 1 ∧
      (ulReadconf (ulWriteconf files workPath fname c).2 workPath fname d).2.items =
        (c.items.filter oneWord).map readItem := by
  have hlen : (c.items.filter oneWord).length ≤ d.size := by
    have := List.length_filter_le oneWord c.items
    have hcount : c.items.length = c.num := by simp [ConfData.items]
    omega
  have hwrite : ulWriteconf files workPath fname c = (1, { files with
      content := Function.update files.content (totalname workPath fname)
        (some (c.items.flatMap itemText)) }) := by
    unfold ulWriteconf
    dsimp only
    rw [if_neg (by omega), if_neg (by rw [hwritable]; decide)]
  have hfile : ulReadconf (ulWriteconf files workPath fname c).2 workPath fname d =
      readconfNoDir (some ((c.items.filter oneWord).flatMap fun it => lineText it ++ [10])) d 0 := by
    rw [hwrite, ulReadconf]
    dsimp only
    rw [Function.update_self, flatMap_itemText]
  rw [hfile, hwrite]
  exact ⟨rfl, readconf_lines (fun it hit => hitems it (List.mem_of_mem_filter hit)) d hlen⟩

/-- **Reading a written table** succeeds and gives the items whose names are one word, in order: all
of them if no name has a vertical tab or a form feed. -/
theorem readconf_writeconf (files : Files) (workPath fname : Bytes) (c d : ConfData)
    (hwritable : files.writable (totalname workPath fname) = true) (hnum : 1 ≤ c.num)
    (hsize : c.num ≤ c.size) (hitems : ∀ it ∈ c.items, Readable it) (hroom : c.num ≤ d.size) :
    (ulWriteconf files workPath fname c).1 = 1 ∧
      (ulReadconf (ulWriteconf files workPath fname c).2 workPath fname d).1 = 1 ∧
      (ulReadconf (ulWriteconf files workPath fname c).2 workPath fname d).2.items =
        c.items.filter oneWord ∧
      ((∀ it ∈ c.items, ∀ b ∈ it.name, b ≠ 11 ∧ b ≠ 12) →
        (ulReadconf (ulWriteconf files workPath fname c).2 workPath fname d).2.items =
          c.items) := by
  obtain ⟨hwrite, hret, hread⟩ := ulReadconf_ulWriteconf files workPath fname c d hwritable hnum hsize
    (fun it hit => (hitems it hit).scannable) hroom
  have hsame : (c.items.filter oneWord).map readItem = c.items.filter oneWord := by
    rw [List.map_congr_left fun it hit => (hitems it (List.mem_of_mem_filter hit)).readItem_eq,
      List.map_id']
  rw [hsame] at hread
  refine ⟨hwrite, hret, hread, fun hvt => ?_⟩
  have hall : c.items.filter oneWord = c.items :=
    List.filter_eq_self.mpr fun it hit => oneWord_of_isNameByte (hitems it hit) (hvt it hit)
  rw [hread, hall]

/-- A disk on which every file can be written. -/
def emptyFiles : Files := ⟨fun _ => none, fun _ => true⟩

/-- A table of the one item with the name `n`. -/
def oneItem (n : Bytes) : ConfData := ⟨1, 1024, fun _ => ⟨n, ascii ": v"⟩⟩

/-- A table with the name `k` is read back. -/
theorem readconf_writeconf_one :
    (ulReadconf (ulWriteconf emptyFiles (ascii ".") (ascii "f") (oneItem (ascii "k"))).2 (ascii ".")
      (ascii "f") (oneItem [])).2.items = [⟨ascii "k", ascii ": v"⟩] := by
  have hreadable : ∀ it ∈ (oneItem (ascii "k")).items, Readable it := by
    intro it hit
    obtain rfl : it = ⟨ascii "k", ascii ": v"⟩ := by simpa [ConfData.items, oneItem] using hit
    constructor <;> decide +kernel
  have h := readconf_writeconf emptyFiles (ascii ".") (ascii "f") (oneItem (ascii "k")) (oneItem [])
    rfl (by decide) (by decide) hreadable (by decide)
  rw [h.2.2.1]
  decide +kernel

/-- A name with a vertical tab is not written. -/
theorem readconf_loses_item :
    (∀ it ∈ (oneItem [97, 11, 98]).items, Readable it) ∧
      (ulWriteconf emptyFiles (ascii ".") (ascii "f") (oneItem [97, 11, 98])).1 = 1 ∧
      (ulReadconf (ulWriteconf emptyFiles (ascii ".") (ascii "f") (oneItem [97, 11, 98])).2
        (ascii ".") (ascii "f") (oneItem [])).2.items = [] := by
  refine ⟨?_, by decide +kernel, by decide +kernel⟩
  intro it hit
  obtain rfl : it = ⟨[97, 11, 98], ascii ": v"⟩ := by simpa [ConfData.items, oneItem] using hit
  constructor <;> decide +kernel

end Asenal.Conf
