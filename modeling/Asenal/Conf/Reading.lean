import Asenal.Conf.Reader

/-!
# What is read of a file

To the reader a line is an item, nothing, or a name that is too long. It stores the items one by one,
and it looks for room in the table at the beginning of every line, whatever the line is.

* `readconfNoDir_some` — the return value and the table in terms of the lines.
* `complete_iff` — when the whole file is read.
* `readconf_failed` — what a reading that fails leaves behind.
-/

namespace Asenal.Conf

open Asenal.Lib.Text Asenal.Lib.CString Asenal.Lib.Memory

/-! ## Lines -/

/-- What a line is to the reader. -/
inductive Line
  | skip
  | item (it : ConfItem)
  | tooLong
  deriving DecidableEq

/-- The item of a line, if it is one. -/
def Line.item? : Line → Option ConfItem
  | .skip => none
  | .item it => some it
  | .tooLong => none

/-- What the reader makes of a line. -/
def lineOf (infStr : Bytes) : Line :=
  if infStr.head? = some 35 ∨ cstr infStr = [] then .skip
  else
    match scanLine (cstr infStr) with
    | none => .tooLong
    | some st =>
        if st.status = .done ∧ st.sepSign = true then .item ⟨printWord st.tmp1, printWord st.tmp2⟩
        else .skip

/-- The items of the lines. -/
def itemsOf (ls : List Bytes) : List ConfItem := ls.filterMap fun l => (lineOf l).item?

/-- The items that are stored when there is room for `n` of them. -/
def stored : ℕ → List Bytes → List ConfItem
  | _, [] => []
  | 0, _ :: _ => []
  | n + 1, l :: ls =>
      match lineOf l with
      | .skip => stored (n + 1) ls
      | .item it => it :: stored n ls
      | .tooLong => []

/-- The lines are read to the end when there is room for `n` items. -/
def complete : ℕ → List Bytes → Bool
  | _, [] => true
  | 0, _ :: _ => false
  | n + 1, l :: ls =>
      match lineOf l with
      | .skip => complete (n + 1) ls
      | .item _ => complete n ls
      | .tooLong => false

variable {n : ℕ} {l : Bytes} {ls : List Bytes} {it : ConfItem}

/-- Nothing is stored without room. -/
theorem stored_zero (ls : List Bytes) : stored 0 ls = [] := by
  cases ls <;> rfl

/-- What a line does to the items that are stored. -/
theorem stored_cons (n : ℕ) (l : Bytes) (ls : List Bytes) : stored (n + 1) (l :: ls) =
    match lineOf l with
    | .skip => stored (n + 1) ls
    | .item it => it :: stored n ls
    | .tooLong => [] := rfl

/-- What a line does to the reading. -/
theorem complete_cons (n : ℕ) (l : Bytes) (ls : List Bytes) : complete (n + 1) (l :: ls) =
    match lineOf l with
    | .skip => complete (n + 1) ls
    | .item _ => complete n ls
    | .tooLong => false := rfl

/-- A line that is skipped is not stored. -/
theorem stored_skip (h : lineOf l = .skip) (n : ℕ) (ls : List Bytes) :
    stored n (l :: ls) = stored n ls := by
  cases n with
  | zero => rw [stored_zero, stored_zero]
  | succ n => rw [stored_cons, h]

/-- An item is stored. -/
theorem stored_item (h : lineOf l = .item it) (n : ℕ) (ls : List Bytes) :
    stored (n + 1) (l :: ls) = it :: stored n ls := by
  rw [stored_cons, h]

/-- A name that is too long ends the reading. -/
theorem stored_tooLong (h : lineOf l = .tooLong) (n : ℕ) (ls : List Bytes) :
    stored n (l :: ls) = [] := by
  cases n with
  | zero => rfl
  | succ n => rw [stored_cons, h]

/-- A line that is skipped needs room all the same. -/
theorem complete_skip (h : lineOf l = .skip) (n : ℕ) (ls : List Bytes) :
    complete (n + 1) (l :: ls) = complete (n + 1) ls := by
  rw [complete_cons, h]

/-- An item takes one place. -/
theorem complete_item (h : lineOf l = .item it) (n : ℕ) (ls : List Bytes) :
    complete (n + 1) (l :: ls) = complete n ls := by
  rw [complete_cons, h]

/-- Behind a name that is too long nothing is read. -/
theorem complete_tooLong (h : lineOf l = .tooLong) (n : ℕ) (ls : List Bytes) :
    complete n (l :: ls) = false := by
  cases n with
  | zero => rfl
  | succ n => rw [complete_cons, h]

/-! ## The loop -/

/-- One line of the loop, in a table with room. -/
theorem readLoop_cons {d : ConfData} {k : ℕ} (hroom : k < d.size) (l : Bytes) (ls : List Bytes) :
    (lineOf l = .skip → readLoop d (l :: ls) k = readLoop d ls k) ∧
      (∀ it, lineOf l = .item it → readLoop d (l :: ls) k =
        readLoop { d with item := Function.update d.item k it } ls (k + 1)) ∧
      (lineOf l = .tooLong → readLoop d (l :: ls) k = (-1, d)) := by
  rw [readLoop, if_neg (by omega)]
  unfold lineOf
  by_cases hcomment : l.head? = some 35
  · simp [hcomment]
  by_cases hempty : cstr l = []
  · simp [hempty]
  · rw [if_neg hcomment, if_neg hempty, if_neg (not_or.mpr ⟨hcomment, hempty⟩)]
    cases scanLine (cstr l) with
    | none => simp
    | some st =>
        by_cases hdone : st.status = .done ∧ st.sepSign = true
        · simp only [if_pos hdone]
          refine ⟨nofun, ?_, nofun⟩
          rintro it hit
          cases hit
          rfl
        · simp [if_neg hdone]

/-- **The loop** stores items behind the first `k`, and sets their number if it comes to the end. -/
theorem readLoop_spec (ls : List Bytes) (d : ConfData) (k : ℕ) :
    readLoop d ls k =
      if complete (d.size - k) ls = true then
        (1, { d with
          num := k + (stored (d.size - k) ls).length
          item := poke d.item k (stored (d.size - k) ls) })
      else (-1, { d with item := poke d.item k (stored (d.size - k) ls) }) := by
  induction ls generalizing d k with
  | nil =>
      have hdone : complete (d.size - k) [] = true := by
        cases d.size - k <;> rfl
      have hnone : stored (d.size - k) [] = [] := by
        cases d.size - k <;> rfl
      rw [if_pos hdone, hnone, poke_nil]
      rfl
  | cons l ls ih =>
      rcases Nat.lt_or_ge k d.size with hroom | hfull
      · obtain ⟨hskip, hitem, htooLong⟩ := readLoop_cons hroom l ls
        obtain ⟨n, hn⟩ : ∃ n, d.size - k = n + 1 := ⟨d.size - k - 1, by omega⟩
        cases hl : lineOf l with
        | skip => rw [hskip hl, ih, hn, complete_skip hl, stored_skip hl]
        | item it =>
            have hless : d.size - (k + 1) = n := by omega
            rw [hitem it hl, ih, hn, complete_item hl, stored_item hl, poke_cons]
            dsimp only
            rw [hless, List.length_cons, Nat.add_assoc, Nat.add_comm 1]
        | tooLong =>
            rw [htooLong hl, if_neg (by rw [complete_tooLong hl]; decide), stored_tooLong hl, poke_nil]
      · have hzero : d.size - k = 0 := Nat.sub_eq_zero_of_le hfull
        rw [readLoop, if_pos hfull, hzero, stored_zero, poke_nil,
          show complete 0 (l :: ls) = false from rfl, if_neg (by decide)]

/-- **Reading a file**. -/
theorem readconfNoDir_some (s : Bytes) (d : ConfData) (start : ℕ) :
    readconfNoDir (some s) d start =
      if complete (d.size - start) (fgetsAll (lineSize - 1) s) = true then
        (1, { d with
          num := start + (stored (d.size - start) (fgetsAll (lineSize - 1) s)).length
          item := poke d.item start (stored (d.size - start) (fgetsAll (lineSize - 1) s)) })
      else
        (-1, { d with
          item := poke d.item start (stored (d.size - start) (fgetsAll (lineSize - 1) s)) }) :=
  readLoop_spec _ d start

/-! ## When all lines are read -/

/-- The last line is an item, or there is none. -/
def endsInItem (ls : List Bytes) : Bool := ls.getLast?.all fun l => (lineOf l).item?.isSome

/-- The item of the first line in front of the others. -/
theorem itemsOf_cons (l : Bytes) (ls : List Bytes) :
    itemsOf (l :: ls) = (lineOf l).item?.toList ++ itemsOf ls := by
  unfold itemsOf
  rw [List.filterMap_cons]
  cases (lineOf l).item? <;> rfl

/-- The last line is the last one of the others. -/
theorem endsInItem_cons (l : Bytes) {ls : List Bytes} (h : ls ≠ []) :
    endsInItem (l :: ls) = endsInItem ls := by
  obtain ⟨l', ls', rfl⟩ := List.exists_cons_of_ne_nil h
  unfold endsInItem
  rw [List.getLast?_cons_cons]

/-- Lines that are all read give all their items. -/
theorem stored_of_complete (h : complete n ls = true) : stored n ls = itemsOf ls := by
  induction ls generalizing n with
  | nil => cases n <;> rfl
  | cons l ls ih =>
      cases n with
      | zero => exact absurd h Bool.false_ne_true
      | succ n =>
          rw [itemsOf_cons]
          cases hl : lineOf l with
          | skip =>
              rw [complete_skip hl] at h
              rw [stored_skip hl, ih h]
              rfl
          | item it =>
              rw [complete_item hl] at h
              rw [stored_item hl, ih h]
              rfl
          | tooLong =>
              rw [complete_tooLong hl] at h
              exact absurd h Bool.false_ne_true

/-- **The whole file is read** iff no name is too long, there is room for the items, and behind the
item that takes the last place no line follows. -/
theorem complete_iff (n : ℕ) (ls : List Bytes) :
    complete n ls = true ↔ (∀ l ∈ ls, lineOf l ≠ .tooLong) ∧ (itemsOf ls).length ≤ n ∧
      ((itemsOf ls).length = n → endsInItem ls = true) := by
  induction ls generalizing n with
  | nil =>
      refine iff_of_true ?_ ⟨fun l hl => absurd hl List.not_mem_nil, Nat.zero_le n, fun _ => rfl⟩
      cases n <;> rfl
  | cons l ls ih =>
      rw [List.forall_mem_cons, itemsOf_cons, List.length_append]
      cases hl : lineOf l with
      | tooLong =>
          rw [complete_tooLong hl]
          exact iff_of_false Bool.false_ne_true fun h => h.1.1 rfl
      | item it =>
          have hends : endsInItem (l :: ls) = endsInItem ls := by
            by_cases hls : ls = []
            · rw [hls, endsInItem, List.getLast?_singleton, Option.all_some, hl]
              rfl
            · exact endsInItem_cons l hls
          rw [hends]
          cases n with
          | zero =>
              apply iff_of_false Bool.false_ne_true
              intro h
              exact absurd h.2.1 (by simp [Line.item?])
          | succ n =>
              rw [complete_item hl, ih]
              simp only [Line.item?, Option.toList_some, List.length_singleton, ne_eq, reduceCtorEq,
                not_false_eq_true, true_and]
              rw [Nat.add_comm 1, Nat.add_le_add_iff_right, Nat.add_right_cancel_iff]
      | skip =>
          simp only [Line.item?, Option.toList_none, List.length_nil, Nat.zero_add, ne_eq,
            reduceCtorEq, not_false_eq_true, true_and]
          by_cases hls : ls = []
          · rw [hls, endsInItem, List.getLast?_singleton, Option.all_some, hl]
            cases n with
            | zero => exact iff_of_false Bool.false_ne_true fun h => absurd (h.2.2 rfl) (by decide)
            | succ n =>
                rw [complete_skip hl]
                exact iff_of_true rfl ⟨fun l hl => absurd hl List.not_mem_nil, Nat.zero_le _, nofun⟩
          · rw [endsInItem_cons l hls]
            cases n with
            | zero =>
                apply iff_of_false Bool.false_ne_true
                intro h
                -- the last line is an item, and there is no item
                have hnone := List.eq_nil_of_length_eq_zero (Nat.le_zero.mp h.2.1)
                have hlast := h.2.2 (Nat.le_zero.mp h.2.1)
                rw [endsInItem, List.getLast?_eq_some_getLast hls, Option.all_some] at hlast
                have hall := List.filterMap_eq_nil_iff.mp hnone _ (List.getLast_mem hls)
                rw [hall] at hlast
                exact absurd hlast Bool.false_ne_true
            | succ n => rw [complete_skip hl, ih]

/-! ## The table afterwards -/

/-- The items are the first places of the array. -/
theorem items_eq_peek (d : ConfData) : d.items = peek d.item 0 d.num := by
  simp [ConfData.items, peek]

/-- Items that are stored from the first slot on. -/
theorem items_poke (d : ConfData) (its : List ConfItem) :
    ({ d with item := poke d.item 0 its } : ConfData).items =
      its.take d.num ++ d.items.drop its.length := by
  rw [items_eq_peek, items_eq_peek]
  dsimp only
  apply List.ext_getElem
  · simp
    omega
  · intro i h₁ h₂
    rw [length_peek] at h₁
    simp only [peek, poke, Nat.zero_add, Nat.zero_le, if_true, Nat.sub_zero, List.getElem_map,
      List.getElem_range]
    rcases Nat.lt_or_ge i its.length with hi | hi
    · rw [List.getD_eq_getElem _ _ hi, List.getElem_append_left (by rw [List.length_take]; omega),
        List.getElem_take]
    · rw [List.getD_eq_default _ _ hi, List.getElem_append_right (by rw [List.length_take]; omega),
        List.getElem_drop, List.getElem_map, List.getElem_range]
      congr 1
      rw [List.length_take]
      omega

/-- The items that are stored behind those in use. -/
theorem items_extend (d : ConfData) (its : List ConfItem) :
    ({ d with num := d.num + its.length, item := poke d.item d.num its } : ConfData).items =
      d.items ++ its := by
  rw [items_eq_peek, items_eq_peek]
  exact peek_poke_extend d.item its (Nat.zero_add _).symm

/-- Items that are stored behind those in use, but not counted. -/
theorem items_beyond (d : ConfData) (its : List ConfItem) :
    ({ d with item := poke d.item d.num its } : ConfData).items = d.items := by
  rw [items_eq_peek, items_eq_peek]
  exact peek_poke_before d.item its (Nat.le_of_eq (Nat.zero_add _))

/-! ## A reading that fails -/

/-- `n` lines with an item, and what follows them. -/
def itemLines : ℕ → Bytes → Bytes
  | 0, r => r
  | n + 1, r => ascii "b:2" ++ 10 :: itemLines n r

/-- A disk on which every path is a file with the text `s`. -/
def everywhere (s : Bytes) : Files := ⟨fun _ => some s, fun _ => true⟩

/-- Lines of items are read line by line. -/
theorem fgetsAll_itemLines (n : ℕ) (r : Bytes) :
    fgetsAll (lineSize - 1) (itemLines n r) =
      List.replicate n (ascii "b:2" ++ [10]) ++ fgetsAll (lineSize - 1) r := by
  induction n with
  | zero => rfl
  | succ n ih =>
      rw [itemLines, fgetsAll_line (by decide) (by decide), ih]
      rfl

/-- The line is an item. -/
theorem lineOf_itemLine : lineOf (ascii "b:2" ++ [10]) = .item ⟨ascii "b", ascii "2"⟩ := by decide

/-- Items that fill the table are stored, and then nothing may follow. -/
theorem read_replicate (h : lineOf l = .item it) (n : ℕ) (ls : List Bytes) :
    stored n (List.replicate n l ++ ls) = List.replicate n it ∧
      complete n (List.replicate n l ++ ls) = ls.isEmpty := by
  induction n with
  | zero => exact ⟨stored_zero ls, by cases ls <;> rfl⟩
  | succ n ih =>
      rw [List.replicate_succ, List.cons_append, stored_item h, complete_item h, ih.1, ih.2]
      exact ⟨rfl, rfl⟩

/-- **A reading that fails** leaves the numbers as they are, and the whole table if there is no file to
read. Otherwise the items of the lines in front of the one at which it ended stand in the first slots:
the table is as before iff they are those that stood there. -/
theorem readconf_failed (files : Files) (workPath fname : Bytes) (d : ConfData)
    (hfail : (ulReadconf files workPath fname d).1 = -1) :
    (ulReadconf files workPath fname d).2.num = d.num ∧
      (ulReadconf files workPath fname d).2.size = d.size ∧
      (files.content (totalname workPath fname) = none →
        (ulReadconf files workPath fname d).2 = d) ∧
      ∀ s, files.content (totalname workPath fname) = some s →
        (∀ i, (ulReadconf files workPath fname d).2.item i =
          (stored d.size (fgetsAll (lineSize - 1) s)).getD i (d.item i)) ∧
        ((ulReadconf files workPath fname d).2.items = d.items ↔
          (stored d.size (fgetsAll (lineSize - 1) s)).take d.num =
            d.items.take (stored d.size (fgetsAll (lineSize - 1) s)).length) := by
  unfold ulReadconf at *
  cases hfile : files.content (totalname workPath fname) with
  | none => exact ⟨rfl, rfl, fun _ => rfl, nofun⟩
  | some s =>
      rw [hfile, readconfNoDir_some, Nat.sub_zero] at hfail
      rw [readconfNoDir_some, Nat.sub_zero]
      split_ifs at hfail ⊢
      refine ⟨rfl, rfl, nofun, fun t ht => ?_⟩
      obtain rfl := Option.some.inj ht
      generalize stored d.size (fgetsAll (lineSize - 1) s) = its
      refine ⟨fun i => by simp [poke], ?_⟩
      rw [items_poke]
      constructor
      · intro heq
        have hlen : (its.take d.num).length = (d.items.take its.length).length := by
          simp [ConfData.items, Nat.min_comm]
        have hsplit := List.take_append_drop its.length d.items
        exact (List.append_inj (heq.trans hsplit.symm) hlen).1
      · intro heq
        rw [heq, List.take_append_drop]

/-- A table of the item `x` with the value `1`, and a file that has one item too many for it. -/
theorem ulReadconf_tooMany :
    (ulReadconf (everywhere (itemLines 1025 [])) (ascii ".") (ascii "f")
        ⟨1, 1024, fun _ => ⟨ascii "x", ascii "1"⟩⟩).1 = -1 ∧
      (ulReadconf (everywhere (itemLines 1025 [])) (ascii ".") (ascii "f")
        ⟨1, 1024, fun _ => ⟨ascii "x", ascii "1"⟩⟩).2.items = [⟨ascii "b", ascii "2"⟩] := by
  have hlines : fgetsAll (lineSize - 1) (itemLines 1025 []) =
      List.replicate 1024 (ascii "b:2" ++ [10]) ++ [ascii "b:2" ++ [10]] := by
    rw [fgetsAll_itemLines, fgetsAll_nil, List.append_nil, List.replicate_succ']
  obtain ⟨hstored, hcomplete⟩ := read_replicate lineOf_itemLine 1024 [ascii "b:2" ++ [10]]
  have hread : ulReadconf (everywhere (itemLines 1025 [])) (ascii ".") (ascii "f")
      ⟨1, 1024, fun _ => ⟨ascii "x", ascii "1"⟩⟩ = (-1, ⟨1, 1024,
        poke (fun _ => ⟨ascii "x", ascii "1"⟩) 0 (List.replicate 1024 ⟨ascii "b", ascii "2"⟩)⟩) := by
    apply (readconfNoDir_some _ _ 0).trans
    rw [hlines, Nat.sub_zero, hstored, hcomplete]
    rfl
  rw [hread]
  refine ⟨rfl, (items_poke ⟨1, 1024, fun _ => ⟨ascii "x", ascii "1"⟩⟩ _).trans ?_⟩
  rw [List.take_replicate, List.length_replicate]
  rfl

/-- The items of the lines in front of the one that does not fit have been stored. -/
theorem readconf_failed_tooMany :
    (ulReadconf (everywhere (itemLines 1025 [])) (ascii ".") (ascii "f")
      ⟨1, 1024, fun _ => ⟨ascii "x", ascii "1"⟩⟩).2.num = 1 :=
  (readconf_failed _ (ascii ".") (ascii "f") _ ulReadconf_tooMany.1).1

/-- A reading that fails may change the table. -/
theorem readconf_failed_changes : ¬ ∀ (files : Files) (workPath fname : Bytes) (d : ConfData),
    (ulReadconf files workPath fname d).1 = -1 →
      (ulReadconf files workPath fname d).2.items = d.items := by
  intro hclaim
  have hitems := hclaim _ (ascii ".") (ascii "f") _ ulReadconf_tooMany.1
  rw [ulReadconf_tooMany.2] at hitems
  exact absurd hitems (by decide)

end Asenal.Conf
