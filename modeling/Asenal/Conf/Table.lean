import Asenal.Lib.OrderedMap
import Asenal.Conf.Values

/-!
# A table as a store

The items of a table under `ul_addconfstr`, `ul_modifyconfstr` and `ul_getconfnstr`. Adding writes the name into
the slot behind the items in use before it looks at the value, so a call that fails may leave a name there; it is
not counted, and no call looks at it.

* `exec_refines` — one call on a table is the operation on an insertion-ordered map.
* `runTable_refines` — so is a run, the names stay distinct, and what a name holds is what was stored last.
* `add_full` — a name that is there is not looked for in a full table.
-/

namespace Asenal.Conf

open Asenal.Lib.Text Asenal.Lib.CString Asenal.Lib.Memory Asenal.Lib.OrderedMap Asenal.Lib.Scan

/-! ## The calls -/

/-- Source: `ul_conf.cpp` `ul_addconfstr`. -/
def ulAddconfstr (d : ConfData) (name value : Bytes) : ℤ × ConfData := addconf d name (.string value)

/-- Source: `ul_conf.cpp` `ul_modifyconfstr`. -/
def ulModifyconfstr (d : ConfData) (name value : Bytes) : ℤ × ConfData := modifyconf d name (.string value)

/-- A call, with the texts that are handed over; the destination of a lookup has `WORD_SIZE` bytes. -/
inductive Op
  | add (name value : Bytes)
  | modify (name value : Bytes)
  | get (name : Bytes)

/-- What a call returns, and the string at its destination. -/
abbrev Answer := ℤ × Bytes

/-- A call on a table. -/
def exec (d : ConfData) : Op → Answer × ConfData
  | .add name value =>
      let r := ulAddconfstr d name value
      ((r.1, []), r.2)
  | .modify name value =>
      let r := ulModifyconfstr d name value
      ((r.1, []), r.2)
  | .get name => (ulGetconfnstr d name wordSize, d)

/-- Calls on a table, one after another. -/
def execAll (d : ConfData) : List Op → List Answer × ConfData
  | [] => ([], d)
  | op :: ops =>
      let r := exec d op
      let t := execAll r.2 ops
      (r.1 :: t.1, t.2)

/-! ## The map -/

/-- A map from names to values. -/
abbrev NameMap := AList fun _ : Bytes => Bytes

/-- A call on a map with at most `size` entries: a new name is added behind the others if it fits and there is room,
and a name that is there keeps its place. -/
def spec (size : ℕ) (s : NameMap) : Op → Answer × NameMap
  | .add name value =>
      if wordSize ≤ name.length then ((-1, []), s)
      else if size ≤ s.entries.length then ((-2, []), s)
      else if name ∈ s then ((0, []), s)
      else if wordSize ≤ value.length then ((-3, []), s)
      else ((1, []), put s name value)
  | .modify name value =>
      if wordSize ≤ value.length then ((-3, []), s)
      else if name ∈ s then ((1, []), put s name value)
      else ((0, []), s)
  | .get name =>
      match s.lookup name with
      | some v => ((1, v), s)
      | none => ((0, []), s)

/-- The calls on the map. -/
def specAll (size : ℕ) (s : NameMap) : List Op → List Answer × NameMap
  | [] => ([], s)
  | op :: ops =>
      let r := spec size s op
      let t := specAll size r.2 ops
      (r.1 :: t.1, t.2)

/-- An item as an entry of the map. -/
def ConfItem.entry (it : ConfItem) : Sigma fun _ : Bytes => Bytes := ⟨it.name, it.value⟩

theorem ConfItem.entry_injective : Function.Injective ConfItem.entry := by
  rintro ⟨name, value⟩ ⟨name', value'⟩ heq
  obtain ⟨rfl, hvalue⟩ := Sigma.mk.inj heq
  exact congrArg (ConfItem.mk name) (eq_of_heq hvalue)

/-- A table with distinct names whose strings fit their arrays. -/
structure IsTable (d : ConfData) : Prop where
  num_le : d.num ≤ d.size
  fits : ∀ it ∈ d.items, it.name.length < wordSize ∧ it.value.length < wordSize
  nodup : (d.items.map ConfItem.name).Nodup

/-- The table holds the entries of the map. -/
structure Represents (d : ConfData) (s : NameMap) : Prop where
  num_le : d.num ≤ d.size
  fits : ∀ it ∈ d.items, it.name.length < wordSize ∧ it.value.length < wordSize
  entries : s.entries = d.items.map ConfItem.entry

variable {d : ConfData} {s : NameMap} {name value : Bytes}

/-- The map of a table. -/
def IsTable.map (h : IsTable d) : NameMap where
  entries := d.items.map ConfItem.entry
  nodupKeys := by
    rw [List.NodupKeys, List.keys, List.map_map]
    exact h.nodup

theorem IsTable.represents (h : IsTable d) : Represents d h.map := ⟨h.num_le, h.fits, rfl⟩

theorem Represents.nodup (h : Represents d s) : (d.items.map ConfItem.name).Nodup := by
  have hnodup := s.nodupKeys
  rwa [List.NodupKeys, List.keys, h.entries, List.map_map] at hnodup

theorem Represents.length_entries (h : Represents d s) : s.entries.length = d.num := by
  rw [h.entries, List.length_map, length_items]

/-- The entries are those of the slots in use. -/
theorem Represents.entries_eq (h : Represents d s) :
    s.entries = slotEntries (fun i => (d.item i).name) (fun i => (d.item i).value) d.num := by
  rw [h.entries, ConfData.items, List.map_map]
  rfl

/-- The index that is found is the first one with the name. -/
theorem firstIndex_eq_some {i : ℕ} (h : firstIndex d name = some i) :
    i < d.num ∧ (d.item i).name = name ∧ ∀ j < i, (d.item j).name ≠ name :=
  find?_slot_eq_some (fun _ => beq_iff_eq) h

/-- A name that is found is the key of the entry at its index, and of none in front of it. -/
theorem Represents.entry_of_firstIndex (h : Represents d s) {i : ℕ} (hi : firstIndex d name = some i) :
    s.entries[i]? = some ⟨name, (d.item i).value⟩ ∧ name ∉ (s.entries.take i).keys ∧ name ∈ s := by
  obtain ⟨-, hname, -⟩ := firstIndex_eq_some hi
  rw [AList.mem_keys, AList.keys, h.entries_eq, ← hname]
  rw [← hname] at hi
  exact entry_of_find? (fun _ => beq_iff_eq) hi

theorem Represents.not_mem (h : Represents d s) (hi : firstIndex d name = none) : name ∉ s := by
  rw [AList.mem_keys, AList.keys, h.entries_eq]
  exact not_mem_of_find? (fun _ => beq_iff_eq) hi

/-! ## One call -/

/-- What a name holds, as the table has it. -/
theorem Represents.firstValue_eq (h : Represents d s) (name : Bytes) : firstValue d.items name = s.lookup name := by
  rw [firstValue_items, AList.lookup]
  cases hi : firstIndex d name with
  | none => rw [List.dlookup_eq_none.mpr (h.not_mem hi)]; rfl
  | some i =>
      obtain ⟨hentry, hfirst, -⟩ := h.entry_of_firstIndex hi
      rw [dlookup_eq_of_first hentry hfirst]
      rfl

/-- A slot behind the items in use does not count. -/
theorem Represents.beyond (h : Represents d s) (it : ConfItem) :
    Represents { d with item := Function.update d.item d.num it } s := by
  have hitems : ({ d with item := Function.update d.item d.num it } : ConfData).items = d.items := by
    rw [← poke_singleton]
    exact items_beyond d [it]
  exact ⟨h.num_le, by rw [hitems]; exact h.fits, by rw [hitems]; exact h.entries⟩

/-- An item that is added. -/
theorem Represents.extend (h : Represents d s) (hnew : name ∉ s) (hroom : d.num < d.size)
    (hname : name.length < wordSize) (hvalue : value.length < wordSize) :
    Represents { d with num := d.num + 1, item := Function.update d.item d.num ⟨name, value⟩ }
      (put s name value) := by
  have hitems : ({ d with num := d.num + 1, item := Function.update d.item d.num ⟨name, value⟩ } :
      ConfData).items = d.items ++ [⟨name, value⟩] := by
    rw [← poke_singleton]
    exact items_extend d [⟨name, value⟩]
  refine ⟨hroom, ?_, ?_⟩
  · rw [hitems, List.forall_mem_append, List.forall_mem_singleton]
    exact ⟨h.fits, hname, hvalue⟩
  · rw [hitems, entries_put_of_not_mem _ hnew, h.entries, List.map_append]
    rfl

/-- An item whose value is replaced. -/
theorem Represents.replace (h : Represents d s) {i : ℕ} (hi : firstIndex d name = some i)
    (hvalue : value.length < wordSize) :
    Represents { d with item := Function.update d.item i { d.item i with value := value } } (put s name value) := by
  obtain ⟨hlt, hname, -⟩ := firstIndex_eq_some hi
  obtain ⟨hentry, hfirst, hmem⟩ := h.entry_of_firstIndex hi
  have hitems : ({ d with item := Function.update d.item i { d.item i with value := value } } : ConfData).items =
      d.items.set i ⟨name, value⟩ := by
    apply List.ext_getElem
    · simp [ConfData.items]
    · intro j h₁ h₂
      rw [List.getElem_set]
      simp only [ConfData.items, List.getElem_map, List.getElem_range, Function.update_apply, hname]
      by_cases hj : i = j
      · rw [if_pos hj, if_pos hj.symm]
      · rw [if_neg hj, if_neg (Ne.symm hj)]
  have hfit : name.length < wordSize := by
    have hitem := (h.fits (d.item i) (List.mem_map_of_mem (List.mem_range.mpr hlt))).1
    rwa [hname] at hitem
  refine ⟨h.num_le, ?_, ?_⟩
  · rw [hitems]
    intro it hit
    rcases List.mem_or_eq_of_mem_set hit with hold | rfl
    · exact h.fits it hold
    · exact ⟨hfit, hvalue⟩
  · rw [hitems, entries_put_of_mem _ hmem, kreplace_eq_set _ hentry hfirst, h.entries, List.map_set]
    rfl

/-- Adding refines adding. -/
theorem add_refines (h : Represents d s) (name value : Bytes) :
    (exec d (.add name value)).1 = (spec d.size s (.add name value)).1 ∧
      Represents (exec d (.add name value)).2 (spec d.size s (.add name value)).2 ∧
      (exec d (.add name value)).2.size = d.size := by
  simp only [exec, spec, ulAddconfstr, addconf, h.length_entries]
  by_cases hlong : wordSize ≤ name.length
  · rw [if_pos hlong, if_pos hlong]
    exact ⟨rfl, h, rfl⟩
  rw [if_neg hlong, if_neg hlong]
  by_cases hfull : d.size ≤ d.num
  · rw [if_pos hfull, if_pos hfull]
    exact ⟨rfl, h, rfl⟩
  rw [if_neg hfull, if_neg hfull]
  cases hi : firstIndex d name with
  | some i =>
      rw [if_pos (show (some i).isSome = true from rfl), if_pos (h.entry_of_firstIndex hi).2.2]
      exact ⟨rfl, h, rfl⟩
  | none =>
      have hnew := h.not_mem hi
      rw [if_neg (by simp), if_neg hnew, ConfValue.text?]
      by_cases hwide : wordSize ≤ value.length
      · rw [if_pos hwide, if_pos hwide]
        exact ⟨rfl, h.beyond _, rfl⟩
      · rw [if_neg hwide, if_neg hwide]
        exact ⟨rfl, h.extend hnew (not_le.mp hfull) (not_le.mp hlong) (not_le.mp hwide), rfl⟩

/-- Modifying refines replacing. -/
theorem modify_refines (h : Represents d s) (name value : Bytes) :
    (exec d (.modify name value)).1 = (spec d.size s (.modify name value)).1 ∧
      Represents (exec d (.modify name value)).2 (spec d.size s (.modify name value)).2 ∧
      (exec d (.modify name value)).2.size = d.size := by
  simp only [exec, spec, ulModifyconfstr, modifyconf, ConfValue.text?]
  by_cases hwide : wordSize ≤ value.length
  · rw [if_pos hwide, if_pos hwide]
    exact ⟨rfl, h, rfl⟩
  rw [if_neg hwide, if_neg hwide]
  dsimp only [modifyFirst]
  cases hi : firstIndex d name with
  | some i =>
      rw [if_pos (h.entry_of_firstIndex hi).2.2]
      exact ⟨rfl, h.replace hi (not_le.mp hwide), rfl⟩
  | none =>
      rw [if_neg (h.not_mem hi)]
      exact ⟨rfl, h, rfl⟩

/-- Getting refines looking up. -/
theorem get_refines (h : Represents d s) (name : Bytes) :
    (exec d (.get name)).1 = (spec d.size s (.get name)).1 ∧
      Represents (exec d (.get name)).2 (spec d.size s (.get name)).2 ∧
      (exec d (.get name)).2.size = d.size := by
  simp only [exec, spec, ulGetconfnstr, h.firstValue_eq, and_true]
  cases hlookup : s.lookup name with
  | none => exact ⟨rfl, h⟩
  | some v =>
      refine ⟨?_, h⟩
      have hlength : v.length ≤ wordSize - 1 := by
        rw [← h.firstValue_eq, firstValue, Option.map_eq_some_iff] at hlookup
        obtain ⟨it, hfound, rfl⟩ := hlookup
        exact Nat.le_sub_one_of_lt (h.fits it (List.mem_of_find?_eq_some hfound)).2
      rw [answer, List.take_of_length_le hlength]

/-- **One call on a table is the operation on the map.** -/
theorem exec_refines (h : Represents d s) (op : Op) :
    (exec d op).1 = (spec d.size s op).1 ∧ Represents (exec d op).2 (spec d.size s op).2 ∧
      (exec d op).2.size = d.size := by
  cases op with
  | add name value => exact add_refines h name value
  | modify name value => exact modify_refines h name value
  | get name => exact get_refines h name

/-! ## Runs -/

/-- A run on a table is the run on the map. -/
theorem execAll_refines (h : Represents d s) (ops : List Op) :
    (execAll d ops).1 = (specAll d.size s ops).1 ∧ Represents (execAll d ops).2 (specAll d.size s ops).2 ∧
      (execAll d ops).2.size = d.size := by
  induction ops generalizing d s with
  | nil => exact ⟨rfl, h, rfl⟩
  | cons op ops ih =>
      obtain ⟨hanswer, hrep, hsize⟩ := exec_refines h op
      obtain ⟨hanswers, hreps, hsizes⟩ := ih hrep
      rw [hsize] at hanswers hreps
      simp only [execAll, specAll]
      exact ⟨by rw [hanswer, hanswers], hreps, hsizes.trans hsize⟩

/-- What a name holds behind a call with its answer, when it held `v`. -/
def remember (a : Bytes) (v : Option Bytes) : Op × Answer → Option Bytes
  | (.add name value, ret, _) => if name = a ∧ ret = 1 then some value else v
  | (.modify name value, ret, _) => if name = a ∧ ret = 1 then some value else v
  | (.get _, _) => v

/-- What was stored last for a name in a table. -/
def lastStored (d : ConfData) (a : Bytes) (history : List (Op × Answer)) : Option Bytes :=
  history.foldl (remember a) (firstValue d.items a)

/-- What a name holds in the map behind a call. -/
theorem lookup_spec (size : ℕ) (s : NameMap) (op : Op) (a : Bytes) :
    (spec size s op).2.lookup a = remember a (s.lookup a) (op, (spec size s op).1) := by
  have hput : ∀ n v : Bytes, (put s n v).lookup a = if n = a ∧ (1 : ℤ) = 1 then some v else s.lookup a := by
    intro n v
    split_ifs with h
    · rw [h.1, lookup_put_self]
    · exact lookup_put_of_ne s v fun heq => h ⟨heq.symm, rfl⟩
  cases op with
  | add name value =>
      simp only [spec]
      split_ifs
      · simp [remember]
      · simp [remember]
      · simp [remember]
      · simp [remember]
      · exact hput name value
  | modify name value =>
      simp only [spec]
      split_ifs
      · simp [remember]
      · exact hput name value
      · simp [remember]
  | get name =>
      simp only [spec, remember]
      split <;> rfl

/-- The names of the map hold what was stored last. -/
theorem lookup_specAll (size : ℕ) (s : NameMap) (ops : List Op) (a : Bytes) :
    (specAll size s ops).2.lookup a = (ops.zip (specAll size s ops).1).foldl (remember a) (s.lookup a) := by
  induction ops generalizing s with
  | nil => rfl
  | cons op ops ih =>
      simp only [specAll, List.zip_cons_cons, List.foldl_cons]
      rw [ih, lookup_spec]

/-- A call that does not return `1` does not change the map. -/
theorem spec_of_ne_one (size : ℕ) (s : NameMap) {op : Op} (h : (spec size s op).1.1 ≠ 1) : (spec size s op).2 = s := by
  cases op with
  | add name value =>
      simp only [spec] at h ⊢
      split_ifs at h ⊢ <;> first | rfl | exact absurd rfl h
  | modify name value =>
      simp only [spec] at h ⊢
      split_ifs at h ⊢ <;> first | rfl | exact absurd rfl h
  | get name =>
      simp only [spec]
      split <;> rfl

/-- A call that does not return `1` changes no item. -/
theorem Represents.items_exec (h : Represents d s) {op : Op} (hret : (exec d op).1.1 ≠ 1) :
    (exec d op).2.items = d.items := by
  obtain ⟨hanswer, hrep, -⟩ := exec_refines h op
  have hentries := hrep.entries
  rw [spec_of_ne_one d.size s (by rwa [← hanswer]), h.entries] at hentries
  exact (List.map_injective_iff.mpr ConfItem.entry_injective hentries).symm

/-- **A table with distinct names is an insertion-ordered map** over every run: the answers and the items are those
of the map, the names stay distinct, a lookup gives what was stored last, and a call that does not return `1` changes
no item. -/
theorem runTable_refines (h : IsTable d) (ops : List Op) :
    (execAll d ops).1 = (specAll d.size h.map ops).1 ∧
      (execAll d ops).2.items.map ConfItem.entry = (specAll d.size h.map ops).2.entries ∧
      IsTable (execAll d ops).2 ∧ (execAll d ops).2.size = d.size ∧
      (∀ name, (exec (execAll d ops).2 (.get name)).1 =
        match lastStored d name (ops.zip (execAll d ops).1) with
        | some value => (1, value)
        | none => (0, [])) ∧
      ∀ op, (exec (execAll d ops).2 op).1.1 ≠ 1 → (exec (execAll d ops).2 op).2.items = (execAll d ops).2.items := by
  obtain ⟨hanswers, hrep, hsize⟩ := execAll_refines h.represents ops
  refine ⟨hanswers, hrep.entries.symm, ⟨hrep.num_le, hrep.fits, hrep.nodup⟩, hsize, ?_, fun op => hrep.items_exec⟩
  intro name
  rw [(get_refines hrep name).1, lastStored, h.represents.firstValue_eq, hanswers, ← lookup_specAll, spec]
  cases (specAll d.size h.map ops).2.lookup name <;> rfl

/-- A table as `ul_initconf` makes it. -/
theorem isTable_init (size : ℕ) (item : Mem ConfItem) : IsTable ⟨0, size, item⟩ :=
  ⟨Nat.zero_le _, fun _ h => absurd h List.not_mem_nil, List.nodup_nil⟩

/-- A name is added, added again, modified and looked up; the last value is too long. -/
def smallCalls : List Op :=
  [.add (ascii "a") (ascii "1"), .add (ascii "a") (ascii "2"), .modify (ascii "a") (ascii "3"), .get (ascii "a"),
    .add (ascii "b") (List.replicate 2048 120)]

/-- The value that is too long is refused. -/
example : ((execAll ⟨0, 1024, fun _ => ⟨[], []⟩⟩ smallCalls).1.map Prod.fst) = [1, 0, 1, 1, -3] := by decide +kernel

/-- Behind `smallCalls` a new table holds what was stored last. -/
theorem runTable_refines_small :
    IsTable (execAll ⟨0, 1024, fun _ => ⟨[], []⟩⟩ smallCalls).2 ∧
      (exec (execAll ⟨0, 1024, fun _ => ⟨[], []⟩⟩ smallCalls).2 (.get (ascii "a"))).1 = (1, ascii "3") := by
  obtain ⟨-, -, htable, -, hget, -⟩ := runTable_refines (isTable_init 1024 fun _ => ⟨[], []⟩) smallCalls
  exact ⟨htable, (hget (ascii "a")).trans (by decide +kernel)⟩

/-- A full table. -/
def fullTable : ConfData := ⟨1024, 1024, fun i => ⟨dec i, []⟩⟩

theorem isTable_fullTable : IsTable fullTable := by
  have hitems : fullTable.items = (List.range 1024).map fun i => ⟨dec i, []⟩ := rfl
  refine ⟨le_refl _, ?_, ?_⟩
  · rw [hitems]
    intro it hit
    obtain ⟨i, hi, rfl⟩ := List.mem_map.mp hit
    have hlength : (dec i).length ≤ 4 := length_dec_le (by have := List.mem_range.mp hi; omega) (by decide)
    exact ⟨by simp only [wordSize]; omega, by simp [wordSize]⟩
  · rw [hitems, List.map_map]
    refine List.Nodup.map (fun i j heq => ?_) List.nodup_range
    have hdec : decInt (i : ℤ) = decInt (j : ℤ) := by
      rw [decInt_natCast, decInt_natCast]
      exact heq
    exact Int.ofNat.inj (decInt_inj hdec)

/-- In a full table a name that is there is not looked for, and a table that was read may have a name twice. -/
theorem add_full :
    (¬ ∀ (d : ConfData) (name value : Bytes), IsTable d → (∃ it ∈ d.items, it.name = name) →
      (ulAddconfstr d name value).1 = 0) ∧
      ¬ ∀ s : Bytes, IsTable (ulReadconf (everywhere s) (ascii ".") (ascii "f") ⟨0, 1024, fun _ => ⟨[], []⟩⟩).2 := by
  constructor
  · intro h
    have hret := h fullTable (dec 0) [] isTable_fullTable
      ⟨fullTable.item 0, List.mem_map_of_mem (List.mem_range.mpr (by decide)), rfl⟩
    exact absurd hret (by decide)
  · intro h
    have hnodup := (h (ascii "a:1" ++ 10 :: ascii "a:2")).nodup
    have hread : ((ulReadconf (everywhere (ascii "a:1" ++ 10 :: ascii "a:2")) (ascii ".") (ascii "f")
        ⟨0, 1024, fun _ => ⟨[], []⟩⟩).2.items.map ConfItem.name) = [ascii "a", ascii "a"] := by
      decide +kernel
    rw [hread] at hnodup
    exact absurd hnodup (by decide)

end Asenal.Conf
