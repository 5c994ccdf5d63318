import Asenal.Conf.Reading
import Mathlib.Data.Option.Basic

/-!
# Included files

`$include : "file"` in the main file names another file, whose items are appended to the table after the
main file was read. The pass goes over the items that were there at its beginning, while the table grows
behind them; a file that cannot be read in whole leaves its items behind the end of the table, where the
next file overwrites them. What a name means is decided by the order of the items alone.

* `readconfNoDir_append` — a file appends its items, or none.
* `readconfInclude_items` — so do the included files, one after the other.
* `readconfEx_lookup` — the value of a name after `ul_readconf_ex`.
-/

namespace Asenal.Conf

open Asenal.Lib.Text Asenal.Lib.CString Asenal.Lib.Memory

/-! ## The pass over the table -/

/-- `PATH_SIZE`. Source: `ul_def.h`. -/
def pathSize : ℕ := 256

/-- `INCLUDE_FLAG`. -/
def includeFlag : Bytes := ascii "$include"

/-- `tolower` in the C locale. -/
def toLower (b : UInt8) : UInt8 := if 65 ≤ b ∧ b ≤ 90 then b + 32 else b

/-- `strcasecmp(a, b) == 0`. -/
def strcasecmpEq (a b : Bytes) : Bool := a.map toLower == b.map toLower

/-- The line from its first character that is no blank on. Source: `ul_conf.cpp` `escape_ignore`. -/
def escapeIgnore (line : Bytes) : Bytes := line.dropWhile (· == 32)

/-- Source: `ul_conf.cpp` `abs_path`. -/
def absPath (file : Bytes) : Bool := file.head? == some 47 || (ascii "~/").isPrefixOf file

/-- What stands between `INC_START` and `INC_END`; `none` if one of them is missing. Source:
`ul_conf.cpp` `ul_readconf_include`. -/
def incfile (value : Bytes) : Option Bytes :=
  match escapeIgnore value with
  | 34 :: line =>
      let line := escapeIgnore line
      if (line.dropWhile (· != 34)).head? = some 34 then some (line.takeWhile (· != 34)) else none
  | _ => none

/-- The path that is read for an included file: a relative one is printed into `inconf`. -/
def inconf (path file : Bytes) : Bytes :=
  if absPath file then file else (path ++ 47 :: file).take (pathSize * 2 - 1)

/-- One item of the pass. Source: `ul_conf.cpp` `ul_readconf_include`, the body of the loop. -/
def includeItem (files : Files) (path : Bytes) (d : ConfData) (i : ℕ) : ConfData :=
  if strcasecmpEq (d.item i).name includeFlag = true then
    match incfile (d.item i).value with
    | some file => (readconfNoDir (files.content (inconf path file)) d d.num).2
    | none => d
  else d

/-- Source: `ul_conf.cpp` `ul_readconf_include`. -/
def ulReadconfInclude (files : Files) (path : Bytes) (d : ConfData) : ℤ × ConfData :=
  (1, (List.range d.num).foldl (includeItem files path) d)

/-- Source: `ul_conf.cpp` `ul_readconf_ex`. -/
def ulReadconfEx (files : Files) (workPath fname : Bytes) (d : ConfData) : ℤ × ConfData :=
  let r := readconfNoDir (files.content (totalname workPath fname)) d 0
  if r.1 ≠ 1 then r else ulReadconfInclude files workPath r.2

/-- What `ul_getconfnstr` returns and leaves in `c_value` for a value that was found or not;
`ul_strlcpy` cuts it to `n - 1` bytes. -/
def answer (n : ℕ) : Option Bytes → ℤ × Bytes
  | some value => (1, value.take (n - 1))
  | none => (0, [])

/-- The value of the first item with a name. -/
def firstValue (its : List ConfItem) (name : Bytes) : Option Bytes :=
  (its.find? fun it => it.name == name).map ConfItem.value

/-- Source: `ul_conf.cpp` `ul_getconfnstr`. -/
def ulGetconfnstr (d : ConfData) (name : Bytes) (n : ℕ) : ℤ × Bytes := answer n (firstValue d.items name)

/-! ## What the files hold -/

/-- The items of a file; `none` if it cannot be read: there is no such file, or one of its names is too
long. -/
def fileItems (files : Files) (path : Bytes) : Option (List ConfItem) :=
  (files.content path).bind fun s =>
    if ∀ l ∈ fgetsAll (lineSize - 1) s, lineOf l ≠ .tooLong then some (itemsOf (fgetsAll (lineSize - 1) s))
    else none

/-- The path of the file that an item includes. -/
def includeOf (path : Bytes) (it : ConfItem) : Option Bytes :=
  if strcasecmpEq it.name includeFlag = true then (incfile it.value).map (inconf path) else none

/-- The paths of the files that are included, in order. -/
def includes (path : Bytes) (its : List ConfItem) : List Bytes := its.filterMap (includeOf path)

/-- The table of `size` items takes the file behind `k` items: no line of it meets a full table. -/
def HasRoom (files : Files) (size k : ℕ) (path : Bytes) : Prop :=
  ∀ s, files.content path = some s →
    k + (itemsOf (fgetsAll (lineSize - 1) s)).length ≤ size ∧
      (k + (itemsOf (fgetsAll (lineSize - 1) s)).length = size →
        endsInItem (fgetsAll (lineSize - 1) s) = true)

/-- The table takes the included files behind `k` items, one after the other: those that can be read
and are not without items. -/
def HasRooms (files : Files) (size : ℕ) : ℕ → List Bytes → Prop
  | _, [] => True
  | k, path :: paths =>
      ((fileItems files path).getD [] ≠ [] → HasRoom files size k path) ∧
        HasRooms files size (k + ((fileItems files path).getD []).length) paths

variable {files : Files} {path : Bytes} {d : ConfData} {its : List ConfItem}

/-- A table that does not get full takes the file. -/
theorem hasRoom_of_lt {size k : ℕ} (hits : fileItems files path = some its)
    (h : k + its.length < size) : HasRoom files size k path := by
  intro s hs
  unfold fileItems at hits
  rw [hs, Option.bind_some] at hits
  split_ifs at hits
  obtain rfl := Option.some.inj hits
  exact ⟨Nat.le_of_lt h, fun hfull => absurd hfull (Nat.ne_of_lt h)⟩

/-- A table that does not get full takes the included files. -/
theorem hasRooms_of_lt {size k : ℕ} {paths : List Bytes}
    (h : k + (paths.flatMap fun p => (fileItems files p).getD []).length < size) :
    HasRooms files size k paths := by
  induction paths generalizing k with
  | nil => trivial
  | cons p paths ih =>
      rw [List.flatMap_cons, List.length_append] at h
      refine ⟨fun hne => ?_, ih (by omega)⟩
      cases hits : fileItems files p with
      | none => exact absurd (by rw [hits]; rfl) hne
      | some its =>
          rw [hits, Option.getD_some] at h
          exact hasRoom_of_lt hits (by omega)

/-! ## The files are appended -/

/-- A file that can be read and has room is read in whole. -/
theorem readconfNoDir_room {start : ℕ} (hits : fileItems files path = some its)
    (hroom : HasRoom files d.size start path) :
    readconfNoDir (files.content path) d start =
      (1, { d with num := start + its.length, item := poke d.item start its }) := by
  obtain ⟨s, hs, hread⟩ := Option.bind_eq_some_iff.mp hits
  split_ifs at hread with hnames
  obtain rfl := Option.some.inj hread
  obtain ⟨hlen, hfull⟩ := hroom s hs
  have hcomplete : complete (d.size - start) (fgetsAll (lineSize - 1) s) = true :=
    (complete_iff _ _).mpr ⟨hnames, by omega, fun h => hfull (by omega)⟩
  rw [hs, readconfNoDir_some, if_pos hcomplete, stored_of_complete hcomplete]

/-- **A file** that is read behind the items in use appends its items, if it can be read, and changes
none of those in use. -/
theorem readconfNoDir_append
    (hroom : (fileItems files path).getD [] ≠ [] → HasRoom files d.size d.num path) :
    (readconfNoDir (files.content path) d d.num).2.size = d.size ∧
      (readconfNoDir (files.content path) d d.num).2.items =
        d.items ++ (fileItems files path).getD [] ∧
      ∀ i < d.num, (readconfNoDir (files.content path) d d.num).2.item i = d.item i := by
  have hbefore : ∀ its : List ConfItem, ∀ i < d.num, poke d.item d.num its i = d.item i :=
    fun its i hi => if_neg (Nat.not_le.mpr hi)
  by_cases hnone : (fileItems files path).getD [] = []
  · -- nothing is appended, whether the reading succeeds or not
    rw [hnone, List.append_nil]
    cases hs : files.content path with
    | none => exact ⟨rfl, rfl, fun i _ => rfl⟩
    | some s =>
        rw [readconfNoDir_some]
        split_ifs with hcomplete
        · have hits : stored (d.size - d.num) (fgetsAll (lineSize - 1) s) = [] := by
            rw [fileItems, hs, Option.bind_some,
              if_pos ((complete_iff _ _).mp hcomplete).1, Option.getD_some] at hnone
            rw [stored_of_complete hcomplete, hnone]
          refine ⟨rfl, ?_, hbefore _⟩
          rw [items_extend, hits, List.append_nil]
        · exact ⟨rfl, items_beyond d _, hbefore _⟩
  · obtain ⟨its, hits⟩ : ∃ its, fileItems files path = some its := by
      cases hits : fileItems files path with
      | none => exact absurd (by rw [hits]; rfl) hnone
      | some its => exact ⟨its, rfl⟩
    rw [readconfNoDir_room hits (hroom hnone), hits]
    exact ⟨rfl, items_extend d its, hbefore its⟩

/-- One item of the pass reads the file that the item includes, if it includes one. -/
theorem includeItem_eq (files : Files) (path : Bytes) (d : ConfData) (i : ℕ) :
    includeItem files path d i =
      ((includeOf path (d.item i)).map fun p => (readconfNoDir (files.content p) d d.num).2).getD d := by
  unfold includeItem includeOf
  split_ifs
  · cases incfile (d.item i).value <;> rfl
  · rfl

theorem length_items (d : ConfData) : d.items.length = d.num := by
  simp [ConfData.items]

/-- The pass over some of the items, which the table keeps while it grows. -/
theorem foldl_includeItem (path : Bytes) {item : ℕ → ConfItem} {idxs : List ℕ}
    (hidxs : ∀ i ∈ idxs, i < d.num ∧ d.item i = item i)
    (hrooms : HasRooms files d.size d.num (idxs.filterMap fun i => includeOf path (item i))) :
    (idxs.foldl (includeItem files path) d).items =
      d.items ++ (idxs.filterMap fun i => includeOf path (item i)).flatMap fun p =>
        (fileItems files p).getD [] := by
  induction idxs generalizing d with
  | nil => exact (List.append_nil _).symm
  | cons i idxs ih =>
      rw [List.forall_mem_cons] at hidxs
      obtain ⟨⟨hi, hitem⟩, hlater⟩ := hidxs
      rw [List.foldl_cons, includeItem_eq, hitem]
      rw [List.filterMap_cons] at hrooms ⊢
      cases hinclude : includeOf path (item i) with
      | none =>
          rw [hinclude] at hrooms
          exact ih hlater hrooms
      | some p =>
          rw [hinclude] at hrooms
          obtain ⟨hroom, hrest⟩ := hrooms
          obtain ⟨hsize, hitems, hkept⟩ := readconfNoDir_append hroom
          have hnum : (readconfNoDir (files.content p) d d.num).2.num =
              d.num + ((fileItems files p).getD []).length := by
            rw [← length_items, hitems, List.length_append, length_items]
          rw [← hsize, ← hnum] at hrest
          have hidxs : ∀ j ∈ idxs, j < (readconfNoDir (files.content p) d d.num).2.num ∧
              (readconfNoDir (files.content p) d d.num).2.item j = item j := by
            intro j hj
            obtain ⟨hlt, heq⟩ := hlater j hj
            exact ⟨by omega, (hkept j hlt).trans heq⟩
          apply (ih hidxs hrest).trans
          rw [hitems, List.flatMap_cons, List.append_assoc]

/-- **The included files** are appended in order. -/
theorem readconfInclude_items (path : Bytes)
    (hrooms : HasRooms files d.size d.num (includes path d.items)) :
    (ulReadconfInclude files path d).2.items =
      d.items ++ (includes path d.items).flatMap fun p => (fileItems files p).getD [] := by
  have hincludes : includes path d.items =
      (List.range d.num).filterMap fun i => includeOf path (d.item i) := by
    unfold includes ConfData.items
    rw [List.filterMap_map]
    rfl
  rw [hincludes] at hrooms ⊢
  exact foldl_includeItem path (fun i hi => ⟨List.mem_range.mp hi, rfl⟩) hrooms

/-! ## Lookups -/

/-- The first item with a name is in the first list, or else in the second. -/
theorem firstValue_append (its its' : List ConfItem) (name : Bytes) :
    firstValue (its ++ its') name = (firstValue its name).or (firstValue its' name) := by
  unfold firstValue
  rw [List.find?_append, Option.map_or]

theorem firstValue_flatMap (paths : List Bytes) (f : Bytes → List ConfItem) (name : Bytes) :
    firstValue (paths.flatMap f) name = paths.findSome? fun p => firstValue (f p) name := by
  induction paths with
  | nil => rfl
  | cons p paths ih =>
      rw [List.flatMap_cons, firstValue_append, ih, List.findSome?_cons]
      cases firstValue (f p) name <;> rfl

/-- **A name after `ul_readconf_ex`** has the value of its first item in the main file, or else of its
first item in the included files, in their order; files that cannot be read give no items. If the main
file cannot be read, that is reported. -/
theorem readconfEx_lookup (files : Files) (workPath fname : Bytes) (d : ConfData) :
    (fileItems files (totalname workPath fname) = none →
      (ulReadconfEx files workPath fname d).1 = -1) ∧
    ∀ main, fileItems files (totalname workPath fname) = some main →
      HasRoom files d.size 0 (totalname workPath fname) →
      HasRooms files d.size main.length (includes workPath main) →
      (ulReadconfEx files workPath fname d).1 = 1 ∧
        ∀ name n, ulGetconfnstr (ulReadconfEx files workPath fname d).2 name n =
          answer n ((firstValue main name).or ((includes workPath main).findSome? fun p =>
            firstValue ((fileItems files p).getD []) name)) := by
  constructor
  · intro hnone
    have hread : ∃ t, readconfNoDir (files.content (totalname workPath fname)) d 0 = (-1, t) := by
      unfold fileItems at hnone
      cases hs : files.content (totalname workPath fname) with
      | none => exact ⟨d, rfl⟩
      | some s =>
          rw [hs, Option.bind_some] at hnone
          split_ifs at hnone with hnames
          rw [readconfNoDir_some, if_neg fun h => hnames ((complete_iff _ _).mp h).1]
          exact ⟨_, rfl⟩
    obtain ⟨t, ht⟩ := hread
    unfold ulReadconfEx
    rw [ht]
    rfl
  · intro main hmain hroom hrooms
    have hread := @readconfNoDir_room _ _ d _ 0 hmain hroom
    have hmainItems : ({ d with num := 0 + main.length, item := poke d.item 0 main } :
        ConfData).items = main := by
      rw [items_eq_peek, Nat.zero_add]
      exact peek_poke_self d.item 0 main
    have hex : ulReadconfEx files workPath fname d = ulReadconfInclude files workPath
        { d with num := 0 + main.length, item := poke d.item 0 main } := by
      unfold ulReadconfEx
      rw [hread]
      exact if_neg (not_not_intro rfl)
    rw [hex]
    refine ⟨rfl, fun name n => ?_⟩
    unfold ulGetconfnstr
    rw [readconfInclude_items workPath (by rw [hmainItems, Nat.zero_add]; exact hrooms), hmainItems,
      firstValue_append, firstValue_flatMap]

/-- A main file that includes `x`, which includes `y`. -/
def includeFiles : Files :=
  ⟨fun path =>
    if path = ascii "./f" then some (ascii "a:1" ++ 10 :: ascii "$include: \"x\"")
    else if path = ascii "./x" then some (ascii "a:2" ++ 10 :: ascii "b:3" ++ 10 :: ascii "$include: \"y\"")
    else if path = ascii "./y" then some (ascii "c:4")
    else none, fun _ => false⟩

/-- The main file comes first, and `y` is not read. -/
theorem readconfEx_lookup_two :
    let d := (ulReadconfEx includeFiles (ascii ".") (ascii "f") ⟨0, 1024, fun _ => ⟨[], []⟩⟩).2
    ulGetconfnstr d (ascii "a") 8 = (1, ascii "1") ∧ ulGetconfnstr d (ascii "b") 8 = (1, ascii "3") ∧
      ulGetconfnstr d (ascii "c") 8 = (0, []) := by
  have hmain : fileItems includeFiles (totalname (ascii ".") (ascii "f")) =
      some [⟨ascii "a", ascii "1"⟩, ⟨includeFlag, ascii "\"x\""⟩] := by decide +kernel
  have hroom : HasRoom includeFiles 1024 0 (totalname (ascii ".") (ascii "f")) :=
    hasRoom_of_lt hmain (by decide)
  have hrooms : HasRooms includeFiles 1024 2 [ascii "./x"] := hasRooms_of_lt (by decide +kernel)
  have hlookup := ((readconfEx_lookup includeFiles (ascii ".") (ascii "f")
    ⟨0, 1024, fun _ => ⟨[], []⟩⟩).2 _ hmain hroom hrooms).2
  refine ⟨(hlookup _ _).trans ?_, (hlookup _ _).trans ?_, (hlookup _ _).trans ?_⟩
  · decide +kernel
  · decide +kernel
  · decide +kernel

end Asenal.Conf
