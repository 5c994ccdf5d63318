import Asenal.Lib.Checked
import Asenal.Lib.Text
import Asenal.Lib.Tokens
import Mathlib.Data.List.Sigma

/-!
# Names of own log levels

A list of names is cut at blanks and commas. A name that does not fit is cut, but what is left of it
stands in front of the next name, and all but one of its characters are read as a name of their own.

Where a character of an item comes from matters here, so the text is a list of cells of any type, each
with its character: a text of characters with their places is cut like the characters alone.

The index into the text is an `int`, so what is read of the text must have less than `2 ^ 31` characters.

* `selfLogLoop_name` — the first item, and what is left of the text.
* `selfLogLoop_iff`, `selfLogLoop_unread` — when the items are the names, and where the index ends then.
* `selfLog_iff` — when a text is cut at its separators alone.
-/

namespace Asenal.Comlog

open Asenal.Lib.Text Asenal.Lib.Tokens Asenal.Lib.Checked

variable {α : Type*} (char : α → UInt8)

/-! ## The parser -/

/-- `COM_MAXLEVELNAMESIZE`. Source: `comlog.h`. -/
def comMaxLevelNameSize : ℕ := 1024

/-- A blank or a comma. -/
def isSep (a : α) : Bool := char a == 32 || char a == 44

/-- The characters that are stored for the name at the beginning of a text, and what the loop leaves. -/
def storeName (str : List α) : List α × List α :=
  let name := str.takeWhile fun a => !isSep char a
  if name.length < comMaxLevelNameSize then (name, str.drop name.length)
  else (name.take (comMaxLevelNameSize - 1), str.drop comMaxLevelNameSize)

/-- The items, `items` at most, and the text from where the index stands at the end. The character behind an
item is skipped. Source: `xutils.cpp` `xparserSelfLog`, the loop. -/
def selfLogLoop : ℕ → List α → List (List α) × List α
  | _, [] => ([], [])
  | 0, a :: str => ([], a :: str)
  | items + 1, a :: str =>
      match (a :: str).dropWhile (isSep char) with
      | [] => ([], [])
      | b :: str =>
          match storeName char (b :: str) with
          | (item, []) => ([item], [])
          | (item, _ :: str) => (item :: (selfLogLoop items str).1, (selfLogLoop items str).2)

/-- The items of the loop. The index into the text only grows, and it is an `int`: there is no result where
it would become too large. Source: `xutils.cpp` `xparserSelfLog`. -/
def xparserSelfLog (items : ℕ) (str : List α) : Option (List (List α)) :=
  (checkInt (str.length - (selfLogLoop char items str).2.length)).map fun _ => (selfLogLoop char items str).1

/-! ## Names -/

/-- The names of a text, the first `items` of them, each cut to the size of an item. -/
def nameItems (items : ℕ) (str : List α) : List (List α) :=
  ((tokens (isSep char) str).take items).map (List.take (comMaxLevelNameSize - 1))

/-- What stands behind the first `n` names of a text. -/
def behindNames : ℕ → List α → List α
  | 0, str => str
  | n + 1, str => behindNames n ((str.dropWhile (isSep char)).dropWhile fun a => !isSep char a)

/-- What need not be read of a text for its first `items` names: what stands behind them and the next
character, or, if the last one is too long, behind the character that has no room. -/
def unread : ℕ → List α → List α
  | 0, str => str
  | items + 1, str =>
      let str := (behindNames char items str).dropWhile (isSep char)
      str.drop (min (str.takeWhile fun a => !isSep char a).length comMaxLevelNameSize + 1)

/-- What the loop leaves of the text behind the name `t`. -/
def leave (t rest : List α) : List α :=
  if t.length < comMaxLevelNameSize then rest else t.drop comMaxLevelNameSize ++ rest

variable {char} {t rest str : List α}

theorem leave_sublist (t rest : List α) : (leave t rest).Sublist (t ++ rest) := by
  unfold leave
  split_ifs
  · exact List.sublist_append_right t rest
  · exact (List.drop_sublist _ t).append_right rest

/-- The name in front of a text. -/
theorem takeWhile_name (ht : ∀ a ∈ t, isSep char a = false) (hrest : ∀ a ∈ rest.head?, isSep char a = true) :
    (t ++ rest).takeWhile (fun a => !isSep char a) = t := by
  rw [List.takeWhile_append_of_pos fun a ha => by rw [ht a ha]; rfl]
  cases rest with
  | nil => exact List.append_nil t
  | cons a rest => rw [List.takeWhile_cons_of_neg (by rw [hrest a rfl]; decide), List.append_nil]

/-- What is stored for a name. -/
theorem storeName_append (ht : ∀ a ∈ t, isSep char a = false)
    (hrest : ∀ a ∈ rest.head?, isSep char a = true) :
    storeName char (t ++ rest) = (t.take (comMaxLevelNameSize - 1), leave t rest) := by
  unfold storeName leave
  rw [takeWhile_name ht hrest]
  by_cases hlen : t.length < comMaxLevelNameSize
  · rw [if_pos hlen, if_pos hlen, List.drop_left, List.take_of_length_le (Nat.le_sub_one_of_lt hlen)]
  · rw [if_neg hlen, if_neg hlen, List.drop_append_of_le_length (Nat.le_of_not_lt hlen)]

/-- **The first item**, and what is left of the text. -/
theorem selfLogLoop_name (items : ℕ) (hne : t ≠ []) (ht : ∀ a ∈ t, isSep char a = false)
    (hrest : ∀ a ∈ rest.head?, isSep char a = true) (hstr : str.dropWhile (isSep char) = t ++ rest) :
    selfLogLoop char (items + 1) str =
      (t.take (comMaxLevelNameSize - 1) :: (selfLogLoop char items (leave t rest).tail).1,
        (selfLogLoop char items (leave t rest).tail).2) := by
  have hstore := storeName_append ht hrest
  obtain ⟨b, u, hcons⟩ := List.exists_cons_of_ne_nil (List.append_ne_nil_of_left_ne_nil hne rest)
  rw [hcons] at hstr hstore
  cases str with
  | nil => exact absurd hstr nofun
  | cons a str =>
      rw [selfLogLoop, hstr]
      dsimp only
      rw [hstore]
      cases leave t rest with
      | nil => cases items <;> rfl
      | cons c left => rfl

/-- A text without names is read to its end, if there is room for an item. -/
theorem selfLogLoop_blank (items : ℕ) (h : str.dropWhile (isSep char) = []) :
    selfLogLoop char (items + 1) str = ([], []) := by
  cases str with
  | nil => rfl
  | cons a str => rw [selfLogLoop, h]

/-- No items are read where there is no room for one. -/
theorem selfLogLoop_zero (str : List α) : selfLogLoop char 0 str = ([], str) := by
  cases str <;> rfl

/-! ## When the items are the names -/

/-- What is left behind a name that fits, or is too long by one character at most, has the names that stand
behind it. -/
theorem leave_short (hrest : ∀ a ∈ rest.head?, isSep char a = true) (hlen : t.length ≤ comMaxLevelNameSize + 1) :
    (leave t rest).tail.dropWhile (isSep char) = rest.dropWhile (isSep char) := by
  have hskip : rest.tail.dropWhile (isSep char) = rest.dropWhile (isSep char) := by
    cases rest with
    | nil => rfl
    | cons a rest => exact (List.dropWhile_cons_of_pos (hrest a rfl)).symm
  unfold leave
  by_cases hfit : t.length < comMaxLevelNameSize
  · rwa [if_pos hfit]
  · rw [if_neg hfit]
    cases hleft : t.drop comMaxLevelNameSize with
    | nil => exact hskip
    | cons a left =>
        -- the one character is skipped
        have hone := congrArg List.length hleft
        rw [List.length_drop, List.length_cons] at hone
        rw [List.eq_nil_of_length_eq_zero (show left.length = 0 by omega)]
        rfl

/-- The names behind it are those of what is left. -/
theorem tokens_leave (hrest : ∀ a ∈ rest.head?, isSep char a = true) (hlen : t.length ≤ comMaxLevelNameSize + 1) :
    tokens (isSep char) (leave t rest).tail = tokens (isSep char) rest := by
  rw [← tokens_dropWhile, leave_short hrest hlen, tokens_dropWhile]

/-- What is left behind a longer name begins with characters of it. -/
theorem leave_long (hlen : comMaxLevelNameSize + 1 < t.length) :
    (leave t rest).tail = t.drop (comMaxLevelNameSize + 1) ++ rest := by
  have hne : t.drop comMaxLevelNameSize ≠ [] := by
    rw [Ne, List.drop_eq_nil_iff]
    omega
  rw [leave, if_neg (by omega), List.tail_append_of_ne_nil hne, List.tail_drop]

/-- A text that begins with a name. -/
theorem dropWhile_name (hne : t ≠ []) (ht : ∀ a ∈ t, isSep char a = false) (rest : List α) :
    (t ++ rest).dropWhile (isSep char) = t ++ rest := by
  obtain ⟨a, u, rfl⟩ := List.exists_cons_of_ne_nil hne
  exact List.dropWhile_cons_of_neg (by rw [ht a List.mem_cons_self]; decide)

/-- What is left of a name that is too long is read as an item, which is not the next name. -/
theorem selfLogLoop_split {items : ℕ} (ht : ∀ a ∈ t, isSep char a = false)
    (hrest : ∀ a ∈ rest.head?, isSep char a = true) (hnodup : (t ++ rest).Nodup)
    (hlen : comMaxLevelNameSize + 1 < t.length) :
    (selfLogLoop char (items + 1) (leave t rest).tail).1 ≠ nameItems char (items + 1) rest := by
  have hne : t.drop (comMaxLevelNameSize + 1) ≠ [] := by
    rw [Ne, List.drop_eq_nil_iff]
    omega
  have hname : ∀ a ∈ t.drop (comMaxLevelNameSize + 1), isSep char a = false :=
    fun a ha => ht a (List.mem_of_mem_drop ha)
  rw [leave_long hlen, selfLogLoop_name items hne hname hrest (dropWhile_name hne hname rest), nameItems]
  rcases tokens_cases (p := isSep char) rest with ⟨hnone, -⟩ | ⟨t', rest', -, -, -, hdrop, htokens⟩
  · rw [hnone]
    exact nofun
  · rw [htokens, List.take_succ_cons, List.map_cons]
    intro heq
    -- the two items have their first character in common
    obtain ⟨a, u, hcons⟩ := List.exists_cons_of_ne_nil hne
    have hhead := (List.cons.inj heq).1
    rw [hcons] at hhead
    have hmem : a ∈ t'.take (comMaxLevelNameSize - 1) := by
      rw [← hhead]
      exact List.mem_cons_self
    have ha : a ∈ t := List.mem_of_mem_drop (hcons ▸ List.mem_cons_self)
    have ha' : a ∈ rest :=
      (List.dropWhile_sublist _).mem (hdrop ▸ List.mem_append_left rest' (List.mem_of_mem_take hmem))
    exact (List.nodup_append.mp hnodup).2.2 a ha a ha' rfl

/-- **When the items are the names**, each cut to its size: no name that is read before the last one is too
long by more than one character. -/
theorem selfLogLoop_iff (items : ℕ) (str : List α) (hnodup : str.Nodup) :
    (selfLogLoop char items str).1 = nameItems char items str ↔
      ∀ t ∈ (tokens (isSep char) str).take (items - 1), t.length ≤ comMaxLevelNameSize + 1 := by
  induction items generalizing str with
  | zero =>
      rw [selfLogLoop_zero]
      exact iff_of_true rfl fun t ht => absurd ht List.not_mem_nil
  | succ items ih =>
      rcases tokens_cases (p := isSep char) str with ⟨hnone, hblank⟩ | ⟨t, rest, hne, ht, hrest, hdrop, htokens⟩
      · rw [selfLogLoop_blank _ hblank, nameItems, hnone]
        exact iff_of_true rfl fun t ht => absurd (List.mem_of_mem_take ht) List.not_mem_nil
      · have hnodup' : (t ++ rest).Nodup := hdrop ▸ (List.dropWhile_sublist _).nodup hnodup
        have hitems : nameItems char (items + 1) str =
            t.take (comMaxLevelNameSize - 1) :: nameItems char items rest := by
          rw [nameItems, htokens, List.take_succ_cons, List.map_cons, nameItems]
        rw [selfLogLoop_name items hne ht hrest hdrop, hitems, List.cons_inj_right, htokens,
          Nat.add_sub_cancel]
        by_cases hlen : t.length ≤ comMaxLevelNameSize + 1
        · have hleft : (leave t rest).tail.Nodup :=
            ((List.tail_sublist _).trans (leave_sublist t rest)).nodup hnodup'
          have hsame : nameItems char items (leave t rest).tail = nameItems char items rest := by
            rw [nameItems, tokens_leave hrest hlen, nameItems]
          rw [← hsame, ih _ hleft, tokens_leave hrest hlen]
          cases items with
          | zero => exact Iff.rfl
          | succ items =>
              rw [List.take_succ_cons, List.forall_mem_cons, and_iff_right hlen, Nat.add_sub_cancel]
        · cases items with
          | zero =>
              rw [selfLogLoop_zero]
              exact iff_of_true rfl fun t ht => absurd ht List.not_mem_nil
          | succ items =>
              refine iff_of_false (selfLogLoop_split ht hrest hnodup' (Nat.lt_of_not_le hlen)) fun h => ?_
              exact hlen (h t List.mem_cons_self)

/-! ## Where the index ends -/

/-- Separators in front of a text do not matter for what stands behind its names. -/
theorem behindNames_congr {str' : List α} (h : str.dropWhile (isSep char) = str'.dropWhile (isSep char)) (n : ℕ) :
    (behindNames char n str).dropWhile (isSep char) = (behindNames char n str').dropWhile (isSep char) := by
  cases n with
  | zero => exact h
  | succ n => rw [behindNames, h, behindNames]

/-- Nothing stands behind the names of a text without names. -/
theorem behindNames_blank (h : str.dropWhile (isSep char) = []) (n : ℕ) :
    (behindNames char n str).dropWhile (isSep char) = [] := by
  induction n generalizing str with
  | zero => exact h
  | succ n ih =>
      rw [behindNames, h]
      exact ih rfl

/-- What stands behind the names of a text is what stands behind the later ones of what follows the first. -/
theorem behindNames_name (ht : ∀ a ∈ t, isSep char a = false) (hrest : ∀ a ∈ rest.head?, isSep char a = true)
    (hstr : str.dropWhile (isSep char) = t ++ rest) (n : ℕ) :
    behindNames char (n + 1) str = behindNames char n rest := by
  have hname : (t ++ rest).dropWhile (fun a => !isSep char a) = rest := by
    rw [List.dropWhile_append_of_pos fun a ha => by rw [ht a ha]; rfl]
    cases rest with
    | nil => rfl
    | cons a rest => exact List.dropWhile_cons_of_neg (by rw [hrest a rfl]; decide)
  rw [behindNames, hstr, hname]

/-- **Where the index ends**, if no name that is read before the last one is too long by more than one
character. -/
theorem selfLogLoop_unread (items : ℕ) (str : List α)
    (h : ∀ t ∈ (tokens (isSep char) str).take (items - 1), t.length ≤ comMaxLevelNameSize + 1) :
    (selfLogLoop char items str).2 = unread char items str := by
  induction items generalizing str with
  | zero => rw [selfLogLoop_zero, unread]
  | succ items ih =>
      rcases tokens_cases (p := isSep char) str with ⟨-, hblank⟩ | ⟨t, rest, hne, ht, hrest, hdrop, htokens⟩
      · rw [selfLogLoop_blank _ hblank, unread, behindNames_blank hblank]
        rfl
      · rw [selfLogLoop_name items hne ht hrest hdrop]
        dsimp only
        cases items with
        | zero =>
            have hlast : (leave t rest).tail = (t ++ rest).drop (min t.length comMaxLevelNameSize + 1) := by
              unfold leave
              split_ifs with hfit
              · rw [min_eq_left (Nat.le_of_lt hfit), ← List.drop_drop, List.drop_left, List.drop_one]
              · rw [min_eq_right (Nat.le_of_not_lt hfit), ← List.drop_drop,
                  List.drop_append_of_le_length (Nat.le_of_not_lt hfit), List.drop_one]
            rw [selfLogLoop_zero, unread, behindNames, hdrop, takeWhile_name ht hrest, hlast]
        | succ items =>
            rw [htokens, Nat.add_sub_cancel, List.take_succ_cons, List.forall_mem_cons] at h
            obtain ⟨hlen, hlater⟩ := h
            rw [ih _ (by rwa [tokens_leave hrest hlen]), unread, unread, behindNames_congr (leave_short hrest hlen),
              behindNames_name ht hrest hdrop]

theorem behindNames_sublist (n : ℕ) (str : List α) : (behindNames char n str).Sublist str := by
  induction n generalizing str with
  | zero => exact List.Sublist.refl str
  | succ n ih => exact (ih _).trans ((List.dropWhile_sublist _).trans (List.dropWhile_sublist _))

theorem unread_sublist (items : ℕ) (str : List α) : (unread char items str).Sublist str := by
  cases items with
  | zero => exact List.Sublist.refl str
  | succ items =>
      exact (List.drop_sublist _ _).trans ((List.dropWhile_sublist _).trans (behindNames_sublist items str))

/-- **When the names are returned**: no name that is read before the last one is too long by more than one
character, and what is read of the text is not too long for the index. -/
theorem xparserSelfLog_iff (items : ℕ) (str : List α) (hnodup : str.Nodup) :
    xparserSelfLog char items str = some (nameItems char items str) ↔
      (∀ t ∈ (tokens (isSep char) str).take (items - 1), t.length ≤ comMaxLevelNameSize + 1) ∧
        str.length - (unread char items str).length < 2 ^ 31 := by
  have hsame := @selfLogLoop_iff α char items str hnodup
  have hle := (@unread_sublist α char items str).length_le
  constructor
  · intro h
    obtain ⟨i, hi, hitems⟩ := Option.map_eq_some_iff.mp h
    have hshort := hsame.mp hitems
    refine ⟨hshort, ?_⟩
    rw [selfLogLoop_unread items str hshort] at hi
    by_contra hlong
    rw [checkInt_of_le (by omega)] at hi
    exact absurd hi nofun
  · rintro ⟨hshort, hint⟩
    rw [xparserSelfLog, selfLogLoop_unread items str hshort, checkInt_of_lt (by omega) (by omega),
      Option.map_some, hsame.mpr hshort]

/-! ## Characters and their places -/

/-- Cells are cut as their images are. -/
theorem selfLogLoop_map {β : Type*} (f : β → α) (items : ℕ) (str : List β) :
    selfLogLoop char items (str.map f) =
      ((selfLogLoop (char ∘ f) items str).1.map (List.map f), (selfLogLoop (char ∘ f) items str).2.map f) := by
  induction items generalizing str with
  | zero =>
      rw [selfLogLoop_zero, selfLogLoop_zero]
      rfl
  | succ items ih =>
      have hmap : (str.map f).dropWhile (isSep char) = (str.dropWhile (isSep (char ∘ f))).map f :=
        List.dropWhile_map
      rcases tokens_cases (p := isSep (char ∘ f)) str with ⟨-, hblank⟩ | ⟨t, rest, hne, ht, hrest, hdrop, -⟩
      · rw [selfLogLoop_blank _ hblank, selfLogLoop_blank _ (by rw [hmap, hblank]; rfl)]
        rfl
      · have ht' : ∀ a ∈ t.map f, isSep char a = false := List.forall_mem_map.mpr ht
        have hrest' : ∀ a ∈ (rest.map f).head?, isSep char a = true := by
          cases rest with
          | nil => exact fun a ha => absurd ha (Option.not_mem_none a)
          | cons b rest => exact fun a ha => Option.some.inj ha ▸ hrest b rfl
        have hleave : leave (t.map f) (rest.map f) = (leave t rest).map f := by
          rw [leave, leave, List.length_map, apply_ite (List.map f), List.map_append, List.map_drop]
        rw [selfLogLoop_name items hne ht hrest hdrop,
          selfLogLoop_name items (fun hnil => hne (List.map_eq_nil_iff.mp hnil)) ht' hrest'
            (by rw [hmap, hdrop, List.map_append]),
          hleave, ← List.map_tail, ih, List.map_cons, List.map_take]

/-- The items of a text are the characters of the items of its cells. -/
theorem selfLog_cells (items : ℕ) (str : Bytes) :
    xparserSelfLog id items str =
      (xparserSelfLog Prod.fst items str.zipIdx).map (List.map (List.map Prod.fst)) := by
  conv_lhs => rw [← List.zipIdx_map_fst 0 str]
  rw [xparserSelfLog, selfLogLoop_map, xparserSelfLog, Option.map_map, List.length_map, List.length_map]
  rfl

/-- What need not be read of a text, cell by cell. -/
theorem unread_map {β : Type*} (f : β → α) (items : ℕ) (str : List β) :
    unread char items (str.map f) = (unread (char ∘ f) items str).map f := by
  have hbehind : ∀ (n : ℕ) (str : List β),
      behindNames char n (str.map f) = (behindNames (char ∘ f) n str).map f := by
    intro n
    induction n with
    | zero => exact fun str => rfl
    | succ n ih =>
        intro str
        rw [behindNames, List.dropWhile_map, List.dropWhile_map, ih]
        rfl
  cases items with
  | zero => rfl
  | succ items =>
      rw [unread, hbehind, List.dropWhile_map, List.takeWhile_map, List.length_map, ← List.map_drop]
      rfl

/-- The items of a text are its names, each cut to its size; no character of an item is from another place
of the text. -/
def Cuts (items : ℕ) (str : Bytes) : Prop :=
  xparserSelfLog Prod.fst items str.zipIdx = some (nameItems Prod.fst items str.zipIdx)

/-- No two cells are the same. -/
theorem nodup_cells (str : Bytes) : str.zipIdx.Nodup := (List.nodup_zipIdx_map_snd str).of_map _

/-- **When a text is cut at its separators alone**: no name that is read before the last one is too long by
more than one character, and what is read of the text has less than `2 ^ 31` characters. -/
theorem selfLog_iff (items : ℕ) (str : Bytes) :
    Cuts items str ↔
      (∀ t ∈ (tokens (isSep id) str).take (items - 1), t.length ≤ comMaxLevelNameSize + 1) ∧
        str.length - (unread id items str).length < 2 ^ 31 := by
  have htokens : tokens (isSep id) str = (tokens (isSep Prod.fst) str.zipIdx).map (List.map Prod.fst) := by
    conv_lhs => rw [← List.zipIdx_map_fst 0 str]
    exact tokens_map Prod.fst str.zipIdx
  have hunread : unread id items str = (unread Prod.fst items str.zipIdx).map Prod.fst := by
    conv_lhs => rw [← List.zipIdx_map_fst 0 str]
    exact unread_map Prod.fst items str.zipIdx
  rw [Cuts, xparserSelfLog_iff items _ (nodup_cells str), htokens, ← List.map_take, List.forall_mem_map,
    hunread, List.length_map, List.length_zipIdx]
  simp only [List.length_map]

/-- A name of 1026 characters is read as two items. -/
theorem selfLog_long : ¬ ∀ (items : ℕ) (str : Bytes), Cuts items str := by
  intro h
  have hcut := h 2 (List.replicate 1026 97)
  generalize hcells : (List.replicate 1026 (97 : UInt8)).zipIdx = cells at *
  have hlen : cells.length = 1026 := by rw [← hcells, List.length_zipIdx, List.length_replicate]
  have hname : ∀ a ∈ cells, isSep Prod.fst a = false := by
    intro a ha
    rw [← hcells] at ha
    have hfst := List.mem_map_of_mem (f := Prod.fst) ha
    rw [List.zipIdx_map_fst] at hfst
    rw [isSep, List.eq_of_mem_replicate hfst]
    rfl
  have hone : tokens (isSep Prod.fst) cells = [cells] := by
    have happ := @tokens_append _ _ cells [] (List.ne_nil_of_length_pos (by omega)) hname nofun
    rwa [List.append_nil] at happ
  rw [Cuts, hcells] at hcut
  have hshort := ((xparserSelfLog_iff 2 cells (hcells ▸ nodup_cells _)).mp hcut).1
  rw [hone] at hshort
  have hle := hshort cells List.mem_cons_self
  rw [hlen] at hle
  exact absurd hle (by decide)

end Asenal.Comlog
