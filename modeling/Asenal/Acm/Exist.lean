import Mathlib.Data.Int.Notation
import Mathlib.Data.List.Chain
import Mathlib.Logic.Function.Basic
import Asenal.Lib.Text

/-!
# A word on a board

`exist` follows the letters of a word from cell to cell, and keeps in an array of flags which cells are taken. A
neighbour is flagged before it is known to be on the board, and the search goes to one more cell behind the last
letter.

* `attempts` — the cells that are tried, one after the other, if none ends the search.
* `dfs_eq` — the search goes through them up to the first one that ends it, and restores the flags.
* `exist_iff` — when it finds the words that are there, inside its array.
-/

namespace Asenal.Acm

open Asenal.Lib.Text

/-! ## The program -/

/-- A row and a column. -/
abbrev Place := ℤ × ℤ

/-- Source: `exist.cc` `Solution::dir`. -/
def dir : List Place := [(-1, 0), (0, 1), (1, 0), (0, -1)]

/-- The letter at a place of the board. -/
def letterAt (board : List Bytes) (x : Place) : Option UInt8 :=
  if x.1 < 0 ∨ x.2 < 0 then none else board[x.1.toNat]?.bind fun row => row[x.2.toNat]?

/-- The places inside the array of flags. Source: `exist.cc` `Solution::flag`. -/
def inFlags (x : Place) : Bool := 0 ≤ x.1 && x.1 < 1000 && 0 ≤ x.2 && x.2 < 1000

/-- The array of flags. -/
abbrev Flags := Place → Bool

/-- A flag is read. -/
def getFlag (flag : Flags) (x : Place) : Option Bool := if inFlags x then some (flag x) else none

/-- A flag is written. -/
def setFlag (flag : Flags) (x : Place) (b : Bool) : Option Flags :=
  if inFlags x then some (Function.update flag x b) else none

/-- The loop over the directions; `search` is the call for a neighbour. Source: `exist.cc` `Solution::dfs`. -/
def tryDirs (search : Place → Flags → Option (Bool × Flags)) (x : Place) : List Place → Flags →
    Option (Bool × Flags)
  | [], flag => some (false, flag)
  | d :: ds, flag => do
      let taken ← getFlag flag (x + d)
      if taken then tryDirs search x ds flag
      else
        let flag ← setFlag flag (x + d) true
        let (found, flag) ← search (x + d) flag
        if found then some (true, flag)
        else
          let flag ← setFlag flag (x + d) false
          tryDirs search x ds flag

/-- The search for the rest of the word; `none` where it leaves the array of flags. Source: `exist.cc`
`Solution::dfs`. -/
def dfs (board : List Bytes) : Bytes → Place → Flags → Option (Bool × Flags)
  | [], _, flag => some (true, flag)
  | w :: rest, x, flag =>
      match letterAt board x with
      | none => some (false, flag)
      | some c => if c ≠ w then some (false, flag) else tryDirs (dfs board rest) x dir flag

/-- The places of a board, row by row. -/
def places (board : List Bytes) : List Place :=
  board.zipIdx.flatMap fun p => (List.range p.1.length).map fun (j : ℕ) => ((p.2 : ℤ), (j : ℤ))

/-- Source: `exist.cc` `Solution::exist`, the loops. -/
def existLoop (board : List Bytes) (word : Bytes) : List Place → Option Bool
  | [] => some false
  | x :: xs =>
      if letterAt board x = word.head? then do
        let flag ← setFlag (fun _ => false) x true
        let (found, _) ← dfs board word x flag
        if found then some true else existLoop board word xs
      else existLoop board word xs

/-- Source: `exist.cc` `Solution::exist`. -/
def exist (board : List Bytes) (word : Bytes) : Option Bool :=
  if word.length = 0 then some true else existLoop board word (places board)

/-! ## Paths -/

/-- Horizontally or vertically adjacent. -/
def Adjacent (x y : Place) : Prop :=
  (x.1 = y.1 ∧ (x.2 = y.2 + 1 ∨ y.2 = x.2 + 1)) ∨ (x.2 = y.2 ∧ (x.1 = y.1 + 1 ∨ y.1 = x.1 + 1))

/-- The places of a path, each of them once, hold the letters of the word. -/
structure Spells (board : List Bytes) (word : Bytes) (path : List Place) : Prop where
  nodup : path.Nodup
  adjacent : path.IsChain Adjacent
  letters : path.map (letterAt board) = word.map some

/-! ## What is tried -/

/-- The places that are tried from `x` on, where `path` is taken: each neighbour, and what is tried from there, if
`x` holds the next letter. A place is tried with `true` behind the last letter. -/
def attempts (board : List Bytes) : Bytes → List Place → Place → List (Place × Bool)
  | [], _, _ => []
  | w :: rest, path, x =>
      if letterAt board x = some w then
        ((dir.map (x + ·)).filter (· ∉ path)).flatMap fun y => (y, rest.isEmpty) :: attempts board rest (y :: path) y
      else []

/-- All places that are tried. -/
def allAttempts (board : List Bytes) (word : Bytes) : List (Place × Bool) :=
  ((places board).filter fun x => letterAt board x = word.head?).flatMap fun x => attempts board word [x] x

/-- How the search ends: outside of the flags, behind the last letter, or with nothing left to try. -/
def outcome : List (Place × Bool) → Option Bool
  | [] => some false
  | (x, last) :: xs => if inFlags x then if last then some true else outcome xs else none

/-- Every place that is tried is inside the array of flags, up to the first one behind the last letter. -/
def Safe (xs : List (Place × Bool)) : Prop :=
  ∀ pre x post, xs = pre ++ x :: post → (∀ y ∈ pre, y.2 = false) → inFlags x.1 = true

/-- If a path spells the word, so does one that can go on to one more place. -/
def Escapes (board : List Bytes) (word : Bytes) : Prop :=
  (∃ path, Spells board word path) →
    ∃ path y, Spells board word path ∧ y ∉ path ∧ (path ++ [y]).IsChain Adjacent

variable {board : List Bytes} {word rest : Bytes} {path q : List Place} {x y z : Place} {flag flag' : Flags}
  {xs ys : List (Place × Bool)} {ds : List Place} {c w : UInt8} {b : Bool}

/-- Attempts behind others. -/
theorem outcome_append : outcome (xs ++ ys) = (outcome xs).bind fun b => if b then some true else outcome ys := by
  induction xs with
  | nil => rfl
  | cons a xs ih =>
      obtain ⟨x, last⟩ := a
      rw [List.cons_append, outcome, outcome]
      split_ifs
      · rfl
      · exact ih
      · rfl

/-- One attempt in front of others. -/
theorem safe_cons {a : Place × Bool} : Safe (a :: xs) ↔ inFlags a.1 = true ∧ (a.2 = false → Safe xs) := by
  constructor
  · intro h
    refine ⟨h [] a xs rfl (by simp), fun ha pre x post hxs hpre => h (a :: pre) x post (by rw [hxs]; rfl) ?_⟩
    exact List.forall_mem_cons.mpr ⟨ha, hpre⟩
  · rintro ⟨ha, h⟩ pre x post hxs hpre
    cases pre with
    | nil =>
        obtain rfl := (List.cons.inj hxs).1
        exact ha
    | cons y pre =>
        obtain ⟨rfl, rfl⟩ := List.cons.inj hxs
        obtain ⟨hy, hpre⟩ := List.forall_mem_cons.mp hpre
        exact h hy pre x post rfl hpre

/-- **How the search ends.** -/
theorem outcome_spec (xs : List (Place × Bool)) :
    (outcome xs = none ↔ ¬ Safe xs) ∧ (outcome xs = some false → ∀ x ∈ xs, x.2 = false) ∧
      (outcome xs = some true → ∃ x, (x, true) ∈ xs) := by
  induction xs with
  | nil => exact ⟨by simp [outcome, Safe], by simp, by simp [outcome]⟩
  | cons a xs ih =>
      obtain ⟨x, last⟩ := a
      obtain ⟨hnone, hfalse, htrue⟩ := ih
      rw [safe_cons, outcome]
      split_ifs with hx hlast
      · exact ⟨by simp [hx, hlast], by simp, fun _ => ⟨x, by simp [hlast]⟩⟩
      · refine ⟨by simp [hx, hlast, hnone], fun h => ?_, fun h => ?_⟩
        · exact List.forall_mem_cons.mpr ⟨by simpa using hlast, hfalse h⟩
        · obtain ⟨y, hy⟩ := htrue h
          exact ⟨y, List.mem_cons_of_mem _ hy⟩
      · exact ⟨by simp [hx], by simp, by simp⟩

/-! ## The search -/

/-- The flags of the places of a path. -/
def marks (path : List Place) : Flags := fun x => x ∈ path

/-- One place more is marked. -/
theorem marks_cons : Function.update (marks path) y true = marks (y :: path) := by
  funext z
  by_cases hz : z = y
  · simp [hz, marks]
  · simp [marks, hz]

/-- The mark of a place is removed. -/
theorem marks_erase (hy : y ∉ path) : Function.update (marks (y :: path)) y false = marks path := by
  funext z
  by_cases hz : z = y
  · simp [hz, marks, hy]
  · simp [marks, hz]

/-- A search that ends as `xs` says; if it finds nothing, the flags are the ones of `path`. -/
def EndsAs (res : Option (Bool × Flags)) (xs : List (Place × Bool)) (path : List Place) : Prop :=
  ∃ flag, res = (outcome xs).map (fun b => (b, flag)) ∧ (outcome xs = some false → flag = marks path)

/-- **The loop over the directions.** -/
theorem tryDirs_eq (hpath : ∀ y ∈ path, inFlags y = true)
    (hsearch : rest ≠ [] → ∀ y, inFlags y = true →
      EndsAs (dfs board rest y (marks (y :: path))) (attempts board rest (y :: path) y) (y :: path)) :
    EndsAs (tryDirs (dfs board rest) x ds (marks path))
      (((ds.map (x + ·)).filter (· ∉ path)).flatMap fun y =>
        (y, rest.isEmpty) :: attempts board rest (y :: path) y) path := by
  induction ds with
  | nil => exact ⟨marks path, rfl, fun _ => rfl⟩
  | cons d ds ih =>
      obtain ⟨flag, hds, hflag⟩ := ih
      rw [List.map_cons]
      by_cases hy : x + d ∈ path
      · have hget : getFlag (marks path) (x + d) = some true := by
          simp [getFlag, hpath _ hy, marks, hy]
        refine ⟨flag, ?_, ?_⟩
        · simpa [tryDirs, hget, hy] using hds
        · simpa [hy] using hflag
      rw [List.filter_cons_of_pos (by simpa using hy), List.flatMap_cons, List.cons_append]
      by_cases hin : inFlags (x + d) = true
      · have hget : getFlag (marks path) (x + d) = some false := by
          simp [getFlag, hin, marks, hy]
        have hset : setFlag (marks path) (x + d) true = some (marks ((x + d) :: path)) := by
          simp [setFlag, hin, marks_cons]
        have hunset : setFlag (marks ((x + d) :: path)) (x + d) false = some (marks path) := by
          simp [setFlag, hin, marks_erase hy]
        cases rest with
        | nil =>
            refine ⟨marks ((x + d) :: path), ?_, ?_⟩
            · simp [tryDirs, hget, hset, dfs, outcome, hin]
            · simp [outcome, hin]
        | cons w rest =>
            obtain ⟨flag', hdfs, hflag'⟩ := hsearch (by simp) (x + d) hin
            have hcons : ∀ ys, outcome ((x + d, (w :: rest).isEmpty) :: ys) = outcome ys := by
              simp [outcome, hin]
            rw [EndsAs, hcons, outcome_append]
            rcases hout : outcome (attempts board (w :: rest) ((x + d) :: path) (x + d)) with _ | found
            · rw [hout] at hdfs
              exact ⟨flag', by simp [tryDirs, hget, hset, hdfs], by simp⟩
            · rw [hout] at hdfs
              cases found with
              | true => exact ⟨flag', by simp [tryDirs, hget, hset, hdfs], by simp⟩
              | false =>
                  obtain rfl := hflag' hout
                  refine ⟨flag, ?_, ?_⟩
                  · simpa [tryDirs, hget, hset, hdfs, hunset] using hds
                  · simpa using hflag
      · have hget : getFlag (marks path) (x + d) = none := by simp [getFlag, hin]
        exact ⟨marks path, by simp [tryDirs, hget, outcome, hin], by simp [outcome, hin]⟩

/-- **The search** goes through what is tried, up to the first place that ends it. -/
theorem dfs_eq (hrest : rest ≠ []) (hpath : ∀ y ∈ path, inFlags y = true) :
    EndsAs (dfs board rest x (marks path)) (attempts board rest path x) path := by
  induction rest generalizing path x with
  | nil => exact absurd rfl hrest
  | cons w rest ih =>
      rw [attempts, dfs]
      by_cases hletter : letterAt board x = some w
      · rw [if_pos hletter, hletter]
        simp only [ne_eq, not_true_eq_false, if_false]
        exact tryDirs_eq hpath fun hrest y hy => ih hrest (List.forall_mem_cons.mpr ⟨hy, hpath⟩)
      · rw [if_neg hletter]
        refine ⟨marks path, ?_, fun _ => rfl⟩
        cases hc : letterAt board x with
        | none => rfl
        | some c =>
            have hne : c ≠ w := fun e => hletter (by rw [hc, e])
            simp [hne, outcome]

/-! ## The places of a board -/

/-- The places of a board. -/
theorem mem_places : x ∈ places board ↔ ∃ (i j : ℕ) (row : Bytes), x = (↑i, ↑j) ∧ board[i]? = some row ∧
    j < row.length := by
  simp only [places, List.mem_flatMap, List.mem_map, List.mem_range, Prod.exists, List.mem_zipIdx_iff_getElem?]
  constructor
  · rintro ⟨row, i, hi, j, hj, rfl⟩
    exact ⟨i, j, row, rfl, hi, hj⟩
  · rintro ⟨i, j, row, rfl, hi, hj⟩
    exact ⟨row, i, hi, j, hj, rfl⟩

/-- A place with a letter is on the board. -/
theorem mem_places_of_letterAt (h : letterAt board x = some c) : x ∈ places board := by
  obtain ⟨i, j⟩ := x
  rw [letterAt] at h
  split_ifs at h with hneg
  obtain ⟨row, hrow, hc⟩ := Option.bind_eq_some_iff.mp h
  refine mem_places.mpr ⟨i.toNat, j.toNat, row, ?_, hrow, (List.getElem?_eq_some_iff.mp hc).1⟩
  simp only [not_or, not_lt] at hneg
  rw [Int.toNat_of_nonneg hneg.1, Int.toNat_of_nonneg hneg.2]

/-- The places of a board that is not too large have flags. -/
theorem inFlags_of_mem_places (hrows : board.length ≤ 999) (hcolumns : ∀ row ∈ board, row.length ≤ 999)
    (hx : x ∈ places board) : inFlags x = true := by
  obtain ⟨i, j, row, rfl, hi, hj⟩ := mem_places.mp hx
  have hrow := (List.getElem?_eq_some_iff.mp hi).1
  have hcolumn := hcolumns row (List.mem_of_getElem? hi)
  simp [inFlags]
  omega

/-- **The loops of `exist`.** -/
theorem existLoop_eq (hword : word ≠ []) {xs : List Place} (hxs : ∀ x ∈ xs, inFlags x = true) :
    existLoop board word xs =
      outcome ((xs.filter fun x => letterAt board x = word.head?).flatMap fun x => attempts board word [x] x) := by
  induction xs with
  | nil => rfl
  | cons x xs ih =>
      obtain ⟨hx, hxs⟩ := List.forall_mem_cons.mp hxs
      rw [existLoop]
      by_cases hletter : letterAt board x = word.head?
      · have hset : setFlag (fun _ => false) x true = some (marks [x]) := by
          have : (fun _ => false) = marks [] := by
            funext y
            simp [marks]
          rw [setFlag, if_pos hx, this, marks_cons]
        obtain ⟨flag, hdfs, -⟩ : EndsAs (dfs board word x (marks [x])) (attempts board word [x] x) [x] :=
          dfs_eq hword (List.forall_mem_singleton.mpr hx)
        rw [if_pos hletter, hset, List.filter_cons_of_pos (by simpa using hletter), List.flatMap_cons,
          outcome_append, ← ih hxs]
        simp only [Option.bind_eq_bind, Option.bind_some, hdfs]
        cases outcome (attempts board word [x] x) <;> rfl
      · rw [if_neg hletter, List.filter_cons_of_neg (by simpa using hletter)]
        exact ih hxs

/-! ## The result -/

/-- The four directions lead to the neighbours. -/
theorem mem_dir : y ∈ dir.map (x + ·) ↔ Adjacent x y := by
  simp [dir, Adjacent, Prod.ext_iff]
  omega

/-- **What is tried behind the last letter** goes on a path that spells the rest of the word. -/
theorem exists_mem_attempts : (∃ y, (y, true) ∈ attempts board rest path x) ↔
    ∃ q y, (x :: (q ++ [y])).IsChain Adjacent ∧ (q ++ [y]).Nodup ∧ (∀ z ∈ q ++ [y], z ∉ path) ∧
      (x :: q).map (letterAt board) = rest.map some := by
  induction rest generalizing path x with
  | nil => simp [attempts]
  | cons w rest ih =>
      rw [attempts]
      constructor
      · rintro ⟨y, hy⟩
        split_ifs at hy with hletter
        · obtain ⟨z, hz, hy⟩ := List.mem_flatMap.mp hy
          obtain ⟨hadjacent, hpath⟩ := List.mem_filter.mp hz
          rw [mem_dir] at hadjacent
          replace hpath : z ∉ path := of_decide_eq_true hpath
          rcases List.mem_cons.mp hy with hlast | hy
          · have hnil : rest = [] := by simpa using (congrArg Prod.snd hlast).symm
            exact ⟨[], z, by simp [hadjacent], by simp, by simp [hpath], by simp [hletter, hnil]⟩
          · obtain ⟨q, y, hchain, hnodup, hnot, hmap⟩ := ih.mp ⟨y, hy⟩
            refine ⟨z :: q, y, List.isChain_cons_cons.mpr ⟨hadjacent, hchain⟩, ?_, ?_, ?_⟩
            · exact List.nodup_cons.mpr ⟨fun hz => hnot z hz List.mem_cons_self, hnodup⟩
            · exact List.forall_mem_cons.mpr ⟨hpath, fun v hv hp => hnot v hv (List.mem_cons_of_mem z hp)⟩
            · rw [List.map_cons, hmap, hletter, List.map_cons]
        · exact absurd hy List.not_mem_nil
      · rintro ⟨q, y, hchain, hnodup, hnot, hmap⟩
        rw [List.map_cons, List.map_cons, List.cons.injEq] at hmap
        obtain ⟨hletter, hmap⟩ := hmap
        rw [if_pos hletter]
        cases q with
        | nil =>
            have hnil : rest = [] := by simpa using hmap
            have hadjacent : Adjacent x y := by simpa using hchain
            refine ⟨y, List.mem_flatMap.mpr ⟨y, List.mem_filter.mpr ⟨mem_dir.mpr hadjacent, ?_⟩, by simp [hnil]⟩⟩
            exact decide_eq_true (hnot y (by simp))
        | cons z q =>
            obtain ⟨hadjacent, hchain⟩ := List.isChain_cons_cons.mp hchain
            obtain ⟨hz, hnodup⟩ := List.nodup_cons.mp hnodup
            obtain ⟨hpath, hnot⟩ := List.forall_mem_cons.mp hnot
            have hnot' : ∀ v ∈ q ++ [y], v ∉ z :: path := by
              intro v hv hp
              rcases List.mem_cons.mp hp with rfl | hp
              · exact hz hv
              · exact hnot v hv hp
            obtain ⟨y', hy'⟩ := ih.mpr ⟨q, y, hchain, hnodup, hnot', hmap⟩
            refine ⟨y', List.mem_flatMap.mpr ⟨z, List.mem_filter.mpr ⟨mem_dir.mpr hadjacent, ?_⟩, ?_⟩⟩
            · exact decide_eq_true hpath
            · exact List.mem_cons_of_mem _ hy'

/-- **What is tried behind the last letter** of the word goes on a path that spells it. -/
theorem exists_mem_allAttempts (hword : word ≠ []) : (∃ y, (y, true) ∈ allAttempts board word) ↔
    ∃ path y, Spells board word path ∧ y ∉ path ∧ (path ++ [y]).IsChain Adjacent := by
  have hattempts : (∃ y, (y, true) ∈ allAttempts board word) ↔
      ∃ x ∈ places board, letterAt board x = word.head? ∧ ∃ y, (y, true) ∈ attempts board word [x] x := by
    simp only [allAttempts, List.mem_flatMap, List.mem_filter, decide_eq_true_eq]
    constructor
    · rintro ⟨y, x, ⟨hx, hletter⟩, hy⟩
      exact ⟨x, hx, hletter, y, hy⟩
    · rintro ⟨x, hx, hletter, y, hy⟩
      exact ⟨y, x, ⟨hx, hletter⟩, hy⟩
  rw [hattempts]
  constructor
  · rintro ⟨x, -, -, hy⟩
    obtain ⟨q, y, hchain, hnodup, hnot, hmap⟩ := exists_mem_attempts.mp hy
    obtain ⟨hq, -, hy⟩ := List.nodup_append.mp hnodup
    have hx : x ∉ q ++ [y] := fun hx => hnot x hx (List.mem_singleton_self x)
    rw [List.mem_append, List.mem_singleton, not_or] at hx
    refine ⟨x :: q, y, ⟨List.nodup_cons.mpr ⟨hx.1, hq⟩, List.IsChain.left_of_append hchain, hmap⟩, ?_, hchain⟩
    intro hmem
    rcases List.mem_cons.mp hmem with rfl | hmem
    · exact hx.2 rfl
    · exact hy y hmem y (List.mem_singleton_self y) rfl
  · rintro ⟨path, y, ⟨hnodup, -, hletters⟩, hy, hchain⟩
    cases path with
    | nil => exact absurd (List.map_eq_nil_iff.mp hletters.symm) hword
    | cons x q =>
        obtain ⟨w, rest, rfl⟩ := List.exists_cons_of_ne_nil hword
        have hletter : letterAt board x = some w := (List.cons.inj hletters).1
        obtain ⟨hx, hq⟩ := List.nodup_cons.mp hnodup
        rw [List.mem_cons, not_or] at hy
        refine ⟨x, mem_places_of_letterAt hletter, hletter, exists_mem_attempts.mpr
          ⟨q, y, hchain, ?_, fun z hz hzx => ?_, hletters⟩⟩
        · refine List.nodup_append.mpr ⟨hq, List.pairwise_singleton _ _, fun a ha b hb hab => ?_⟩
          rw [List.mem_singleton] at hb
          exact hy.2 (hb ▸ hab ▸ ha)
        · rw [List.mem_singleton] at hzx
          subst hzx
          rcases List.mem_append.mp hz with hz | hz
          · exact hx hz
          · exact hy.1 (List.mem_singleton.mp hz).symm

/-- **When it finds the words that are there**, inside its array. -/
theorem exist_iff (board : List Bytes) (word : Bytes) (hrows : board.length ≤ 999)
    (hcolumns : ∀ row ∈ board, row.length ≤ 999) (hword : word ≠ []) :
    (∃ b, exist board word = some b ∧ (b = true ↔ ∃ path, Spells board word path)) ↔
      Safe (allAttempts board word) ∧ Escapes board word := by
  have hexist : exist board word = outcome (allAttempts board word) := by
    rw [exist, if_neg (fun h => hword (List.length_eq_zero_iff.mp h))]
    exact existLoop_eq hword fun x hx => inFlags_of_mem_places hrows hcolumns hx
  obtain ⟨hnone, hfalse, htrue⟩ := outcome_spec (allAttempts board word)
  have hfound : (∃ y, (y, true) ∈ allAttempts board word) ↔ _ := exists_mem_allAttempts hword
  rw [hexist]
  constructor
  · rintro ⟨b, hb, hiff⟩
    refine ⟨by_contra fun hsafe => absurd (hnone.mpr hsafe) (by simp [hb]), fun hpath => hfound.mp ?_⟩
    exact htrue (by rw [hb, hiff.mpr hpath])
  · rintro ⟨hsafe, hescapes⟩
    rcases hb : outcome (allAttempts board word) with _ | b
    · exact absurd hsafe (hnone.mp hb)
    refine ⟨b, rfl, fun h => ?_, fun hpath => ?_⟩
    · obtain ⟨path, y, hpath, -⟩ := hfound.mp (htrue (by rw [hb, h]))
      exact ⟨path, hpath⟩
    · obtain ⟨y, hy⟩ := hfound.mpr (hescapes hpath)
      by_contra hne
      have := hfalse (by rw [hb, Bool.eq_false_of_not_eq_true hne]) _ hy
      simp at this

/-- The letter in the corner of a board that the search does not leave. -/
theorem exist_iff_corner :
    (∃ b, exist [[120, 120], [120, 97]] [97] = some b ∧
      (b = true ↔ ∃ path, Spells [[120, 120], [120, 97]] [97] path)) ∧
    exist [[120, 120], [120, 97]] [97] = some true := by
  refine ⟨(exist_iff [[120, 120], [120, 97]] [97] (by simp) (by simp) (by simp)).mpr ⟨?_, fun _ => ?_⟩,
    by decide +kernel⟩
  · exact by_contra fun hsafe => absurd ((outcome_spec _).1.mpr hsafe) (by decide +kernel)
  · refine ⟨[(1, 1)], (0, 1), ⟨by simp, by simp, by decide +kernel⟩, by simp, ?_⟩
    simp [Adjacent]

/-- A board of one letter: the first neighbour is outside the array. -/
theorem exist_one : ¬ ∃ b, exist [[97]] [97] = some b ∧ (b = true ↔ ∃ path, Spells [[97]] [97] path) := by
  have hnone : exist [[97]] [97] = none := by decide +kernel
  simp [hnone]

end Asenal.Acm
