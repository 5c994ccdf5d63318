import Asenal.Acm.Words
import Asenal.Lib.EditDistance

/-!
# Lines compared by their words

`CompareString` fills a table with the distances of the first words of both strings, row by row.

* `fillTab_filled` — the table.
* `compareString_spec` — what the comparison says about edits.
-/

namespace Asenal.Acm

open Asenal.Lib.Text Asenal.Lib.Checked Asenal.Lib.EditDistance

/-! ## The program -/

/-- Source: `QueryAnalysis.h` `Min`. -/
def minOf (a b c : ℤ) : ℤ :=
  if c < if a > b then b else a then c else if a > b then b else a

/-- The bytes of a word. -/
def SWord.bytes (str : Bytes) (w : SWord) : Bytes := (str.drop w.word).take w.size

/-- The words that `GetWord` finds, by their bytes. -/
def wordList (str : Bytes) : List Bytes := (getWord str).map (SWord.bytes str)

/-- The table `nTab`. -/
abbrev Tab := ℕ × ℕ → ℤ

/-- Set an entry of the table, which has 256 rows and columns. -/
def setTab (tab : Tab) (i j : ℕ) (x : ℤ) : Option Tab :=
  if i < 256 ∧ j < 256 then some (Function.update tab (i, j) x) else none

/-- Nothing where the words are of one size and have the same bytes. -/
def nCost (strInput strQuery : Bytes) (a b : SWord) : ℤ :=
  if a.size = b.size ∧ a.bytes strInput = b.bytes strQuery then 0 else 1

/-- One entry, for the `i`th and the `j`th word. -/
def tabStep (strInput strQuery : Bytes) (arrInput arrQuery : List SWord) (i : ℕ) (tab : Tab) (j : ℕ) :
    Option Tab :=
  arrInput[i]?.bind fun a => arrQuery[j]?.bind fun b =>
    setTab tab (i + 1) (j + 1) (minOf (tab (i, j) + nCost strInput strQuery a b) (tab (i, j + 1) + 1)
      (tab (i + 1, j) + 1))

/-- The table, or `none` where an entry is not in it. Source: `QueryAnalysis.h`
`CQueryAnalysis::CompareString`, the loops. -/
def fillTab (strInput strQuery : Bytes) (arrInput arrQuery : List SWord) : Option Tab :=
  ((List.range (arrInput.length + 1)).foldlM (fun tab i => setTab tab i 0 i) fun _ => 0).bind fun tab =>
    ((List.range (arrQuery.length + 1)).foldlM (fun tab j => setTab tab 0 j j) tab).bind fun tab =>
      (List.range arrInput.length).foldlM (fun tab i =>
        (List.range arrQuery.length).foldlM (tabStep strInput strQuery arrInput arrQuery i) tab) tab

/-- Source: `QueryAnalysis.h` `CQueryAnalysis::CompareString`. -/
def compareString (strInput strQuery : Bytes) (iDistance : ℤ) : Option Bool :=
  (fillTab strInput strQuery (getWord strInput) (getWord strQuery)).map fun tab =>
    decide (tab ((getWord strInput).length, (getWord strQuery).length) ≤ iDistance)

/-! ## The table -/

variable {strInput strQuery : Bytes} {tab : Tab} {i j : ℕ} {x : ℤ}

/-- The least of three. -/
theorem minOf_eq (a b c : ℤ) : minOf a b c = min a (min b c) := by
  unfold minOf
  split_ifs <;> omega

/-- A cell of the table is written. -/
theorem setTab_of_lt (hi : i < 256) (hj : j < 256) (tab : Tab) (x : ℤ) :
    setTab tab i j x = some (Function.update tab (i, j) x) := if_pos ⟨hi, hj⟩

/-- The distance of the first words of two lists, from their ends. -/
def prefixDist (xs ys : List Bytes) (i j : ℕ) : ℕ := dist (xs.take i).reverse (ys.take j).reverse

variable {xs ys : List Bytes} {a b : Bytes}

/-- One word more of a beginning. -/
theorem take_reverse_succ (h : xs[i]? = some a) : (xs.take (i + 1)).reverse = a :: (xs.take i).reverse := by
  rw [List.take_add_one, h]
  simp

/-- From no words on the other side. -/
theorem prefixDist_zero_right (h : i ≤ xs.length) : prefixDist xs ys i 0 = i := by
  simp [prefixDist, h]

/-- From no words on this side. -/
theorem prefixDist_zero_left (h : j ≤ ys.length) : prefixDist xs ys 0 j = j := by
  simp [prefixDist, h]

/-- The recurrence of the table. -/
theorem prefixDist_succ (hi : xs[i]? = some a) (hj : ys[j]? = some b) :
    prefixDist xs ys (i + 1) (j + 1) = min (prefixDist xs ys i j + if a = b then 0 else 1)
      (min (prefixDist xs ys i (j + 1) + 1) (prefixDist xs ys (i + 1) j + 1)) := by
  simp only [prefixDist, take_reverse_succ hi, take_reverse_succ hj, Lib.EditDistance.dist]

/-- The rows up to `i` are filled, the last one up to `j`. -/
def Filled (xs ys : List Bytes) (i j : ℕ) (tab : Tab) : Prop :=
  ∀ i' ≤ xs.length, ∀ j' ≤ ys.length, i' < i ∨ j' = 0 ∨ i' = i ∧ j' ≤ j → tab (i', j') = prefixDist xs ys i' j'

/-- A full row is followed by the next one. -/
theorem Filled.next (h : Filled xs ys i ys.length tab) : Filled xs ys (i + 1) 0 tab := by
  intro i' hi' j' hj' hknown
  exact h i' hi' j' hj' (by omega)

/-- One cell more of a row. -/
theorem Filled.set (h : Filled xs ys i j tab) (hx : x = prefixDist xs ys i (j + 1)) :
    Filled xs ys i (j + 1) (Function.update tab (i, j + 1) x) := by
  intro i' hi' j' hj' hknown
  by_cases heq : (i', j') = (i, j + 1)
  · obtain ⟨rfl, rfl⟩ := Prod.mk.inj heq
    rw [Function.update_self, hx]
  · rw [Function.update_of_ne heq]
    rw [Prod.mk.injEq] at heq
    exact h i' hi' j' hj' (by omega)

/-- A word has as many bytes as its size says. -/
theorem length_bytes {w : SWord} (h : w ∈ getWord strInput) : (w.bytes strInput).length = w.size := by
  have hwithin := getWord_within strInput w h
  rw [SWord.bytes, List.length_take, List.length_drop]
  omega

/-- Words of the same bytes are of one size. -/
theorem nCost_eq {v w : SWord} (hv : v ∈ getWord strInput) (hw : w ∈ getWord strQuery) :
    nCost strInput strQuery v w = (if v.bytes strInput = w.bytes strQuery then 0 else 1 : ℕ) := by
  have hsize : v.bytes strInput = w.bytes strQuery → v.size = w.size := fun heq => by
    rw [← length_bytes hv, heq, length_bytes hw]
  unfold nCost
  simp only [and_iff_right_of_imp hsize]
  split_ifs <;> rfl

/-- The words as texts are as many. -/
theorem length_wordList (str : Bytes) : (wordList str).length = (getWord str).length := List.length_map _

/-- A word as a text. -/
theorem getElem?_wordList (h : i < (getWord strInput).length) :
    (wordList strInput)[i]? = some ((getWord strInput)[i].bytes strInput) := by
  simp [wordList, h]

/-- **One entry** from the three above it and on its left. -/
theorem Filled.tabStep (h : Filled (wordList strInput) (wordList strQuery) (i + 1) j tab)
    (hi : i < (getWord strInput).length) (hj : j < (getWord strQuery).length)
    (hm : (getWord strInput).length ≤ 255) (hn : (getWord strQuery).length ≤ 255) :
    ∃ tab', tabStep strInput strQuery (getWord strInput) (getWord strQuery) i tab j = some tab' ∧
      Filled (wordList strInput) (wordList strQuery) (i + 1) (j + 1) tab' := by
  have hdist := prefixDist_succ (getElem?_wordList hi) (getElem?_wordList hj)
  have hleft := length_wordList strInput
  have habove := length_wordList strQuery
  rw [Acm.tabStep, List.getElem?_eq_getElem hi, List.getElem?_eq_getElem hj, Option.bind_some,
    Option.bind_some, setTab_of_lt (by omega) (by omega)]
  refine ⟨_, rfl, h.set ?_⟩
  rw [minOf_eq, nCost_eq (List.getElem_mem hi) (List.getElem_mem hj), hdist]
  rw [h i (by omega) j (by omega) (by omega), h i (by omega) (j + 1) (by omega) (by omega),
    h (i + 1) (by omega) j (by omega) (by omega)]
  push_cast
  rfl

/-- An entry at the left or the upper edge is the sum of its row and its column. -/
theorem update_edge {p q : ℕ × ℕ} (hx : x = q.1 + q.2) (h : p ≠ q → tab p = p.1 + p.2) :
    Function.update tab q x p = p.1 + p.2 := by
  by_cases heq : p = q
  · rw [heq, Function.update_self, hx]
  · rw [Function.update_of_ne heq, h heq]

/-- The first column. -/
theorem column_filled {m : ℕ} (hm : m ≤ 255) (tab : Tab) :
    ∃ tab', (List.range (m + 1)).foldlM (fun tab i => setTab tab i 0 (i : ℕ)) tab = some tab' ∧
      ∀ p : ℕ × ℕ, p.1 < m + 1 ∧ p.2 = 0 → tab' p = p.1 + p.2 := by
  apply foldlM_range (P := fun k (tab : Tab) => ∀ p : ℕ × ℕ, p.1 < k ∧ p.2 = 0 → tab p = p.1 + p.2)
  · exact fun p hp => absurd hp.1 (Nat.not_lt_zero _)
  · intro k hk tab htab
    refine ⟨_, setTab_of_lt (by omega) (by omega) tab k, fun p hp => update_edge (by simp) fun hne => ?_⟩
    rw [ne_eq, Prod.ext_iff] at hne
    exact htab p (by omega)

/-- The first row. -/
theorem row_filled {m n : ℕ} (hn : n ≤ 255) (h : ∀ p : ℕ × ℕ, p.1 < m + 1 ∧ p.2 = 0 → tab p = p.1 + p.2) :
    ∃ tab', (List.range (n + 1)).foldlM (fun tab j => setTab tab 0 j (j : ℕ)) tab = some tab' ∧
      ∀ p : ℕ × ℕ, p.1 < m + 1 ∧ p.2 = 0 ∨ p.1 = 0 ∧ p.2 < n + 1 → tab' p = p.1 + p.2 := by
  apply foldlM_range (P := fun k (tab : Tab) => ∀ p : ℕ × ℕ, p.1 < m + 1 ∧ p.2 = 0 ∨ p.1 = 0 ∧ p.2 < k →
    tab p = p.1 + p.2)
  · exact fun p hp => h p (by omega)
  · intro k hk tab htab
    refine ⟨_, setTab_of_lt (by omega) (by omega) tab k, fun p hp => update_edge (by simp) fun hne => ?_⟩
    rw [ne_eq, Prod.ext_iff] at hne
    exact htab p (by omega)

/-- **The table** has the distances of the first words. -/
theorem fillTab_filled (hm : (getWord strInput).length ≤ 255) (hn : (getWord strQuery).length ≤ 255) :
    ∃ tab, fillTab strInput strQuery (getWord strInput) (getWord strQuery) = some tab ∧
      tab ((getWord strInput).length, (getWord strQuery).length) =
        dist (wordList strInput).reverse (wordList strQuery).reverse := by
  have hleft := length_wordList strInput
  have habove := length_wordList strQuery
  obtain ⟨tab₁, hcolumn, htab₁⟩ := column_filled hm fun _ => 0
  obtain ⟨tab₂, hrow, htab₂⟩ := row_filled hn htab₁
  have hedges : Filled (wordList strInput) (wordList strQuery) 0 (wordList strQuery).length tab₂ := by
    intro i hi j hj hknown
    rw [htab₂ (i, j) (by simp only; omega)]
    rcases hknown with hlt | rfl | ⟨rfl, -⟩
    · exact absurd hlt (Nat.not_lt_zero i)
    · simp [prefixDist_zero_right hi]
    · simp [prefixDist_zero_left hj]
  obtain ⟨tab, hloops, htab⟩ := foldlM_range
    (P := fun i => Filled (wordList strInput) (wordList strQuery) i (wordList strQuery).length)
    (f := fun tab i => (List.range (getWord strQuery).length).foldlM
      (tabStep strInput strQuery (getWord strInput) (getWord strQuery) i) tab)
    (n := (getWord strInput).length) hedges fun i hi tab htab => by
      rw [habove]
      exact foldlM_range (P := fun j => Filled (wordList strInput) (wordList strQuery) (i + 1) j) htab.next
        fun j hj tab htab => htab.tabStep hi hj hm hn
  refine ⟨tab, ?_, ?_⟩
  · rw [fillTab, hcolumn, Option.bind_some, hrow, Option.bind_some, hloops]
  · rw [← hleft, ← habove, htab _ (Nat.le_refl _) _ (Nat.le_refl _) (by omega), prefixDist, List.take_length,
      List.take_length]

/-! ## The comparison -/

/-- The comparison by the distance. -/
theorem compareString_eq (hm : (getWord strInput).length ≤ 255) (hn : (getWord strQuery).length ≤ 255) (d : ℤ) :
    compareString strInput strQuery d =
      some (decide ((dist (wordList strInput).reverse (wordList strQuery).reverse : ℤ) ≤ d)) := by
  obtain ⟨tab, hfill, htab⟩ := fillTab_filled hm hn
  rw [compareString, hfill, Option.map_some, htab]

/-- The words of a line are those of a query after as many edits as the distance at most. -/
def Similar (d : Int32) (query line : Bytes) : Prop :=
  ∃ k : ℕ, (k : ℤ) ≤ d.toInt ∧ Edits k (wordList query) (wordList line)

/-- `compareString` returns, and says whether the texts are similar. -/
theorem compareString_similar (d : Int32) (hm : (getWord strInput).length ≤ 255)
    (hn : (getWord strQuery).length ≤ 255) :
    ∃ bOk, compareString strInput strQuery d.toInt = some bOk ∧ (bOk = true ↔ Similar d strInput strQuery) := by
  refine ⟨_, compareString_eq hm hn _, ?_⟩
  rw [decide_eq_true_iff]
  constructor
  · intro hle
    obtain ⟨k, hk, hedits⟩ := edits_iff_dist.mpr
      (Nat.le_refl (dist (wordList strInput).reverse (wordList strQuery).reverse))
    exact ⟨k, by omega, hedits⟩
  · rintro ⟨k, hk, hedits⟩
    have hle := edits_iff_dist.mp ⟨k, Nat.le_refl k, hedits⟩
    omega

/-- **The comparison** is true where the words of the second string are those of the first after as many edits as
the distance at most. -/
theorem compareString_spec (strInput strQuery : Bytes) (d : Int32) (hm : (getWord strInput).length ≤ 255)
    (hn : (getWord strQuery).length ≤ 255) : ∃ bOk, compareString strInput strQuery d.toInt = some bOk ∧
      (bOk = true ↔ ∃ k : ℕ, (k : ℤ) ≤ d.toInt ∧ Edits k (wordList strInput) (wordList strQuery)) :=
  compareString_similar d hm hn

/-- One word is replaced by another one. -/
theorem compareString_spec_replaced : ∃ bOk, compareString (ascii "red car") (ascii "blue car") (1 : Int32).toInt =
    some bOk ∧ (bOk = true ↔ ∃ k : ℕ, (k : ℤ) ≤ (1 : Int32).toInt ∧
      Edits k (wordList (ascii "red car")) (wordList (ascii "blue car"))) :=
  compareString_spec _ _ 1 (by decide) (by decide)

end Asenal.Acm
