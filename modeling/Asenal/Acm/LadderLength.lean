import Asenal.Lib.Breadth
import Asenal.Lib.Checked

/-!
# Word ladders

`ladderLength` looks for the shortest chain of words between two words of a dictionary. Two words are
neighbours in `check_ladder` if they differ in at most one letter, as far as the length is an `int`.

* `init_spec` — the matrix that `init` fills.
* `ladderLoop_eq` — the loop is a breadth-first search.
* `ladderLength_iff` — when the length of a shortest chain is returned.
* `chains_of_short` — it is where no word has `2 ^ 31` letters.
-/

namespace Asenal.Acm

open Asenal.Lib.Text Asenal.Lib.Checked Asenal.Lib.Breadth

/-! ## The program -/

/-- Source: `ladderLength.cpp` `Solution::check_ladder`. -/
def checkLadder (word other : Bytes) : Bool :=
  if word.length ≠ other.length then false
  else ((word.zip other).take (intOf word.length).toNat).countP (fun p => p.1 != p.2) ≤ 1

/-- The matrix of neighbours, by their positions in the dictionary. -/
abbrev Road := ℕ → ℕ → Bool

/-- The rows and the columns of the matrix. Source: `ladderLength.cpp` `N`. -/
def roadSize : ℕ := 3010

/-- A cell of the road is set. -/
def setRoad (road : Road) (i j : ℕ) : Option Road :=
  if i < roadSize ∧ j < roadSize then some (Function.update road i (Function.update (road i) j true)) else none

/-- A cell of the road is read. -/
def roadAt (road : Road) (i j : ℕ) : Option Bool :=
  if i < roadSize ∧ j < roadSize then some (road i j) else none

/-- Source: `ladderLength.cpp` `Solution::init`, the inner loop. -/
def initRow (word : Bytes) (i : ℕ) : ℕ → List Bytes → Road → Option Road
  | _, [], road => some road
  | j, other :: dict, road =>
      (if checkLadder word other then setRoad road i j else some road).bind (initRow word i (j + 1) dict)

/-- Source: `ladderLength.cpp` `Solution::init`, the outer loop. -/
def initRows (dict : List Bytes) : ℕ → List Bytes → Road → Option Road
  | _, [], road => some road
  | i, word :: words, road => (initRow word i 0 dict road).bind (initRows dict (i + 1) words)

/-- Source: `ladderLength.cpp` `Solution::init`. -/
def init (road : Road) (dict : List Bytes) : Option Road := initRows dict 0 dict road

/-- The words from position `j` of the dictionary on, looked through for neighbours of the one at `pos`; an error
is what the call returns. Source: `ladderLength.cpp` `Solution::ladderLength`, the loop over the dictionary. -/
def visit (road : Road) (stop : Bytes) (pos step : ℕ) : ℕ → List Bytes → List (Bytes × ℕ) → List Bytes →
    Option (Except ℕ (List (Bytes × ℕ) × List Bytes))
  | _, [], q, st => some (.ok (q, st))
  | j, word :: dict, q, st =>
      if word ∈ st then visit road stop pos step (j + 1) dict q st
      else
        (roadAt road pos j).bind fun near =>
          if near then
            if word = stop then some (.error (step + 1))
            else visit road stop pos step (j + 1) dict (q ++ [(word, step + 1)]) (word :: st)
          else visit road stop pos step (j + 1) dict q st

/-- The loop, with `fuel` rounds at most. Source: `ladderLength.cpp` `Solution::ladderLength`. -/
def ladderLoop (road : Road) (stop : Bytes) (dict : List Bytes) : ℕ → List (Bytes × ℕ) → List Bytes → Option ℕ
  | 0, _, _ => none
  | _ + 1, [], _ => some 0
  | fuel + 1, (str, step) :: q, st =>
      (visit road stop (dict.findIdx (· = str)) step 0 dict q st).bind fun
        | .error res => some res
        | .ok (q, st) => ladderLoop road stop dict fuel q st

/-- The dictionary is given in the order of its iterator. Source: `ladderLength.cpp`
`Solution::ladderLength`. -/
def ladderLength (fuel : ℕ) (start stop : Bytes) (dict : List Bytes) : Option ℕ :=
  if start = stop then some 2
  else if dict = [] then some 0
  else if start ∉ dict then some 0
  else if stop ∉ dict then some 0
  else (init (fun _ _ => false) dict).bind fun road => ladderLoop road stop dict fuel [(start, 1)] []

/-! ## Chains -/

/-- Words of the same length that differ in exactly one letter. -/
def Differ (word other : Bytes) : Prop :=
  word.length = other.length ∧ (word.zip other).countP (fun p => p.1 != p.2) = 1

/-- Neighbours in a dictionary. -/
def Step (near : Bytes → Bytes → Prop) (dict : List Bytes) (x y : Bytes) : Prop := x ∈ dict ∧ y ∈ dict ∧ near x y

/-- There is a chain of `n` words from `start` to `stop`. -/
def Chain (near : Bytes → Bytes → Prop) (dict : List Bytes) (start stop : Bytes) (n : ℕ) : Prop :=
  Reach (Step near dict) 1 start n stop

/-- The number of words on a shortest chain, or zero if there is none. -/
def Shortest (dict : List Bytes) (start stop : Bytes) (res : ℕ) : Prop :=
  IsLeast {n | Chain Differ dict start stop n} res ∨ (res = 0 ∧ ∀ n, ¬ Chain Differ dict start stop n)

variable {word other start stop x y str : Bytes} {dict rest words st : List Bytes} {road road' : Road}
  {q : List (Bytes × ℕ)} {i j n m pos step fuel : ℕ}

/-! ## The matrix -/

/-- **A row** of the matrix. -/
theorem initRow_spec (hi : i < roadSize) (hj : j + dict.length ≤ roadSize) : ∃ road',
    initRow word i j dict road = some road' ∧ ∀ a b, road' a b = true ↔
      road a b = true ∨ (a = i ∧ ∃ k other, b = j + k ∧ dict[k]? = some other ∧ checkLadder word other = true) := by
  induction dict generalizing j road with
  | nil => exact ⟨road, rfl, by simp⟩
  | cons other dict ih =>
      rw [List.length_cons] at hj
      -- the columns behind the first one
      have hshift : ∀ b, (∃ k w, b = j + k ∧ (other :: dict)[k]? = some w ∧ checkLadder word w = true) ↔
          (b = j ∧ checkLadder word other = true) ∨
            ∃ k w, b = j + 1 + k ∧ dict[k]? = some w ∧ checkLadder word w = true := by
        intro b
        constructor
        · rintro ⟨k, w, rfl, hw, hnear⟩
          cases k with
          | zero =>
              rw [List.getElem?_cons_zero, Option.some.injEq] at hw
              exact .inl ⟨rfl, hw ▸ hnear⟩
          | succ k => exact .inr ⟨k, w, by omega, by simpa using hw, hnear⟩
        · rintro (⟨rfl, hnear⟩ | ⟨k, w, rfl, hw, hnear⟩)
          · exact ⟨0, other, rfl, rfl, hnear⟩
          · exact ⟨k + 1, w, by omega, by simpa using hw, hnear⟩
      simp only [hshift]
      by_cases hnear : checkLadder word other = true
      · have hset : setRoad road i j = some (Function.update road i (Function.update (road i) j true)) :=
          if_pos ⟨hi, by omega⟩
        obtain ⟨road', h, hroad'⟩ :=
          @ih (Function.update road i (Function.update (road i) j true)) (j + 1) (by omega)
        refine ⟨road', by simp [initRow, hnear, hset, h], fun a b => ?_⟩
        rw [hroad' a b]
        by_cases ha : a = i
        · subst ha
          by_cases hb : b = j <;> simp [hb, hnear]
        · simp [ha]
      · obtain ⟨road', h, hroad'⟩ := @ih road (j + 1) (by omega)
        exact ⟨road', by simp [initRow, hnear, h], fun a b => by simp [hroad' a b, hnear]⟩

/-- The rows of some words. -/
theorem initRows_spec (hi : i + words.length ≤ roadSize) (hdict : dict.length ≤ roadSize) : ∃ road',
    initRows dict i words road = some road' ∧ ∀ a b, road' a b = true ↔ road a b = true ∨
      ∃ k x y, a = i + k ∧ words[k]? = some x ∧ dict[b]? = some y ∧ checkLadder x y = true := by
  induction words generalizing i road with
  | nil => exact ⟨road, rfl, by simp⟩
  | cons word words ih =>
      rw [List.length_cons] at hi
      obtain ⟨road₁, h₁, hroad₁⟩ := @initRow_spec word dict road i 0 (by omega) (by omega)
      obtain ⟨road', h, hroad'⟩ := @ih road₁ (i + 1) (by omega)
      refine ⟨road', by simp [initRows, h₁, h], fun a b => ?_⟩
      rw [hroad' a b, hroad₁ a b, or_assoc]
      refine or_congr_right ⟨?_, ?_⟩
      · rintro (⟨rfl, k, y, hb, hy, hnear⟩ | ⟨k, x, y, rfl, hx, hy, hnear⟩)
        · rw [zero_add] at hb
          exact ⟨0, word, y, rfl, rfl, hb ▸ hy, hnear⟩
        · exact ⟨k + 1, x, y, by omega, by simpa using hx, hy, hnear⟩
      · rintro ⟨k, x, y, rfl, hx, hy, hnear⟩
        cases k with
        | zero =>
            rw [List.getElem?_cons_zero, Option.some.injEq] at hx
            exact .inl ⟨rfl, b, y, (zero_add b).symm, hy, hx ▸ hnear⟩
        | succ k => exact .inr ⟨k, x, y, by omega, by simpa using hx, hy, hnear⟩

/-- A matrix that holds the neighbours of a dictionary. -/
def FilledRoad (road : Road) (dict : List Bytes) : Prop :=
  ∀ {i j x y}, dict[i]? = some x → dict[j]? = some y → roadAt road i j = some (checkLadder x y)

/-- **The matrix** that is filled. -/
theorem init_spec (hdict : dict.length ≤ roadSize) :
    ∃ road, init (fun _ _ => false) dict = some road ∧ FilledRoad road dict := by
  obtain ⟨road, h, hroad⟩ := @initRows_spec dict dict (fun _ _ => false) 0 (by omega) hdict
  refine ⟨road, h, fun {i j x y} hx hy => ?_⟩
  obtain ⟨hi, -⟩ := List.getElem?_eq_some_iff.mp hx
  obtain ⟨hj, -⟩ := List.getElem?_eq_some_iff.mp hy
  have hval : road i j = checkLadder x y := by
    rw [Bool.eq_iff_iff, hroad i j]
    simp [hx, hy]
  rw [roadAt, if_pos ⟨by omega, by omega⟩, hval]

/-! ## The loop -/

/-- **The loop over the dictionary** looks through the neighbours. -/
theorem visit_eq (hroad : ∀ k w, rest[k]? = some w → roadAt road pos (j + k) = some (checkLadder str w))
    (hst : stop ∉ st) : visit road stop pos step j rest q st =
      some (scan stop (step + 1) (rest.filter fun w => checkLadder str w) q st) := by
  induction rest generalizing j q st with
  | nil => rfl
  | cons w rest ih =>
      have hrest : ∀ k v, rest[k]? = some v → roadAt road pos (j + 1 + k) = some (checkLadder str v) := by
        intro k v hv
        rw [add_assoc, add_comm 1 k]
        exact hroad (k + 1) v (by simpa using hv)
      have hw : roadAt road pos j = some (checkLadder str w) := hroad 0 w rfl
      rw [visit, List.filter_cons]
      by_cases hmem : w ∈ st
      · have hne : w ≠ stop := fun e => hst (e ▸ hmem)
        rw [if_pos hmem, ih hrest hst]
        split_ifs
        · simp [scan, hne, hmem]
        · rfl
      · rw [if_neg hmem, hw, Option.bind_some]
        split_ifs with hnear hstop
        · simp [scan, hstop]
        · have hst' : stop ∉ w :: st := by simp [Ne.symm hstop, hst]
          rw [ih hrest hst']
          simp [scan, hstop, hmem]
        · exact ih hrest hst

/-- The words that are neighbours in `check_ladder`. -/
def nextWords (dict : List Bytes) (x : Bytes) : List Bytes := dict.filter fun y => checkLadder x y

/-- **The loop** is a breadth-first search. -/
theorem ladderLoop_eq (hroad : FilledRoad road dict) (hq : ∀ p ∈ q, p.1 ∈ dict) (hst : stop ∉ st) :
    ladderLoop road stop dict fuel q st = (search (nextWords dict) stop fuel q st).map fun o => o.getD 0 := by
  induction fuel generalizing q st with
  | zero => rfl
  | succ fuel ih =>
      rcases q with _ | ⟨⟨str, step⟩, q⟩
      · rfl
      obtain ⟨hstr, hq⟩ := List.forall_mem_cons.mp hq
      have hpos : dict[dict.findIdx (· = str)]? = some str := by
        have hlt : dict.findIdx (· = str) < dict.length := List.findIdx_lt_length_of_exists ⟨str, hstr, by simp⟩
        have hval := List.findIdx_getElem (w := hlt)
        rw [List.getElem?_eq_getElem hlt]
        simpa using hval
      have hvisit : visit road stop (dict.findIdx (· = str)) step 0 dict q st = _ :=
        visit_eq (fun k w hw => hroad hpos (by simpa using hw)) hst
      rw [ladderLoop, hvisit, search, Option.bind_some, nextWords]
      rcases scan_cases stop (step + 1) (dict.filter fun y => checkLadder str y) q st with
        ⟨-, h⟩ | ⟨hstop, new, h, -, hnew, -⟩
      · simp [h]
      · simp only [h]
        refine ih (fun p hp => ?_) fun hmem => ?_
        · rcases List.mem_append.mp hp with hp | hp
          · exact hq p hp
          · obtain ⟨y, hy, rfl⟩ := List.mem_map.mp hp
            exact (List.mem_filter.mp (hnew y hy).1).1
        · rcases List.mem_append.mp hmem with hmem | hmem
          · exact hstop (hnew _ (List.mem_reverse.mp hmem)).1
          · exact hst hmem

/-- **The call** looks for a shortest chain by `check_ladder`. -/
theorem ladderLength_eq (hdict : dict.length ≤ roadSize) (hstart : start ∈ dict) (hstop : stop ∈ dict)
    (hne : start ≠ stop) (hfuel : dict.length + 1 < fuel) : ∃ o, ladderLength fuel start stop dict = some (o.getD 0) ∧
      Least (Step (fun x y => checkLadder x y = true) dict) 1 start stop o := by
  obtain ⟨road, hinit, hroad⟩ := init_spec hdict
  obtain ⟨o, hsearch, hleast⟩ : ∃ o, search (nextWords dict) stop fuel [(start, 1)] [] = some o ∧
      Least (fun x y => y ∈ nextWords dict x) 1 start stop o :=
    search_least hne (fun x _ y hy => (List.mem_filter.mp hy).1) hstart (List.nil_sublist _) hfuel
  refine ⟨o, ?_, (Least.congr fun n => ?_).mp hleast⟩
  · have hloop : ladderLoop road stop dict fuel [(start, 1)] [] = _ :=
      ladderLoop_eq hroad (by simpa using hstart) List.not_mem_nil
    rw [ladderLength, if_neg hne, if_neg (List.ne_nil_of_mem hstart), if_neg (not_not.mpr hstart),
      if_neg (not_not.mpr hstop), hinit, Option.bind_some, hloop, hsearch]
    rfl
  · -- every word that is reached is in the dictionary
    have hmem : ∀ {n y}, Reach (fun x y => y ∈ nextWords dict x) 1 start n y → y ∈ dict := by
      intro n y hy
      cases hy with
      | start => exact hstart
      | step _ hxy => exact (List.mem_filter.mp hxy).1
    have hchain : ∀ {n y}, Reach (fun x y => y ∈ nextWords dict x) 1 start n y →
        Reach (Step (fun x y => checkLadder x y = true) dict) 1 start n y := by
      intro n y hy
      induction hy with
      | start => exact .start
      | step hx hxy ih => exact ih.step ⟨hmem hx, List.mem_filter.mp hxy⟩
    exact ⟨hchain, Reach.mono fun h => List.mem_filter.mpr h.2⟩

/-! ## The result -/

/-- Words that differ in one letter are neighbours. -/
theorem checkLadder_of_differ (h : Differ x y) : checkLadder x y = true := by
  obtain ⟨hlen, hcount⟩ := h
  have := ((List.take_sublist (intOf x.length).toNat (x.zip y)).countP_le (p := fun p => p.1 != p.2))
  rw [checkLadder, if_neg (not_not.mpr hlen)]
  exact decide_eq_true (this.trans hcount.le)

/-- A chain of such words is a chain of neighbours. -/
theorem Chain.mono (h : Chain Differ dict start stop n) :
    Chain (fun x y => checkLadder x y = true) dict start stop n :=
  Reach.mono (fun h => ⟨h.1, h.2.1, checkLadder_of_differ h.2.2⟩) h

/-- A chain has a word. -/
theorem Chain.one_le {near : Bytes → Bytes → Prop} (h : Chain near dict start stop n) : 1 ≤ n := by
  cases h with
  | start => exact le_refl 1
  | step => omega

/-- **When the length of a shortest chain** is returned. -/
theorem ladderLength_iff (start stop : Bytes) (dict : List Bytes) (hdict : dict.length ≤ roadSize)
    (hstart : start ∈ dict) (hstop : stop ∈ dict) (hne : start ≠ stop) :
    (∃ N, ∀ fuel ≥ N, ∃ res, ladderLength fuel start stop dict = some res ∧ Shortest dict start stop res) ↔
      ∀ n, Chain (fun x y => checkLadder x y = true) dict start stop n →
        ∃ m ≤ n, Chain Differ dict start stop m := by
  constructor
  · rintro ⟨N, hN⟩ n hn
    obtain ⟨res, hres, hshort⟩ := hN (max N (dict.length + 2)) (le_max_left _ _)
    obtain ⟨o, ho, hleast⟩ := ladderLength_eq hdict hstart hstop hne (le_max_right N (dict.length + 2))
    rw [ho, Option.some.injEq] at hres
    subst hres
    cases o with
    | none => exact absurd hn (hleast n)
    | some k =>
        rcases hshort with hshort | ⟨hzero, -⟩
        · exact ⟨k, hleast.2 hn, hshort.1⟩
        · have hpos : 1 ≤ k := Chain.one_le hleast.1
          rw [Option.getD_some] at hzero
          omega
  · intro h
    refine ⟨dict.length + 2, fun fuel hfuel => ?_⟩
    obtain ⟨o, ho, hleast⟩ := ladderLength_eq hdict hstart hstop hne hfuel
    refine ⟨o.getD 0, ho, ?_⟩
    cases o with
    | none => exact .inr ⟨rfl, fun n hn => hleast n hn.mono⟩
    | some k =>
        obtain ⟨m, hm, hchain⟩ := h k hleast.1
        have hmk : m = k := le_antisymm hm (hleast.2 hchain.mono)
        exact .inl ⟨hmk ▸ hchain, fun n hn => hleast.2 hn.mono⟩

/-- The letters are compared as they are where no word has `2 ^ 31` of them. -/
theorem checkLadder_iff (hx : x.length < 2 ^ 31) : checkLadder x y = true ↔ x = y ∨ Differ x y := by
  have hzero : x.length = y.length → ((x.zip y).countP (fun p => p.1 != p.2) = 0 ↔ x = y) := by
    intro hlen
    induction x generalizing y with
    | nil => simp [List.length_eq_zero_iff.mp hlen.symm]
    | cons a x ih =>
        cases y with
        | nil => exact absurd hlen (by simp)
        | cons b y =>
            rw [List.length_cons] at hx
            have := ih (y := y) (by omega) (by simpa using hlen)
            by_cases hab : a = b <;> simp_all
  have htake : (x.zip y).take (intOf x.length).toNat = x.zip y := by
    rw [intOf_of_lt hx, Int.toNat_natCast]
    exact List.take_of_length_le (by simp)
  rw [checkLadder, htake]
  by_cases hlen : x.length = y.length
  · rw [if_neg (not_not.mpr hlen), decide_eq_true_iff, ← hzero hlen, Differ]
    omega
  · have hne : x ≠ y := fun e => hlen (e ▸ rfl)
    simp [hlen, hne, Differ]

/-- **The condition holds** where no word has `2 ^ 31` letters. -/
theorem chains_of_short (h : ∀ w ∈ dict, w.length < 2 ^ 31)
    (hn : Chain (fun x y => checkLadder x y = true) dict start stop n) : ∃ m ≤ n, Chain Differ dict start stop m := by
  induction hn with
  | start => exact ⟨1, le_refl 1, .start⟩
  | @step n x y _ hxy ih =>
      obtain ⟨m, hm, hchain⟩ := ih
      rcases (checkLadder_iff (h x hxy.1)).mp hxy.2.2 with rfl | hdiff
      · exact ⟨m, hm.trans (Nat.le_succ n), hchain⟩
      · exact ⟨m + 1, Nat.succ_le_succ hm, hchain.step ⟨hxy.1, hxy.2.1, hdiff⟩⟩

/-- A chain of three words from `aa` to `bb`. -/
theorem ladderLength_iff_three :
    (∃ N, ∀ fuel ≥ N, ∃ res, ladderLength fuel [97, 97] [98, 98] [[97, 97], [97, 98], [98, 98]] = some res ∧
      Shortest [[97, 97], [97, 98], [98, 98]] [97, 97] [98, 98] res) ∧
    ladderLength 6 [97, 97] [98, 98] [[97, 97], [97, 98], [98, 98]] = some 3 :=
  ⟨(ladderLength_iff [97, 97] [98, 98] [[97, 97], [97, 98], [98, 98]] (by decide) (by simp) (by simp)
    (by simp)).mpr fun _ hn => chains_of_short (by simp) hn, by decide +kernel⟩

/-! ## Words whose length is no `int` -/

/-- Words whose length is no positive `int` are neighbours. -/
theorem checkLadder_of_overflow (hlen : x.length = y.length) (h : (intOf x.length).toNat = 0) :
    checkLadder x y = true := by
  rw [checkLadder, if_neg (not_not.mpr hlen), h]
  rfl

/-- Two words that differ everywhere. -/
def twoWords (n : ℕ) : List Bytes := [List.replicate n 97, List.replicate n 98]

/-- Two words that differ in each letter. -/
theorem replicate_ne (hn : 2 ≤ n) : List.replicate n (97 : UInt8) ≠ List.replicate n 98 := by
  intro h
  rw [List.replicate_right_inj (by omega)] at h
  exact absurd h (by decide)

/-- There is no chain between them. -/
theorem not_chain_twoWords (hn : 2 ≤ n) : ¬ Chain Differ (twoWords n) (.replicate n 97) (.replicate n 98) m := by
  have hcount : ∀ b : UInt8, b ∈ [97, 98] →
      ((List.replicate n (97 : UInt8)).zip (List.replicate n b)).countP (fun p => p.1 != p.2) ≠ 1 := by
    intro b hb
    rw [List.zip_replicate', List.countP_replicate]
    rcases List.mem_pair.mp hb with rfl | rfl
    · simp
    · simp
      omega
  suffices ∀ {m y}, Chain Differ (twoWords n) (.replicate n 97) y m → y = .replicate n 97 from
    fun h => replicate_ne hn (this h).symm
  intro m y h
  induction h with
  | start => rfl
  | @step m x y _ hxy ih =>
      subst ih
      obtain ⟨-, hy, -, hdiff⟩ := hxy
      rcases List.mem_pair.mp hy with rfl | rfl
      · rfl
      · exact absurd hdiff (hcount 98 (by simp))

/-- There is no chain between two words of `2 ^ 31` letters that differ everywhere, and the call returns `2`. -/
theorem ladderLength_overflow :
    ¬ ∃ N, ∀ fuel ≥ N, ∃ res, ladderLength fuel (.replicate (2 ^ 31) 97) (.replicate (2 ^ 31) 98)
        (twoWords (2 ^ 31)) = some res ∧
      Shortest (twoWords (2 ^ 31)) (.replicate (2 ^ 31) 97) (.replicate (2 ^ 31) 98) res := by
  have hlen : (intOf (2 ^ 31)).toNat = 0 := by rfl
  have htwo : 2 ≤ 2 ^ 31 := by norm_num
  generalize 2 ^ 31 = n at hlen htwo ⊢
  rintro ⟨N, hN⟩
  obtain ⟨res, hres, hshort⟩ := hN (max N 4) (le_max_left N 4)
  have hdict : (twoWords n).length ≤ roadSize := by simp [twoWords, roadSize]
  obtain ⟨o, ho, hleast⟩ := ladderLength_eq hdict (by simp [twoWords]) (by simp [twoWords]) (replicate_ne htwo)
    (le_max_right N 4)
  have hstep : Step (fun x y => checkLadder x y = true) (twoWords n) (.replicate n 97) (.replicate n 98) :=
    ⟨by simp [twoWords], by simp [twoWords], checkLadder_of_overflow (by simp) (by simpa using hlen)⟩
  rw [ho, Option.some.injEq] at hres
  rcases hshort with hshort | ⟨hzero, -⟩
  · exact not_chain_twoWords htwo hshort.1
  · cases o with
    | none => exact hleast 2 (Reach.start.step hstep)
    | some k =>
        have hpos : 1 ≤ k := Chain.one_le hleast.1
        rw [Option.getD_some] at hres
        omega

end Asenal.Acm
