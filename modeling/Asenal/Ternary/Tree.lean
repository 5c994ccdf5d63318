import Mathlib.Data.List.Basic

/-!
# The ternary search tree

A node has a character and three subtrees: for smaller characters, for the rest of the words that begin
with its own, and for greater ones. A word ends in the character `0`, which is inserted like any other.

* `searchLoop_insert` — an insertion adds one word, whatever the tree.
* `search_build` — what is found after any insertions.
-/

namespace Asenal.Ternary

/-! ## The program -/

/-- The characters of a string in front of its terminator. -/
abbrev Str := List Int8

/-- `*s`. -/
def charAt (s : Str) : Int8 := s.headD 0

theorem length_tail_lt {s : Str} (h : charAt s ≠ 0) : s.tail.length < s.length := by
  cases s with
  | nil => exact absurd rfl h
  | cons c s => exact Nat.lt_succ_self _

/-- Source: `Ternary/main.c` `Tptr`. -/
inductive Tnode
  | null
  | node (s : Int8) (lokid eqkid hikid : Tnode)
  deriving DecidableEq

/-- A new node has the character of the word, which goes on below its middle. Source: `Ternary/main.c`
`insert`. -/
def insert (p : Tnode) (s : Str) : Tnode :=
  match p with
  | .null => .node (charAt s) .null (if _ : charAt s ≠ 0 then insert .null s.tail else .null) .null
  | .node d lokid eqkid hikid =>
      if charAt s < d then .node d (insert lokid s) eqkid hikid
      else if d < charAt s then .node d lokid eqkid (insert hikid s)
      else .node d lokid (if _ : charAt s ≠ 0 then insert eqkid s.tail else eqkid) hikid
termination_by (s.length, sizeOf p)
decreasing_by
  · exact Prod.Lex.left _ _ (length_tail_lt ‹_›)
  · exact Prod.Lex.right _ (by rw [Tnode.node.sizeOf_spec]; omega)
  · exact Prod.Lex.right _ (by rw [Tnode.node.sizeOf_spec]; omega)
  · exact Prod.Lex.left _ _ (length_tail_lt ‹_›)

/-- The loop from the node `p` on. Source: `Ternary/main.c` `search`. -/
def searchLoop : Tnode → Str → ℕ
  | .null, _ => 0
  | .node d lokid eqkid hikid, s =>
      if charAt s < d then searchLoop lokid s
      else if d < charAt s then searchLoop hikid s
      else if charAt s = 0 then 1
      else searchLoop eqkid s.tail

/-- Whether `True` is printed, and the result; `none` if there is no root, as its `lokid` is read. Source:
`Ternary/main.c` `search`. -/
def search (t : Tnode) (s : Str) : Option (Bool × ℕ) :=
  match t with
  | .null => none
  | .node _ lokid _ _ => some (lokid = .null, searchLoop t s)

/-! ## One insertion -/

/-- A C string has no `0`. -/
abbrev Word := { s : Str // 0 ∉ s }

/-- A C string is empty or goes on behind its first character. -/
theorem word_cases {s : Str} (h : 0 ∉ s) :
    s = [] ∨ charAt s ≠ 0 ∧ 0 ∉ s.tail ∧ s = charAt s :: s.tail := by
  cases s with
  | nil => exact Or.inl rfl
  | cons c s =>
      obtain ⟨hc, hs⟩ := not_or.mp (mt List.mem_cons.mpr h)
      exact Or.inr ⟨Ne.symm hc, hs, rfl⟩

/-- Words are equal if they begin with the same character and go on alike. -/
theorem word_eq_iff {s w : Str} (hs : 0 ∉ s) (hw : 0 ∉ w) (h : charAt w = charAt s) :
    w = s ↔ charAt s = 0 ∨ w.tail = s.tail := by
  rcases word_cases hs with rfl | ⟨hs0, -, hcons⟩
  · rcases word_cases hw with rfl | ⟨hw0, -, -⟩
    · exact ⟨fun _ => Or.inl rfl, fun _ => rfl⟩
    · exact absurd h hw0
  · rcases word_cases hw with rfl | ⟨-, -, hcons'⟩
    · exact absurd h.symm hs0
    · rw [or_iff_right hs0]
      refine ⟨congrArg List.tail, fun htail => ?_⟩
      rw [hcons', hcons, h, htail]

/-- Words that go on below the middle of a node. -/
theorem searchLoop_middle (eqkid : Tnode) {d : Int8} {lokid eqkid' hikid : Tnode} {s w : Str} (hs : 0 ∉ s)
    (hw : 0 ∉ w) (hd : charAt s = d)
    (h : charAt s ≠ 0 → searchLoop eqkid' w.tail = if w.tail = s.tail then 1 else searchLoop eqkid w.tail) :
    searchLoop (.node d lokid eqkid' hikid) w =
      if w = s then 1 else searchLoop (.node d lokid eqkid hikid) w := by
  rw [searchLoop, searchLoop]
  by_cases hne : charAt w = charAt s
  · have hlt : ¬ charAt w < d := by rw [hne, hd]; exact Int8.lt_irrefl
    have hgt : ¬ d < charAt w := by rw [hne, hd]; exact Int8.lt_irrefl
    rw [if_neg hlt, if_neg hgt, if_neg hlt, if_neg hgt, hne]
    by_cases hzero : charAt s = 0
    · rw [if_pos hzero, if_pos hzero, ite_self]
    · rw [if_neg hzero, if_neg hzero, h hzero]
      simp only [word_eq_iff hs hw hne, or_iff_right hzero]
  · -- the word leaves the node to the other sides
    have hother : w ≠ s := fun heq => hne (congrArg charAt heq)
    rw [if_neg hother]
    by_cases hlt : charAt w < d
    · rw [if_pos hlt, if_pos hlt]
    · have hgt : d < charAt w := by
        refine Int8.lt_of_le_of_ne (Int8.not_lt.mp hlt) fun heq => hne ?_
        rw [hd, heq]
      rw [if_neg hlt, if_neg hlt, if_pos hgt, if_pos hgt]

/-- A node without words below it. -/
theorem searchLoop_leaf {d : Int8} {w : Str} (h : charAt w = d → d ≠ 0) :
    searchLoop (.node d .null .null .null) w = 0 := by
  unfold searchLoop
  split_ifs with hlt hgt hzero
  · rfl
  · rfl
  · have hd : charAt w = d := Int8.le_antisymm (Int8.not_lt.mp hgt) (Int8.not_lt.mp hlt)
    exact absurd (hd.symm.trans hzero) (h hd)
  · rfl

/-- **One insertion**: the word is found, and what is found besides is what was found before. -/
theorem searchLoop_insert (p : Tnode) {s w : Str} (hs : 0 ∉ s) (hw : 0 ∉ w) :
    searchLoop (insert p s) w = if w = s then 1 else searchLoop p w := by
  have htail : ∀ {v : Str}, 0 ∉ v → 0 ∉ v.tail := fun hv hmem => hv (List.mem_of_mem_tail hmem)
  -- words with another first character go another way
  have hother : ∀ {s w : Str}, charAt w ≠ charAt s → w ≠ s := fun hne heq => hne (congrArg charAt heq)
  fun_induction insert p s generalizing w with
  | case1 s ih =>
      rw [searchLoop_middle .null hs hw rfl fun hzero => by
        rw [dif_pos hzero, ih hzero (htail hs) (htail hw)]]
      by_cases hws : w = s
      · rw [if_pos hws, if_pos hws]
      · rw [if_neg hws, if_neg hws]
        exact searchLoop_leaf fun hc h0 => hws ((word_eq_iff hs hw hc).mpr (Or.inl h0))
  | case2 s d lokid eqkid hikid hlt ih =>
      rw [searchLoop, searchLoop, ih hs hw]
      by_cases hw' : charAt w < d
      · rw [if_pos hw', if_pos hw']
      · rw [if_neg hw', if_neg hw', if_neg (hother fun heq => hw' (heq.symm ▸ hlt))]
  | case3 s d lokid eqkid hikid hle hlt ih =>
      rw [searchLoop, searchLoop, ih hs hw]
      by_cases hw' : d < charAt w
      · rw [if_neg (Int8.lt_asymm hw'), if_neg (Int8.lt_asymm hw'), if_pos hw', if_pos hw']
      · rw [if_neg hw', if_neg hw', if_neg (hother fun heq => hw' (heq.symm ▸ hlt))]
  | case4 s d lokid eqkid hikid hle hge ih =>
      have hd : charAt s = d := Int8.le_antisymm (Int8.not_lt.mp hge) (Int8.not_lt.mp hle)
      refine searchLoop_middle eqkid hs hw hd fun hzero => ?_
      rw [dif_pos hzero, ih hzero (htail hs) (htail hw)]

/-! ## Any insertions -/

/-- `t = insert(t, w)` for one word after the other. -/
def build (ws : List Word) : Tnode := ws.foldl (fun t (w : Word) => insert t w) .null

/-- A tree with a word has a root. -/
theorem insert_ne_null (p : Tnode) (s : Str) : insert p s ≠ .null := by
  unfold insert
  split
  · nofun
  · split_ifs <;> nofun

/-- A root is kept. -/
theorem foldl_ne_null (ws : List Word) {t : Tnode} (ht : t ≠ .null) :
    ws.foldl (fun t (w : Word) => insert t w) t ≠ .null := by
  induction ws generalizing t with
  | nil => exact ht
  | cons w ws ih => exact ih (insert_ne_null t w)

/-- What is found after some more insertions. -/
theorem searchLoop_foldl (ws : List Word) (t : Tnode) (w : Word) :
    searchLoop (ws.foldl (fun t (w : Word) => insert t w) t) w = if w ∈ ws then 1 else searchLoop t w := by
  induction ws generalizing t with
  | nil => exact (if_neg List.not_mem_nil).symm
  | cons v ws ih =>
      rw [List.foldl_cons, ih, searchLoop_insert t v.2 w.2]
      simp only [List.mem_cons, Subtype.coe_inj]
      split_ifs <;> tauto

/-- **What is found after any insertions**: the words that were inserted, in whatever order. -/
theorem search_build (ws : List Word) (hws : ws ≠ []) (w : Word) :
    ∃ printed, search (build ws) w = some (printed, if w ∈ ws then 1 else 0) := by
  have hroot : build ws ≠ .null := by
    obtain ⟨v, vs, rfl⟩ := List.exists_cons_of_ne_nil hws
    exact foldl_ne_null vs (insert_ne_null _ v)
  have hfound := searchLoop_foldl ws .null w
  cases hbuild : build ws with
  | null => exact absurd hbuild hroot
  | node d lokid eqkid hikid =>
      refine ⟨decide (lokid = .null), congrArg some (Prod.ext rfl ?_)⟩
      rw [← hbuild]
      exact hfound

/-- The beginning of a word is not found until it is inserted. -/
theorem search_build_two :
    (∃ printed, search (build [⟨[97, 98], by decide⟩, ⟨[], by decide⟩]) [97] = some (printed, 0)) ∧
      ∃ printed, search (build [⟨[97, 98], by decide⟩, ⟨[], by decide⟩]) [] = some (printed, 1) :=
  ⟨search_build _ (List.cons_ne_nil _ _) ⟨[97], by decide⟩, search_build _ (List.cons_ne_nil _ _) ⟨[], by decide⟩⟩

end Asenal.Ternary
