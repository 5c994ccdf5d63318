import Asenal.Comlog.Category
import Asenal.Comlog.NameMg

/-!
# The tree of categories

A category is found by its name. One that is not there yet is created below the category of the name cut at
its last dot, which is found or created in the same way.

* `getFather_cases` — the name of the parent.
* `getInstance_spec` — one request: the names that are registered, and their parents.
* `getInstance_tree` — any requests: one object for each name, and the tree of the names.
  `getInstance_tree_two` — a child that is asked for before its ancestor.
-/

namespace Asenal.Comlog

open Asenal.Lib.Text

/-! ## Requests -/

/-- Source: `comlog.h` `COM_MAXCATEGORYNAMESIZE`. -/
def comMaxCategoryNameSize : ℕ := 64

/-- Source: `namemg.h` `type_category`. -/
def typeCategory : Int32 := 1

/-- A category and its parent, as the number of an object. Source: `category.h` `Category`. -/
structure CategoryObject where
  category : Category
  parent : Option ℕ

/-- The registry of names, and the categories in the order in which they were created. -/
structure Categories where
  mg : NameMg ℕ
  objects : List CategoryObject

/-- Source: `category.cpp` `Category::Category`. -/
def Categories.newObject (s : Categories) (parent : Option ℕ) : CategoryObject :=
  ⟨Category.new ((parent.bind fun p => s.objects[p]?).map (·.category)), parent⟩

/-- Source: `category.cpp` `getFather`, the loop. -/
def getFatherLoop : ℕ → ℕ → Bytes → ℕ
  | _, start, [] => start
  | i, start, c :: father => getFatherLoop (i + 1) (if c = 46 then i else start) father

/-- Source: `category.cpp` `getFather`. -/
def getFather (name : Bytes) (size : ℕ) : Option Bytes :=
  let father := name.take (size - 1)
  let start := getFatherLoop 0 0 father
  if 0 < start then some (father.take start) else none

/-- A new category, which is deleted if the name is taken; there is memory for it. Source: `category.cpp`
`Category::getInstance`, the end. -/
def Categories.register (s : Categories) (fuel : ℕ) (name : Bytes) (pnt : Option ℕ) :
    Option (Option ℕ × Categories) :=
  let ptr := s.objects.length
  match NameMg.set s.mg fuel true typeCategory name ptr with
  | none => none
  | some (ret, mg) =>
      if ret ≠ 0 then (NameMg.get mg fuel typeCategory name).map fun ptr => (ptr, { s with mg := mg })
      else some (some ptr, ⟨mg, s.objects ++ [s.newObject pnt]⟩)

/-- The object, or `none` for a null pointer. Source: `category.cpp` `Category::getInstance`. -/
def getInstance : ℕ → Categories → Bytes → Option (Option ℕ × Categories)
  | 0, _, _ => none
  | fuel + 1, s, name =>
      if name.head? = some 46 then some (none, s)
      else
        match NameMg.get s.mg fuel typeCategory name with
        | none => none
        | some (some ptr) => some (some ptr, s)
        | some none =>
            match getFather name comMaxCategoryNameSize with
            | none => s.register fuel name none
            | some fat =>
                match getInstance fuel s fat with
                | none => none
                | some (none, s) => some (none, s)
                | some (some pnt, s) => s.register fuel name (some pnt)

/-- Requests one after the other, with their answers. -/
def Categories.requests (fuel : ℕ) : Categories → List Bytes → Option (List (Option ℕ) × Categories)
  | s, [] => some ([], s)
  | s, name :: names =>
      (getInstance fuel s name).bind fun r => (r.2.requests fuel names).map fun t => (r.1 :: t.1, t.2)

/-! ## Names -/

variable {x y f n : Bytes}

/-- `f` is the name `x` cut at its last dot. -/
def CutAt (x f : Bytes) : Prop := ∃ label, x = f ++ 46 :: label ∧ 46 ∉ label

/-- `x` is the name `n`, or is ended before a dot of it. -/
def Above (x n : Bytes) : Prop := n = x ∨ ∃ rest, n = x ++ 46 :: rest

theorem CutAt.unique {f' : Bytes} (h : CutAt x f) (h' : CutAt x f') : f = f' := by
  obtain ⟨label, hx, hlabel⟩ := h
  obtain ⟨label', hx', hlabel'⟩ := h'
  have heq := congrArg List.reverse (hx.symm.trans hx')
  simp only [List.reverse_append, List.reverse_cons, List.append_assoc, List.singleton_append] at heq
  have hsplit := append_cons_inj (by simpa using hlabel) (by simpa using hlabel') heq
  exact List.reverse_injective hsplit.2

theorem CutAt.length_lt (h : CutAt x f) : f.length < x.length := by
  obtain ⟨label, rfl, -⟩ := h
  rw [List.length_append, List.length_cons]
  omega

/-- A name with a dot can be cut. -/
theorem exists_cutAt (h : 46 ∈ x) : ∃ f, CutAt x f := by
  obtain ⟨label, rest, hx, hlabel⟩ := List.eq_append_cons_of_mem (List.mem_reverse.mpr h)
  refine ⟨rest.reverse, label.reverse, ?_, by simpa using hlabel⟩
  have hrev := congrArg List.reverse hx
  simpa using hrev

theorem Above.cut (h : Above x n) (hcut : CutAt x f) : Above f n := by
  obtain ⟨label, rfl, -⟩ := hcut
  rcases h with rfl | ⟨rest, rfl⟩
  · exact Or.inr ⟨label, rfl⟩
  · exact Or.inr ⟨label ++ 46 :: rest, by simp⟩

/-- What is above a name is the name or above its parent. -/
theorem Above.cases_cut (h : Above x n) (hcut : CutAt n f) : x = n ∨ Above x f := by
  rcases h with heq | ⟨rest, hrest⟩
  · exact Or.inl heq.symm
  right
  by_cases hdot : 46 ∈ rest
  · -- the last dot is behind the one that ends `x`
    obtain ⟨g, label, rfl, hlabel⟩ := exists_cutAt hdot
    have hcut' : CutAt n (x ++ 46 :: g) := ⟨label, by simp [hrest], hlabel⟩
    exact Or.inr ⟨g, hcut.unique hcut'⟩
  · exact Or.inl (hcut.unique ⟨rest, hrest, hdot⟩)

theorem Above.length_le (h : Above x n) : x.length ≤ n.length := by
  rcases h with rfl | ⟨rest, rfl⟩
  · exact Nat.le_refl _
  · rw [List.length_append]
    omega

theorem Above.head_ne (h : Above x n) (hn : n.head? ≠ some 46) : x.head? ≠ some 46 := by
  intro hx
  apply hn
  rcases h with rfl | ⟨rest, rfl⟩
  · exact hx
  · rw [List.head?_append, hx]
    rfl

theorem getFatherLoop_of_not_mem (i start : ℕ) (h : 46 ∉ x) : getFatherLoop i start x = start := by
  induction x generalizing i with
  | nil => rfl
  | cons c x ih =>
      rw [List.mem_cons, not_or] at h
      rw [getFatherLoop, if_neg (Ne.symm h.1), ih (i + 1) h.2]

theorem getFatherLoop_cut (i start : ℕ) (f : Bytes) {label : Bytes} (h : 46 ∉ label) :
    getFatherLoop i start (f ++ 46 :: label) = i + f.length := by
  induction f generalizing i start with
  | nil =>
      rw [List.nil_append, getFatherLoop, if_pos rfl, getFatherLoop_of_not_mem _ _ h, List.length_nil,
        Nat.add_zero]
  | cons c f ih =>
      rw [List.cons_append, getFatherLoop, ih, List.length_cons]
      omega

/-- **The name of the parent**: the name cut at its last dot, if it has one. -/
theorem getFather_cases (hlen : x.length < comMaxCategoryNameSize) (hhead : x.head? ≠ some 46) :
    (46 ∉ x ∧ getFather x comMaxCategoryNameSize = none) ∨
      ∃ f, CutAt x f ∧ getFather x comMaxCategoryNameSize = some f := by
  have htake : x.take (comMaxCategoryNameSize - 1) = x := List.take_of_length_le (by omega)
  unfold getFather
  rw [htake]
  dsimp only
  by_cases hdot : 46 ∈ x
  · obtain ⟨f, hcut⟩ := exists_cutAt hdot
    refine Or.inr ⟨f, hcut, ?_⟩
    obtain ⟨label, rfl, hlabel⟩ := hcut
    have hpos : 0 < f.length := by
      refine List.length_pos_of_ne_nil fun hnil => hhead ?_
      rw [hnil]
      rfl
    rw [getFatherLoop_cut 0 0 f hlabel, Nat.zero_add, if_pos hpos, List.take_left]
  · rw [getFatherLoop_of_not_mem 0 0 hdot]
    exact Or.inl ⟨hdot, rfl⟩

/-! ## Trees -/

variable {U : Bytes → Prop} {s : Categories} {names reqs : List Bytes}

/-- Names that are kept apart by the registry, with all that are above them. -/
structure Family (U : Bytes → Prop) : Prop where
  length_lt : ∀ x, U x → x.length < comMaxCategoryNameSize
  head_ne : ∀ x, U x → x.head? ≠ some 46
  closed : ∀ x f, U x → CutAt x f → U f
  key_inj : ∀ x y, U x → U y → getKey typeCategory x = getKey typeCategory y → x = y

/-- The parent of a name, among the names that have objects. -/
def ParentOf (names : List Bytes) (x : Bytes) (parent : Option ℕ) : Prop :=
  (46 ∉ x ∧ parent = none) ∨ ∃ f, CutAt x f ∧ f ∈ names ∧ parent = some (names.idxOf f)

/-- The names that have objects, in the order in which these were created; of the family `U` no others are
in the registry. -/
structure Categories.Tree (U : Bytes → Prop) (s : Categories) (names : List Bytes) : Prop where
  nodup : names.Nodup
  length_eq : s.objects.length = names.length
  holds : ∃ m, Holds s.mg m ∧ ∀ x, U x → m.lookup (getKey typeCategory x) =
    if x ∈ names then some ⟨typeCategory, names.idxOf x⟩ else none
  parent : ∀ x ∈ names, ∃ object, s.objects[names.idxOf x]? = some object ∧
    ParentOf names x object.parent

/-- More names do not change the parent. -/
theorem ParentOf.append {parent : Option ℕ} (h : ParentOf names x parent) (more : List Bytes) :
    ParentOf (names ++ more) x parent := by
  rcases h with hnone | ⟨f, hcut, hf, hparent⟩
  · exact Or.inl hnone
  · refine Or.inr ⟨f, hcut, List.mem_append_left _ hf, ?_⟩
    rw [hparent, List.idxOf_append_of_mem hf]

/-- What is found for a name of the family. -/
theorem Categories.Tree.get (h : s.Tree U names) (hx : U x) : ∃ bound, ∀ fuel, bound ≤ fuel →
    NameMg.get s.mg fuel typeCategory x = some (if x ∈ names then some (names.idxOf x) else none) := by
  obtain ⟨m, hholds, hlookup⟩ := h.holds
  obtain ⟨bound, hget⟩ := get_nameMg hholds typeCategory x
  refine ⟨bound, fun fuel hfuel => ?_⟩
  rw [hget fuel hfuel, hlookup x hx]
  split_ifs <;> rfl

/-- **A new name** gets the next object. -/
theorem Categories.Tree.register (h : s.Tree U names) (hU : Family U) (hx : U x) (hnew : x ∉ names)
    {pnt : Option ℕ} (hpnt : ParentOf names x pnt) :
    ∃ s' : Categories, s'.Tree U (names ++ [x]) ∧ ∃ bound, ∀ fuel, bound ≤ fuel →
      s.register fuel x pnt = some (some names.length, s') := by
  obtain ⟨m, hholds, hlookup⟩ := h.holds
  have hfree : m.lookup (getKey typeCategory x) = none := by
    rw [hlookup x hx, if_neg hnew]
  obtain ⟨mg, hholds', bound, hset⟩ :=
    set_spec hholds (getKey typeCategory x) ⟨typeCategory, s.objects.length⟩ 0
  have hidx : (names ++ [x]).idxOf x = names.length := by
    rw [List.idxOf_append_of_notMem hnew, List.idxOf_cons_self, Nat.add_zero]
  refine ⟨⟨mg, s.objects ++ [s.newObject pnt]⟩, ⟨?_, ?_, ⟨_, hholds', fun y hy => ?_⟩, fun y hy => ?_⟩,
    bound, fun fuel hfuel => ?_⟩
  · exact List.nodup_append_comm.mpr (List.nodup_cons.mpr ⟨hnew, h.nodup⟩)
  · rw [List.length_append, List.length_append, h.length_eq]
    rfl
  · rw [lookup_mapSet_zero, hlookup y hy]
    by_cases hyx : y = x
    · rw [hyx, if_neg hnew, if_pos rfl, if_pos (List.mem_append_right _ List.mem_cons_self), hidx, h.length_eq]
      rfl
    · have hkey : getKey typeCategory x ≠ getKey typeCategory y :=
        fun heq => hyx (hU.key_inj y x hy hx heq.symm)
      rw [if_neg hkey, Option.or_none]
      by_cases hmem : y ∈ names
      · rw [if_pos hmem, if_pos (List.mem_append_left _ hmem), List.idxOf_append_of_mem hmem]
      · rw [if_neg hmem, if_neg (by simp [hmem, hyx])]
  · rcases List.mem_append.mp hy with hmem | hlast
    · obtain ⟨object, hobject, hparent⟩ := h.parent y hmem
      refine ⟨object, ?_, hparent.append [x]⟩
      rw [List.idxOf_append_of_mem hmem]
      exact List.getElem?_append_left (List.getElem?_eq_some_iff.mp hobject).1 ▸ hobject
    · obtain rfl := List.mem_singleton.mp hlast
      refine ⟨s.newObject pnt, ?_, hpnt.append [y]⟩
      rw [hidx, ← h.length_eq]
      exact List.getElem?_concat_length
  · unfold Categories.register NameMg.set
    dsimp only
    rw [hset fuel hfuel, mapSet, hfree, h.length_eq]
    rfl

/-- **One request**: the name has an object, as have those above it, and others keep theirs. -/
theorem getInstance_spec {x : Bytes} (hU : Family U) (h : s.Tree U names) (hx : U x) :
    ∃ (s' : Categories) (more : List Bytes), s'.Tree U (names ++ more) ∧ x ∈ names ++ more ∧
      (∀ y ∈ more, y.length ≤ x.length) ∧ ∃ bound, ∀ fuel, bound ≤ fuel →
        getInstance fuel s x = some (some ((names ++ more).idxOf x), s') := by
  obtain ⟨boundGet, hget⟩ := h.get hx
  have hhead := hU.head_ne x hx
  by_cases hmem : x ∈ names
  · refine ⟨s, [], ?_, ?_, nofun, boundGet + 1, fun fuel hfuel => ?_⟩
    · rwa [List.append_nil]
    · rwa [List.append_nil]
    · obtain ⟨fuel, rfl⟩ := Nat.exists_eq_succ_of_ne_zero (show fuel ≠ 0 by omega)
      rw [getInstance, if_neg hhead, hget fuel (by omega), if_pos hmem, List.append_nil]
  rw [if_neg hmem] at hget
  rcases getFather_cases (hU.length_lt x hx) hhead with ⟨hdot, hfather⟩ | ⟨f, hcut, hfather⟩
  · -- no parent
    obtain ⟨s', htree, bound, hregister⟩ := h.register hU hx hmem (Or.inl ⟨hdot, rfl⟩)
    refine ⟨s', [x], htree, List.mem_append_right _ List.mem_cons_self, ?_, max boundGet bound + 1,
      fun fuel hfuel => ?_⟩
    · exact fun y hy => Nat.le_of_eq (congrArg List.length (List.mem_singleton.mp hy))
    · obtain ⟨fuel, rfl⟩ := Nat.exists_eq_succ_of_ne_zero (show fuel ≠ 0 by omega)
      rw [getInstance, if_neg hhead, hget fuel (by omega)]
      dsimp only
      rw [hfather]
      dsimp only
      rw [hregister fuel (by omega), List.idxOf_append_of_notMem hmem, List.idxOf_cons_self, Nat.add_zero]
  · -- the parent first
    have hlt := hcut.length_lt
    obtain ⟨s₁, more, htree₁, hf, hshort, bound₁, hinstance⟩ :=
      getInstance_spec hU h (hU.closed x f hx hcut)
    have hmem₁ : x ∉ names ++ more := by
      rw [List.mem_append, not_or]
      refine ⟨hmem, fun hin => ?_⟩
      have := hshort x hin
      omega
    obtain ⟨s', htree, bound, hregister⟩ := htree₁.register hU hx hmem₁ (Or.inr ⟨f, hcut, hf, rfl⟩)
    refine ⟨s', more ++ [x], ?_, ?_, ?_, max boundGet (max bound₁ bound) + 1, fun fuel hfuel => ?_⟩
    · rwa [← List.append_assoc]
    · exact List.mem_append_right _ (List.mem_append_right _ List.mem_cons_self)
    · intro y hy
      rcases List.mem_append.mp hy with hin | hlast
      · have := hshort y hin
        omega
      · exact Nat.le_of_eq (congrArg List.length (List.mem_singleton.mp hlast))
    · obtain ⟨fuel, rfl⟩ := Nat.exists_eq_succ_of_ne_zero (show fuel ≠ 0 by omega)
      rw [getInstance, if_neg hhead, hget fuel (by omega)]
      dsimp only
      rw [hfather]
      dsimp only
      rw [hinstance fuel (by omega)]
      dsimp only
      rw [hregister fuel (by omega), ← List.append_assoc, List.idxOf_append_of_notMem hmem₁,
        List.idxOf_cons_self, Nat.add_zero]
termination_by x.length

/-! ## Runs -/

/-- **Any requests**: behind each of them, the names that were asked for have the objects that were
returned. -/
theorem requests_spec (hU : Family U) (h : s.Tree U names) (hreqs : ∀ n ∈ reqs, U n) :
    ∃ all, names <+: all ∧ all.Nodup ∧ ∀ pre, pre <+: reqs → ∃ (s' : Categories) (names' : List Bytes),
      names <+: names' ∧ names' <+: all ∧ s'.Tree U names' ∧ (∀ n ∈ pre, n ∈ names') ∧
        ∃ bound, ∀ fuel, bound ≤ fuel →
          s.requests fuel pre = some (pre.map fun n => some (all.idxOf n), s') := by
  induction reqs generalizing s names with
  | nil =>
      refine ⟨names, List.prefix_refl _, h.nodup, fun pre hpre => ?_⟩
      rw [List.prefix_nil.mp hpre]
      exact ⟨s, names, List.prefix_refl _, List.prefix_refl _, h, nofun, 0, fun _ _ => rfl⟩
  | cons n reqs ih =>
      rw [List.forall_mem_cons] at hreqs
      obtain ⟨s₁, more, htree₁, hn, -, bound₁, hinstance⟩ := getInstance_spec hU h hreqs.1
      obtain ⟨all, hall, hnodup, hruns⟩ := ih htree₁ hreqs.2
      have hnames : names <+: all := (List.prefix_append names more).trans hall
      refine ⟨all, hnames, hnodup, fun pre hpre => ?_⟩
      rcases List.prefix_cons_iff.mp hpre with rfl | ⟨pre', rfl, hpre'⟩
      · exact ⟨s, names, List.prefix_refl _, hnames, h, nofun, 0, fun _ _ => rfl⟩
      · obtain ⟨s', names', hfront, hall', htree', hmem, bound, hrun⟩ := hruns pre' hpre'
        refine ⟨s', names', (List.prefix_append names more).trans hfront, hall', htree',
          List.forall_mem_cons.mpr ⟨hfront.subset hn, hmem⟩, max bound₁ bound, fun fuel hfuel => ?_⟩
        obtain ⟨rest, rfl⟩ := hall
        rw [Categories.requests, hinstance fuel (by omega), Option.bind_some, hrun fuel (by omega),
          Option.map_some, List.map_cons, List.idxOf_append_of_mem hn]

/-- All that is above a name that has an object has one. -/
theorem Categories.Tree.above {n : Bytes} (h : s.Tree U names) (hn : n ∈ names) (hx : Above x n) :
    x ∈ names := by
  obtain ⟨object, -, hparent⟩ := h.parent n hn
  rcases hparent with ⟨hdot, -⟩ | ⟨f, hcut, hf, -⟩
  · rcases hx with rfl | ⟨rest, rfl⟩
    · exact hn
    · exact absurd (List.mem_append_right x List.mem_cons_self) hdot
  · rcases hx.cases_cut hcut with rfl | habove
    · exact hn
    · have := hcut.length_lt
      exact h.above hf habove
termination_by n.length

/-- The names that are asked for, and all that are above them. -/
def Concerned (reqs : List Bytes) (x : Bytes) : Prop := ∃ n ∈ reqs, Above x n

/-- The name is registered as its object, whose parent is the object of the name cut at its last dot. -/
structure Categories.Placed (s : Categories) (obj : Bytes → ℕ) (x : Bytes) : Prop where
  found : ∃ bound, ∀ fuel, bound ≤ fuel → NameMg.get s.mg fuel typeCategory x = some (some (obj x))
  parent : ∃ object, s.objects[obj x]? = some object ∧ (∀ f, CutAt x f → object.parent = some (obj f)) ∧
    (46 ∉ x → object.parent = none)

/-- The names of some requests are a family. -/
theorem concerned_family (hvalid : ∀ n ∈ reqs, n.length < comMaxCategoryNameSize ∧ n.head? ≠ some 46)
    (hapart : ∀ x y, Concerned reqs x → Concerned reqs y →
      getKey typeCategory x = getKey typeCategory y → x = y) : Family (Concerned reqs) where
  length_lt := by
    rintro x ⟨n, hn, habove⟩
    exact Nat.lt_of_le_of_lt habove.length_le (hvalid n hn).1
  head_ne := by
    rintro x ⟨n, hn, habove⟩
    exact habove.head_ne (hvalid n hn).2
  closed := by
    rintro x f ⟨n, hn, habove⟩ hcut
    exact ⟨n, hn, habove.cut hcut⟩
  key_inj := hapart

/-- **The tree of categories**: any requests are answered with one object for each name, and behind each of
them all names that were asked for, and all that are above them, are registered in their places. -/
theorem getInstance_tree {t : NameMg ℕ} {m : Finmap fun _ : UInt32 × UInt32 => NameNode ℕ}
    (hholds : Holds t m) (reqs : List Bytes)
    (hvalid : ∀ n ∈ reqs, n.length < comMaxCategoryNameSize ∧ n.head? ≠ some 46)
    (hapart : ∀ x y, Concerned reqs x → Concerned reqs y →
      getKey typeCategory x = getKey typeCategory y → x = y)
    (hnew : ∀ x, Concerned reqs x → m.lookup (getKey typeCategory x) = none) :
    ∃ obj : Bytes → ℕ,
      (∀ x y, Concerned reqs x → Concerned reqs y → obj x = obj y → x = y) ∧
      ∀ pre, pre <+: reqs → ∃ s : Categories,
        (∃ bound, ∀ fuel, bound ≤ fuel →
          Categories.requests fuel ⟨t, []⟩ pre = some (pre.map fun n => some (obj n), s)) ∧
        ∀ x, Concerned pre x → s.Placed obj x := by
  have hU := concerned_family hvalid hapart
  have hstart : Categories.Tree (Concerned reqs) ⟨t, []⟩ [] := by
    refine ⟨List.nodup_nil, rfl, ⟨m, hholds, fun x hx => ?_⟩, nofun⟩
    rw [hnew x hx, if_neg List.not_mem_nil]
  have hself : ∀ n ∈ reqs, Concerned reqs n := fun n hn => ⟨n, hn, Or.inl rfl⟩
  obtain ⟨all, -, hnodup, hruns⟩ := requests_spec hU hstart hself
  refine ⟨all.idxOf, fun x y hx hy heq => ?_, fun pre hpre => ?_⟩
  · obtain ⟨s, names, -, hall, htree, hmem, -⟩ := hruns reqs (List.prefix_refl _)
    obtain ⟨n, hn, habove⟩ := hx
    exact (List.idxOf_inj (hall.subset (htree.above (hmem n hn) habove))).mp heq
  · obtain ⟨s, names, -, ⟨rest, rfl⟩, htree, hmem, bound, hrun⟩ := hruns pre hpre
    refine ⟨s, ⟨bound, hrun⟩, ?_⟩
    rintro x ⟨n, hn, habove⟩
    have hx := htree.above (hmem n hn) habove
    have hobj : ∀ y ∈ names, (names ++ rest).idxOf y = names.idxOf y :=
      fun y hy => List.idxOf_append_of_mem hy
    obtain ⟨boundGet, hget⟩ := htree.get ⟨n, hpre.subset hn, habove⟩
    obtain ⟨object, hobject, hparent⟩ := htree.parent x hx
    rw [if_pos hx] at hget
    refine ⟨⟨boundGet, ?_⟩, object, ?_, ?_, ?_⟩
    · rwa [hobj x hx]
    · rwa [hobj x hx]
    · intro f hcut
      rcases hparent with ⟨hdot, -⟩ | ⟨g, hcut', hg, hpar⟩
      · obtain ⟨label, rfl, -⟩ := hcut
        exact absurd (List.mem_append_right f List.mem_cons_self) hdot
      · rw [hcut.unique hcut', hpar, hobj g hg]
    · intro hdot
      rcases hparent with ⟨-, hnone⟩ | ⟨g, ⟨label, rfl, -⟩, -⟩
      · exact hnone
      · exact absurd (List.mem_append_right g List.mem_cons_self) hdot

/-- A name with an empty label, before the name at its root. -/
theorem getInstance_tree_two : ∃ t : NameMg ℕ,
    NameMg.create true (fun _ => ⟨(0, 0), ⟨0, 0⟩, none⟩) (fun _ => none) = some t ∧
    ∃ (obj : Bytes → ℕ) (s : Categories),
      (∃ bound, ∀ fuel, bound ≤ fuel → Categories.requests fuel ⟨t, []⟩ [ascii "a..b", ascii "a"] =
        some ([some (obj (ascii "a..b")), some (obj (ascii "a"))], s)) ∧
      s.Placed obj (ascii "a..b") ∧ s.Placed obj (ascii "a.") ∧ s.Placed obj (ascii "a") := by
  obtain ⟨t, hcreate, hholds⟩ := create_spec (V := NameNode ℕ) true (fun _ => ⟨(0, 0), ⟨0, 0⟩, none⟩)
    (fun _ => none) (show (0 : Int32) < 10241 by decide) nkeyhash
  have hshort : ∀ x, Concerned [ascii "a..b", ascii "a"] x → x.length ≤ 4 ∧ 0 ∉ x := by
    rintro x ⟨n, hn, habove⟩
    have hn' : n.length ≤ 4 ∧ 0 ∉ n := by
      have hall : ∀ n ∈ [ascii "a..b", ascii "a"], n.length ≤ 4 ∧ 0 ∉ n := by decide
      exact hall n hn
    refine ⟨habove.length_le.trans hn'.1, fun hzero => hn'.2 ?_⟩
    rcases habove with rfl | ⟨rest, rfl⟩
    · exact hzero
    · exact List.mem_append_left _ hzero
  have hkey : ∀ x : Bytes, x.length ≤ 4 → (keyText typeCategory x).length ≤ 8 := by
    intro x hx
    have hlen : (keyText typeCategory x).length = 1 + (x.length + 1) := by
      unfold keyText
      rw [List.length_append, List.length_cons]
      rfl
    omega
  obtain ⟨obj, -, hruns⟩ := getInstance_tree hholds [ascii "a..b", ascii "a"] (by decide)
    (fun x y hx hy heq => (getKey_inj (hshort x hx).2 (hshort y hy).2 (hkey x (hshort x hx).1)
      (hkey y (hshort y hy).1) heq).2)
    fun x _ => Finmap.lookup_empty _
  obtain ⟨s, hrun, hplaced⟩ := hruns [ascii "a..b", ascii "a"] (List.prefix_refl _)
  refine ⟨t, hcreate, obj, s, hrun, hplaced _ ?_, hplaced _ ?_, hplaced _ ?_⟩
  · exact ⟨_, List.mem_cons_self, Or.inl rfl⟩
  · exact ⟨_, List.mem_cons_self, Or.inr ⟨ascii "b", by decide⟩⟩
  · exact ⟨_, List.mem_cons_self, Or.inr ⟨ascii ".b", by decide⟩⟩

end Asenal.Comlog
