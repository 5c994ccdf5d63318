import Asenal.Comlog.PoolSizes
import Asenal.Lib.Machine

/-!
# Walking a list of blocks

Blocks are inserted at the head of a list and erased wherever they are. The walk is meant to apply a
function to every node; it reads the successor of the current node before the function is called, which may
free the node, but the node it passes is the first one each time.

* `ListState.Inv.step` — the list is linked, and its nodes are in blocks.
* `Dlist.walk_spec` — what the walk does to a list.
* `Dlist.visits_iff` — when it visits every node once.
-/

namespace Asenal.Comlog

open Asenal.Lib.Text Asenal.Lib.Memory Asenal.Lib.Owned Asenal.Lib.Machine

/-! ## The list -/

/-- Source: `dlist.cpp` `dlist_insert`. -/
def Dlist.insert (m : Mem UInt8) (root node : ℕ) : Mem UInt8 × ℕ := (store m node 8 root, node)

/-- The nodes that are passed to the function, and the heap behind it. Source: `dlist.cpp` `dlist_walk`,
the loop. -/
def Dlist.walkLoop (fn : ℕ → Heap → Heap) (node : ℕ) : ℕ → Heap → ℕ → Option (List ℕ × Heap)
  | 0, _, _ => none
  | fuel + 1, h, root =>
      if root = 0 then some ([], h)
      else
        let root := load h.cells root 8
        -- `node` is not moved
        (Dlist.walkLoop fn node fuel (fn node h) root).map fun r => (node :: r.1, r.2)

/-- Source: `dlist.cpp` `dlist_walk`. -/
def Dlist.walk (fn : ℕ → Heap → Heap) (fuel : ℕ) (h : Heap) (root : ℕ) : Option (List ℕ × Heap) :=
  Dlist.walkLoop fn root fuel h root

/-! ## Walks -/

variable {fn : ℕ → Heap → Heap} {h : Heap} {nodes rest : List ℕ} {fuel node root : ℕ}

/-- The function leaves alone the links of the nodes that it is not applied to. -/
def Spares (nodes : List ℕ) (fn : ℕ → Heap → Heap) : Prop :=
  ∀ h, ∀ x ∈ nodes, ∀ y ∈ nodes, y ≠ x → load (fn x h).cells y 8 = load h.cells y 8

/-- What frees a node spares the others. -/
theorem spares_free (nodes : List ℕ) : Spares nodes fun x h => h.free x := fun _ _ _ _ _ _ => rfl

/-- The walk applies the function to every node once, in the order of the list. -/
def Visits (fn : ℕ → Heap → Heap) (h : Heap) (root : ℕ) (nodes : List ℕ) : Prop :=
  ∃ bound, ∀ fuel, bound ≤ fuel → ∃ h', Dlist.walk fn fuel h root = some (nodes, h')

/-- The part of the list that does not have the node which is passed. -/
theorem Dlist.walkLoop_spec (hfn : Spares nodes fn) (hnode : node ∈ nodes)
    (hrest : ∀ y ∈ rest, y ∈ nodes ∧ y ≠ node) (hlinked : Linked h.cells rest root)
    (hfuel : rest.length < fuel) :
    Dlist.walkLoop fn node fuel h root =
      some (List.replicate rest.length node, (fn node)^[rest.length] h) := by
  induction rest generalizing h root fuel with
  | nil =>
      obtain ⟨fuel, rfl⟩ := Nat.exists_eq_succ_of_ne_zero (show fuel ≠ 0 by omega)
      exact if_pos hlinked
  | cons y ys ih =>
      rw [List.length_cons] at hfuel
      obtain ⟨fuel, rfl⟩ := Nat.exists_eq_succ_of_ne_zero (show fuel ≠ 0 by omega)
      rw [List.forall_mem_cons] at hrest
      obtain ⟨rfl, hroot, hnext⟩ := hlinked
      have hkept : Linked (fn node h).cells ys (load h.cells root 8) :=
        hnext.congr fun z hz => hfn h node hnode z (hrest.2 z hz).1 (hrest.2 z hz).2
      rw [Dlist.walkLoop, if_neg hroot]
      dsimp only
      rw [ih hrest.2 hkept (by omega), Option.map_some, List.length_cons, List.replicate_succ,
        Function.iterate_succ_apply]

/-- **The walk** applies the function to the first node, as often as there are nodes. -/
theorem Dlist.walk_spec (hfn : Spares nodes fn) (hnodup : nodes.Nodup) (hlinked : Linked h.cells nodes root)
    (hfuel : nodes.length < fuel) :
    Dlist.walk fn fuel h root = some (List.replicate nodes.length root, (fn root)^[nodes.length] h) := by
  obtain ⟨fuel, rfl⟩ := Nat.exists_eq_succ_of_ne_zero (show fuel ≠ 0 by omega)
  cases nodes with
  | nil => exact if_pos hlinked
  | cons x xs =>
      obtain ⟨rfl, hroot, hnext⟩ := hlinked
      obtain ⟨hnot, -⟩ := List.nodup_cons.mp hnodup
      have hrest : ∀ y ∈ xs, y ∈ root :: xs ∧ y ≠ root := fun y hy =>
        ⟨List.mem_cons_of_mem _ hy, fun heq => hnot (heq ▸ hy)⟩
      -- the link is read before the function is called
      have hkept : Linked (fn root h).cells xs (load h.cells root 8) :=
        hnext.congr fun z hz => hfn h root List.mem_cons_self z (hrest z hz).1 (hrest z hz).2
      rw [List.length_cons] at hfuel
      rw [Dlist.walk, Dlist.walkLoop, if_neg hroot]
      dsimp only
      rw [Dlist.walkLoop_spec hfn List.mem_cons_self hrest hkept (by omega), Option.map_some,
        List.length_cons, List.replicate_succ, Function.iterate_succ_apply]

/-- **When every node is visited once**: where there is one at most. -/
theorem Dlist.visits_iff (hfn : Spares nodes fn) (hnodup : nodes.Nodup)
    (hlinked : Linked h.cells nodes root) : Visits fn h root nodes ↔ nodes.length ≤ 1 := by
  constructor
  · rintro ⟨bound, hwalk⟩
    obtain ⟨h', hvisit⟩ := hwalk (max bound (nodes.length + 1)) (Nat.le_max_left _ _)
    rw [Dlist.walk_spec hfn hnodup hlinked (Nat.le_max_right _ _)] at hvisit
    obtain ⟨hnodes, -⟩ := Prod.mk.inj (Option.some.inj hvisit)
    rw [← hnodes, List.nodup_replicate] at hnodup
    exact hnodup
  · intro hle
    have hnodes : List.replicate nodes.length root = nodes :=
      match nodes, hlinked, hle with
      | [], _, _ => rfl
      | [_], hlinked, _ => congrArg (fun y => [y]) hlinked.1
    refine ⟨nodes.length + 1, fun fuel hfuel => ⟨(fn root)^[nodes.length] h, ?_⟩⟩
    rw [Dlist.walk_spec hfn hnodup hlinked hfuel, hnodes]

/-! ## Programs -/

/-- A heap and the list in it: its root, and the nodes that are listed, the newest one first. -/
structure ListState where
  heap : Heap
  root : ℕ
  nodes : List ℕ

/-- What a program does with blocks and the list. -/
inductive ListOp
  | malloc (n a : ℕ)
  | free (a : ℕ)
  | write (a off : ℕ) (bs : Bytes)
  | insert (node : ℕ)
  | erase (node : ℕ)

/-- One operation. Listed blocks are not freed, and their links are not written to; what is inserted has
room for a link and is not listed; what is erased is listed. -/
def ListState.step (s : ListState) : ListOp → Option ListState
  | .malloc n a => (s.heap.malloc n a).map fun h => { s with heap := h }
  | .free a =>
      if (∃ b ∈ s.heap.blocks, b.1 = a) ∧ a ∉ s.nodes then some { s with heap := s.heap.free a } else none
  | .write a off bs =>
      if (∃ b ∈ s.heap.blocks, b.1 = a ∧ off + bs.length ≤ b.2) ∧ (a ∈ s.nodes → 8 ≤ off) then
        some { s with heap := { s.heap with cells := poke s.heap.cells (a + off) bs } }
      else none
  | .insert node =>
      if (∃ b ∈ s.heap.blocks, b.1 = node ∧ 8 ≤ b.2) ∧ node ∉ s.nodes then
        let r := Dlist.insert s.heap.cells s.root node
        some ⟨{ s.heap with cells := r.1 }, r.2, node :: s.nodes⟩
      else none
  | .erase node =>
      if node ∈ s.nodes then
        (dlistErase s.nodes.length s.heap.cells s.root node).map fun r =>
          ⟨{ s.heap with cells := r.1 }, r.2, s.nodes.erase node⟩
      else none

/-- Nothing is handed out, and the list is empty. -/
def ListState.Start (s : ListState) : Prop := s.heap.blocks = [] ∧ s.root = 0 ∧ s.nodes = []

/-- The states that programs reach. -/
def ListState.Built : ListState → Prop := Reached ListState.Start ListState.step fun _ _ => True

/-- The nodes are linked, and are in blocks that do not overlap. -/
structure ListState.Inv (s : ListState) : Prop where
  linked : Linked s.heap.cells s.nodes s.root
  nodup : s.nodes.Nodup
  apart : s.heap.blocks.Pairwise Apart
  block : ∀ b ∈ s.heap.blocks, 0 < b.1 ∧ b.1 + b.2 ≤ 2 ^ 64
  node : ∀ x ∈ s.nodes, ∃ n, 8 ≤ n ∧ (x, n) ∈ s.heap.blocks

variable {s s' : ListState} {x y a n : ℕ}

/-- The link of a node is outside the other blocks. -/
theorem ListState.Inv.disjoint (hinv : s.Inv) (hx : x ∈ s.nodes) (hblock : (a, n) ∈ s.heap.blocks)
    (hne : a ≠ x) : a + n ≤ x ∨ x + 8 ≤ a := by
  obtain ⟨k, hk, hmem⟩ := hinv.node x hx
  have hapart : a + n ≤ x ∨ x + k ≤ a :=
    hinv.apart.forall hblock hmem fun heq => hne (Prod.mk.inj heq).1
  omega

/-- The links of different nodes do not overlap. -/
theorem ListState.Inv.links_disjoint (hinv : s.Inv) (hx : x ∈ s.nodes) (hy : y ∈ s.nodes) (hne : y ≠ x) :
    y + 8 ≤ x ∨ x + 8 ≤ y := by
  obtain ⟨n, hn, hmem⟩ := hinv.node y hy
  have := hinv.disjoint hx hmem hne
  omega

/-- Who has the links of some nodes. -/
def linkOwner (nodes : List ℕ) (i : ℕ) : Option Owner :=
  (nodes.find? fun x => x ≤ i ∧ i < x + 8).map .link

/-- Every node has its link. -/
theorem ListState.Inv.owns (hinv : s.Inv) (hx : x ∈ s.nodes) : Owns (linkOwner s.nodes) (.link x) x 8 := by
  intro i hle hlt
  unfold linkOwner
  cases hfind : s.nodes.find? (fun x => x ≤ i ∧ i < x + 8) with
  | none => exact absurd (decide_eq_true ⟨hle, hlt⟩) (List.find?_eq_none.mp hfind x hx)
  | some y =>
      have hy := List.mem_of_find?_eq_some hfind
      have hfound := List.find?_some hfind
      obtain ⟨hle', hlt'⟩ := of_decide_eq_true hfound
      have hyx : y = x := by
        by_contra hne
        have := hinv.links_disjoint hx hy hne
        omega
      rw [hyx]
      rfl

/-- The nodes are addresses. -/
theorem ListState.Inv.root_lt (hinv : s.Inv) : s.root < 256 ^ 8 := by
  refine hinv.linked.lt (by decide) fun x hx => ?_
  obtain ⟨n, hn, hmem⟩ := hinv.node x hx
  have := (hinv.block _ hmem).2
  omega

/-- Changes of the cells that leave the links. -/
theorem ListState.Inv.cells (hinv : s.Inv) {cells : Mem UInt8}
    (hload : ∀ x ∈ s.nodes, load cells x 8 = load s.heap.cells x 8) :
    ListState.Inv { s with heap := { s.heap with cells := cells } } :=
  ⟨hinv.linked.congr hload, hinv.nodup, hinv.apart, hinv.block, hinv.node⟩

/-- A node that is inserted. -/
theorem ListState.Inv.insert (hinv : s.Inv) (hblock : (node, n) ∈ s.heap.blocks) (hn : 8 ≤ n)
    (hnew : node ∉ s.nodes) :
    ListState.Inv ⟨{ s.heap with cells := store s.heap.cells node 8 s.root }, node, node :: s.nodes⟩ where
  linked := by
    refine ⟨rfl, Nat.ne_of_gt (hinv.block _ hblock).1, ?_⟩
    dsimp only
    rw [load_store_self _ _ hinv.root_lt]
    refine hinv.linked.congr fun x hx => load_store_of_disjoint _ ?_
    have := hinv.disjoint hx hblock fun heq => hnew (heq ▸ hx)
    omega
  nodup := List.nodup_cons.mpr ⟨hnew, hinv.nodup⟩
  apart := hinv.apart
  block := hinv.block
  node := List.forall_mem_cons.mpr ⟨⟨n, hn, hblock⟩, hinv.node⟩

/-- A node that is erased, wherever it is. -/
theorem ListState.Inv.erase (hinv : s.Inv) (hmem : node ∈ s.nodes) {m : Mem UInt8}
    (herase : dlistErase fuel s.heap.cells s.root node = some (m, root)) :
    ListState.Inv ⟨{ s.heap with cells := m }, root, s.nodes.erase node⟩ := by
  obtain ⟨m', root', hlinked, -, huniq, -⟩ :=
    dlistErase_spec hinv.nodup (fun y hy => hinv.owns hy) hinv.linked hmem
  obtain ⟨rfl, rfl⟩ := Prod.mk.inj (huniq fuel _ herase)
  exact ⟨hlinked, hinv.nodup.erase node, hinv.apart, hinv.block,
    fun x hx => hinv.node x (List.mem_of_mem_erase hx)⟩

/-- **One operation** keeps the invariant. -/
theorem ListState.Inv.step (hinv : s.Inv) {op : ListOp} (hstep : s.step op = some s') : s'.Inv := by
  cases op with
  | malloc n a =>
      obtain ⟨h, hmalloc, rfl⟩ := Option.map_eq_some_iff.mp hstep
      obtain ⟨⟨hpos, hend, hfresh⟩, rfl⟩ := malloc_eq_some hmalloc
      refine ⟨hinv.linked, hinv.nodup, List.pairwise_cons.mpr ⟨hfresh, hinv.apart⟩,
        List.forall_mem_cons.mpr ⟨⟨hpos, hend⟩, hinv.block⟩, fun x hx => ?_⟩
      obtain ⟨k, hk, hmem⟩ := hinv.node x hx
      exact ⟨k, hk, List.mem_cons_of_mem _ hmem⟩
  | free a =>
      rw [ListState.step] at hstep
      split_ifs at hstep with hfree
      obtain rfl := Option.some.inj hstep
      refine ⟨hinv.linked, hinv.nodup, hinv.apart.filter _,
        fun b hb => hinv.block b (List.mem_filter.mp hb).1, fun x hx => ?_⟩
      obtain ⟨k, hk, hmem⟩ := hinv.node x hx
      exact ⟨k, hk, List.mem_filter.mpr ⟨hmem, decide_eq_true fun heq => hfree.2 (heq ▸ hx)⟩⟩
  | write a off bs =>
      rw [ListState.step] at hstep
      split_ifs at hstep with hwrite
      obtain ⟨⟨⟨a, n⟩, hblock, rfl, hfit⟩, hoff⟩ := hwrite
      obtain rfl := Option.some.inj hstep
      refine hinv.cells fun x hx => load_poke_of_disjoint _ ?_
      by_cases hax : a = x
      · have := hoff (hax ▸ hx)
        dsimp only
        omega
      · have := hinv.disjoint hx hblock hax
        dsimp only at hfit ⊢
        omega
  | insert node =>
      rw [ListState.step] at hstep
      split_ifs at hstep with hinsert
      obtain ⟨⟨⟨a, n⟩, hblock, rfl, hn⟩, hnew⟩ := hinsert
      obtain rfl := Option.some.inj hstep
      exact hinv.insert hblock hn hnew
  | erase node =>
      rw [ListState.step] at hstep
      split_ifs at hstep with hmem
      obtain ⟨⟨m, root⟩, herase, rfl⟩ := Option.map_eq_some_iff.mp hstep
      exact hinv.erase hmem herase

/-- **Every program** keeps the invariant. -/
theorem ListState.Built.inv (h : s.Built) : s.Inv := by
  refine Reached.invariant (fun s hs => ?_) (fun s op s' hinv _ hstep => hinv.step hstep) h
  obtain ⟨hblocks, hroot, hnodes⟩ := hs
  constructor
  · rw [hnodes]
    exact hroot
  · rw [hnodes]
    exact List.nodup_nil
  · rw [hblocks]
    exact List.Pairwise.nil
  · rw [hblocks]
    nofun
  · rw [hnodes]
    nofun

/-- The search for a listed node comes to an end. -/
theorem ListState.Inv.erase_isSome (hinv : s.Inv) (hmem : node ∈ s.nodes) : (s.step (.erase node)).isSome := by
  obtain ⟨m', root', -, -, -, hex⟩ :=
    dlistErase_spec hinv.nodup (fun y hy => hinv.owns hy) hinv.linked hmem
  rw [ListState.step, if_pos hmem, hex _ (Nat.le_refl _)]
  rfl

end Asenal.Comlog
