import Asenal.Lib.Linked
import Mathlib.Data.Finmap

/-!
# The hash table: `hash_map`

Chained buckets, whose nodes are handed out from the ends of large blocks. If the table is made for more
threads than one (`_HASH_THREAD_SAFE`), the nodes that are erased are chained to a list of free nodes and
handed out again.

A block is known by its number, in the order in which `malloc` returned the blocks. A walk along a chain
takes `fuel` steps at most.

* `walk_found`, `walk_absent` — what the search in a chain finds.
-/

namespace Asenal.Comlog

open Asenal.Lib.Linked

/-! ## The table -/

/-- The address of a node: the number of its block, and its place there. -/
abbrev NodeAddr := ℕ × ℕ

/-- Source: `xhash.h` `node_t`. -/
structure HashNode (K V : Type) where
  key : K
  value : V
  next : Option NodeAddr

/-- A table that was created; `blocks` counts the blocks that `malloc` returned.
Source: `xhash.h` `hash_map`. -/
structure HashMap (K V : Type) where
  fcn : K → UInt32
  threadSafe : Bool
  bucketNum : Int32
  nodeNum : Int32
  freeNum : ℕ
  bucket : UInt32 → Option NodeAddr
  node : NodeAddr → HashNode K V
  blockNext : ℕ → Option ℕ
  curBlock : ℕ
  blocks : ℕ
  freeNode : Option NodeAddr

/-- `BLOCK_SIZE`. -/
def blockSize : ℕ := 1024

/-- `HASH_VAL_EXIST`. -/
def hashValExist : ℤ := 1

/-- `HASH_VAL_NO_EXIST`. -/
def hashValNoExist : ℤ := 2

/-- `HASH_ACLLOMEM_ERROR`. -/
def hashAcllomemError : ℤ := 3

variable {K V : Type}

/-- A new table, in memory that holds `junk`. Source: `hash_map::create`. -/
def HashMap.create (threadSafe : Bool) (junk : NodeAddr → HashNode K V) (blockNext : ℕ → Option ℕ)
    (hn : Int32) (fcn : K → UInt32) : Option (HashMap K V) :=
  if hn ≤ 0 then none
  else
    some
      { fcn := fcn
        threadSafe := threadSafe
        bucketNum := hn
        nodeNum := 0
        freeNum := blockSize
        bucket := fun _ => none
        node := junk
        blockNext := Function.update blockNext 0 none
        curBlock := 0
        blocks := 1
        freeNode := none }

/-- Source: `hash_map::getHashKey`. -/
def HashMap.getHashKey (t : HashMap K V) (k : K) : UInt32 := t.fcn k % t.bucketNum.toUInt32

/-- The buckets are looked up within their array. -/
theorem getHashKey_lt {t : HashMap K V} (h : 0 < t.bucketNum) (k : K) :
    t.getHashKey k < t.bucketNum.toUInt32 := by
  apply UInt32.mod_lt
  apply UInt32.pos_iff_ne_zero.mpr
  intro hzero
  have hnum : t.bucketNum = 0 := congrArg UInt32.toInt32 hzero
  rw [hnum] at h
  exact Int32.lt_irrefl h

/-- `ptr->... = ...`. -/
def HashMap.write (t : HashMap K V) (ptr : NodeAddr) (n : HashNode K V) : HashMap K V :=
  { t with node := Function.update t.node ptr n }

/-- `if( front ) front->next = q; else m_bucket[key].first = q;`. -/
def HashMap.link (t : HashMap K V) (key : UInt32) (front q : Option NodeAddr) : HashMap K V :=
  match front with
  | some z => t.write z { t.node z with next := q }
  | none => { t with bucket := Function.update t.bucket key q }

/-- Go on to a block that has nodes left, a new one if there is none. Source: `hash_map::getNodeSpace`. -/
def HashMap.nextBlock (t : HashMap K V) (malloc : Bool) : Option (HashMap K V) :=
  match t.blockNext t.curBlock with
  | some b => some { t with curBlock := b, freeNum := blockSize }
  | none =>
      if malloc then
        some
          { t with
            blockNext := Function.update (Function.update t.blockNext t.blocks none) t.curBlock
              (some t.blocks)
            curBlock := t.blocks
            blocks := t.blocks + 1
            freeNum := blockSize }
      else none

/-- The node that is handed out, if there is memory. Source: `hash_map::getNodeSpace`. -/
def HashMap.getNodeSpace (t : HashMap K V) (malloc : Bool) : Option (NodeAddr × HashMap K V) :=
  match t.threadSafe, t.freeNode with
  | true, some tmp => some (tmp, { t with freeNode := (t.node tmp).next })
  | _, _ =>
      (if t.freeNum = 0 then t.nextBlock malloc else some t).map fun t =>
        ((t.curBlock, t.freeNum - 1), { t with freeNum := t.freeNum - 1 })

variable [DecidableEq K]

/-- The search for a key in a chain: the node where it ends, and the one in front of it. -/
def walk (node : NodeAddr → HashNode K V) (k : K) :
    ℕ → Option NodeAddr → Option NodeAddr → Option (Option NodeAddr × Option NodeAddr)
  | _, front, none => some (front, none)
  | 0, _, some _ => none
  | fuel + 1, front, some ptr =>
      if (node ptr).key = k then some (front, some ptr)
      else walk node k fuel (some ptr) (node ptr).next

/-- The search in the chain of the key. -/
def HashMap.walk (t : HashMap K V) (fuel : ℕ) (k : K) : Option (Option NodeAddr × Option NodeAddr) :=
  Comlog.walk t.node k fuel none (t.bucket (t.getHashKey k))

/-- What a call returns, and what it stores at `val`. -/
structure Answer (V : Type) where
  ret : ℤ
  val : Option V
  deriving DecidableEq

/-- Source: `hash_map::get`. -/
def HashMap.get (t : HashMap K V) (fuel : ℕ) (k : K) : Option (Answer V) := do
  let (_, ptr) ← t.walk fuel k
  match ptr with
  | some ptr => some ⟨0, some (t.node ptr).value⟩
  | none => some ⟨hashValNoExist, none⟩

/-- Source: `hash_map::set`. -/
def HashMap.set (t : HashMap K V) (fuel : ℕ) (malloc : Bool) (k : K) (val : V) (flag : ℤ) :
    Option (Answer V × HashMap K V) := do
  let (front, ptr) ← t.walk fuel k
  match ptr with
  | some ptr =>
      if flag ≠ 0 then some (⟨0, none⟩, t.write ptr { t.node ptr with value := val })
      else some (⟨hashValExist, none⟩, t)
  | none =>
      match t.getNodeSpace malloc with
      | none => some (⟨hashAcllomemError, none⟩, t)
      | some (node, s) =>
          let s := (s.write node ⟨k, val, none⟩).link (t.getHashKey k) front (some node)
          some (⟨0, none⟩, { s with nodeNum := s.nodeNum + 1 })

/-- `ptr->next = m_free_node; m_free_node = ptr;`. -/
def HashMap.recycle (t : HashMap K V) (ptr : NodeAddr) : HashMap K V :=
  if t.threadSafe then
    { t.write ptr { t.node ptr with next := t.freeNode } with freeNode := some ptr }
  else t

/-- Source: `hash_map::erase`. -/
def HashMap.erase (t : HashMap K V) (fuel : ℕ) (k : K) : Option (Answer V × HashMap K V) := do
  let (front, ptr) ← t.walk fuel k
  match ptr with
  | some ptr =>
      let s := (t.link (t.getHashKey k) front (t.node ptr).next).recycle ptr
      some (⟨0, none⟩, { s with nodeNum := s.nodeNum - 1 })
  | none => some (⟨hashValNoExist, none⟩, t)

/-- Source: `hash_map::size`. -/
def HashMap.size (t : HashMap K V) : Int32 := t.nodeNum

/-- A call of `set` that finds no memory leaves the table as it was. -/
theorem set_error {t s : HashMap K V} {fuel : ℕ} {malloc : Bool} {k : K} {val : V} {flag : ℤ}
    {a : Answer V} (h : t.set fuel malloc k val flag = some (a, s))
    (herror : a.ret = hashAcllomemError) : s = t := by
  unfold HashMap.set at h
  rw [Option.bind_eq_bind, Option.bind_eq_some_iff] at h
  obtain ⟨⟨front, ptr⟩, -, h⟩ := h
  cases ptr with
  | some ptr =>
      dsimp only at h
      split_ifs at h with hflag
      · obtain ⟨rfl, -⟩ := Prod.mk.inj (Option.some.inj h)
        exact absurd herror (show (0 : ℤ) ≠ 3 by decide)
      · exact (Prod.mk.inj (Option.some.inj h)).2.symm
  | none =>
      cases hspace : t.getNodeSpace malloc with
      | none =>
          dsimp only at h
          rw [hspace] at h
          exact (Prod.mk.inj (Option.some.inj h)).2.symm
      | some r =>
          dsimp only at h
          rw [hspace] at h
          obtain ⟨rfl, -⟩ := Prod.mk.inj (Option.some.inj h)
          exact absurd herror (show (0 : ℤ) ≠ 3 by decide)

/-! ## Chains -/

/-- The links of the nodes. -/
def HashMap.next (t : HashMap K V) (p : NodeAddr) : Option NodeAddr := (t.node p).next

/-- The keys of the nodes. -/
def HashMap.key (t : HashMap K V) (p : NodeAddr) : K := (t.node p).key

/-- The values of the nodes. -/
def HashMap.value (t : HashMap K V) (p : NodeAddr) : V := (t.node p).value

/-- Where the lists of nodes begin: the free nodes, and the bucket of each hash key. -/
def HashMap.head (t : HashMap K V) : Option UInt32 → Option NodeAddr
  | none => t.freeNode
  | some key => t.bucket key

section

omit [DecidableEq K]

/-- A node is written: its link. -/
theorem next_write (t : HashMap K V) (p : NodeAddr) (n : HashNode K V) :
    (t.write p n).next = Function.update t.next p n.next :=
  funext fun _ => Function.apply_update (fun _ n => n.next) t.node p n _

/-- Its key. -/
theorem key_write (t : HashMap K V) (p : NodeAddr) (n : HashNode K V) :
    (t.write p n).key = Function.update t.key p n.key :=
  funext fun _ => Function.apply_update (fun _ n => n.key) t.node p n _

/-- Its value. -/
theorem value_write (t : HashMap K V) (p : NodeAddr) (n : HashNode K V) :
    (t.write p n).value = Function.update t.value p n.value :=
  funext fun _ => Function.apply_update (fun _ n => n.value) t.node p n _

/-- A new link: the links of the nodes. -/
theorem next_link (t : HashMap K V) (key : UInt32) (front q : Option NodeAddr) :
    (t.link key front q).next = linkNext t.next front q := by
  cases front with
  | none => rfl
  | some z => exact next_write t z _

/-- The heads of the chains. -/
theorem head_link (t : HashMap K V) (key : UInt32) (front q : Option NodeAddr) :
    (t.link key front q).head = linkHead t.head (some key) front q := by
  cases front with
  | none =>
      funext i
      cases i with
      | none => rfl
      | some b =>
          show Function.update t.bucket key q b = Function.update t.head (some key) q (some b)
          by_cases hb : b = key
          · rw [hb, Function.update_self, Function.update_self]
          · rw [Function.update_of_ne hb, Function.update_of_ne fun h => hb (Option.some.inj h)]
            rfl
  | some z => rfl

/-- The keys stay as they are. -/
theorem key_link (t : HashMap K V) (key : UInt32) (front q : Option NodeAddr) :
    (t.link key front q).key = t.key := by
  cases front with
  | none => rfl
  | some z => exact (key_write t z _).trans (Function.update_eq_self z t.key)

/-- The values stay as they are. -/
theorem value_link (t : HashMap K V) (key : UInt32) (front q : Option NodeAddr) :
    (t.link key front q).value = t.value := by
  cases front with
  | none => rfl
  | some z => exact (value_write t z _).trans (Function.update_eq_self z t.value)

end

/-- A walk at the end of a chain. -/
theorem walk_none (node : NodeAddr → HashNode K V) (k : K) (fuel : ℕ) (front : Option NodeAddr) :
    walk node k fuel front none = some (front, none) := by
  cases fuel <;> rfl

/-- The last one of a chain, or the one in front of it. -/
theorem getLast?_cons_or {α : Type} (a : α) (l : List α) (front : Option α) :
    ((a :: l).getLast?).or front = l.getLast?.or (some a) := by
  cases l with
  | nil => rfl
  | cons b l => simp [List.getLast?_cons]

/-- **A key that is not there**: the search comes to the end of the chain. -/
theorem walk_absent {node : NodeAddr → HashNode K V} {k : K} {l : List NodeAddr}
    (hkeys : ∀ a ∈ l, (node a).key ≠ k) {p front : Option NodeAddr} {fuel : ℕ}
    (h : Seg (fun a => (node a).next) p l none) (hfuel : l.length ≤ fuel) :
    walk node k fuel front p = some (l.getLast?.or front, none) := by
  induction l generalizing p front fuel with
  | nil =>
      obtain rfl : p = none := h
      exact walk_none node k fuel front
  | cons a l ih =>
      obtain ⟨rfl, hl⟩ := h
      obtain ⟨fuel, rfl⟩ : ∃ n, fuel = n + 1 := Nat.exists_eq_add_one.mpr (by
        rw [List.length_cons] at hfuel
        omega)
      rw [walk, if_neg (hkeys a List.mem_cons_self), getLast?_cons_or]
      exact ih (fun b hb => hkeys b (List.mem_cons_of_mem a hb)) hl (Nat.le_of_succ_le_succ hfuel)

/-- **A key that is there**: the search stops at the first node that has it. -/
theorem walk_found {node : NodeAddr → HashNode K V} {k : K} {pre post : List NodeAddr} {a : NodeAddr}
    (hkeys : ∀ b ∈ pre, (node b).key ≠ k) (ha : (node a).key = k) {p front : Option NodeAddr}
    {fuel : ℕ} (h : Seg (fun a => (node a).next) p (pre ++ a :: post) none)
    (hfuel : (pre ++ a :: post).length ≤ fuel) :
    walk node k fuel front p = some (pre.getLast?.or front, some a) := by
  induction pre generalizing p front fuel with
  | nil =>
      obtain ⟨rfl, -⟩ := h
      obtain ⟨fuel, rfl⟩ : ∃ n, fuel = n + 1 := Nat.exists_eq_add_one.mpr (by
        rw [List.nil_append, List.length_cons] at hfuel
        omega)
      rw [walk, if_pos ha]
      rfl
  | cons b pre ih =>
      obtain ⟨rfl, hl⟩ := h
      obtain ⟨fuel, rfl⟩ : ∃ n, fuel = n + 1 := Nat.exists_eq_add_one.mpr (by
        rw [List.cons_append, List.length_cons] at hfuel
        omega)
      rw [walk, if_neg (hkeys b List.mem_cons_self), getLast?_cons_or]
      exact ih (fun c hc => hkeys c (List.mem_cons_of_mem b hc)) hl (Nat.le_of_succ_le_succ hfuel)

end Asenal.Comlog
