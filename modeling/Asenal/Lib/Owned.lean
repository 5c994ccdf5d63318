import Asenal.Lib.Memory
import Asenal.Lib.Text
import Mathlib.Data.List.Pairwise

/-!
# Numbers, lists and owners in memory

A heap is a memory and the blocks that were handed out of it. Numbers are stored in a few bytes, the lowest
first; lists are threaded through memory by the address in the first eight bytes of their elements. An
ownership gives each address at most one owner, so that writes to what one owner has leave alone what others
read.

* `load_store_self`, `load_poke_of_owns` — what a read finds after a write.
* `Frame` — what others have is left alone.
* `Linked.congr` — lists that are not written to.
* `Backed.malloc`, `Backed.free` — owned addresses stay in blocks.
-/

namespace Asenal.Lib.Owned

open Asenal.Lib.Text Asenal.Lib.Memory

/-! ## Numbers -/

/-- The `k` lowest bytes of a number. -/
def numBytes : ℕ → ℕ → Bytes
  | 0, _ => []
  | k + 1, v => UInt8.ofNat v :: numBytes k (v / 256)

/-- The number of some bytes. -/
def bytesNum : Bytes → ℕ
  | [] => 0
  | b :: bs => b.toNat + 256 * bytesNum bs

theorem length_numBytes (k v : ℕ) : (numBytes k v).length = k := by
  induction k generalizing v with
  | zero => rfl
  | succ k ih => rw [numBytes, List.length_cons, ih]

/-- A number is read back from its bytes. -/
theorem bytesNum_numBytes {k v : ℕ} (h : v < 256 ^ k) : bytesNum (numBytes k v) = v := by
  induction k generalizing v with
  | zero =>
      rw [Nat.pow_zero] at h
      exact (Nat.lt_one_iff.mp h).symm
  | succ k ih =>
      have hrest : v / 256 < 256 ^ k := by
        rw [Nat.pow_succ] at h
        exact Nat.div_lt_of_lt_mul (Nat.mul_comm _ _ ▸ h)
      rw [numBytes, bytesNum, ih hrest, UInt8.toNat_ofNat']
      exact Nat.mod_add_div v 256

/-- The number in the `k` bytes at an address. -/
def load (m : Mem UInt8) (a k : ℕ) : ℕ := bytesNum (peek m a k)

/-- A number is written to the `k` bytes at an address. -/
def store (m : Mem UInt8) (a k v : ℕ) : Mem UInt8 := poke m a (numBytes k v)

/-- What was stored is loaded. -/
theorem load_store_self (m : Mem UInt8) (a : ℕ) {k v : ℕ} (h : v < 256 ^ k) :
    load (store m a k v) a k = v := by
  have hpeek := peek_poke_self m a (numBytes k v)
  rw [length_numBytes] at hpeek
  rw [load, store, hpeek, bytesNum_numBytes h]

/-- A write elsewhere does not change what is loaded. -/
theorem load_poke_of_disjoint (m : Mem UInt8) {a b k : ℕ} {bs : Bytes}
    (h : a + bs.length ≤ b ∨ b + k ≤ a) : load (poke m a bs) b k = load m b k := by
  unfold load
  rcases h with hbefore | hbehind
  · rw [peek_poke_after m bs hbefore]
  · rw [peek_poke_before m bs hbehind]

/-- A number that is stored elsewhere does not change what is loaded. -/
theorem load_store_of_disjoint (m : Mem UInt8) {a b k l v : ℕ} (h : a + k ≤ b ∨ b + l ≤ a) :
    load (store m a k v) b l = load m b l :=
  load_poke_of_disjoint m (by rwa [length_numBytes])

/-- Cells elsewhere are not written. -/
theorem poke_of_outside (m : Mem UInt8) {a i : ℕ} {bs : Bytes} (h : i < a ∨ a + bs.length ≤ i) :
    poke m a bs i = m i := by
  unfold poke
  split_ifs
  · exact List.getD_eq_default _ _ (by omega)
  · rfl

/-- Cells elsewhere are not stored to. -/
theorem store_of_outside (m : Mem UInt8) {a i k v : ℕ} (h : i < a ∨ a + k ≤ i) :
    store m a k v i = m i :=
  poke_of_outside m (by rwa [length_numBytes])

/-- What is loaded fits its bytes. -/
theorem load_lt (m : Mem UInt8) (a k : ℕ) : load m a k < 256 ^ k := by
  have hlt : ∀ bs : Bytes, bytesNum bs < 256 ^ bs.length := by
    intro bs
    induction bs with
    | nil => exact Nat.one_pos
    | cons b bs ih =>
        have hb := b.toNat_lt
        rw [bytesNum, List.length_cons, Nat.pow_succ]
        omega
  have hload := hlt (peek m a k)
  rwa [length_peek] at hload

/-! ## Owners -/

variable {ω : Type*} {own : ℕ → Option ω} {o o' : ω} {a b k l n : ℕ} {m m' : Mem UInt8}

/-- An owner has the `n` addresses from `a` on. -/
def Owns (own : ℕ → Option ω) (o : ω) (a n : ℕ) : Prop := ∀ i, a ≤ i → i < a + n → own i = some o

/-- The `n` addresses from `a` on get an owner, or none. -/
def give (own : ℕ → Option ω) (o : Option ω) (a n : ℕ) : ℕ → Option ω :=
  fun i => if a ≤ i ∧ i < a + n then o else own i

/-- A part of what is owned is owned. -/
theorem Owns.mono (h : Owns own o a n) (hb : a ≤ b) (hk : b + k ≤ a + n) : Owns own o b k :=
  fun i h₁ h₂ => h i (by omega) (by omega)

/-- An address and its owner. -/
theorem owns_one : Owns own o a 1 ↔ own a = some o := by
  refine ⟨fun h => h a (Nat.le_refl a) (Nat.lt_succ_self a), fun h i h₁ h₂ => ?_⟩
  have hi : i = a := by omega
  rw [hi, h]

/-- What is given is owned. -/
theorem owns_give (own : ℕ → Option ω) (o : ω) (a n : ℕ) : Owns (give own (some o) a n) o a n :=
  fun _ h₁ h₂ => if_pos ⟨h₁, h₂⟩

/-- An owner keeps what it has where addresses of others change hands. -/
theorem Owns.give_of_ne (h : Owns own o a n) (hne : ∀ i, b ≤ i → i < b + k → own i ≠ some o)
    (x : Option ω) : Owns (give own x b k) o a n := by
  intro i h₁ h₂
  unfold give
  rw [if_neg, h i h₁ h₂]
  rintro ⟨h₃, h₄⟩
  exact hne i h₃ h₄ (h i h₁ h₂)

/-- What another owner gives away does not matter. -/
theorem Owns.give_of_owns (h : Owns own o a n) (h' : Owns own o' b k) (hne : o ≠ o')
    (x : Option ω) : Owns (give own x b k) o a n := by
  refine h.give_of_ne (fun i h₁ h₂ heq => ?_) x
  rw [h' i h₁ h₂] at heq
  exact hne (Option.some.inj heq).symm

/-- Addresses elsewhere keep their owner. -/
theorem Owns.give_of_disjoint (h : Owns own o a n) (hdisj : a + n ≤ b ∨ b + k ≤ a) (x : Option ω) :
    Owns (give own x b k) o a n := by
  intro i h₁ h₂
  unfold give
  rw [if_neg (by omega)]
  exact h i h₁ h₂

/-- Different owners have different addresses. -/
theorem Owns.disjoint (h : Owns own o a n) (h' : Owns own o' b k) (hne : o ≠ o') (hn : 0 < n)
    (hk : 0 < k) : a + n ≤ b ∨ b + k ≤ a := by
  by_contra hmeet
  have h₁ := h (max a b) (Nat.le_max_left _ _) (by omega)
  have h₂ := h' (max a b) (Nat.le_max_right _ _) (by omega)
  rw [h₁] at h₂
  exact hne (Option.some.inj h₂)

/-- A write to what one owner has does not change what is loaded from another. -/
theorem load_poke_of_owns {bs : Bytes} (h : Owns own o a n) (hfit : bs.length ≤ n)
    (h' : Owns own o' b k) (hne : o ≠ o') : load (poke m a bs) b k = load m b k := by
  unfold load
  congr 1
  apply peek_congr
  intro i hi
  unfold poke
  split_ifs with hle
  · rw [List.getD_eq_default]
    by_contra hlt
    have h₁ := h (b + i) hle (by omega)
    rw [h' (b + i) (by omega) (by omega)] at h₁
    exact hne (Option.some.inj h₁).symm
  · rfl

/-- A number that is stored where one owner is does not change what is loaded from another. -/
theorem load_store_of_owns {v : ℕ} (h : Owns own o a l) (h' : Owns own o' b k) (hne : o ≠ o') :
    load (store m a l v) b k = load m b k :=
  load_poke_of_owns h (Nat.le_of_eq (length_numBytes l v)) h' hne

/-- What owners outside `S` have is neither given away nor written to. -/
structure Frame (S : ω → Prop) (m : Mem UInt8) (own : ℕ → Option ω) (m' : Mem UInt8)
    (own' : ℕ → Option ω) : Prop where
  owns : ∀ o a n, ¬ S o → Owns own o a n → Owns own' o a n
  load : ∀ o a n, ¬ S o → Owns own o a n → load m' a n = load m a n

theorem Frame.refl (S : ω → Prop) (m : Mem UInt8) (own : ℕ → Option ω) : Frame S m own m own :=
  ⟨fun _ _ _ _ h => h, fun _ _ _ _ _ => rfl⟩

theorem Frame.trans {S S' : ω → Prop} {m'' : Mem UInt8} {own' own'' : ℕ → Option ω}
    (h : Frame S m own m' own') (h' : Frame S' m' own' m'' own'') :
    Frame (fun o => S o ∨ S' o) m own m'' own'' where
  owns o a n hout hown := h'.owns o a n (mt Or.inr hout) (h.owns o a n (mt Or.inl hout) hown)
  load o a n hout hown :=
    (h'.load o a n (mt Or.inr hout) (h.owns o a n (mt Or.inl hout) hown)).trans
      (h.load o a n (mt Or.inl hout) hown)

/-- More may be given away and written to. -/
theorem Frame.mono {S S' : ω → Prop} {own' : ℕ → Option ω} (h : Frame S m own m' own')
    (hsub : ∀ o, S o → S' o) : Frame S' m own m' own' :=
  ⟨fun o a n hout => h.owns o a n (mt (hsub o) hout), fun o a n hout => h.load o a n (mt (hsub o) hout)⟩

/-- Addresses that nobody had are given and written to. -/
theorem frame_of_none {own' : ℕ → Option ω} (hnone : ∀ i, b ≤ i → i < b + k → own i = none)
    (hown : ∀ i, i < b ∨ b + k ≤ i → own' i = own i) (hcells : ∀ i, i < b ∨ b + k ≤ i → m' i = m i) :
    Frame (fun _ => False) m own m' own' := by
  have houtside : ∀ o a n, Owns own o a n → ∀ i, a ≤ i → i < a + n → i < b ∨ b + k ≤ i := by
    intro o a n howns i h₁ h₂
    by_contra hmeet
    have hi := howns i h₁ h₂
    rw [hnone i (by omega) (by omega)] at hi
    exact absurd hi nofun
  constructor
  · intro o a n _ howns i h₁ h₂
    rw [hown i (houtside o a n howns i h₁ h₂)]
    exact howns i h₁ h₂
  · intro o a n _ howns
    unfold load
    congr 1
    exact peek_congr fun i hi => hcells _ (houtside o a n howns _ (by omega) (by omega))

/-- A write to what one owner has. -/
theorem frame_poke {bs : Bytes} (h : Owns own o a n) (hfit : bs.length ≤ n) :
    Frame (· = o) m own (poke m a bs) own :=
  ⟨fun _ _ _ _ h => h, fun _ _ _ hne h' => load_poke_of_owns h hfit h' (Ne.symm hne)⟩

/-- A number is stored in what one owner has. -/
theorem frame_store (h : Owns own o a k) (v : ℕ) : Frame (· = o) m own (store m a k v) own :=
  frame_poke h (Nat.le_of_eq (length_numBytes k v))

/-! ## Lists -/

/-- The list from the address `p` on, where the first bytes of an element hold the address of the next
one. -/
def Linked (m : Mem UInt8) : List ℕ → ℕ → Prop
  | [], p => p = 0
  | x :: xs, p => p = x ∧ x ≠ 0 ∧ Linked m xs (load m x 8)

/-- A list whose links are not changed. -/
theorem Linked.congr {xs : List ℕ} {p : ℕ} (h : Linked m xs p)
    (hload : ∀ x ∈ xs, load m' x 8 = load m x 8) : Linked m' xs p := by
  induction xs generalizing p with
  | nil => exact h
  | cons x xs ih =>
      rw [List.forall_mem_cons] at hload
      obtain ⟨hp, hx, hrest⟩ := h
      refine ⟨hp, hx, ?_⟩
      rw [hload.1]
      exact ih hrest hload.2

/-- A bound of the elements is one of the first address. -/
theorem Linked.lt {xs : List ℕ} {p : ℕ} (h : Linked m xs p) (hn : 0 < n) (hlt : ∀ x ∈ xs, x < n) :
    p < n := by
  cases xs with
  | nil =>
      have hp : p = 0 := h
      rwa [hp]
  | cons x xs =>
      rw [h.1]
      exact hlt x List.mem_cons_self

/-! ## Blocks -/

/-- A memory and the blocks that were handed out: addresses and lengths. -/
structure Heap where
  cells : Mem UInt8
  blocks : List (ℕ × ℕ)

/-- An address that may be handed out. -/
def Heap.Fresh (h : Heap) (n a : ℕ) : Prop :=
  0 < a ∧ a + n ≤ 2 ^ 64 ∧ ∀ b ∈ h.blocks, a + n ≤ b.1 ∨ b.1 + b.2 ≤ a

instance (h : Heap) (n a : ℕ) : Decidable (h.Fresh n a) := inferInstanceAs (Decidable (_ ∧ _ ∧ _))

/-- `malloc(n)`, if it returns `a`. -/
def Heap.malloc (h : Heap) (n a : ℕ) : Option Heap :=
  if h.Fresh n a then some { h with blocks := (a, n) :: h.blocks } else none

/-- `free(a)`. -/
def Heap.free (h : Heap) (a : ℕ) : Heap := { h with blocks := h.blocks.filter (·.1 ≠ a) }

/-- Blocks do not overlap. -/
def Apart (b c : ℕ × ℕ) : Prop := b.1 + b.2 ≤ c.1 ∨ c.1 + c.2 ≤ b.1

instance : Std.Symm Apart := ⟨fun _ _ h => h.symm⟩

/-- The blocks do not overlap, and what is owned is in a block. -/
structure Backed (h : Heap) (own : ℕ → Option ω) : Prop where
  apart : h.blocks.Pairwise Apart
  end_le : ∀ b ∈ h.blocks, b.1 + b.2 ≤ 2 ^ 64
  mem_block : ∀ i o, own i = some o → ∃ b ∈ h.blocks, b.1 ≤ i ∧ i < b.1 + b.2

variable {h h' : Heap}

theorem malloc_eq_some (hm : h.malloc n a = some h') :
    h.Fresh n a ∧ h' = { h with blocks := (a, n) :: h.blocks } := by
  unfold Heap.malloc at hm
  split_ifs at hm with hfresh
  exact ⟨hfresh, (Option.some.inj hm).symm⟩

/-- What is owned is an address. -/
theorem Backed.lt_of_owns (hb : Backed h own) (ho : Owns own o a n) (hn : 0 < n) : a < 256 ^ 8 := by
  obtain ⟨b, hmem, h₁, h₂⟩ := hb.mem_block a o (ho a (Nat.le_refl a) (by omega))
  have hend := hb.end_le b hmem
  omega

/-- What may be handed out has no owner. -/
theorem Backed.own_eq_none (hb : Backed h own) (hfresh : h.Fresh n a) {i : ℕ} (h₁ : a ≤ i)
    (h₂ : i < a + n) : own i = none := by
  rw [Option.eq_none_iff_forall_ne_some]
  intro o ho
  obtain ⟨b, hmem, h₃, h₄⟩ := hb.mem_block i o ho
  have := hfresh.2.2 b hmem
  omega

/-- A block that is handed out, and owned. -/
theorem Backed.malloc (hb : Backed h own) (hfresh : h.Fresh n a) (cells : Mem UInt8)
    {own' : ℕ → Option ω} (hown : ∀ i, i < a ∨ a + n ≤ i → own' i = own i) :
    Backed ⟨cells, (a, n) :: h.blocks⟩ own' := by
  refine ⟨List.pairwise_cons.mpr ⟨fun b hmem => hfresh.2.2 b hmem, hb.apart⟩,
    List.forall_mem_cons.mpr ⟨hfresh.2.1, hb.end_le⟩, fun i o ho => ?_⟩
  by_cases hi : a ≤ i ∧ i < a + n
  · exact ⟨(a, n), List.mem_cons_self, hi⟩
  · rw [hown i (by omega)] at ho
    obtain ⟨b, hmem, hib⟩ := hb.mem_block i o ho
    exact ⟨b, List.mem_cons_of_mem _ hmem, hib⟩

/-- A block that is freed, and owned no more. -/
theorem Backed.free (hb : Backed h own) (hmem : (a, n) ∈ h.blocks) (hn : 0 < n) (cells : Mem UInt8) :
    Backed (Heap.free ⟨cells, h.blocks⟩ a) (give own none a n) := by
  refine ⟨List.Pairwise.filter _ hb.apart, fun b hb' => hb.end_le b (List.mem_filter.mp hb').1,
    fun i o ho => ?_⟩
  unfold give at ho
  split_ifs at ho with hi
  obtain ⟨b, hb', h₁, h₂⟩ := hb.mem_block i o ho
  refine ⟨b, List.mem_filter.mpr ⟨hb', decide_eq_true fun heq => ?_⟩, h₁, h₂⟩
  -- blocks with the same address are the same
  have hne : (a, n) ≠ b := by
    rintro rfl
    exact hi ⟨h₁, h₂⟩
  have hapart : a + n ≤ b.1 ∨ b.1 + b.2 ≤ a := hb.apart.forall hmem hb' hne
  omega

/-- Changing the cells does not change the blocks. -/
theorem Backed.cells (hb : Backed h own) (cells : Mem UInt8) : Backed ⟨cells, h.blocks⟩ own :=
  ⟨hb.apart, hb.end_le, hb.mem_block⟩

/-- What is owned may change hands. -/
theorem Backed.give (hb : Backed h own) (ho : Owns own o a n) (x : Option ω) :
    Backed h (give own x a n) := by
  refine ⟨hb.apart, hb.end_le, fun i o' ho' => ?_⟩
  unfold Owned.give at ho'
  split_ifs at ho' with hi
  · exact hb.mem_block i o (ho i hi.1 hi.2)
  · exact hb.mem_block i o' ho'

end Asenal.Lib.Owned
